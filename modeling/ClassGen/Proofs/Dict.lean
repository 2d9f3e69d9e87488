import Mathlib.Tactic.SplitIfs
import ClassGen.Dict

/-! What is in a dictionary after an insertion. -/

namespace ClassGen.Dict

variable {κ α : Type} [DecidableEq κ]

theorem mem_insert {key : κ} {value : α} {dict : List (κ × α)} {entry : κ × α}
    (h : entry ∈ insert key value dict) : entry = (key, value) ∨ entry ∈ dict := by
  induction dict with
  | nil => exact .inl (List.mem_singleton.mp h)
  | cons first rest ih =>
    obtain ⟨k, v⟩ := first
    simp only [insert] at h
    split at h
    · rcases List.mem_cons.mp h with h | h
      · exact .inl h
      · exact .inr (List.mem_cons_of_mem _ h)
    · rcases List.mem_cons.mp h with h | h
      · exact .inr (h ▸ List.mem_cons_self)
      · exact (ih h).imp_right (List.mem_cons_of_mem _)

end ClassGen.Dict
