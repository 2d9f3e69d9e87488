/-! Small dictionaries as association lists in which each key stands once. Looking up
is `List.lookup`. -/

namespace ClassGen.Dict

variable {κ α : Type} [DecidableEq κ]

/-- Gives `key` its value; an earlier value is replaced in place. -/
def insert (key : κ) (value : α) : List (κ × α) → List (κ × α)
  | [] => [(key, value)]
  | (k, v) :: rest => if k = key then (key, value) :: rest else (k, v) :: insert key value rest

theorem lookup_cons_if [BEq κ] [LawfulBEq κ] (a k : κ) (b : α) (dict : List (κ × α)) :
    ((a, b) :: dict).lookup k = if k = a then some b else dict.lookup k := by
  rw [List.lookup_cons]
  by_cases h : k = a
  · simp [h]
  · have hb : (k == a) = false := by simpa using h
    simp [h, hb]

theorem lookup_insert [BEq κ] [LawfulBEq κ] (key k : κ) (value : α) (dict : List (κ × α)) :
    (insert key value dict).lookup k = if k = key then some value else dict.lookup k := by
  induction dict with
  | nil => simp [insert, lookup_cons_if]
  | cons entry rest ih =>
    obtain ⟨a, b⟩ := entry
    by_cases ha : a = key
    · subst ha
      simp only [insert, if_true, lookup_cons_if]
      split <;> rfl
    · simp only [insert, ha, if_false, lookup_cons_if, ih]
      by_cases h : k = a
      · have hne : k ≠ key := fun hk => ha (h.symm.trans hk)
        simp [h, ha]
      · simp [h]

end ClassGen.Dict
