import Mathlib.Data.List.Nodup
import ClassGen.Instr.Code

/-! Fragments inside a method: the labels that a fragment places, and where a fragment stands. -/

namespace ClassGen

namespace Instr

/-- The label that the instruction places. -/
def mark? : Instr → Option Label
  | mark label => some label
  | _ => none

theorem mark?_eq_some {i : Instr} {l : Label} : i.mark? = some l ↔ i = mark l := by
  cases i <;> simp [mark?]

end Instr

namespace Code

/-- Labels placed in the fragment, in order. -/
def marks (c : Code) : List Label := c.filterMap Instr.mark?

@[simp] theorem marks_nil : marks [] = [] := rfl

@[simp] theorem marks_append (a b : Code) : marks (a ++ b) = marks a ++ marks b :=
  List.filterMap_append ..

theorem marks_cons (i : Instr) (c : Code) : marks (i :: c) = i.mark?.toList ++ marks c := by
  cases h : i.mark? <;> simp [marks, h]

theorem mem_marks {c : Code} {l : Label} : l ∈ marks c ↔ Instr.mark l ∈ c := by
  simp [marks, List.mem_filterMap, Instr.mark?_eq_some]

/-- The instructions of `c` stand in `P` from position `n` on. -/
def At (P : Code) (n : Nat) (c : Code) : Prop := c <+: P.drop n

theorem at_cons {P : Code} {n : Nat} {i : Instr} {c : Code} :
    P.At n (i :: c) ↔ P[n]? = some i ∧ P.At (n + 1) c := by
  unfold At
  constructor
  · rintro ⟨post, h⟩
    have hd : P.drop n = i :: (c ++ post) := by rw [← h]; rfl
    refine ⟨by rw [← List.head?_drop, hd]; rfl, post, ?_⟩
    rw [← List.drop_drop, hd]; rfl
  · rintro ⟨hi, post, h⟩
    obtain ⟨hn, hi⟩ := List.getElem?_eq_some_iff.mp hi
    refine ⟨post, ?_⟩
    rw [List.drop_eq_getElem_cons hn, hi, ← h]; rfl

theorem at_append {P : Code} {n : Nat} {a b : Code} :
    P.At n (a ++ b) ↔ P.At n a ∧ P.At (n + a.length) b := by
  induction a generalizing n with
  | nil => simp [At]
  | cons i a ih =>
    rw [List.cons_append, at_cons, at_cons, ih, and_assoc, List.length_cons,
      show n + 1 + a.length = n + (a.length + 1) by omega]

theorem At.left {P : Code} {n : Nat} {a b : Code} (h : P.At n (a ++ b)) : P.At n a :=
  (at_append.mp h).1

theorem At.right {P : Code} {n : Nat} {a b : Code} (h : P.At n (a ++ b)) : P.At (n + a.length) b :=
  (at_append.mp h).2

theorem At.head {P : Code} {n : Nat} {i : Instr} {c : Code} (h : P.At n (i :: c)) :
    P[n]? = some i :=
  (at_cons.mp h).1

theorem At.tail {P : Code} {n : Nat} {i : Instr} {c : Code} (h : P.At n (i :: c)) :
    P.At (n + 1) c :=
  (at_cons.mp h).2

theorem at_self (P : Code) : P.At 0 P := List.prefix_refl P

/-- A label that is placed once stands at one position. -/
theorem mark_unique {P : Code} (hP : P.marks.Nodup) {n m : Nat} {l : Label}
    (hn : P[n]? = some (Instr.mark l)) (hm : P[m]? = some (Instr.mark l)) : n = m := by
  induction P generalizing n m with
  | nil => simp at hn
  | cons i P ih =>
    rw [marks_cons, List.nodup_append] at hP
    -- a second mark of the label of the head would repeat it
    have later : ∀ {k : Nat}, i = .mark l → P[k]? = some (Instr.mark l) → False := by
      rintro k rfl hk
      exact hP.2.2 l (by simp [Instr.mark?]) l (mem_marks.mpr (List.mem_of_getElem? hk)) rfl
    rcases n with _ | n <;> rcases m with _ | m
    · rfl
    · exact (later (by simpa using hn) (by simpa using hm)).elim
    · exact (later (by simpa using hm) (by simpa using hn)).elim
    · exact congrArg (· + 1) (ih hP.2.1 (by simpa using hn) (by simpa using hm))

/-- The mark of a label that is placed once is found. -/
theorem findIdx?_mark {P : Code} (hP : P.marks.Nodup) {n : Nat} {l : Label}
    (h : P[n]? = some (Instr.mark l)) : P.findIdx? (· == .mark l) = some n := by
  have hn : n < P.length := (List.getElem?_eq_some_iff.mp h).1
  rw [List.findIdx?_eq_some_iff_getElem]
  refine ⟨hn, by simp [(List.getElem?_eq_some_iff.mp h).2], ?_⟩
  intro j hj
  have : P[j]? ≠ some (Instr.mark l) := fun hm => by have := mark_unique hP hm h; omega
  rw [List.getElem?_eq_getElem (by omega)] at this
  simpa using this

end Code

end ClassGen
