import Mathlib.Data.List.TakeWhile
import ClassGen.Proofs.Fragment

/-! Ways that control can take through the code of a method, and code that it cannot leave but by a
return or a throw. -/

namespace ClassGen

namespace Code

/-- From position `n` control can go to this one next. -/
inductive Goes (P : Code) (n : Nat) : Nat → Prop
  | next {i : Instr} (hi : P[n]? = some i) (hfalls : i.isTerminal = false) : Goes P n (n + 1)
  | jump {op : Opcode} {l : Label} {m : Nat} (hi : P[n]? = some (.jump op l))
      (hm : P[m]? = some (.mark l)) :
    Goes P n m

/-- Control came from the entry through the positions `visited`, in this order, and is at `n`. -/
inductive Path (P : Code) : List Nat → Nat → Prop
  | entry : Path P [] 0
  | step {visited : List Nat} {n m : Nat} (h : Path P visited n) (hgo : P.Goes n m) :
      Path P (visited ++ [n]) m

/-- Labels are placed once, those that are jumped to are placed, and the last instruction is
terminal. -/
structure Closed (P : Code) : Prop where
  once : P.marks.Nodup
  placed : ∀ op l, .jump op l ∈ P → .mark l ∈ P
  ends : ∃ last, P.getLast? = some last ∧ last.isTerminal = true

/-- The label is placed, and the marks behind it are followed by an instruction. -/
def Lands (P : Code) (l : Label) : Prop :=
  ∃ before marks i after, P = before ++ .mark l :: (marks ++ i :: after) ∧
    (∀ j ∈ marks, j.mark?.isSome = true) ∧
    i.mark? = none

/-- Position `n` is inside the fragment that stands at `start`. -/
def Within (start : Nat) (c : Code) (n : Nat) : Prop := start ≤ n ∧ n < start + c.length

theorem fallsThrough_eq_false {P : Code} :
    fallsThrough P = false ↔ ∃ last, P.getLast? = some last ∧ last.isTerminal = true := by
  simp [fallsThrough, Option.any_eq_true]

theorem fallsThrough_terminal (a : Code) {i : Instr} (h : i.isTerminal = true) :
    fallsThrough (a ++ [i]) = false := by
  simp [fallsThrough, h]

variable {P c : Code} {visited : List Nat} {start n : Nat} {l : Label}

theorem At.getElem? {piece : Code} {k : Nat} (hat : P.At start piece) (hk : k < piece.length) :
    P[start + k]? = some piece[k] := by
  obtain ⟨post, hpost⟩ := hat
  rw [← List.getElem?_drop, ← hpost, List.getElem?_append_left hk, List.getElem?_eq_getElem hk]

theorem At.within {i : Instr} (hat : P.At start c) (h : i ∈ c) :
    ∃ n, Within start c n ∧ P[n]? = some i := by
  obtain ⟨k, hk, rfl⟩ := List.getElem_of_mem h
  exact ⟨start + k, ⟨Nat.le_add_right _ _, by omega⟩, hat.getElem? hk⟩

theorem At.mem_of_within {i : Instr} (hat : P.At start c) (hn : Within start c n)
    (hi : P[n]? = some i) : i ∈ c := by
  obtain ⟨k, rfl⟩ := Nat.exists_eq_add_of_le hn.1
  have hk : k < c.length := by have := hn.2; omega
  rw [hat.getElem? hk] at hi
  exact Option.some.inj hi ▸ List.getElem_mem hk

/-- Behind an instruction that is not terminal there is another. -/
theorem Closed.next_lt (h : P.Closed) {i : Instr} (hi : P[n]? = some i)
    (hfalls : i.isTerminal = false) : n + 1 < P.length := by
  obtain ⟨last, hlast, hterminal⟩ := h.ends
  have hn : n < P.length := (List.getElem?_eq_some_iff.mp hi).1
  have hne : n ≠ P.length - 1 := by
    rintro rfl
    rw [← List.getLast?_eq_getElem?, hlast] at hi
    cases hi
    rw [hterminal] at hfalls
    cases hfalls
  omega

/-- Control does not leave the code. -/
theorem Closed.path_lt (h : P.Closed) (hpath : P.Path visited n) : n < P.length := by
  cases hpath with
  | entry =>
    obtain ⟨last, hlast, -⟩ := h.ends
    exact List.length_pos_of_mem (List.mem_of_getLast? hlast)
  | step hprev hgo =>
    cases hgo with
    | next hi hfalls => exact h.next_lt hi hfalls
    | jump hi hm => exact (List.getElem?_eq_some_iff.mp hm).1

/-- The last instruction is no mark, so there is one that is none behind each. -/
theorem Closed.lands (h : P.Closed) (hl : .mark l ∈ P) : P.Lands l := by
  obtain ⟨last, hlast, hterminal⟩ := h.ends
  obtain ⟨before, rest, rfl⟩ := List.append_of_mem hl
  have hsplit := List.takeWhile_append_dropWhile (p := fun i : Instr => i.mark?.isSome) (l := rest)
  have hmarks : ∀ j ∈ rest.takeWhile fun i => i.mark?.isSome, j.mark?.isSome = true :=
    fun j hj => by
    simpa using List.mem_takeWhile_imp hj
  cases hdrop : rest.dropWhile fun i => i.mark?.isSome with
  | nil =>
    -- all that follows are marks, and so is the last of it
    have hmark : last.mark?.isSome = true := by
      rw [hdrop, List.append_nil] at hsplit
      rw [List.getLast?_append_of_ne_nil _ (List.cons_ne_nil _ _), ← hsplit] at hlast
      rcases List.mem_cons.mp (List.mem_of_getLast? hlast) with rfl | hmem
      · rfl
      · exact hmarks last hmem
    cases last <;> first | cases hterminal | cases hmark
  | cons i after =>
    rw [hdrop] at hsplit
    refine ⟨before, _, i, after, by rw [hsplit], hmarks, ?_⟩
    have hhead := List.head?_dropWhile_not (fun i : Instr => i.mark?.isSome) rest
    rw [hdrop] at hhead
    simpa using hhead

end Code

end ClassGen
