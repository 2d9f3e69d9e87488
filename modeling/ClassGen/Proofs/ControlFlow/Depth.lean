import Mathlib.Algebra.GroupWithZero.Nat
import Mathlib.Algebra.Order.Group.Int
import Mathlib.Algebra.Ring.Int.Defs
import Mathlib.Data.Nat.Find
import Mathlib.Tactic.SplitIfs
import ClassGen.ClassFile.StackDepth
import ClassGen.Proofs.ControlFlow.Path

/-! The pass that measures the operand stack goes through the code once, in the order of its
positions, and yet measures it exactly wherever there is a depth for each position that falling
through and all jumps agree on. -/

namespace ClassGen

namespace Instr

/-- The descriptor in it can be read, if there is one. -/
def Readable : Instr → Prop
  | field _ target => ∃ t, FieldType.parse target.descriptor = .ok t
  | invoke _ target => ∃ d, MethodDescriptor.parse target.descriptor = .ok d
  | _ => True

/-- Change of the depth; zero if its descriptor cannot be read. -/
def effect (i : Instr) : Int :=
  match i.stackEffect with
  | .ok e => e
  | .error _ => 0

theorem stackEffect_eq {i : Instr} (h : i.Readable) : i.stackEffect = .ok i.effect := by
  cases i with
  | push value => cases value <;> rfl
  | field code target =>
    obtain ⟨t, ht⟩ := h
    simp [effect, stackEffect, ht, Except.map]
  | invoke code target =>
    obtain ⟨d, hd⟩ := h
    simp [effect, stackEffect, hd, Except.map]
  | _ => rfl

theorem effect_mark (l : Label) : (mark l).effect = 0 := rfl

end Instr

namespace Code

/-! ### Depths that agree -/

/-- A terminal instruction stands before position `n`, and no mark between the two. -/
def Behind (P : Code) (n : Nat) : Prop :=
  ∃ k, k < n ∧ P[k]?.any Instr.isTerminal = true ∧ ∀ j, j < n → k < j →
    P[j]?.bind Instr.mark? = none

/-- A mark that control does not fall through to. -/
def CutOff (P : Code) (n : Nat) : Prop := (P[n]?.bind Instr.mark?).isSome = true ∧ P.Behind n

instance (P : Code) (n : Nat) : Decidable (P.Behind n) :=
  inferInstanceAs (Decidable (∃ k, k < n ∧ P[k]?.any Instr.isTerminal = true ∧
    ∀ j, j < n → k < j → P[j]?.bind Instr.mark? = none))

instance (P : Code) (n : Nat) : Decidable (P.CutOff n) := inferInstanceAs (Decidable (_ ∧ _))

/-- Depths of the stack before the instructions, on which falling through and jumping agree. A mark
that is cut off and that no jump before it goes to is met with an empty stack. -/
structure Depths (P : Code) (d : Nat → Int) : Prop where
  entry : d 0 = 0
  falls : ∀ n i, P[n]? = some i → n + 1 < P.length → ¬P.CutOff (n + 1) → d (n + 1) = d n + i.effect
  jumps : ∀ n op l m, P[n]? = some (.jump op l) → P[m]? = some (.mark l) →
    d m = d n + (Instr.jump op l).effect
  dead : ∀ m l, P[m]? = some (.mark l) → P.CutOff m →
    (∀ n op, n < m → P[n]? ≠ some (.jump op l)) → d m = 0

/-- The greatest of zero and the depths behind the instructions. -/
def deepest (P : Code) (d : Nat → Int) : Int := (P.mapIdx fun n i => d n + i.effect).foldl max 0

/-- The depth where control has gone through these positions. -/
def depthAlong (P : Code) (visited : List Nat) : Int :=
  (visited.map fun n => (P[n]?.map Instr.effect).getD 0).sum

variable {P : Code} {d : Nat → Int} {n : Nat} {i : Instr}

theorem behind_succ (hi : P[n]? = some i) :
    P.Behind (n + 1) ↔ i.isTerminal = true ∨ (i.mark? = none ∧ P.Behind n) := by
  constructor
  · rintro ⟨k, hk, hterminal, hmarks⟩
    rcases Nat.lt_succ_iff_lt_or_eq.mp hk with hlt | rfl
    · have hi' := hmarks n (Nat.lt_succ_self n) hlt
      rw [hi, Option.bind_some] at hi'
      exact .inr ⟨hi', k, hlt, hterminal, fun j hj hkj => hmarks j (Nat.lt_succ_of_lt hj) hkj⟩
    · rw [hi, Option.any_some] at hterminal
      exact .inl hterminal
  · rintro (hterminal | ⟨hmark, k, hk, hterminal, hmarks⟩)
    · exact ⟨n, Nat.lt_succ_self n, by rw [hi]; exact hterminal, fun j hj hnj => by omega⟩
    · refine ⟨k, Nat.lt_succ_of_lt hk, hterminal, fun j hj hkj => ?_⟩
      rcases Nat.lt_succ_iff_lt_or_eq.mp hj with hlt | rfl
      · exact hmarks j hlt hkj
      · rw [hi]
        exact hmark

theorem not_behind_zero : ¬P.Behind 0 := by
  rintro ⟨k, hk, -⟩
  cases hk

theorem not_cutOff_of_mark?_eq_none (hi : P[n]? = some i) (h : i.mark? = none) : ¬P.CutOff n := by
  rintro ⟨hmark, -⟩
  rw [hi, Option.bind_some, h] at hmark
  cases hmark

theorem deepest_take_succ (d : Nat → Int) (hi : P[n]? = some i) :
    deepest (P.take (n + 1)) d = max (deepest (P.take n) d) (d n + i.effect) := by
  have hn : n < P.length := (List.getElem?_eq_some_iff.mp hi).1
  rw [deepest, List.take_add_one, hi, Option.toList_some, List.mapIdx_concat, List.foldl_concat,
    List.length_take, Nat.min_eq_left (Nat.le_of_lt hn)]
  rfl

theorem deepest_take_le (d : Nat → Int) {k : Nat} (hk : k ≤ n) (hn : n ≤ P.length) :
    deepest (P.take k) d ≤ deepest (P.take n) d := by
  induction n, hk using Nat.le_induction with
  | base => exact Int.le_refl _
  | succ n hk ih =>
    rw [deepest_take_succ d (List.getElem?_eq_getElem hn)]
    exact Int.le_trans (ih (Nat.le_of_lt hn)) (Int.le_max_left _ _)

/-- Nothing is deeper. -/
theorem le_deepest (d : Nat → Int) (hi : P[n]? = some i) : d n + i.effect ≤ P.deepest d := by
  have hn : n < P.length := (List.getElem?_eq_some_iff.mp hi).1
  have hle := deepest_take_le d (k := n + 1) hn (Nat.le_refl _)
  rw [deepest_take_succ d hi, List.take_length] at hle
  exact Int.le_trans (Int.le_max_right _ _) hle

end Code

/-! ### The pass -/

namespace DepthScan

open Code

variable {P : Code} {d : Nat → Int} {n : Nat} {i : Instr} {s t : DepthScan} {method : String}

/-- The pass has come to position `n` and knows the depth there, unless a mark has yet to tell it.
It has the depths at the labels that were jumped to, and all of these lie between zero and the
deepest that it has seen. -/
structure Tracks (P : Code) (d : Nat → Int) (n : Nat) (s : DepthScan) : Prop where
  depth : n < P.length → ¬P.CutOff n → s.depth = d n
  deepest : s.deepest = Code.deepest (P.take n) d
  reachable : s.reachable = false ↔ P.Behind n
  known : ∀ (l : Label) (v : Int), s.atLabel[l]? = some v → ∀ m, P[m]? = some (.mark l) → d m = v
  jumped : ∀ k op (l : Label), k < n → P[k]? = some (.jump op l) → s.atLabel[l]?.isSome = true
  bounds : 0 ≤ s.depth ∧ s.depth ≤ s.deepest
  labelBounds : ∀ (l : Label) (v : Int), s.atLabel[l]? = some v → 0 ≤ v ∧ v ≤ s.deepest

theorem tracks_start (hd : P.Depths d) : Tracks P d 0 {} where
  depth _ _ := hd.entry.symm
  deepest := rfl
  reachable := by simp [not_behind_zero]
  known l v h := by simp at h
  jumped k op l hk := by cases hk
  bounds := ⟨Int.le_refl 0, Int.le_refl 0⟩
  labelBounds l v h := by simp at h

/-- What arriving at a mark leaves as it was. -/
theorem mark_eq (s : DepthScan) (l : Label) :
    (s.mark l).deepest = s.deepest ∧ (s.mark l).reachable = true ∧
      (s.mark l).depth = (if s.reachable then s.depth else s.atLabel[l]?.getD 0) ∧
      ∀ k v, (s.mark l).atLabel[k]? = some v → s.atLabel[k]? = some v ∨
        (k = l ∧ s.reachable = true ∧ v = s.depth) := by
  unfold mark
  cases hat : s.atLabel[l]? with
  | some known =>
    cases hr : s.reachable <;> simp +contextual [hr]
  | none =>
    cases hr : s.reachable with
    | false => simp +contextual
    | true =>
      refine ⟨rfl, rfl, rfl, fun k v hk => ?_⟩
      simp only [Std.TreeMap.getElem?_insert] at hk
      split at hk
      · next heq => exact .inr ⟨(Std.LawfulEqCmp.eq_of_compare heq).symm, rfl,
          (Option.some.inj hk).symm⟩
      · exact .inl hk

theorem mark_jumped {l k : Label} (h : s.atLabel[k]?.isSome = true) :
    (s.mark l).atLabel[k]?.isSome = true := by
  unfold mark
  split <;> try exact h
  simp only [Std.TreeMap.getElem?_insert]
  split
  · rfl
  · exact h

/-- At a mark the pass takes the depth of the first jump to it, or goes on with its own. -/
theorem depth_mark (hd : P.Depths d) (hs : s.Tracks P d n) {l : Label}
    (hi : P[n]? = some (.mark l)) : (s.mark l).depth = d n := by
  have hn : n < P.length := (List.getElem?_eq_some_iff.mp hi).1
  have hmark : (P[n]?.bind Instr.mark?).isSome = true := by rw [hi]; rfl
  rw [(mark_eq s l).2.2.1]
  cases hr : s.reachable with
  | true =>
    have hfree : ¬P.CutOff n := fun hcut => by
      rw [hs.reachable.mpr hcut.2] at hr
      cases hr
    exact hs.depth hn hfree
  | false =>
    cases hat : s.atLabel[l]? with
    | some v => exact (hs.known l v hat n hi).symm
    | none =>
      refine (hd.dead n l hi ⟨hmark, hs.reachable.mp hr⟩ fun k op hk hjump => ?_).symm
      have := hs.jumped k op l hk hjump
      rw [hat] at this
      cases this

theorem tracks_mark (hP : P.marks.Nodup) (hd : P.Depths d) (hs : s.Tracks P d n) {l : Label}
    (hi : P[n]? = some (.mark l)) : (s.mark l).Tracks P d (n + 1) := by
  obtain ⟨hdeepest, hreachable, hdepth, hlabels⟩ := mark_eq s l
  have hat := depth_mark hd hs hi
  have hbounds : 0 ≤ (s.mark l).depth ∧ (s.mark l).depth ≤ s.deepest := by
    rw [hdepth]
    split_ifs
    · exact hs.bounds
    · cases hv : s.atLabel[l]? with
      | some v => exact hs.labelBounds l v hv
      | none => exact ⟨Int.le_refl 0, Int.le_trans hs.bounds.1 hs.bounds.2⟩
  refine ⟨fun hn hfree => ?_, ?_, ?_, fun k v hk m hm => ?_, fun k op k' hk hjump => ?_, ?_,
    fun k v hk => ?_⟩
  · rw [hat, hd.falls n _ hi hn hfree, Instr.effect_mark, Int.add_zero]
  · rw [hdeepest, hs.deepest, deepest_take_succ d hi, Instr.effect_mark, Int.add_zero, max_eq_left]
    rw [← hat, ← hs.deepest]
    exact hbounds.2
  · rw [hreachable, behind_succ hi]
    simp [Instr.isTerminal, Instr.opcode?, Instr.mark?]
  · rcases hlabels k v hk with hold | ⟨rfl, hr, rfl⟩
    · exact hs.known k v hold m hm
    · obtain rfl := mark_unique hP hi hm
      rw [← hat, hdepth, if_pos hr]
  · rcases Nat.lt_succ_iff_lt_or_eq.mp hk with hlt | rfl
    · exact mark_jumped (hs.jumped k op k' hlt hjump)
    · rw [hi] at hjump
      cases hjump
  · rw [hdeepest]
    exact hbounds
  · rw [hdeepest]
    rcases hlabels k v hk with hold | ⟨-, -, rfl⟩
    · exact hs.labelBounds k v hold
    · exact hs.bounds

/-- The state after an instruction that is no mark and leaves the stack at `depth`. -/
def next (s : DepthScan) (i : Instr) (depth : Int) : DepthScan where
  depth := depth
  deepest := max s.deepest depth
  reachable := s.reachable && !i.isTerminal
  atLabel :=
    match i with
    | .jump _ target => s.atLabel.insertIfNew target depth
    | _ => s.atLabel

theorem step_eq (hread : i.Readable) (hi : i.mark? = none) :
    s.step method i = if s.depth + i.effect < 0 then .error (.stackUnderflow method)
      else .ok (s.next i (s.depth + i.effect)) := by
  unfold step
  split
  · cases hi
  · rw [Instr.stackEffect_eq hread]
    rfl

theorem next_atLabel {depth : Int} {l : Label} {v : Int}
    (h : (s.next i depth).atLabel[l]? = some v) :
    s.atLabel[l]? = some v ∨ (v = depth ∧ ∃ op, i = .jump op l) := by
  cases i with
  | jump op target =>
    simp only [next, Std.TreeMap.getElem?_insertIfNew] at h
    split at h
    · next hnew =>
      obtain rfl : target = l := by simpa using hnew.1
      exact .inr ⟨(Option.some.inj h).symm, op, rfl⟩
    · exact .inl h
  | _ => exact .inl h

theorem next_jumped {depth : Int} {l : Label}
    (h : s.atLabel[l]?.isSome = true ∨ ∃ op, i = .jump op l) :
    (s.next i depth).atLabel[l]?.isSome = true := by
  cases i with
  | jump op target =>
    simp only [next, Std.TreeMap.getElem?_insertIfNew]
    split
    · rfl
    · next hold =>
      rcases h with h | ⟨op', heq⟩
      · exact h
      · cases heq
        simpa using hold
  | _ =>
    rcases h with h | ⟨op', heq⟩
    · exact h
    · cases heq

theorem tracks_next (hd : P.Depths d) (hs : s.Tracks P d n) (hi : P[n]? = some i)
    (hmark : i.mark? = none) (hpos : 0 ≤ d n + i.effect) :
    (s.next i (d n + i.effect)).Tracks P d (n + 1) := by
  have hdeepest : (s.next i (d n + i.effect)).deepest = max s.deepest (d n + i.effect) := rfl
  refine ⟨fun hn hfree => (hd.falls n i hi hn hfree).symm, ?_, ?_, fun l v hl m hm => ?_,
    fun k op l hk hjump => ?_, ⟨hpos, Int.le_max_right _ _⟩, fun l v hl => ?_⟩
  · rw [hdeepest, hs.deepest, deepest_take_succ d hi]
  · rw [behind_succ hi, ← hs.reachable]
    cases hr : s.reachable <;> simp [next, hr, hmark]
  · rcases next_atLabel hl with hold | ⟨rfl, op, rfl⟩
    · exact hs.known l v hold m hm
    · exact hd.jumps n op l m hi hm
  · rcases Nat.lt_succ_iff_lt_or_eq.mp hk with hlt | rfl
    · exact next_jumped (.inl (hs.jumped k op l hlt hjump))
    · rw [hi] at hjump
      exact next_jumped (.inr ⟨op, Option.some.inj hjump⟩)
  · rcases next_atLabel hl with hold | ⟨rfl, -⟩
    · obtain ⟨hlow, hhigh⟩ := hs.labelBounds l v hold
      exact ⟨hlow, Int.le_trans hhigh (Int.le_max_left _ _)⟩
    · exact ⟨hpos, Int.le_max_right _ _⟩

/-- One instruction: the pass takes it at its depth, and fails if the stack does not have what it
needs. -/
theorem tracks_step (method : String) (hP : P.marks.Nodup) (hd : P.Depths d) (hread : i.Readable)
    (hs : s.Tracks P d n) (hi : P[n]? = some i) :
    (i.mark? = none → s.depth = d n) ∧
      if d n + i.effect < 0 then s.step method i = .error (.stackUnderflow method)
      else ∃ t, s.step method i = .ok t ∧ t.depth = d n + i.effect ∧ t.Tracks P d (n + 1) := by
  have hn : n < P.length := (List.getElem?_eq_some_iff.mp hi).1
  cases hmark : i.mark? with
  | some l =>
    obtain rfl := Instr.mark?_eq_some.mp hmark
    have hdepth := depth_mark hd hs hi
    have htracks := tracks_mark hP hd hs hi
    have hpos : ¬d n + (Instr.mark l).effect < 0 := by
      have := htracks.bounds.1
      rw [Instr.effect_mark]
      omega
    rw [if_neg hpos]
    exact ⟨by simp, _, rfl, by rw [hdepth, Instr.effect_mark, Int.add_zero], htracks⟩
  | none =>
    have hdepth : s.depth = d n := hs.depth hn (not_cutOff_of_mark?_eq_none hi hmark)
    refine ⟨fun _ => hdepth, ?_⟩
    rw [step_eq hread hmark, hdepth]
    split_ifs with hneg
    · rfl
    · exact ⟨_, rfl, rfl, tracks_next hd hs hi hmark (Int.not_lt.mp hneg)⟩

theorem run_append (a b : Code) (s : DepthScan) :
    run method s (a ++ b) = (run method s a).bind fun t => run method t b := by
  induction a generalizing s with
  | nil => rfl
  | cons i a ih =>
    rw [List.cons_append, run, run]
    cases s.step method i with
    | error e => rfl
    | ok t => exact ih t

/-- As long as no depth is negative the pass goes on, and knows the depths. -/
theorem tracks_run (method : String) (hP : P.marks.Nodup) (hread : ∀ i ∈ P, i.Readable)
    (hd : P.Depths d) (hn : n ≤ P.length)
    (hpos : ∀ k i, k < n → P[k]? = some i → 0 ≤ d k + i.effect) :
    ∃ s, run method {} (P.take n) = .ok s ∧ s.Tracks P d n := by
  induction n with
  | zero => exact ⟨{}, rfl, tracks_start hd⟩
  | succ n ih =>
    obtain ⟨s, hrun, hs⟩ := ih (Nat.le_of_lt hn) fun k i hk => hpos k i (Nat.lt_succ_of_lt hk)
    have hi : P[n]? = some P[n] := List.getElem?_eq_getElem hn
    have hstep := (tracks_step method hP hd (hread _ (List.getElem_mem hn)) hs hi).2
    rw [if_neg (Int.not_lt.mpr (hpos n _ (Nat.lt_succ_self n) hi))] at hstep
    obtain ⟨t, ht, -, htracks⟩ := hstep
    refine ⟨t, ?_, htracks⟩
    rw [List.take_add_one, hi, Option.toList_some, run_append, hrun]
    show run method s [P[n]] = .ok t
    rw [run, ht]
    rfl

/-- The first negative depth ends the pass. -/
theorem run_underflow (method : String) (hP : P.marks.Nodup) (hread : ∀ i ∈ P, i.Readable)
    (hd : P.Depths d) (hneg : ∃ n i, P[n]? = some i ∧ d n + i.effect < 0) :
    run method {} P = .error (.stackUnderflow method) := by
  classical
  obtain ⟨i, hi, hlt⟩ := Nat.find_spec hneg
  have hfirst : ∀ k j, k < Nat.find hneg → P[k]? = some j → 0 ≤ d k + j.effect := fun k j hk hj =>
    Int.not_lt.mp fun hbad => Nat.find_min hneg hk ⟨j, hj, hbad⟩
  have hn : Nat.find hneg < P.length := (List.getElem?_eq_some_iff.mp hi).1
  obtain ⟨s, hrun, hs⟩ := tracks_run method hP hread hd (Nat.le_of_lt hn) hfirst
  have hstep := (tracks_step method hP hd (hread i (List.mem_of_getElem? hi)) hs hi).2
  rw [if_pos hlt] at hstep
  have hsplit : P = P.take (Nat.find hneg) ++ i :: P.drop (Nat.find hneg + 1) := by
    rw [← (List.getElem?_eq_some_iff.mp hi).2, List.getElem_cons_drop, List.take_append_drop]
  rw [hsplit, run_append, hrun]
  show run method s (i :: _) = _
  rw [run, hstep]

end DepthScan

/-! ### Paths -/

namespace Code

variable {P : Code} {d : Nat → Int} {n : Nat} {visited : List Nat}

theorem depthAlong_concat {i : Instr} (visited : List Nat) (hi : P[n]? = some i) :
    P.depthAlong (visited ++ [n]) = P.depthAlong visited + i.effect := by
  simp [depthAlong, hi]

/-- Control only gets behind a terminal instruction by a jump to a mark, and finds the depth of the
position. -/
theorem Depths.depthAlong_eq (hd : P.Depths d) (h : P.Path visited n) :
    (P.Behind n → (P[n]?.bind Instr.mark?).isSome = true) ∧
      (n < P.length → P.depthAlong visited = d n) := by
  induction h with
  | entry => exact ⟨fun h => absurd h not_behind_zero, fun _ => hd.entry.symm⟩
  | @step visited n m hpath hgo ih =>
    obtain ⟨hbehind, hdepth⟩ := ih
    cases hgo with
    | @next i hi hfalls =>
      have hn : n < P.length := (List.getElem?_eq_some_iff.mp hi).1
      have hfree : ¬P.Behind (n + 1) := by
        rw [behind_succ hi, hfalls]
        rintro (h | ⟨hmark, hcut⟩)
        · cases h
        · have := hbehind hcut
          rw [hi, Option.bind_some, hmark] at this
          cases this
      refine ⟨fun h => absurd h hfree, fun hm => ?_⟩
      rw [depthAlong_concat visited hi, hdepth hn, hd.falls n i hi hm fun hcut => hfree hcut.2]
    | @jump op l _ hi hm =>
      have hn : n < P.length := (List.getElem?_eq_some_iff.mp hi).1
      refine ⟨fun _ => by rw [hm]; rfl, fun _ => ?_⟩
      rw [depthAlong_concat visited hi, hdepth hn, hd.jumps n op l m hi hm]

theorem goes_getElem? {m : Nat} (h : P.Goes n m) : ∃ i, P[n]? = some i := by
  cases h with
  | next hi _ => exact ⟨_, hi⟩
  | jump hi _ => exact ⟨_, hi⟩

/-- On no way does the depth leave the bounds. -/
theorem Depths.depthAlong_bounds (hd : P.Depths d)
    (hpos : ∀ n i, P[n]? = some i → 0 ≤ d n + i.effect) (h : P.Path visited n) :
    0 ≤ P.depthAlong visited ∧ P.depthAlong visited ≤ P.deepest d := by
  cases h with
  | entry =>
    have hzero := deepest_take_le d (Nat.zero_le P.length) (Nat.le_refl P.length)
    rw [List.take_length] at hzero
    exact ⟨Int.le_refl 0, hzero⟩
  | @step visited k m hpath hgo =>
    obtain ⟨i, hi⟩ := goes_getElem? hgo
    rw [depthAlong_concat visited hi,
      (hd.depthAlong_eq hpath).2 (List.getElem?_eq_some_iff.mp hi).1]
    exact ⟨hpos k i hi, le_deepest d hi⟩

end Code

/-! ### The deepest stack -/

section Exact

variable {m : Method} {d : Nat → Int}

theorem Method.maxStack_of_nonneg (hread : ∀ i ∈ m.code, i.Readable) (hP : m.code.marks.Nodup)
    (hd : m.code.Depths d) (hpos : ∀ n i, m.code[n]? = some i → 0 ≤ d n + i.effect) :
    m.maxStack = if m.code.deepest d > 65535 then .error (.codeTooLarge m.name)
      else .ok (m.code.deepest d).toNat.toUInt16 := by
  obtain ⟨s, hrun, hs⟩ :=
    DepthScan.tracks_run m.name hP hread hd (Nat.le_refl _) fun n i _ => hpos n i
  have hdeepest := hs.deepest
  rw [List.take_length] at hrun hdeepest
  rw [maxStack, hrun]
  simp only [hdeepest]

theorem Method.maxStack_of_neg (hread : ∀ i ∈ m.code, i.Readable) (hP : m.code.marks.Nodup)
    (hd : m.code.Depths d) (hneg : ∃ n i, m.code[n]? = some i ∧ d n + i.effect < 0) :
    m.maxStack = .error (.stackUnderflow m.name) := by
  rw [maxStack, DepthScan.run_underflow m.name hP hread hd hneg]

/-- The measured depth is exact. Let all descriptors of a method be readable, its labels be placed
once, and depths be given on which falling through and jumping agree. Then the pass takes each
instruction at its depth, as long as none before was negative. It fails for want of operands if and
only if some depth gets negative, and for want of bounds if and only if none does and the greatest
is out of range. Otherwise the greatest is the answer, and on every way that control can take the
depth lies between zero and the answer. -/
theorem maxStack_exact (hread : ∀ i ∈ m.code, i.Readable) (hP : m.code.marks.Nodup)
    (hd : m.code.Depths d) :
    (∀ n i, m.code[n]? = some i → (∀ k j, k ≤ n → m.code[k]? = some j → 0 ≤ d k + j.effect) →
        ∃ s t, DepthScan.run m.name {} (m.code.take n) = .ok s ∧ s.step m.name i = .ok t ∧
          (i.mark? = none → s.depth = d n) ∧ t.depth = d n + i.effect) ∧
      (m.maxStack = .error (.stackUnderflow m.name) ↔ ∃ n i, m.code[n]? = some i ∧
        d n + i.effect < 0) ∧
      (m.maxStack = .error (.codeTooLarge m.name) ↔
        (∀ n i, m.code[n]? = some i → 0 ≤ d n + i.effect) ∧ 65535 < m.code.deepest d) ∧
      ((∀ n i, m.code[n]? = some i → 0 ≤ d n + i.effect) → m.code.deepest d ≤ 65535 →
        ∃ deepest : UInt16, m.maxStack = .ok deepest ∧ (deepest.toNat : Int) = m.code.deepest d ∧
          ∀ visited n, m.code.Path visited n →
            0 ≤ m.code.depthAlong visited ∧ m.code.depthAlong visited ≤ deepest.toNat ∧
            ∀ i, m.code[n]? = some i → m.code.depthAlong visited = d n ∧
              0 ≤ d n + i.effect ∧ d n + i.effect ≤ deepest.toNat) := by
  have hnonneg (h : ¬∃ n i, m.code[n]? = some i ∧ d n + i.effect < 0) (n : Nat) (i : Instr)
      (hi : m.code[n]? = some i) : 0 ≤ d n + i.effect := Int.not_lt.mp fun hlt => h ⟨n, i, hi, hlt⟩
  refine ⟨fun n i hi hpos => ?_, ?_, ?_, fun hpos hle => ?_⟩
  · have hn : n < m.code.length := (List.getElem?_eq_some_iff.mp hi).1
    obtain ⟨s, hrun, hs⟩ := DepthScan.tracks_run m.name hP hread hd (Nat.le_of_lt hn) fun k j hk =>
      hpos k j (Nat.le_of_lt hk)
    obtain ⟨hdepth, hstep⟩ :=
      DepthScan.tracks_step m.name hP hd (hread i (List.mem_of_getElem? hi)) hs hi
    rw [if_neg (Int.not_lt.mpr (hpos n i (Nat.le_refl n) hi))] at hstep
    obtain ⟨t, ht, htdepth, -⟩ := hstep
    exact ⟨s, t, hrun, ht, hdepth, htdepth⟩
  · refine ⟨fun h => ?_, Method.maxStack_of_neg hread hP hd⟩
    by_contra hnone
    rw [Method.maxStack_of_nonneg hread hP hd (hnonneg hnone)] at h
    split_ifs at h
    cases h
  · by_cases hneg : ∃ n i, m.code[n]? = some i ∧ d n + i.effect < 0
    · rw [Method.maxStack_of_neg hread hP hd hneg]
      obtain ⟨n, i, hi, hlt⟩ := hneg
      exact ⟨by simp, fun h => absurd (h.1 n i hi) (Int.not_le.mpr hlt)⟩
    · have hpos := hnonneg hneg
      rw [Method.maxStack_of_nonneg hread hP hd hpos]
      split_ifs with hdeep
      · exact ⟨fun _ => ⟨hpos, hdeep⟩, fun _ => rfl⟩
      · exact ⟨by simp, fun h => absurd h.2 hdeep⟩
  · have hbounds {visited : List Nat} {n : Nat} (h : m.code.Path visited n) :=
      hd.depthAlong_bounds hpos h
    have hcast : ((m.code.deepest d).toNat.toUInt16.toNat : Int) = m.code.deepest d := by
      have hzero := (hbounds .entry).1.trans (hbounds .entry).2
      have hlt : (m.code.deepest d).toNat < 2 ^ 16 := by omega
      rw [UInt16.toNat_ofNat_of_lt' hlt, Int.toNat_of_nonneg hzero]
    refine ⟨_, by rw [Method.maxStack_of_nonneg hread hP hd hpos,
      if_neg (Int.not_lt.mpr hle)], hcast, ?_⟩
    intro visited n hpath
    rw [hcast]
    exact ⟨(hbounds hpath).1, (hbounds hpath).2, fun i hi =>
      ⟨(hd.depthAlong_eq hpath).2 (List.getElem?_eq_some_iff.mp hi).1, hpos n i hi,
        Code.le_deepest d hi⟩⟩

end Exact

/-- Two arms that each leave a number, and a loop that nothing leads to. -/
def sampleArms : Method where
  access := .publicStatic
  name := "_pick"
  descriptor := "()I"
  code := [Code.pushInt 5, Code.pushInt 7, .jump .ifIcmplt 0, Code.pushInt 1, Code.goto 1, .mark 0,
    Code.pushInt 2, .mark 1, .op .ireturn, .mark 2, Code.goto 2]
  maxLocals := 0

def sampleDepths (n : Nat) : Int := [0, 1, 2, 0, 1, 0, 0, 1, 1, 0, 0].getD n 0

theorem depths_sampleArms : sampleArms.code.Depths sampleDepths where
  entry := rfl
  falls n i hi hn hfree := by
    have hall : ∀ n < 10, sampleArms.code.CutOff (n + 1) ∨
        sampleDepths (n + 1) = sampleDepths
          n + ((sampleArms.code[n]?.map Instr.effect).getD 0) := by decide
    have hat := (hall n (Nat.lt_of_succ_lt_succ hn)).resolve_left hfree
    rwa [hi] at hat
  jumps n op l m hi hm := by
    have hmark {k : Nat} (hk : sampleArms.code[k]? = some (.mark l)) : m = k :=
      Code.mark_unique (by decide) hm hk
    rcases n with _ | _ | _ | _ | _ | _ | _ | _ | _ | _ | _ | n <;> cases hi
    · obtain rfl := hmark (k := 5) rfl
      rfl
    · obtain rfl := hmark (k := 7) rfl
      rfl
    · obtain rfl := hmark (k := 9) rfl
      rfl
  dead m l hm hcut hnone := by
    have hall : ∀ m < 11, sampleArms.code.CutOff m → m = 5 ∨ m = 9 := by decide
    rcases hall m (List.getElem?_eq_some_iff.mp hm).1 hcut with rfl | rfl
    · cases hm
      exact absurd rfl (hnone 2 .ifIcmplt (by decide))
    · rfl

theorem maxStack_exact_sampleArms :
    sampleArms.code.Depths sampleDepths ∧ sampleArms.code.deepest sampleDepths = 2 ∧
      ∃ deepest : UInt16, sampleArms.maxStack = .ok deepest ∧ (deepest.toNat : Int) = 2 ∧
        ∀ visited n, sampleArms.code.Path visited n → 0 ≤ sampleArms.code.depthAlong visited ∧
          sampleArms.code.depthAlong visited ≤ 2 := by
  have hpos : ∀ n i, sampleArms.code[n]? = some i → 0 ≤ sampleDepths n + i.effect := by
    intro n i hi
    have hall : ∀ n < 11, 0 ≤ sampleDepths
        n + ((sampleArms.code[n]?.map Instr.effect).getD 0) := by decide
    have hat := hall n (List.getElem?_eq_some_iff.mp hi).1
    rwa [hi] at hat
  have hread : ∀ i ∈ sampleArms.code,
      i.Readable := by simp [sampleArms, Instr.Readable, Code.pushInt, Code.goto]
  obtain ⟨-, -, -, hok⟩ := maxStack_exact hread (by decide) depths_sampleArms
  obtain ⟨deepest, hmax, hvalue, hpaths⟩ := hok hpos (by decide)
  have htwo : (deepest.toNat : Int) = 2 := hvalue
  refine ⟨depths_sampleArms, rfl, deepest, hmax, htwo, fun visited n hpath => ?_⟩
  rw [← htwo]
  exact ⟨(hpaths visited n hpath).1, (hpaths visited n hpath).2.1⟩

end ClassGen
