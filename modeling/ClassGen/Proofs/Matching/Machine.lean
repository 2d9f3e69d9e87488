import Mathlib.Data.List.Infix
import Mathlib.Logic.Function.Basic
import ClassGen.Proofs.ControlFlow.Inward

/-! A machine for the code of a match. It answers the tests by asking oracles about the value in
question. What other instructions do with values is left open: they may do anything to the stack and
the slots, but control goes where the code says. -/

namespace ClassGen.Matching

/-- What the machine is told about values. Nothing is assumed of the answers, but that a truth value
is one that a branch understands. -/
structure Oracles (V : Type) where
  isInstance : V → String → Bool
  isNull : V → Bool
  /-- The tag of a list. -/
  name : V → V
  text : String → V
  equals : V → V → Bool
  truth : Bool → V
  isZero : V → Bool
  isZero_truth : ∀ b, isZero (truth b) = !b

structure State (V : Type) where
  pc : Nat
  stack : List V
  slots : UInt16 → V

variable {V : Type}

/-- The next instruction, with this stack. -/
def State.next (σ : State V) (stack : List V) : State V := ⟨σ.pc + 1, stack, σ.slots⟩

/-- The instructions whose effect is given; those that tests consist of are among them. -/
def isKnown : Instr → Bool
  | .mark _ | .push (.text _) | .slot .aload _ | .slot .astore _ | .type .instanceof _
  | .type .checkcast _
  | .jump .ifeq _ | .jump .goto _ => true
  | .invoke .invokevirtual target => target = Library.wrapperName || target = Library.stringEquals
  | _ => false

/-- The stack after a known method was called: the tag of a list, or whether two values are equal.
-/
def answer (o : Oracles V) (target : Member) (stack : List V) : Option (List V) :=
  if target = Library.wrapperName then
    match stack with
    | v :: stack => some (o.name v :: stack)
    | [] => none
  else
    match stack with
    | v :: w :: stack => some (o.truth (o.equals w v) :: stack)
    | _ => none

/-- What a known instruction does; none if it fails. A cast fails for a value of another class. -/
def exec (o : Oracles V) (P : Code) (σ : State V) (i : Instr) : Option (State V) :=
  match i, σ.stack with
  | .mark _, stack => some (σ.next stack)
  | .push (.text t), stack => some (σ.next (o.text t :: stack))
  | .slot .aload n, stack => some (σ.next (σ.slots n :: stack))
  | .slot .astore n, v :: stack => some ⟨σ.pc + 1, stack, Function.update σ.slots n v⟩
  | .type .instanceof c, v :: stack => some (σ.next (o.truth (o.isInstance v c) :: stack))
  | .type .checkcast c, v :: stack => if o.isInstance v c ||
      o.isNull v then some (σ.next (v :: stack)) else none
  | .invoke .invokevirtual target, stack => (answer o target stack).map σ.next
  | .jump .ifeq l, v :: stack =>
    if o.isZero v then (Machine.target P l).map fun n => ⟨n, stack, σ.slots⟩
    else some (σ.next stack)
  | .jump .goto l, stack => (Machine.target P l).map fun n => ⟨n, stack, σ.slots⟩
  | _, _ => none

variable {o : Oracles V} {P : Code} {σ ρ τ : State V} {visited later : List Nat}

/-- A known instruction goes on, or to its label. -/
theorem exec_goes {i : Instr} (hi : P[σ.pc]? = some i) (h : exec o P σ i = some τ) :
    P.Goes σ.pc τ.pc := by
  have hfalls (hterminal : i.isTerminal = false) {stack : List V} {slots : UInt16 → V}
      (hτ : some (State.mk (σ.pc + 1) stack slots) = some τ) : P.Goes σ.pc τ.pc := by
    cases hτ
    exact .next hi hterminal
  have hjump {op : Opcode} {l : Label} (hj : i = .jump op l) {stack : List V}
      (hτ : (Machine.target P l).map (fun n => State.mk n stack σ.slots) = some τ) :
        P.Goes σ.pc τ.pc := by
    obtain ⟨n, hn, rfl⟩ := Option.map_eq_some_iff.mp hτ
    exact .jump (hj ▸ hi) (Machine.getElem?_target hn)
  unfold exec at h
  split at h
  · exact hfalls rfl h
  · exact hfalls rfl h
  · exact hfalls rfl h
  · exact hfalls rfl h
  · exact hfalls rfl h
  · split_ifs at h
    exact hfalls rfl h
  · obtain ⟨stack, -, hτ⟩ := Option.map_eq_some_iff.mp h
    exact hfalls rfl (congrArg some hτ)
  · split_ifs at h
    · exact hjump rfl h
    · exact hfalls rfl h
  · exact hjump rfl h
  · cases h

/-- In the method `P`, the instruction takes one state to the other. -/
inductive Acts (o : Oracles V) (P : Code) (i : Instr) (σ τ : State V) : Prop
  | known (hk : isKnown i = true) (h : exec o P σ i = some τ)
  | other (hk : isKnown i = false) (hgo : P.Goes σ.pc τ.pc)

theorem Acts.goes {i : Instr} (hi : P[σ.pc]? = some i) (h : Acts o P i σ τ) : P.Goes σ.pc τ.pc := by
  cases h with
  | known _ h => exact exec_goes hi h
  | other _ hgo => exact hgo

abbrev semantics (o : Oracles V) : Machine.Semantics (State V) where
  pc := State.pc
  acts := Acts o
  goes := Acts.goes

abbrev Step (o : Oracles V) (P : Code) : State V → State V → Prop := (semantics o).Step P

/-- A known instruction does one thing. -/
theorem step_unique {τ' : State V} (hknown : ∃ i, P[σ.pc]? = some i ∧ isKnown i = true)
    (h : Step o P σ τ) (h' : Step o P σ τ') : τ = τ' := by
  obtain ⟨i, hi, hknown⟩ := hknown
  have hexec {τ : State V} (h : Step o P σ τ) : exec o P σ i = some τ := by
    obtain ⟨j, hj, hacts⟩ := h
    rw [show P[σ.pc]? = some j from hj, Option.some.injEq] at hi
    subst hi
    cases hacts with
    | known _ hexec => exact hexec
    | other hk _ =>
      rw [hknown] at hk
      cases hk
  exact Option.some.inj ((hexec h).symm.trans (hexec h'))

/-- Control goes from one state to another, through these positions. -/
def Run (o : Oracles V) (P : Code) (σ : State V) (visited : List Nat) (τ : State V) : Prop :=
  ∃ trace, (semantics o).Run P σ trace τ ∧ trace.map State.pc = visited

namespace Run

theorem refl (σ : State V) : Run o P σ [] σ := ⟨[], .refl σ, rfl⟩

theorem trans (h : Run o P σ visited ρ) (k : Run o P ρ later τ) :
    Run o P σ (visited ++ later) τ := by
  obtain ⟨_, h, rfl⟩ := h
  obtain ⟨_, k, rfl⟩ := k
  exact ⟨_, h.trans k, List.map_append⟩

theorem single {i : Instr} (hi : P[σ.pc]? = some i) (hk : isKnown i = true)
    (h : exec o P σ i = some τ) : Run o P σ [σ.pc] τ :=
  ⟨_, .single ⟨i, hi, .known hk h⟩, rfl⟩

/-- A known instruction first. -/
theorem known {i : Instr} (hi : P[σ.pc]? = some i) (hk : isKnown i = true)
    (h : exec o P σ i = some ρ) (hrest : Run o P ρ visited τ) : Run o P σ (σ.pc :: visited) τ :=
  (single hi hk h).trans hrest

/-- A run through known instructions is the only one: any other from the same state is a part of it,
or goes on from its end. -/
theorem compare {visited' : List Nat} {τ' : State V} (h : Run o P σ visited τ)
    (hk : ∀ n ∈ visited, ∃ i, P[n]? = some i ∧ isKnown i = true) (h' : Run o P σ visited' τ') :
    (∃ n rest, visited = visited' ++ n :: rest ∧ τ'.pc = n) ∨
      ∃ later, visited' = visited ++ later ∧ Run o P τ later τ' := by
  obtain ⟨trace, h, rfl⟩ := h
  obtain ⟨trace', h', rfl⟩ := h'
  have hsingle : ∀ ρ ∈ trace, ∀ κ κ', Step o P ρ κ → Step o P ρ κ' → κ = κ' := fun ρ hρ κ κ' =>
    step_unique (hk ρ.pc (List.mem_map_of_mem hρ))
  rcases h.compare hsingle h' with ⟨rest, rfl⟩ | ⟨later, rfl, hlater⟩
  · exact .inl ⟨_, rest.map State.pc, by rw [List.map_append, List.map_cons], rfl⟩
  · exact .inr ⟨_, List.map_append, later, hlater, rfl⟩

theorem head? (h : Run o P σ visited τ) : (visited ++ [τ.pc]).head? = some σ.pc := by
  obtain ⟨trace, h, rfl⟩ := h
  cases h <;> rfl

/-- A run that begins inside a fragment stays there, or leaves it once at its end or at an exit. -/
theorem leaves {c : Code} {start : Nat} {exits : List Label} (h : Run o P σ visited τ)
    (hc : c.Inward exits) (hP : P.marks.Nodup) (hat : P.At start c)
    (hσ : Code.Within start c σ.pc) :
    (∀ k ∈ visited ++ [τ.pc], Code.Within start c k) ∨
      ∃ inside ρ outside, visited = inside ++ outside ∧ inside.head? = some σ.pc ∧
        (∀ k ∈ inside, Code.Within start c k) ∧ Run o P σ inside ρ ∧ Run o P ρ outside τ ∧
        ((ρ.pc = start + c.length ∧ Code.fallsThrough c = true) ∨ ∃ l ∈ exits,
          P[ρ.pc]? = some (.mark l)) := by
  obtain ⟨trace, h, rfl⟩ := h
  rcases h.leaves hc hP hat hσ with
    hall | ⟨inside, ρ, outside, rfl, hhead, hinside, hrun, hrun', hexit⟩
  · refine .inl fun k hk => ?_
    rw [← List.map_singleton, ← List.map_append] at hk
    obtain ⟨κ, hκ, rfl⟩ := List.mem_map.mp hk
    exact hall κ hκ
  · refine .inr ⟨_, ρ, _, List.map_append, ?_, List.forall_mem_map.mpr hinside, ⟨_, hrun, rfl⟩,
      ⟨_, hrun', rfl⟩, hexit⟩
    rw [List.head?_map, hhead, Option.map_some]

end Run

end ClassGen.Matching
