import Mathlib.Algebra.GroupWithZero.Nat
import Mathlib.Tactic.SplitIfs
import ClassGen.Lower.Stmt

/-! Operand stacks by the kinds of their entries, and the stacks along a run of instructions. Every
instruction says which kinds it takes off the top and which it leaves; the stack at a label is the
same for all jumps to it and for falling through. -/

namespace ClassGen

/-- What an entry of the operand stack holds. -/
inductive Kind where
  | int | float | double | ref
  deriving DecidableEq

namespace Kind

def slots : Kind → Nat
  | double => 2
  | _ => 1

/-- Depth of a stack, in slots. -/
def depth (σ : List Kind) : Nat := (σ.map slots).sum

@[simp] theorem depth_nil : depth [] = 0 := rfl

@[simp] theorem depth_cons (k : Kind) (σ : List Kind) :
    depth (k :: σ) = k.slots + depth σ := by simp [depth]

@[simp] theorem depth_append (σ τ : List Kind) :
    depth (σ ++ τ) = depth σ + depth τ := by simp [depth]

@[simp] theorem depth_reverse (σ : List Kind) :
    depth σ.reverse = depth σ := by simp [depth, List.sum_reverse]

end Kind

/-! ### What instructions take and leave -/

def Constant.kind : Constant → Kind
  | int _ => .int
  | float _ => .float
  | double _ => .double
  | text _ => .ref

/-- The kind of a value of this type; none for the one type that is not handled. -/
def FieldType.kind? : FieldType → Option Kind
  | float => some .float
  | double => some .double
  | long => none
  | object _ | array _ => some .ref
  | byte | char | int | short | boolean => some .int

namespace MethodDescriptor

/-- Kinds of the arguments, the last one first, as they stand on the stack. -/
def argKinds? (d : MethodDescriptor) : Option (List Kind) :=
  (d.params.mapM FieldType.kind?).map List.reverse

/-- What a call leaves. -/
def resultKinds? (d : MethodDescriptor) : Option (List Kind) :=
  match d.ret with
  | none => some []
  | some t => t.kind?.map fun k => [k]

end MethodDescriptor

/-- Kinds taken off the top of the stack, and kinds put there; the top first. -/
structure Shape where
  taken : List Kind
  left : List Kind
  deriving DecidableEq

namespace Instr

def opShape? : Opcode → Option Shape
  | .aconstNull => some ⟨[], [.ref]⟩
  | .iadd | .isub | .imul | .idiv | .irem | .ixor => some ⟨[.int, .int], [.int]⟩
  | .fadd | .fsub | .fmul | .fdiv | .frem => some ⟨[.float, .float], [.float]⟩
  | .dadd | .dsub | .dmul | .ddiv | .drem => some ⟨[.double, .double], [.double]⟩
  | .ineg => some ⟨[.int], [.int]⟩
  | .fneg => some ⟨[.float], [.float]⟩
  | .dneg => some ⟨[.double], [.double]⟩
  | .i2f => some ⟨[.int], [.float]⟩
  | .i2d => some ⟨[.int], [.double]⟩
  | .f2d => some ⟨[.float], [.double]⟩
  | .fcmpl | .fcmpg => some ⟨[.float, .float], [.int]⟩
  | .dcmpl | .dcmpg => some ⟨[.double, .double], [.int]⟩
  | .athrow => some ⟨[.ref], []⟩
  | _ => none

def slotShape? : Opcode → Option Shape
  | .iload => some ⟨[], [.int]⟩
  | .fload => some ⟨[], [.float]⟩
  | .dload => some ⟨[], [.double]⟩
  | .aload => some ⟨[], [.ref]⟩
  | .istore => some ⟨[.int], []⟩
  | .fstore => some ⟨[.float], []⟩
  | .dstore => some ⟨[.double], []⟩
  | .astore => some ⟨[.ref], []⟩
  | _ => none

/-- A jump leaves nothing of its own. -/
def jumpTaken? : Opcode → Option (List Kind)
  | .goto => some []
  | .ifeq | .ifne | .iflt | .ifge | .ifgt | .ifle => some [.int]
  | .ifnull | .ifnonnull => some [.ref]
  | .ifIcmpeq | .ifIcmpne | .ifIcmplt | .ifIcmpge | .ifIcmpgt | .ifIcmple => some [.int, .int]
  | .ifAcmpeq | .ifAcmpne => some [.ref, .ref]
  | _ => none

def typeShape? : Opcode → Option Shape
  | .new => some ⟨[], [.ref]⟩
  | .checkcast => some ⟨[.ref], [.ref]⟩
  | .instanceof => some ⟨[.ref], [.int]⟩
  | _ => none

/-- Access to a field that holds a `k`. -/
def fieldShape? (k : Kind) : Opcode → Option Shape
  | .getstatic => some ⟨[], [k]⟩
  | .putstatic => some ⟨[k], []⟩
  | .getfield => some ⟨[.ref], [k]⟩
  | .putfield => some ⟨[k, .ref], []⟩
  | _ => none

/-- Call with these arguments and results; the receiver lies under the arguments. -/
def invokeShape? (args results : List Kind) : Opcode → Option Shape
  | .invokestatic => some ⟨args, results⟩
  | .invokevirtual | .invokespecial | .invokeinterface => some ⟨args ++ [.ref], results⟩
  | _ => none

/-- The shape of an instruction that its opcode and descriptor determine. -/
@[grind =]
def shape? : Instr → Option Shape
  | op code => opShape? code
  | push value => some ⟨[], [value.kind]⟩
  | slot code _ => slotShape? code
  | jump code _ => (jumpTaken? code).map fun taken => ⟨taken, []⟩
  | mark _ => some ⟨[], []⟩
  | type code _ => typeShape? code
  | field code target => do
    let t ← (FieldType.parse target.descriptor).toOption
    fieldShape? (← t.kind?) code
  | invoke code target => do
    let d ← (MethodDescriptor.parse target.descriptor).toOption
    invokeShape? (← d.argKinds?) (← d.resultKinds?) code

/-- Neither a label nor a jump. -/
def isPlain : Instr → Bool
  | mark _ | jump _ _ => false
  | _ => true

/-- What a return takes. -/
def returned? : Opcode → Option (List Kind)
  | .ireturn => some [.int]
  | .freturn => some [.float]
  | .dreturn => some [.double]
  | .areturn => some [.ref]
  | .vreturn => some []
  | _ => none

/-- The stack after an instruction that finds what it takes, in a method that returns `ret`; none if
it finds anything else. The operand-free instructions without a shape of their own discard or repeat
the top entry, or return. -/
def retype? (ret : List Kind) (i : Instr) (σ : List Kind) : Option (List Kind) :=
  match i.shape? with
  | some shape => if shape.taken <+: σ then some (shape.left ++ σ.drop shape.taken.length) else none
  | none =>
    match i, σ with
    | op .pop, k :: rest => if k.slots = 1 then some rest else none
    | op .pop2, .double :: rest => some rest
    | op .dup, k :: rest => if k.slots = 1 then some (k :: k :: rest) else none
    | op code, σ =>
      if returned? code = some ret ∧ ret <+: σ then some (σ.drop ret.length) else none
    | _, _ => none

theorem retype?_of_shape {i : Instr} {shape : Shape} (h : i.shape? = some shape)
    (ret σ : List Kind) : i.retype? ret (shape.taken ++ σ) = some (shape.left ++ σ) := by
  simp [retype?, h]

theorem retype?_of_returned {code : Opcode} {ret : List Kind} (h : returned? code = some ret)
    (σ : List Kind) : (op code).retype? ret (ret ++ σ) = some σ := by
  unfold returned? at h
  split at h <;> cases h <;> rfl

end Instr

/-! ### Stacks along a fragment -/

/-- Where control stands in a fragment: the stack, unless it cannot be there, and the labels that
were jumped to before. -/
structure Flow where
  stack : Option (List Kind)
  reached : List Label

namespace Flow

/-- One instruction, where `ρ` gives the stack at each label. A label that nothing has jumped to yet
is met with an empty stack. -/
def step (ρ : Label → List Kind) (ret : List Kind) (f : Flow) (i : Instr) : Option Flow :=
  match i with
  | .mark l =>
    if (l ∈ f.reached ∨ ρ l = []) ∧ ∀ σ ∈ f.stack, σ = ρ l then some ⟨some (ρ l), f.reached⟩
    else none
  | .jump code l =>
    match f.stack.bind (i.retype? ret) with
    | some σ => if σ = ρ l then some ⟨if code.isTerminal then none else some σ, l :: f.reached⟩
        else none
    | none => none
  | i => (f.stack.bind (i.retype? ret)).map fun σ => ⟨some σ, f.reached⟩

def run (ρ : Label → List Kind) (ret : List Kind) : Code → Flow → Option Flow
  | [], f => some f
  | i :: c, f => (f.step ρ ret i).bind (run ρ ret c)

end Flow

variable {ρ : Label → List Kind} {ret : List Kind}

theorem Flow.run_append (a b : Code) (f : Flow) :
    run ρ ret (a ++ b) f = (run ρ ret a f).bind (run ρ ret b) := by
  induction a generalizing f with
  | nil => rfl
  | cons i a ih =>
    simp only [List.cons_append, run]
    cases f.step ρ ret i with
    | none => rfl
    | some g => exact ih g

/-- The fragment takes the stack `a` to `b`, whatever was jumped to before it; no stack means that
control does not get there. -/
def Flows (ρ : Label → List Kind) (ret : List Kind) (c : Code) (a b : Option (List Kind)) : Prop :=
  ∀ J, ∃ J', J ⊆ J' ∧ Flow.run ρ ret c ⟨a, J⟩ = some ⟨b, J'⟩

namespace Flows

variable {c d : Code} {i : Instr} {l : Label} {code : Opcode} {σ τ : List Kind}
  {x y z : Option (List Kind)}

theorem nil : Flows ρ ret [] x x := fun J => ⟨J, List.Subset.refl J, rfl⟩

theorem append (hc : Flows ρ ret c x y) (hd : Flows ρ ret d y z) : Flows ρ ret (c ++ d) x z := by
  intro J
  obtain ⟨J₁, hsub₁, hrun₁⟩ := hc J
  obtain ⟨J₂, hsub₂, hrun₂⟩ := hd J₁
  refine ⟨J₂, List.Subset.trans hsub₁ hsub₂, ?_⟩
  rw [Flow.run_append, hrun₁]
  exact hrun₂

theorem cons (hi : Flows ρ ret [i] x y) (hc : Flows ρ ret c y z) : Flows ρ ret (i :: c) x z :=
  hi.append hc

theorem of_step (h : ∀ J, ∃ J', J ⊆ J' ∧ Flow.step ρ ret ⟨x, J⟩ i = some ⟨y, J'⟩) :
    Flows ρ ret [i] x y := by
  intro J
  obtain ⟨J', hsub, hstep⟩ := h J
  exact ⟨J', hsub, by simp [Flow.run, hstep]⟩

theorem plain (hi : i.isPlain) (h : i.retype? ret σ = some τ) : Flows ρ ret [i] (some σ)
    (some τ) := by
  refine of_step fun J => ⟨J, List.Subset.refl J, ?_⟩
  cases i with
  | mark => cases hi
  | jump => cases hi
  | _ => simp [Flow.step, h]

theorem shaped (taken left : List Kind) (hi : i.isPlain) (h : i.shape? = some ⟨taken, left⟩) :
    Flows ρ ret [i] (some (taken ++ σ)) (some (left ++ σ)) :=
  plain hi (Instr.retype?_of_shape h ret σ)

/-- A jump takes its operands; behind one that always happens there is no stack. -/
theorem jump {taken : List Kind} (h : Instr.jumpTaken? code = some taken) :
    Flows ρ ret [.jump code l] (some (taken ++ ρ l))
      (if code.isTerminal then none else some (ρ l)) := by
  refine of_step fun J => ⟨l :: J, List.subset_cons_self l J, ?_⟩
  have hshape : (Instr.jump code l).shape? = some ⟨taken, []⟩ := by simp [Instr.shape?, h]
  have hretype := Instr.retype?_of_shape hshape ret (ρ l)
  simp only [List.nil_append] at hretype
  simp [Flow.step, hretype]

/-- A label with an empty stack. -/
theorem mark (hl : ρ l = []) (hx : ∀ σ ∈ x, σ = []) : Flows ρ ret [.mark l] x (some []) := by
  refine of_step fun J => ⟨J, List.Subset.refl J, ?_⟩
  have hfits : ∀ σ ∈ x, σ = ρ l := fun σ hσ => (hx σ hσ).trans hl.symm
  simp only [Flow.step]
  rw [if_pos ⟨.inr hl, hfits⟩, hl]

end Flows

/-- Labels that were jumped to stay so, and those of the fragment come to them. -/
theorem Flow.step_reached {f g : Flow} {i : Instr} (h : f.step ρ ret i = some g) :
    f.reached ⊆ g.reached ∧ ∀ code l, i = .jump code l → l ∈ g.reached := by
  unfold step at h
  split at h
  · split at h
    · cases h
      exact ⟨List.Subset.refl _, nofun⟩
    · cases h
  · split at h
    · split at h
      · cases h
        refine ⟨List.subset_cons_self _ _, ?_⟩
        rintro _ _ ⟨⟩
        exact List.mem_cons_self
      · cases h
    · cases h
  · next hmark hjump =>
    obtain ⟨σ, -, rfl⟩ := Option.map_eq_some_iff.mp h
    exact ⟨List.Subset.refl _, fun code l hi => (hjump code l hi).elim⟩

theorem Flow.run_reached {c : Code} {f g : Flow} (h : run ρ ret c f = some g) :
    f.reached ⊆ g.reached ∧ ∀ code l, .jump code l ∈ c → l ∈ g.reached := by
  induction c generalizing f with
  | nil =>
    cases h
    exact ⟨List.Subset.refl _, nofun⟩
  | cons i c ih =>
    obtain ⟨m, hm, hrun⟩ := Option.bind_eq_some_iff.mp h
    obtain ⟨hsub, hjump⟩ := step_reached hm
    obtain ⟨hsub', hjumps⟩ := ih hrun
    refine ⟨List.Subset.trans hsub hsub', fun code l hmem => ?_⟩
    rcases List.mem_cons.mp hmem with hi | hmem
    · exact hsub' (hjump code l hi.symm)
    · exact hjumps code l hmem

/-- A label that the fragment has jumped to. -/
theorem Flows.land {c : Code} {code : Opcode} {l : Label} {x y : Option (List Kind)}
    (h : Flows ρ ret c x y) (hmem : .jump code l ∈ c) (hy : ∀ σ ∈ y, σ = ρ l) :
    Flows ρ ret (c ++ [Instr.mark l]) x (some (ρ l)) := by
  intro J
  obtain ⟨J', hsub, hrun⟩ := h J
  have hl : l ∈ J' := (Flow.run_reached hrun).2 code l hmem
  refine ⟨J', hsub, ?_⟩
  have hcond : (l ∈ J' ∨ ρ l = []) ∧ ∀ σ ∈ y, σ = ρ l := ⟨.inl hl, hy⟩
  rw [Flow.run_append, hrun]
  simp only [Option.bind_some, Flow.run, Flow.step]
  rw [if_pos hcond]
  rfl

/-! ### Stacks at the labels of a fragment -/

/-- `P` holds of what is known at labels, such as the stacks there, as soon as it is chosen right
for those from `lo` on and below `hi`. -/
structure Labelled {α : Type} (lo hi : Nat) (P : (Label → α) → Prop) : Prop where
  le : lo ≤ hi
  choose : ∃ δ : Label → α, ∀ ρ : Label → α, (∀ l : Nat, lo ≤ l → l < hi → ρ l = δ l) → P ρ

namespace Labelled

variable {α : Type} {lo mid hi : Nat} {P Q : (Label → α) → Prop}

theorem of_forall [Inhabited α] (hle : lo ≤ hi) (h : ∀ ρ, P ρ) : Labelled lo hi P :=
  ⟨hle, fun _ => default, fun ρ _ => h ρ⟩

/-- At one label. -/
theorem at_label (l : Nat) (σ : α) : Labelled l (l + 1) fun ρ => ρ l = σ :=
  ⟨Nat.le_succ l, fun _ => σ, fun _ h => h l (Nat.le_refl l) (Nat.lt_succ_self l)⟩

theorem mono (h : Labelled lo hi P) (hPQ : ∀ ρ, P ρ → Q ρ) : Labelled lo hi Q := by
  obtain ⟨hle, δ, hδ⟩ := h
  exact ⟨hle, δ, fun ρ hρ => hPQ ρ (hδ ρ hρ)⟩

/-- Neighbouring ranges are chosen apart. -/
theorem and (hP : Labelled lo mid P) (hQ : Labelled mid hi Q) : Labelled lo hi fun ρ =>
    P ρ ∧ Q ρ := by
  obtain ⟨hle₁, δ₁, h₁⟩ := hP
  obtain ⟨hle₂, δ₂, h₂⟩ := hQ
  refine ⟨Nat.le_trans hle₁ hle₂, fun l => if (l : Nat) < mid then δ₁ l else δ₂ l,
    fun ρ hρ => ⟨?_, ?_⟩⟩
  · refine h₁ ρ fun l hlo hmid => ?_
    rw [hρ l hlo (Nat.lt_of_lt_of_le hmid hle₂)]
    exact if_pos hmid
  · refine h₂ ρ fun l hmid hhi => ?_
    rw [hρ l (Nat.le_trans hle₁ hmid) hhi]
    exact if_neg (Nat.not_lt.mpr hmid)

/-- Some choice makes it true. -/
theorem exists_facts (h : Labelled lo hi P) : ∃ ρ, P ρ := by
  obtain ⟨-, δ, hδ⟩ := h
  exact ⟨δ, hδ δ fun _ _ _ => rfl⟩

end Labelled

/-! ### The stacks of a whole method -/

/-- An assignment of stacks to the positions of a method that returns `ret`: the entry is empty,
each instruction finds what it takes, and its stack is that of every position control can go to
next. -/
structure Typing (ret : List Kind) (code : Code) (K : Nat → Option (List Kind)) : Prop where
  entry : K 0 = some []
  step : ∀ n i σ, code[n]? = some i → K n = some σ → ∃ τ, i.retype? ret σ = some τ ∧
    (i.isTerminal = false → K (n + 1) = some τ) ∧
    ∀ op l, i = .jump op l → ∀ k, code[k]? = some (.mark l) → K k = some τ

/-- The stack before the instruction at `n`. -/
def Flow.at (ρ : Label → List Kind) (ret : List Kind) (code : Code) (n : Nat) :
    Option (List Kind) :=
  (run ρ ret (code.take n) ⟨some [], []⟩).bind fun f =>
    f.stack.or (match code[n]? with
      | some (.mark l) => some (ρ l)
      | _ => none)

namespace Flow

variable {body : Code} {f : Flow}

/-- A run passes through every position. -/
theorem run_at {start : Flow} (h : run ρ ret body start = some f) {n : Nat} {i : Instr}
    (hi : body[n]? = some i) :
    ∃ g g', run ρ ret (body.take n) start = some g ∧ g.step ρ ret i = some g' ∧
      run ρ ret (body.take (n + 1)) start = some g' := by
  have hn : n < body.length := (List.getElem?_eq_some_iff.mp hi).1
  have hsplit : body = body.take n ++ i :: body.drop (n + 1) := by
    rw [← (List.getElem?_eq_some_iff.mp hi).2, List.getElem_cons_drop, List.take_append_drop]
  rw [hsplit, run_append] at h
  obtain ⟨g, hg, h⟩ := Option.bind_eq_some_iff.mp h
  obtain ⟨g', hg', -⟩ := Option.bind_eq_some_iff.mp h
  refine ⟨g, g', hg, hg', ?_⟩
  rw [List.take_add_one, hi, run_append, hg]
  simp [run, hg']

theorem at_mark (h : run ρ ret body ⟨some [], []⟩ = some f) {n : Nat} {l : Label}
    (hi : body[n]? = some (.mark l)) : Flow.at ρ ret body n = some (ρ l) := by
  obtain ⟨⟨stack, reached⟩, g', hg, hstep, -⟩ := run_at h hi
  rw [Flow.at, hg, hi]
  cases stack with
  | none => rfl
  | some σ =>
    simp only [step] at hstep
    split at hstep
    · next hcond => exact congrArg some (hcond.2 σ rfl)
    · cases hstep

theorem at_of_stack {n : Nat} {g : Flow} {σ : List Kind}
    (h : run ρ ret (body.take n) ⟨some [], []⟩ = some g) (hσ : g.stack = some σ) :
    Flow.at ρ ret body n = some σ := by
  rw [Flow.at, h, Option.bind_some, hσ]
  rfl

/-- Before anything but a label, the stack is that of the run. -/
theorem stack_of_at {n : Nat} {g : Flow} {σ : List Kind}
    (h : run ρ ret (body.take n) ⟨some [], []⟩ = some g) (hmark : ∀ l, body[n]? ≠ some (.mark l))
    (hσ : Flow.at ρ ret body n = some σ) : g.stack = some σ := by
  rw [Flow.at, h, Option.bind_some] at hσ
  split at hσ
  · next l hl => exact (hmark l hl).elim
  · simpa using hσ

/-- The stacks along a run are an assignment. -/
theorem typing_of_run (h : run ρ ret body ⟨some [], []⟩ = some f) :
    Typing ret body (Flow.at ρ ret body) where
  entry := at_of_stack (g := ⟨some [], []⟩) rfl rfl
  step n i σ hi hσ := by
    obtain ⟨g, g', hg, hstep, hnext⟩ := run_at h hi
    cases i with
    | mark l =>
      have hl : ρ l = σ := Option.some.inj ((at_mark h hi).symm.trans hσ)
      refine ⟨σ, Instr.retype?_of_shape (i := .mark l) rfl ret σ, fun _ => ?_, nofun⟩
      refine at_of_stack hnext ?_
      simp only [step] at hstep
      split at hstep <;> cases hstep
      exact congrArg some hl
    | jump code l =>
      have hstack := stack_of_at hg (fun l hl => by rw [hi] at hl; cases hl) hσ
      simp only [step, hstack, Option.bind_some] at hstep
      split at hstep
      · next τ hτ =>
        split at hstep <;> cases hstep
        next hl =>
        refine ⟨τ, hτ, fun hterm => at_of_stack hnext ?_, ?_⟩
        · have hcode : code.isTerminal = false := hterm
          simp [hcode]
        · rintro _ _ ⟨⟩ k hk
          rw [at_mark h hk, hl]
      · cases hstep
    | _ =>
      have hstack := stack_of_at hg (fun l hl => by rw [hi] at hl; cases hl) hσ
      simp only [step, hstack, Option.bind_some] at hstep
      obtain ⟨τ, hτ, rfl⟩ := Option.map_eq_some_iff.mp hstep
      exact ⟨τ, hτ, fun _ => at_of_stack hnext rfl, nofun⟩

end Flow

end ClassGen
