import Mathlib.Algebra.GroupWithZero.Nat
import Mathlib.Logic.Function.Basic
import ClassGen.ClassFile.Unit
import ClassGen.Lower.Value
import ClassGen.Proofs.Machine.Semantics

/-! A machine for code without jumps that makes and shows objects. Objects have the fields that the
units of their classes declare. Texts are put together in builders; what a builder writes for a
value is left open, except that it writes a text as it is. -/

namespace ClassGen.Objects

inductive Value where
  | int (value : Int32)
  | float (bits : UInt32)
  | double (bits : UInt64)
  | null
  | text (value : String)
  | object (address : Nat)
  /-- A text in the making. -/
  | builder (address : Nat)
  deriving DecidableEq

namespace Value

def isReference : Value → Bool
  | null | text _ | object _ | builder _ => true
  | int _ | float _ | double _ => false

/-- The instruction that loads it from a slot. -/
def loadOp : Value → Opcode
  | int _ => .iload
  | float _ => .fload
  | double _ => .dload
  | null | text _ | object _ | builder _ => .aload

/-- It can be an argument or the content of a field of this type. A truth value is zero or one. -/
def isOf (v : Value) (type : FieldType) : Bool :=
  match type, v with
  | .boolean, int n => n = 0 || n = 1
  | .int, int _ | .float, float _ | .double, double _ => true
  | .object _, v | .array _, v => v.isReference
  | _, _ => false

def ofConstant : Constant → Value
  | .int n => int n
  | .float bits => float bits
  | .double bits => double bits
  | .text s => text s

end Value

structure Object where
  className : String
  /-- The constructor of its base class has run. -/
  isReady : Bool
  fields : Member → Option Value

structure State where
  stack : List Value
  locals : UInt16 → Option Value
  /-- By address. -/
  objects : List Object
  /-- By address; none until the constructor has run. -/
  builders : List (Option String)

/-- What the machine is told about the world. -/
structure World where
  units : List ClassUnit
  /-- What the append for a type of parameter writes for a value; none if it throws. -/
  render : List Object → FieldType → Value → Option String
  render_text : ∀ objects text, render objects (.object Library.string) (.text text) = some text

/-- Some unit of the class has the field. -/
def World.declares (w : World) (target : Member) : Bool :=
  w.units.any fun u => u.name == target.owner && u.fields.any fun f =>
    f.name == target.name && f.descriptor == target.descriptor

/-- Types of parameter that a builder has an append for. -/
def overloads : List FieldType :=
  [.boolean, .char, .int, .long, .float, .double, .object Library.string, .object Library.object]

/-- The type of parameter of the append that is named. -/
def overload? (target : Member) : Option FieldType :=
  match MethodDescriptor.parse target.descriptor with
  | .ok ⟨[type], some (.object result)⟩ =>
    if target.owner = Library.stringBuilder ∧ target.name = "append" ∧
      result = Library.stringBuilder ∧ type ∈ overloads
    then some type else none
  | _ => none

namespace State

def dup (σ : State) : Option State :=
  match σ.stack with
  | v :: stack => if v.loadOp = .dload then none else some { σ with stack := v :: v :: stack }
  | [] => none

def newBuilder (σ : State) : State :=
  { σ with stack := .builder σ.builders.length :: σ.stack, builders := σ.builders ++ [none] }

/-- The object at the address, if it has the field. -/
def holder (σ : State) (w : World) (target : Member) (address : Nat) : Option Object :=
  if w.declares target then σ.objects[address]?.filter (·.className == target.owner) else none

/-- An object is not read before it is ready. -/
def getField (σ : State) (w : World) (target : Member) : Option State :=
  match σ.stack with
  | .object address :: stack =>
    ((σ.holder w target address).filter (·.isReady)).bind fun o =>
      (o.fields target).map fun v => { σ with stack := v :: stack }
  | _ => none

def putField (σ : State) (w : World) (target : Member) : Option State :=
  match σ.stack, FieldType.parse target.descriptor with
  | v :: .object address :: stack, .ok type =>
    if v.isOf type then
      (σ.holder w target address).map fun o =>
        { σ with
          stack
          objects := σ.objects.set address
            { o with fields := Function.update o.fields target (some v) } }
    else none
  | _, _ => none

/-- Constructors: that of the base class, which every object needs once, and that of a builder. -/
def callSpecial (σ : State) (target : Member) : Option State :=
  if target = Library.objectInit then
    match σ.stack with
    | .object address :: stack =>
      (σ.objects[address]?.filter (!·.isReady)).map fun o =>
        { σ with stack, objects := σ.objects.set address { o with isReady := true } }
    | _ => none
  else if target = Library.builderInitText then
    match σ.stack with
    | .text s :: .builder address :: stack =>
      if σ.builders[address]? = some none then
        some { σ with stack, builders := σ.builders.set address (some s) }
      else none
    | _ => none
  else none

/-- Methods of a builder. -/
def callVirtual (σ : State) (w : World) (target : Member) : Option State :=
  if target = Library.builderToString then
    match σ.stack with
    | .builder address :: stack =>
      σ.builders[address]?.join.map fun s => { σ with stack := .text s :: stack }
    | _ => none
  else
    match overload? target, σ.stack with
    | some type, v :: .builder address :: stack =>
      if v.isOf type then
        σ.builders[address]?.join.bind fun s => (w.render σ.objects type v).map fun t =>
          { σ with
            stack := .builder address :: stack
            builders := σ.builders.set address (some (s ++ t)) }
      else none
    | _, _ => none

end State

/-- What an instruction does; none if it throws or cannot be executed. -/
def act (w : World) (σ : State) : Instr → Option State
  | .push c => some { σ with stack := .ofConstant c :: σ.stack }
  | .slot op n => ((σ.locals n).filter (op = ·.loadOp)).map fun v =>
      { σ with stack := v :: σ.stack }
  | .op op => if op = .dup then σ.dup else none
  | .type op c => if op = .new ∧ c = Library.stringBuilder then some σ.newBuilder else none
  | .field op target =>
    if op = .getfield then σ.getField w target else if op = .putfield then σ.putField w target
    else none
  | .invoke op target =>
    if op = .invokespecial then σ.callSpecial target
    else if op = .invokevirtual then σ.callVirtual w target
    else none
  | .jump _ _ | .mark _ => none

/-- Executes a fragment to its end. -/
def exec (w : World) : Code → State → Option State
  | [], σ => some σ
  | i :: rest, σ => (act w σ i).bind (exec w rest)

/-- What the method returns by this instruction; none if it does not return. -/
def State.returned? (σ : State) : Instr → Option (Option Value)
  | .op .vreturn => some none
  | .op .areturn => (σ.stack.head?.filter Value.isReference).map some
  | _ => none

/-- Nothing that is executed here ends the method. -/
theorem act_falls {w : World} {σ τ : State} {i : Instr} (h : act w σ i = some τ) :
    i.isTerminal = false := by
  cases i with
  | op op =>
    simp only [act] at h
    split_ifs at h with hop
    rw [hop]
    rfl
  | slot op n =>
    obtain ⟨v, hv, -⟩ := Option.map_eq_some_iff.mp h
    have hop := (Option.filter_eq_some_iff.mp hv).2
    rw [of_decide_eq_true hop]
    cases v <;> rfl
  | type op c =>
    simp only [act] at h
    split_ifs at h with hop
    rw [hop.1]
    rfl
  | field op target =>
    simp only [act] at h
    split_ifs at h with hget hput
    · rw [hget]
      rfl
    · rw [hput]
      rfl
  | invoke op target =>
    simp only [act] at h
    split_ifs at h with hspecial hvirtual
    · rw [hspecial]
      rfl
    · rw [hvirtual]
      rfl
  | push c => rfl
  | jump op l => cases h
  | mark l => rfl

/-- States with their position in the method. -/
abbrev semantics (w : World) : Machine.Semantics (Nat × State) where
  pc := Prod.fst
  acts _ i σ τ := τ.1 = σ.1 + 1 ∧ act w σ.2 i = some τ.2
  goes {P i σ τ} hi h := by
    rw [h.1]
    exact .next hi (act_falls h.2)

/-- The method, begun in the state `σ`, comes to a return in the state `τ`, with this result. -/
def Returns (w : World) (P : Code) (σ : State) (result : Option Value) (τ : State) : Prop :=
  ∃ trace n i, (semantics w).Run P (0, σ) trace (n, τ) ∧ P[n]? = some i ∧
    τ.returned? i = some result

/-- The state in which a method begins: the receiver and the arguments in their slots, one after
another, and nothing on the stack. -/
structure Enters (m : Method) (receiver : Value) (args : List Value) (σ : State) : Prop where
  stack : σ.stack = []
  receiver : σ.locals 0 = some receiver
  args : ∃ d, MethodDescriptor.parse m.descriptor = .ok d ∧ args.length = d.params.length ∧
    ∀ i type v, d.params[i]? = some type → args[i]? = some v → v.isOf type ∧
      ∃ slot : UInt16, slot.toNat = 1 + ((d.params.take i).map FieldType.slots).sum ∧
        σ.locals slot = some v

/-! ### Instructions -/

section Instructions

variable {w : World} {locals : UInt16 → Option Value} {objects : List Object}
  {builders : List (Option String)} {stack : List Value} {address : Nat} {o : Object} {v : Value}
  {text shown : String} {target : Member}

theorem act_load {n : UInt16} (h : locals n = some v) :
    act w ⟨stack, locals, objects, builders⟩ (.slot v.loadOp n) =
      some ⟨v :: stack, locals, objects, builders⟩ := by
  simp [act, h]

theorem act_pushText (text : String) :
    act w ⟨stack, locals, objects, builders⟩ (Code.pushText text) =
    some ⟨.text text :: stack, locals, objects, builders⟩ := rfl

theorem act_newBuilder : act w ⟨stack, locals, objects, builders⟩ (Code.new Library.stringBuilder) =
    some ⟨.builder builders.length :: stack, locals, objects, builders ++ [none]⟩ := by
  rw [Code.new, act, if_pos ⟨rfl, rfl⟩, State.newBuilder]

theorem act_dupBuilder : act w ⟨.builder address :: stack, locals, objects, builders⟩ (.op .dup) =
    some ⟨.builder address :: .builder address :: stack, locals, objects, builders⟩ := by
  have hne : Opcode.aload ≠ .dload := by decide
  rw [act, if_pos rfl, State.dup]
  exact if_neg hne

theorem act_loadThis (h : locals 0 = some (.object address)) :
    act w ⟨stack, locals, objects, builders⟩ Code.loadThis =
      some ⟨.object address :: stack, locals, objects, builders⟩ :=
  act_load h

theorem act_objectInit (ho : objects[address]? = some o) (hready : o.isReady = false) :
    act w ⟨.object address :: stack, locals, objects, builders⟩
      (Code.callSpecial Library.objectInit) =
      some ⟨stack, locals, objects.set address { o with isReady := true }, builders⟩ := by
  rw [Code.callSpecial, act, if_pos rfl, State.callSpecial, if_pos rfl]
  dsimp only
  rw [ho, Option.filter_some_pos (by simp [hready]), Option.map_some]

theorem State.holder_eq (hdeclared : w.declares target = true) (ho : objects[address]? = some o)
    (hclass : o.className = target.owner) :
    State.holder ⟨stack, locals, objects, builders⟩ w target address = some o := by
  rw [holder, if_pos hdeclared, ho, Option.filter_some_pos (by simp [hclass])]

theorem act_putField {type : FieldType} (hdeclared : w.declares target = true)
    (ho : objects[address]? = some o) (hclass : o.className = target.owner)
    (htype : FieldType.parse target.descriptor = .ok type) (hv : v.isOf type = true) :
    act w ⟨v :: .object address :: stack, locals, objects, builders⟩ (Code.putField target) =
      some ⟨stack, locals, objects.set address
        { o with fields := Function.update o.fields target (some v) }, builders⟩ := by
  rw [Code.putField, act, if_neg (by decide), if_pos rfl, State.putField]
  simp only [htype]
  rw [if_pos hv, State.holder_eq hdeclared ho hclass, Option.map_some]

theorem act_getField (hdeclared : w.declares target = true) (ho : objects[address]? = some o)
    (hclass : o.className = target.owner) (hready : o.isReady = true)
    (hv : o.fields target = some v) :
    act w ⟨.object address :: stack, locals, objects, builders⟩ (Code.getField target) =
      some ⟨v :: stack, locals, objects, builders⟩ := by
  rw [Code.getField, act, if_pos rfl, State.getField]
  dsimp only
  rw [State.holder_eq hdeclared ho hclass, Option.filter_some_pos hready, Option.bind_some, hv,
    Option.map_some]

theorem act_builderInit (hb : builders[address]? = some none) :
    act w ⟨.text text :: .builder address :: stack, locals, objects, builders⟩
        (Code.callSpecial Library.builderInitText) =
      some ⟨stack, locals, objects, builders.set address (some text)⟩ := by
  have hne : Library.builderInitText ≠ Library.objectInit := by decide
  rw [Code.callSpecial, act, if_pos rfl]
  simp [State.callSpecial, hne, hb]

theorem act_builderText (hb : builders[address]? = some (some text)) :
    act w ⟨.builder address :: stack, locals, objects, builders⟩
      (Code.callVirtual Library.builderToString) =
      some ⟨.text text :: stack, locals, objects, builders⟩ := by
  rw [Code.callVirtual, act, if_neg (by decide), if_pos rfl]
  simp [State.callVirtual, hb]

/-- The type of parameter of the append that is chosen for a type. -/
def appended : Ty → FieldType
  | .primitive .int => .int
  | .primitive .float => .float
  | .primitive .double => .double
  | .primitive .boolean => .boolean
  | .primitive .string => .object Library.string
  | _ => .object Library.object

theorem overload?_append (t : Ty) :
    overload? (Library.builderAppend (appendParam t)) = some (appended t) := by
  have hobject : overload? (Library.builderAppend Ty.object.descriptor) =
      some (.object Library.object) := by
    decide +kernel
  cases t with
  | primitive kind => cases kind <;> decide +kernel
  | _ => exact hobject

theorem act_append {t : Ty} (hb : builders[address]? = some (some text))
    (hv : v.isOf (appended t) = true) (hshown : w.render objects (appended t) v = some shown) :
    act w ⟨v :: .builder address :: stack, locals, objects, builders⟩ (appendValue t) =
      some ⟨.builder address :: stack, locals, objects,
        builders.set address (some (text ++ shown))⟩ := by
  have hne : Library.builderAppend (appendParam t) ≠ Library.builderToString := fun h =>
    absurd (congrArg Member.name h) (by decide : "append" ≠ "toString")
  rw [appendValue, Code.callVirtual, act, if_neg (by decide), if_pos rfl]
  simp [State.callVirtual, hne, overload?_append, hb, hv, hshown]

/-- A text is appended as it is. -/
theorem act_appendText {t : String} (hb : builders[address]? = some (some text)) :
    act w ⟨.text t :: .builder address :: stack, locals, objects, builders⟩ (appendValue .string) =
      some ⟨.builder address :: stack, locals, objects, builders.set address (some (text ++ t))⟩ :=
  act_append hb rfl (w.render_text objects t)

end Instructions

/-! ### Fragments -/

variable {w : World} {σ ρ τ : State} {a b : Code}

@[simp] theorem exec_nil : exec w [] σ = some σ := rfl

@[simp] theorem exec_cons (i : Instr) (c : Code) :
    exec w (i :: c) σ = (act w σ i).bind (exec w c) := rfl

theorem exec_append (a b : Code) (σ : State) :
    exec w (a ++ b) σ = (exec w a σ).bind (exec w b) := by
  induction a generalizing σ with
  | nil => rfl
  | cons i a ih =>
    rw [List.cons_append, exec_cons, exec_cons, Option.bind_assoc]
    exact congrArg _ (funext ih)

theorem exec_trans (ha : exec w a σ = some ρ) (hb : exec w b ρ = some τ) :
    exec w (a ++ b) σ = some τ := by
  rw [exec_append, ha, Option.bind_some, hb]

/-- A fragment is executed wherever it stands. -/
theorem straight_of_exec {P : Code} {n : Nat} (h : exec w a σ = some τ) (hat : P.At n a) :
    ∃ trace, (semantics w).Straight P n a (n, σ) trace (n + a.length, τ) := by
  induction a generalizing σ n with
  | nil =>
    cases h
    exact ⟨[], .nil rfl⟩
  | cons i a ih =>
    obtain ⟨ρ, hact, hrest⟩ := Option.bind_eq_some_iff.mp h
    obtain ⟨trace, hstraight⟩ := ih hrest hat.tail
    have hstep : (semantics w).Step P (n, σ) (n + 1, ρ) := ⟨i, hat.head, rfl, hact⟩
    have hend : n + (i :: a).length = n + 1 + a.length := by
      rw [List.length_cons]
      omega
    rw [hend]
    exact ⟨_, .cons hstep rfl rfl hstraight⟩

theorem returns_of_exec {i : Instr} {result : Option Value} (h : exec w a σ = some τ)
    (hi : τ.returned? i = some result) : Returns w (a ++ [i]) σ result τ := by
  obtain ⟨trace, hstraight⟩ := straight_of_exec h (Code.at_self (a ++ [i])).left
  refine ⟨trace, a.length, i, ?_, List.getElem?_concat_length, hi⟩
  rw [← Nat.zero_add a.length]
  exact hstraight.through.run

theorem step_unique {P : Code} {σ τ τ' : Nat × State} (h : (semantics w).Step P σ τ)
    (h' : (semantics w).Step P σ τ') : τ = τ' := by
  obtain ⟨i, hi, hpc, hact⟩ := h
  obtain ⟨i', hi', hpc', hact'⟩ := h'
  obtain rfl := Option.some.inj (hi.symm.trans hi')
  exact Prod.ext (hpc.trans hpc'.symm) (Option.some.inj (hact.symm.trans hact'))

/-- A method returns in one way. -/
theorem Returns.unique {P : Code} {r r' : Option Value} {τ' : State} (h : Returns w P σ r τ)
    (h' : Returns w P σ r' τ') : r = r' ∧ τ = τ' := by
  obtain ⟨trace, n, i, hrun, hi, hr⟩ := h
  obtain ⟨trace', n', i', hrun', hi', hr'⟩ := h'
  have hstuck {n : Nat} {i : Instr} {τ : State} {r : Option Value} (hi : P[n]? = some i)
      (hr : τ.returned? i = some r)
      (κ : Nat × State) : ¬(semantics w).Step P (n, τ) κ := by
    rintro ⟨i₁, hi₁, -, hact⟩
    obtain rfl := Option.some.inj (hi.symm.trans hi₁)
    -- a return is no part of what goes on
    unfold State.returned? at hr
    split at hr <;> first | cases hact | cases hr
  obtain ⟨rfl, rfl⟩ := Prod.mk.inj (hrun.stuck_unique (fun _ _ _ => step_unique)
    (hstuck hi hr) hrun' (hstuck hi' hr'))
  obtain rfl := Option.some.inj (hi.symm.trans hi')
  exact ⟨Option.some.inj (hr.symm.trans hr'), rfl⟩

/-- A new builder, begun with a text. -/
theorem exec_newBuilder {stack : List Value} {locals : UInt16 → Option Value}
    {objects : List Object} {builders : List (Option String)} (text : String) :
    exec w [Code.new Library.stringBuilder, .op .dup, Code.pushText text,
      Code.callSpecial Library.builderInitText]
        ⟨stack, locals, objects, builders⟩ =
      some ⟨.builder builders.length :: stack, locals, objects, builders ++ [some text]⟩ := by
  have hlast : (builders ++ [none])[builders.length]? = some none := List.getElem?_concat_length
  have hset : (builders ++ [none]).set builders.length (some text) =
      builders ++ [some text] := by simp
  simp only [exec_cons, act_newBuilder, act_dupBuilder, act_pushText, act_builderInit hlast, hset,
    Option.bind_some, exec_nil]

/-- The text of a builder, with one more text at its end. -/
theorem exec_lastText {stack : List Value} {locals : UInt16 → Option Value} {objects : List Object}
    {builders : List (Option String)} {address : Nat} {text : String} (last : String)
    (hb : builders[address]? = some (some text)) :
    exec w [Code.pushText last, appendValue .string, Code.callVirtual Library.builderToString]
        ⟨.builder address :: stack, locals, objects, builders⟩ =
      some ⟨.text (text ++ last) :: stack, locals, objects,
        builders.set address (some (text ++ last))⟩ := by
  have hlast : (builders.set address (some (text ++ last)))[address]? =
      some (some (text ++ last)) :=
    List.getElem?_set_self (List.getElem?_eq_some_iff.mp hb).1
  simp only [exec_cons, act_pushText, act_appendText hb, act_builderText hlast,
    Option.bind_some, exec_nil]

end ClassGen.Objects
