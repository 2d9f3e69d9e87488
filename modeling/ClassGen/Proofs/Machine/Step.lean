import ClassGen.Proofs.Machine.Semantics

/-! A stack machine for symbolic code. The operand stack holds values, a double being one
value there and two slots among the locals. Integers wrap at thirty-two bits; the floating
units and the conversions into them are parameters of which nothing is assumed. Objects are
only what a failing method needs: they can be made, constructed and thrown. -/

namespace ClassGen.Machine

/-- Arithmetic of one floating-point format, on bit patterns. -/
structure FloatUnit (α : Type) where
  /-- Never asked for `neg`. -/
  binary : Arithmetic → α → α → α
  negate : α → α
  /-- None for an unordered pair. -/
  compare : α → α → Option Ordering

/-- What the machine leaves open. -/
structure Arith where
  float : FloatUnit UInt32
  double : FloatUnit UInt64
  intToFloat : Int32 → UInt32
  intToDouble : Int32 → UInt64
  floatToDouble : UInt32 → UInt64

inductive Value where
  | int (value : Int32)
  | float (bits : UInt32)
  | double (bits : UInt64)
  | text (value : String)
  /-- Address of an object. -/
  | object (address : Nat)
  deriving DecidableEq

def Value.isDouble : Value → Bool
  | double _ => true
  | _ => false

structure Object where
  className : String
  /-- What its constructor was given; none until it has run. -/
  args : Option (List Value) := none
  deriving DecidableEq

structure State where
  pc : Nat
  stack : List Value := []
  locals : Nat → Option Value
  heap : List Object := []
  /-- Slots that were loaded, latest first. -/
  reads : List Nat := []

/-- How a method ends. -/
inductive Ending where
  | returned (value : Option Value)
  | divisionByZero
  | thrown (object : Object)
  deriving DecidableEq

/-- What one instruction does. -/
inductive Move where
  | go (next : State)
  | stop (ending : Ending)

/-- A double also takes the next slot, and what it overlaps is lost. -/
def store (locals : Nat → Option Value) (slot : Nat) (v : Value) : Nat → Option Value := fun k =>
  if k = slot then some v
  else if v.isDouble ∧ k = slot + 1 then none
  else if k + 1 = slot ∧ (locals k).any Value.isDouble then none
  else locals k

/-- Outcome of a comparison instruction that reads an unordered pair as `unordered`. -/
def orderValue (unordered : Int32) : Option Ordering → Int32
  | none => unordered
  | some .lt => -1
  | some .eq => 0
  | some .gt => 1

/-- Effect of an operand-free instruction: a new stack, or the end of the method. -/
inductive Effect where
  | stack (stack : List Value)
  | stop (ending : Ending)

def onInt (f : Int32 → Value) : List Value → Option Effect
  | .int a :: st => some (.stack (f a :: st))
  | _ => none

/-- An operation without a result divides by zero. -/
def onInts (f : Int32 → Int32 → Option Int32) : List Value → Option Effect
  | .int b :: .int a :: st =>
    match f a b with
    | some c => some (.stack (.int c :: st))
    | none => some (.stop .divisionByZero)
  | _ => none

def onFloat (f : UInt32 → Value) : List Value → Option Effect
  | .float a :: st => some (.stack (f a :: st))
  | _ => none

def onFloats (f : UInt32 → UInt32 → Value) : List Value → Option Effect
  | .float b :: .float a :: st => some (.stack (f a b :: st))
  | _ => none

def onDouble (f : UInt64 → Value) : List Value → Option Effect
  | .double a :: st => some (.stack (f a :: st))
  | _ => none

def onDoubles (f : UInt64 → UInt64 → Value) : List Value → Option Effect
  | .double b :: .double a :: st => some (.stack (f a b :: st))
  | _ => none

/-- Ends the method with the value on top, if it is one of those that `kind` accepts. -/
def returning (kind : Value → Bool) : List Value → Option Effect
  | v :: _ => if kind v then some (.stop (.returned (some v))) else none
  | [] => none

def Value.isInt : Value → Bool
  | int _ => true
  | _ => false

def Value.isFloat : Value → Bool
  | float _ => true
  | _ => false

def Value.isReference : Value → Bool
  | text _ | object _ => true
  | _ => false

def operate (A : Arith) (heap : List Object) : Opcode → List Value → Option Effect
  | .iadd => onInts fun a b => some (a + b)
  | .isub => onInts fun a b => some (a - b)
  | .imul => onInts fun a b => some (a * b)
  | .idiv => onInts fun a b => if b = 0 then none else some (a / b)
  | .irem => onInts fun a b => if b = 0 then none else some (a % b)
  | .ixor => onInts fun a b => some (a ^^^ b)
  | .ineg => onInt fun a => .int (-a)
  | .fadd => onFloats fun a b => .float (A.float.binary .add a b)
  | .fsub => onFloats fun a b => .float (A.float.binary .sub a b)
  | .fmul => onFloats fun a b => .float (A.float.binary .mul a b)
  | .fdiv => onFloats fun a b => .float (A.float.binary .div a b)
  | .frem => onFloats fun a b => .float (A.float.binary .rem a b)
  | .fneg => onFloat fun a => .float (A.float.negate a)
  | .dadd => onDoubles fun a b => .double (A.double.binary .add a b)
  | .dsub => onDoubles fun a b => .double (A.double.binary .sub a b)
  | .dmul => onDoubles fun a b => .double (A.double.binary .mul a b)
  | .ddiv => onDoubles fun a b => .double (A.double.binary .div a b)
  | .drem => onDoubles fun a b => .double (A.double.binary .rem a b)
  | .dneg => onDouble fun a => .double (A.double.negate a)
  | .i2f => onInt fun a => .float (A.intToFloat a)
  | .i2d => onInt fun a => .double (A.intToDouble a)
  | .f2d => onFloat fun a => .double (A.floatToDouble a)
  | .fcmpl => onFloats fun a b => .int (orderValue (-1) (A.float.compare a b))
  | .fcmpg => onFloats fun a b => .int (orderValue 1 (A.float.compare a b))
  | .dcmpl => onDoubles fun a b => .int (orderValue (-1) (A.double.compare a b))
  | .dcmpg => onDoubles fun a b => .int (orderValue 1 (A.double.compare a b))
  | .pop => fun st => match st with
    | v :: st => if v.isDouble then none else some (.stack st)
    | [] => none
  | .pop2 => fun st => match st with
    | .double _ :: st => some (.stack st)
    | _ => none
  | .dup => fun st => match st with
    | v :: st => if v.isDouble then none else some (.stack (v :: v :: st))
    | [] => none
  | .ireturn => returning Value.isInt
  | .freturn => returning Value.isFloat
  | .dreturn => returning Value.isDouble
  | .areturn => returning Value.isReference
  | .vreturn => fun _ => some (.stop (.returned none))
  | .athrow => fun st => match st with
    | .object a :: _ => heap[a]?.map fun o => .stop (.thrown o)
    | _ => none
  | _ => fun _ => none

def test (p : Int32 → Bool) : List Value → Option (Bool × List Value)
  | .int a :: st => some (p a, st)
  | _ => none

def testPair (p : Int32 → Int32 → Bool) : List Value → Option (Bool × List Value)
  | .int b :: .int a :: st => some (p a b, st)
  | _ => none

/-- Whether a branch is taken, and the stack it leaves. -/
def branches : Opcode → List Value → Option (Bool × List Value)
  | .ifeq => test (· == 0)
  | .ifne => test (· != 0)
  | .iflt => test fun a => decide (a < 0)
  | .ifge => test fun a => decide (0 ≤ a)
  | .ifgt => test fun a => decide (0 < a)
  | .ifle => test fun a => decide (a ≤ 0)
  | .ifIcmpeq => testPair (· == ·)
  | .ifIcmpne => testPair (· != ·)
  | .ifIcmplt => testPair fun a b => decide (a < b)
  | .ifIcmpge => testPair fun a b => decide (b ≤ a)
  | .ifIcmpgt => testPair fun a b => decide (b < a)
  | .ifIcmple => testPair fun a b => decide (a ≤ b)
  | .goto => fun st => some (true, st)
  | _ => fun _ => none

/-- The values that a load instruction accepts; none for other instructions. -/
def loadKind? : Opcode → Option (Value → Bool)
  | .iload => some Value.isInt
  | .fload => some Value.isFloat
  | .dload => some Value.isDouble
  | .aload => some Value.isReference
  | _ => none

def storeKind? : Opcode → Option (Value → Bool)
  | .istore => some Value.isInt
  | .fstore => some Value.isFloat
  | .dstore => some Value.isDouble
  | .astore => some Value.isReference
  | _ => none

def constantValue : Constant → Value
  | .int v => .int v
  | .float bits => .float bits
  | .double bits => .double bits
  | .text t => .text t

namespace State

/-- Past the current instruction, with this stack. -/
def next (s : State) (stack : List Value) : State := { s with pc := s.pc + 1, stack }

def load (s : State) (accepts : Value → Bool) (slot : Nat) : Option State :=
  match s.locals slot with
  | some v => if accepts v then some { s.next (v :: s.stack) with reads := slot :: s.reads }
      else none
  | none => none

def save (s : State) (accepts : Value → Bool) (slot : Nat) : Option State :=
  match s.stack with
  | v :: st => if accepts v then some { s.next st with locals := store s.locals slot v } else none
  | [] => none

def access (s : State) (code : Opcode) (slot : Nat) : Option State :=
  match loadKind? code, storeKind? code with
  | some accepts, _ => s.load accepts slot
  | none, some accepts => s.save accepts slot
  | none, none => none

def create (s : State) (className : String) : State :=
  { s.next (.object s.heap.length :: s.stack) with heap := s.heap ++ [{ className }] }

/-- Gives the object under `count` arguments to its constructor. -/
def construct (s : State) (count : Nat) : Option State :=
  match s.stack.drop count with
  | .object a :: st =>
    s.heap[a]?.map fun o =>
      { s.next st with heap := s.heap.set a { o with args := some (s.stack.take count).reverse } }
  | _ => none

end State

@[grind =]
def exec (A : Arith) (P : Code) (s : State) : Instr → Option Move
  | .op code =>
    match operate A s.heap code s.stack with
    | some (.stack st) => some (.go (s.next st))
    | some (.stop e) => some (.stop e)
    | none => none
  | .push c => some (.go (s.next (constantValue c :: s.stack)))
  | .slot code index => (s.access code index.toNat).map .go
  | .jump code label =>
    match branches code s.stack with
    | some (true, st) => (target P label).map fun n => .go { s with pc := n, stack := st }
    | some (false, st) => some (.go (s.next st))
    | none => none
  | .mark _ => some (.go (s.next s.stack))
  | .type code className => if code = .new then some (.go (s.create className)) else none
  | .field _ _ => none
  | .invoke code m =>
    match MethodDescriptor.parse m.descriptor with
    | .ok d =>
      if code = .invokespecial ∧ m.name = Library.constructor then
        (s.construct d.params.length).map .go
      else none
    | .error _ => none

/-- One step of program `P`; none if it cannot go on. -/
@[grind =]
def step (A : Arith) (P : Code) (s : State) : Option Move := P[s.pc]?.bind (exec A P s)

/-- Operations that end the method leave no stack. -/
theorem operate_falls {A : Arith} {heap : List Object} {code : Opcode} {st st' : List Value}
    (h : operate A heap code st = some (.stack st')) : code.isTerminal = false := by
  have hreturns (kind : Value → Bool) : returning kind st ≠ some (.stack st') := by
    unfold returning
    split
    · split_ifs <;> simp
    · simp
  cases hterminal : code.isTerminal with
  | false => rfl
  | true =>
    unfold Opcode.isTerminal at hterminal
    split at hterminal
    · cases h
    · exact absurd h (hreturns _)
    · exact absurd h (hreturns _)
    · exact absurd h (hreturns _)
    · exact absurd h (hreturns _)
    · cases h
    · simp only [operate] at h
      split at h
      · obtain ⟨o, -, ho⟩ := Option.map_eq_some_iff.mp h
        cases ho
      · cases h
    · cases hterminal

theorem access_falls {s t : State} {code : Opcode} {slot : Nat} (h : s.access code slot = some t) :
    code.isTerminal = false ∧ t.pc = s.pc + 1 := by
  unfold State.access at h
  cases hload : loadKind? code with
  | some accepts =>
    simp only [hload, State.load] at h
    split at h
    · split_ifs at h
      cases h
      refine ⟨?_, rfl⟩
      unfold loadKind? at hload
      split at hload <;> first | rfl | cases hload
    · cases h
  | none =>
    cases hstore : storeKind? code with
    | some accepts =>
      simp only [hload, hstore, State.save] at h
      split at h
      · split_ifs at h
        cases h
        refine ⟨?_, rfl⟩
        unfold storeKind? at hstore
        split at hstore <;> first | rfl | cases hstore
      · cases h
    | none =>
      simp only [hload, hstore] at h
      cases h

/-- A branch that is not taken is no goto. -/
theorem branches_falls {code : Opcode} {st st' : List Value}
    (h : branches code st = some (false, st')) : code.isTerminal = false := by
  unfold branches at h
  split at h <;> first | rfl | cases h

/-- Control goes where the code says. -/
theorem exec_goes {A : Arith} {P : Code} {i : Instr} {s t : State} (hi : P[s.pc]? = some i)
    (h : exec A P s i = some (.go t)) : P.Goes s.pc t.pc := by
  have hfalls (hterminal : i.isTerminal = false) (hpc : t.pc = s.pc + 1) : P.Goes s.pc t.pc := by
    rw [hpc]
    exact .next hi hterminal
  cases i with
  | op code =>
    simp only [exec] at h
    split at h
    · next hst =>
      cases h
      exact hfalls (operate_falls hst) rfl
    · cases h
    · cases h
  | push c | mark l =>
    cases h
    exact hfalls rfl rfl
  | slot code index =>
    obtain ⟨u, hu, heq⟩ := Option.map_eq_some_iff.mp h
    cases heq
    exact hfalls (access_falls hu).1 (access_falls hu).2
  | jump code label =>
    simp only [exec] at h
    split at h
    · obtain ⟨n, hn, heq⟩ := Option.map_eq_some_iff.mp h
      cases heq
      exact .jump hi (getElem?_target hn)
    · next hb =>
      cases h
      exact hfalls (branches_falls hb) rfl
    · cases h
  | type code className =>
    simp only [exec] at h
    split_ifs at h with hcode
    cases h
    exact hfalls (hcode ▸ rfl) rfl
  | field code m => cases h
  | invoke code m =>
    simp only [exec] at h
    split at h
    · split_ifs at h with hcode
      obtain ⟨u, hu, heq⟩ := Option.map_eq_some_iff.mp h
      cases heq
      refine hfalls (hcode.1 ▸ rfl) ?_
      unfold State.construct at hu
      split at hu
      · obtain ⟨o, -, heq⟩ := Option.map_eq_some_iff.mp hu
        cases heq
        rfl
      · cases hu
    · cases h

def semantics (A : Arith) : Semantics State where
  pc := State.pc
  acts P i s t := exec A P s i = some (.go t)
  goes := exec_goes

theorem step_iff {A : Arith} {P : Code} {s t : State} :
    (semantics A).Step P s t ↔ step A P s = some (.go t) := Option.bind_eq_some_iff.symm

theorem step_unique {A : Arith} {P : Code} {s t t' : State} (h : (semantics A).Step P s t)
    (h' : (semantics A).Step P s t') : t = t' := by
  have hgo := (step_iff.mp h).symm.trans (step_iff.mp h')
  cases hgo
  rfl

/-- Any number of steps. -/
def Runs (A : Arith) (P : Code) (s t : State) : Prop := ∃ trace, (semantics A).Run P s trace t

/-- Running from `s` ends the method in this way. -/
def Ends (A : Arith) (P : Code) (s : State) (e : Ending) : Prop :=
  ∃ t, Runs A P s t ∧ step A P t = some (.stop e)

end ClassGen.Machine
