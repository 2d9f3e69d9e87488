import ClassGen.Proofs.Machine.Step
import ClassGen.Source.Tree
import ClassGen.Specialization.Call

/-! Meaning of scalar expressions, without stacks, slots or labels. Operands are evaluated from
left to right; numbers of different types meet in the wider one; `and` and `or` leave the right
operand alone when the left one decides; integers are computed exactly and then wrapped. The names
that are read are recorded, so that the order of evaluation can be seen. -/

namespace ClassGen.Reference

open Machine (Arith)

/-- Value of a scalar type. -/
inductive Scalar where
  | int (value : Int32)
  | float (bits : UInt32)
  | double (bits : UInt64)
  | bool (value : Bool)
  deriving DecidableEq

namespace Scalar

def kind : Scalar → Primitive
  | int _ => .int
  | float _ => .float
  | double _ => .double
  | bool _ => .boolean

/-- As the machine holds it: truth values are the integers one and zero. -/
def cell : Scalar → Machine.Value
  | int v => .int v
  | float bits => .float bits
  | double bits => .double bits
  | bool b => .int (if b then 1 else 0)

/-- Conversion up the widening order; any other value stays as it is. -/
def widen (A : Arith) : Scalar → Primitive → Scalar
  | int v, .float => float (A.intToFloat v)
  | int v, .double => double (A.intToDouble v)
  | float bits, .double => double (A.floatToDouble bits)
  | v, _ => v

def ofLiteral : Literal → Option Scalar
  | .int v => some (int v)
  | .float bits => some (float bits)
  | .double bits => some (double bits)
  | .bool b => some (bool b)
  | .text _ => none

end Scalar

inductive EvalError where
  | divisionByZero
  /-- Not an expression of scalars. -/
  | stuck
  deriving DecidableEq

/-- Evaluation; the state holds the names read so far, latest first. -/
abbrev Eval := EStateM EvalError (List String)

/-- Truth of a comparison. Of an unordered pair only `ne` holds. -/
def holds : BinaryOp → Option Ordering → Bool
  | .eq, o => o == some .eq
  | .ne, o => o != some .eq
  | .lt, o => o == some .lt
  | .gt, o => o == some .gt
  | .le, o => o == some .lt || o == some .eq
  | .ge, o => o == some .gt || o == some .eq
  | _, _ => false

/-- Exact integer arithmetic; division rounds towards zero. -/
def intArithmetic : Arithmetic → Int → Int → Except EvalError Int
  | .add, a, b => .ok (a + b)
  | .sub, a, b => .ok (a - b)
  | .mul, a, b => .ok (a * b)
  | .div, a, b => if b = 0 then .error .divisionByZero else .ok (a.tdiv b)
  | .rem, a, b => if b = 0 then .error .divisionByZero else .ok (a.tmod b)
  | .neg, _, _ => .error .stuck

/-- An operator on two integers. -/
def applyInt (op : BinaryOp) (a b : Int32) : Except EvalError Scalar :=
  if op.isRelational then .ok (.bool (holds op (some (compare a.toInt b.toInt))))
  else if op = .xor then .ok (.int (a ^^^ b))
  else
    match op.arithmetic? with
    | some x => (intArithmetic x a.toInt b.toInt).map fun c => .int (Int32.ofInt c)
    | none => .error .stuck

/-- An operator on two numbers of one floating-point format. -/
def applyFloat {α : Type} (unit : Machine.FloatUnit α) (wrap : α → Scalar)
    (op : BinaryOp) (a b : α) : Except EvalError Scalar :=
  if op.isRelational then .ok (.bool (holds op (unit.compare a b)))
  else
    match op.arithmetic? with
    | some x => .ok (wrap (unit.binary x a b))
    | none => .error .stuck

/-- An operator on two truth values, of which false is the lesser. -/
def applyBool (op : BinaryOp) (a b : Bool) : Except EvalError Scalar :=
  if op.isRelational then .ok (.bool (holds op (some (compare a b))))
  else if op = .xor then .ok (.bool (a != b))
  else .error .stuck

/-- An operator on two values of one type. -/
def applyAlike (A : Arith) (op : BinaryOp) : Scalar → Scalar → Except EvalError Scalar
  | .int a, .int b => applyInt op a b
  | .float a, .float b => applyFloat A.float .float op a b
  | .double a, .double b => applyFloat A.double .double op a b
  | .bool a, .bool b => applyBool op a b
  | _, _ => .error .stuck

/-- An operator on two evaluated operands: the lower one is converted first. -/
def apply (A : Arith) (op : BinaryOp) (a b : Scalar) : Except EvalError Scalar :=
  let common := Primitive.wider a.kind b.kind
  applyAlike A op (a.widen A common) (b.widen A common)

def negate (A : Arith) : Scalar → Except EvalError Scalar
  | .int a => .ok (.int (Int32.ofInt (-a.toInt)))
  | .float a => .ok (.float (A.float.negate a))
  | .double a => .ok (.double (A.double.negate a))
  | .bool _ => .error .stuck

def invert : Scalar → Except EvalError Scalar
  | .bool b => .ok (.bool !b)
  | _ => .error .stuck

/-- The value that a left operand gives to `and` or `or` on its own. -/
def decided (op : BinaryOp) : Scalar → Except EvalError (Option Scalar)
  | .bool b => .ok (if b = (op == .or) then some (.bool b) else none)
  | _ => .error .stuck

def readName (env : String → Option Scalar) (name : String) : Eval Scalar := fun reads =>
  match env name with
  | some v => .ok v (name :: reads)
  | none => .error .stuck reads

/-- The value of an expression where names have the values `env`. -/
def eval (A : Arith) (env : String → Option Scalar) : Expr → Eval Scalar
  | .literal _ value =>
    match Scalar.ofLiteral value with
    | some v => pure v
    | none => throw .stuck
  | .ident _ name => readName env name
  | .group _ inner => eval A env inner
  | .negate _ operand => do MonadExcept.ofExcept (negate A (← eval A env operand))
  | .not _ operand => do MonadExcept.ofExcept (invert (← eval A env operand))
  | .binary _ op left right => do
    let a ← eval A env left
    if op = .and ∨ op = .or then
      match ← MonadExcept.ofExcept (decided op a) with
      | some v => return v
      | none => eval A env right
    else
      let b ← eval A env right
      MonadExcept.ofExcept (apply A op a b)
  | _ => throw .stuck

/-- The annotation gives the type `kind`, under the bindings of the instantiation. -/
def Annotated (map : Bindings) (note : Note) (kind : Primitive) : Prop :=
  Specialization.resolve map note.type = .ok (.primitive kind)

/-- Expressions over scalars, where names have the types `Γ` and every node is annotated with its
type. -/
inductive HasType (map : Bindings) (Γ : String → Option Primitive) : Expr → Primitive → Prop
  | literal {note value v} (hv : Scalar.ofLiteral value = some v) (hn : Annotated map note v.kind) :
    HasType map Γ (.literal note value) v.kind
  | ident {note name k} (hk : Γ name = some k) (hn : Annotated map note k) :
    HasType map Γ (.ident note name) k
  | group {note inner k} (hi : HasType map Γ inner k) (hn : Annotated map note k) :
    HasType map Γ (.group note inner) k
  | arithmetic {note op x left right a b} (hop : op.arithmetic? = some x)
      (hl : HasType map Γ left a)
    (hr : HasType map Γ right b) (ha : a.isNumeric) (hb : b.isNumeric)
    (hn : Annotated map note (Primitive.wider a b)) :
    HasType map Γ (.binary note op left right) (Primitive.wider a b)
  | xor {note left right k} (hk : k = .int ∨ k = .boolean) (hl : HasType map Γ left k)
    (hr : HasType map Γ right k) (hn : Annotated map note k) :
    HasType map Γ (.binary note .xor left right) k
  | logic {note op left right} (hop : op = .and ∨ op = .or) (hl : HasType map Γ left .boolean)
    (hr : HasType map Γ right .boolean) (hn : Annotated map note .boolean) :
    HasType map Γ (.binary note op left right) .boolean
  | compare {note op left right a b} (hop : op.isRelational) (hl : HasType map Γ left a)
    (hr : HasType map Γ right b) (hab : (a.isNumeric ∧ b.isNumeric) ∨ (a = .boolean ∧ b = .boolean))
    (hn : Annotated map note .boolean) : HasType map Γ (.binary note op left right) .boolean
  | negate {note operand k} (hk : k.isNumeric) (ho : HasType map Γ operand k)
    (hn : Annotated map note k) : HasType map Γ (.negate note operand) k
  | not {note operand} (ho : HasType map Γ operand .boolean) (hn : Annotated map note .boolean) :
    HasType map Γ (.not note operand) .boolean

end ClassGen.Reference
