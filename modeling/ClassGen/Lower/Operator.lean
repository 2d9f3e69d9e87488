import ClassGen.Lower.Value

/-! Operators on two values. Where both operands are evaluated, an operator is planned
from the types its operands will have: the type both are brought to, the code that
follows them, and the type of the result. -/

namespace ClassGen

/-- How an operator is applied to two evaluated operands. -/
structure OperatorPlan where
  operand : Ty
  result : Ty
  code : Code

namespace BinaryOp

/-- Jump on the sign of a difference that is taken when the comparison is false. -/
def negatedJump : BinaryOp → Opcode
  | eq => .ifne
  | ne => .ifeq
  | lt => .ifge
  | gt => .ifle
  | le => .ifgt
  | _ => .iflt

/-- The same for a jump that compares two integers itself. -/
def negatedIntJump : BinaryOp → Opcode
  | eq => .ifIcmpne
  | ne => .ifIcmpeq
  | lt => .ifIcmpge
  | gt => .ifIcmple
  | le => .ifIcmpgt
  | _ => .ifIcmplt

/-- Less-than comparisons read an unordered pair as greater, the others as less, so that
with a NaN only `ne` holds. -/
def unorderedIsGreater : BinaryOp → Bool
  | lt | le => true
  | _ => false

/-- Jump to `onFalse` unless the comparison of two numbers of type `kind` holds. -/
def numericTest (op : BinaryOp) (onFalse : Label) : Primitive → Code
  | .float => [.op (if op.unorderedIsGreater then .fcmpg else .fcmpl), .jump op.negatedJump onFalse]
  | .double => [.op (if op.unorderedIsGreater then .dcmpg else .dcmpl),
      .jump op.negatedJump onFalse]
  | _ => [.jump op.negatedIntJump onFalse]

/-- Jump to `onFalse` unless the objects compare as asked. -/
def objectTest (op : BinaryOp) (onFalse : Label) : Code :=
  [Code.callStatic Library.objectsEquals, .jump (if op = eq then .ifeq else .ifne) onFalse]

/-- Type the operands of a comparison are brought to, with the jump that follows them.
Numbers meet in the wider type, booleans compare as integers, and of anything else only
equality is defined. -/
def comparison? (op : BinaryOp) (left right : Ty) (onFalse : Label) : Option (Ty × Code) :=
  match left.numeric?, right.numeric? with
  | some a, some b =>
    let common := Primitive.wider a b
    some (.primitive common, op.numericTest onFalse common)
  | _, _ =>
    if left = .boolean ∧ right = .boolean then some (.boolean, [.jump op.negatedIntJump onFalse])
    else if op = eq ∨ op = ne then some (.object, op.objectTest onFalse)
    else none

/-- Turns falling through into true and a jump to `onFalse` into false. -/
def truthValue (onFalse done : Label) : Code :=
  [Code.pushBool true, Code.goto done, .mark onFalse, Code.pushBool false, .mark done]

/-- Exclusive or, on two booleans or two integers. -/
def xorPlan? (left right : Ty) : Option OperatorPlan :=
  match left.primitive?, right.primitive? with
  | some .boolean, some .boolean => some ⟨.boolean, .boolean, [.op .ixor]⟩
  | some .int, some .int => some ⟨.int, .int, [.op .ixor]⟩
  | _, _ => none

/-- Arithmetic, on two numbers in the wider of their types. -/
def arithmeticPlan? (op : BinaryOp) (left right : Ty) : Option OperatorPlan := do
  let common := Primitive.wider (← left.numeric?) (← right.numeric?)
  let code ← common.arithmeticOp? (← op.arithmetic?)
  return ⟨.primitive common, .primitive common, [.op code]⟩

/-- The plan for operands of these types; comparisons take two labels. -/
def plan? (op : BinaryOp) (left right : Ty) : Lower (Option OperatorPlan) := do
  if op.isRelational then
    let onFalse ← Lower.newLabel
    let done ← Lower.newLabel
    return (op.comparison? left right onFalse).map fun (common, test) =>
      ⟨common, .boolean, test ++ truthValue onFalse done⟩
  else if op = xor then
    return xorPlan? left right
  else
    return op.arithmeticPlan? left right

end BinaryOp

namespace Code

/-- `and`, or `or` if `isAnd` is false: the right operand runs only if the left one does
not decide. -/
def shortCircuit (isAnd : Bool) (decided done : Label) (left right : Code) : Code :=
  let skip : Opcode := if isAnd then .ifeq else .ifne
  left ++ [.jump skip decided] ++ right ++
    [.jump skip decided, pushBool isAnd, goto done, .mark decided, pushBool (!isAnd), .mark done]

/-- The texts that `left` and `right` append, as one string. -/
def concat (left right : Code) : Code :=
  [new Library.stringBuilder, .op .dup, callSpecial Library.builderInit] ++ left ++ right ++
    [callVirtual Library.builderToString]

end Code

end ClassGen
