import ClassGen.Lower.State

/-! Values on the operand stack: the code that leaves one there with the type it has,
and the conversions between types. -/

namespace ClassGen

/-- Code that leaves a value of `type` on the stack, or none if `type` is void. -/
structure Lowered where
  type : Ty
  code : Code

/-- Brings the value on the stack from the representation of `source` to that of
`target`: widening between scalars, boxing, unboxing, and a cast where one reference
class does not already say what the other needs. -/
def coerce (source target : Ty) : Code :=
  match source.representation, target.representation with
  | .scalar given, .scalar wanted => ((given.widenOp? wanted).map Instr.op).toList
  | .scalar given, .reference => Code.box given
  | .reference, .scalar wanted => Code.unbox wanted
  | .reference, .reference =>
    if target.className = Library.object ∨ source.className = target.className then []
    else [Code.checkcast target.className]
  | _, _ => []

theorem coerce_self (t : Ty) : coerce t t = [] := by
  unfold coerce
  cases t.representation with
  | scalar kind => cases kind <;> rfl
  | reference => simp
  | void => rfl

/-- Parameter descriptor of the append overload for a value of type `t`. -/
def appendParam : Ty → String
  | .primitive .void => Ty.object.descriptor
  | .primitive kind => kind.descriptor
  | _ => Ty.object.descriptor

/-- Appends a value of type `t` to the string builder under it. -/
def appendValue (t : Ty) : Instr := Code.callVirtual (Library.builderAppend (appendParam t))

namespace Lowered

/-- No value and no code. -/
def absent : Lowered := ⟨.void, []⟩

/-- The value as one of `target`, for the expression at `span`. A missing value cannot
stand for one. -/
def into (v : Lowered) (target : Ty) (span : Span) : Lower Code :=
  if v.type.isVoid && !target.isVoid then throw (.fault (.valueExpected target) span)
  else return v.code ++ coerce v.type target

/-- The value, appended to a string builder. -/
def appended (v : Lowered) (span : Span) : Lower Code :=
  if v.type.isVoid then throw (.fault .voidOperand span) else return v.code ++ [appendValue v.type]

/-- The value without what it leaves on the stack. -/
def dropped (v : Lowered) : Code := v.code ++ Code.popValue v.type.representation

end Lowered

end ClassGen
