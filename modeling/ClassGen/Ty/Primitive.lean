import ClassGen.Instr.Opcode

/-! Primitive types and the choices that hang on them alone: descriptor letter, box
class, slot size and typed opcodes. The numeric ones are ordered int, float, double;
a lower one is widened to a higher one and never the other way. -/

namespace ClassGen

inductive Primitive where
  | int | float | double | boolean | string | void
  deriving DecidableEq

/-- Arithmetic with an opcode of its own for every numeric type. -/
inductive Arithmetic where
  | add | sub | mul | div | rem | neg
  deriving DecidableEq

namespace Primitive

def name : Primitive → String
  | int => "int"
  | float => "float"
  | double => "double"
  | boolean => "boolean"
  | string => "string"
  | void => "void"

/-- Place in the widening order; none for the types that do not widen. -/
def rank? : Primitive → Option Nat
  | int => some 0
  | float => some 1
  | double => some 2
  | _ => none

def isNumeric (p : Primitive) : Bool := p.rank?.isSome

/-- Held unboxed on the stack. -/
def isScalar : Primitive → Bool
  | int | float | double | boolean => true
  | _ => false

def descriptor : Primitive → String
  | int => "I"
  | float => "F"
  | double => "D"
  | boolean => "Z"
  | string => "Ljava/lang/String;"
  | void => "V"

def boxedClass? : Primitive → Option String
  | int => some "java/lang/Integer"
  | float => some "java/lang/Float"
  | double => some "java/lang/Double"
  | boolean => some "java/lang/Boolean"
  | string => some "java/lang/String"
  | void => none

/-- Method of the box class that returns the scalar. -/
def unboxMethod? : Primitive → Option String
  | int => some "intValue"
  | float => some "floatValue"
  | double => some "doubleValue"
  | boolean => some "booleanValue"
  | _ => none

def slots : Primitive → Nat
  | double => 2
  | void => 0
  | _ => 1

def loadOp : Primitive → Opcode
  | int | boolean => .iload
  | float => .fload
  | double => .dload
  | string | void => .aload

def storeOp : Primitive → Opcode
  | int | boolean => .istore
  | float => .fstore
  | double => .dstore
  | string | void => .astore

def returnOp : Primitive → Opcode
  | int | boolean => .ireturn
  | float => .freturn
  | double => .dreturn
  | string => .areturn
  | void => .vreturn

/-- Defined exactly for the numeric types. -/
def arithmeticOp? : Primitive → Arithmetic → Option Opcode
  | int, .add => some .iadd
  | int, .sub => some .isub
  | int, .mul => some .imul
  | int, .div => some .idiv
  | int, .rem => some .irem
  | int, .neg => some .ineg
  | float, .add => some .fadd
  | float, .sub => some .fsub
  | float, .mul => some .fmul
  | float, .div => some .fdiv
  | float, .rem => some .frem
  | float, .neg => some .fneg
  | double, .add => some .dadd
  | double, .sub => some .dsub
  | double, .mul => some .dmul
  | double, .div => some .ddiv
  | double, .rem => some .drem
  | double, .neg => some .dneg
  | _, _ => none

/-- Conversion up the widening order. -/
def widenOp? : Primitive → Primitive → Option Opcode
  | int, float => some .i2f
  | int, double => some .i2d
  | float, double => some .f2d
  | _, _ => none

/-- The higher of two numeric types. -/
def wider (a b : Primitive) : Primitive := if a.rank?.getD 0 < b.rank?.getD 0 then b else a

end Primitive

/-- How a value is held on the operand stack and in a slot. -/
inductive Representation where
  | scalar (kind : Primitive)
  | reference
  /-- There is no value. -/
  | void
  deriving DecidableEq

namespace Representation

def isScalar : Representation → Bool
  | scalar _ => true
  | _ => false

def slots : Representation → Nat
  | scalar kind => kind.slots
  | reference => 1
  | void => 0

def loadOp : Representation → Opcode
  | scalar kind => kind.loadOp
  | _ => .aload

def storeOp : Representation → Opcode
  | scalar kind => kind.storeOp
  | _ => .astore

def returnOp : Representation → Opcode
  | scalar kind => kind.returnOp
  | reference => .areturn
  | void => .vreturn

end Representation

end ClassGen
