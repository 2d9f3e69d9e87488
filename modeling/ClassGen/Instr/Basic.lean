import ClassGen.Descriptor
import ClassGen.Instr.Opcode

/-! Symbolic instructions. Constants stand for themselves and branch targets are
labels; pool indices and byte offsets appear only when a method is assembled. Any
opcode may occur in any form: the forms say which operands an instruction carries,
`stackEffect` what it does to the depth of the operand stack. -/

namespace ClassGen

/-- Branch target, unique within a method. -/
abbrev Label := Nat

/-- Constant that can be pushed. Floating-point values are their bit patterns, so that
signed zeros and NaN payloads are kept. -/
inductive Constant where
  | int (value : Int32)
  | float (bits : UInt32)
  | double (bits : UInt64)
  | text (value : String)
  deriving DecidableEq

/-- A field or method of a class, by name and descriptor. -/
structure Member where
  owner : String
  name : String
  descriptor : String
  deriving DecidableEq

inductive Instr where
  /-- No operand. -/
  | op (code : Opcode)
  | push (value : Constant)
  /-- Access to a local slot. -/
  | slot (code : Opcode) (index : UInt16)
  | jump (code : Opcode) (target : Label)
  /-- Places `label` before the next instruction; no code of its own. -/
  | mark (label : Label)
  /-- Operand is a class. -/
  | type (code : Opcode) (className : String)
  | field (code : Opcode) (target : Member)
  | invoke (code : Opcode) (target : Member)
  deriving DecidableEq

namespace Instr

/-- The opcode written in the instruction; a push chooses its own and a mark has none. -/
def opcode? : Instr → Option Opcode
  | op code | slot code _ | jump code _ | type code _ | field code _ | invoke code _ => some code
  | push _ | mark _ => none

/-- Control never falls through to the next instruction. -/
def isTerminal (i : Instr) : Bool := i.opcode?.any Opcode.isTerminal

/-- Calls some method of this name. -/
def invokes (i : Instr) (method : String) : Bool :=
  match i with
  | invoke _ target => target.name == method
  | _ => false

/-- Depth change of the operand-free opcodes. -/
def opEffect : Opcode → Int
  | .iadd | .isub | .imul | .idiv | .irem | .ixor | .fadd | .fsub | .fmul | .fdiv | .frem => -1
  | .dadd | .dsub | .dmul | .ddiv | .drem => -2
  | .i2d | .f2d => 1
  | .fcmpl | .fcmpg => -1
  | .dcmpl | .dcmpg => -3
  | .ireturn | .freturn | .areturn | .athrow | .pop => -1
  | .dreturn | .pop2 => -2
  | .dup | .aconstNull => 1
  | .dup2 => 2
  | _ => 0

def slotEffect : Opcode → Int
  | .iload | .fload | .aload => 1
  | .lload | .dload => 2
  | .istore | .fstore | .astore => -1
  | .lstore | .dstore => -2
  | _ => 0

def jumpEffect : Opcode → Int
  | .ifeq | .ifne | .iflt | .ifge | .ifgt | .ifle | .ifnull | .ifnonnull => -1
  | .ifIcmpeq | .ifIcmpne | .ifIcmplt | .ifIcmpge | .ifIcmpgt | .ifIcmple | .ifAcmpeq
  | .ifAcmpne => -2
  | _ => 0

/-- Depth change of a field access whose value takes `size` slots. -/
def fieldEffect (code : Opcode) (size : Int) : Int :=
  match code with
  | .getstatic => size
  | .putstatic => -size
  | .getfield => size - 1
  | _ => -size - 1

/-- Every call but a static one also consumes its receiver. -/
def invokeEffect (code : Opcode) (d : MethodDescriptor) : Int :=
  d.returnSlots - d.argSlots.toNat - (if code = .invokestatic then 0 else 1)

/-- Net change of the operand stack depth, in slots. -/
def stackEffect : Instr → Except DescriptorError Int
  | op code => .ok (opEffect code)
  | push (.double _) => .ok 2
  | push _ => .ok 1
  | slot code _ => .ok (slotEffect code)
  | jump code _ => .ok (jumpEffect code)
  | mark _ => .ok 0
  | type code _ => .ok (if code = .new then 1 else 0)
  | field code target => (FieldType.parse target.descriptor).map fun t => fieldEffect code t.slots
  | invoke code target => (MethodDescriptor.parse target.descriptor).map (invokeEffect code)

end Instr

end ClassGen
