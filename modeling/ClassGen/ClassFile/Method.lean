import ClassGen.ClassFile.Access
import ClassGen.Instr.Code

/-! Methods, and the frame in which the body of one is laid out: where the arguments
stand, which slot is free next and which label. Slots are counted without bound and
narrowed to sixteen bits where an instruction names one. -/

namespace ClassGen

structure Method where
  access : Access
  name : String
  descriptor : String
  code : Code
  maxLocals : UInt16
  deriving DecidableEq

/-- One argument: its type and its first slot. -/
structure Arg where
  slot : Nat
  type : FieldType
  deriving DecidableEq

namespace Arg

def loadOp (a : Arg) : Opcode :=
  match a.type with
  | .float => .fload
  | .double => .dload
  | .long => .lload
  | .object _ | .array _ => .aload
  | _ => .iload

def storeOp (a : Arg) : Opcode :=
  match a.type with
  | .float => .fstore
  | .double => .dstore
  | .long => .lstore
  | .object _ | .array _ => .astore
  | _ => .istore

def load (a : Arg) : Instr := .slot a.loadOp a.slot.toUInt16

def store (a : Arg) : Instr := .slot a.storeOp a.slot.toUInt16

end Arg

/-- A method whose body is being laid out. -/
structure Frame where
  access : Access
  name : String
  descriptor : String
  args : List Arg
  /-- The descriptor names no result. -/
  returnsVoid : Bool
  nextSlot : Nat
  nextLabel : Label := 0
  deriving DecidableEq

namespace Frame

/-- The receiver of an instance method takes slot zero, then come the arguments, then
the locals. -/
def start (access : Access) (name descriptor : String) : Except DescriptorError Frame :=
  (MethodDescriptor.parse descriptor).map fun parsed =>
    let base := if access.isStatic then 0 else 1
    { access, name, descriptor
      args := List.zipWith Arg.mk (parsed.argOffsets base) parsed.params
      returnsVoid := parsed.ret.isNone
      nextSlot := base + parsed.argWidth }

def newLabel (f : Frame) : Label × Frame := (f.nextLabel, { f with nextLabel := f.nextLabel + 1 })

/-- A slot for a value of this representation; even a missing value takes one. -/
def newSlot (f : Frame) (repr : Representation) : Nat × Frame :=
  (f.nextSlot, { f with nextSlot := f.nextSlot + max repr.slots 1 })

/-- Nothing is loaded for an argument that the descriptor does not have. -/
def loadArg (f : Frame) (index : Nat) : Code := (f.args[index]?.map Arg.load).toList

def storeArg (f : Frame) (index : Nat) : Code := (f.args[index]?.map Arg.store).toList

/-- The method with body `code`. A body that can fall off its end gets a return if the
method returns nothing. -/
def finish (f : Frame) (code : Code) : Method where
  access := f.access
  name := f.name
  descriptor := f.descriptor
  code := if Code.fallsThrough code && f.returnsVoid then code ++ [.op .vreturn] else code
  maxLocals := f.nextSlot.toUInt16

end Frame

end ClassGen
