import ClassGen.ClassFile.Pool
import ClassGen.ClassFile.StackDepth

/-! Assembling a method: every instruction becomes bytes with its constants in the
pool, or a branch that waits for its label. Then the labels are laid out and the
branches filled in. A branch is three bytes long whatever its distance, so the layout
needs no iteration. -/

namespace ClassGen

/-- An instruction whose constants are in the pool. -/
inductive Piece where
  | bytes (content : Bytes)
  | jump (code : Opcode) (target : Label)
  | mark (label : Label)

namespace Piece

/-- Bytes taken in the code. -/
def size : Piece → Nat
  | bytes content => content.length
  | jump _ _ => 3
  | mark _ => 0

end Piece

namespace Assembly

def withIndex (code : Opcode) (index : UInt16) : Bytes := code :: Bytes.ofU16 index

/-- The short form for an index that fits in a byte. -/
def loadConstant (index : UInt16) : Bytes :=
  if index.toNat < 256 then [Opcode.ldc, index.toUInt8] else withIndex .ldcW index

/-- The shortest form: an opcode of its own, an immediate operand, or the pool. Of the
zeros only the positive one has an opcode. -/
def encodeConstant : Constant → PoolM Bytes
  | .int value =>
    let v := value.toInt
    if -1 ≤ v ∧ v ≤ 5 then pure [Opcode.iconst0 + value.toUInt32.toUInt8]
    else if -128 ≤ v ∧ v ≤ 127 then pure [Opcode.bipush, value.toUInt32.toUInt8]
    else if -32768 ≤ v ∧ v ≤ 32767 then pure (withIndex .sipush value.toUInt32.toUInt16)
    else loadConstant <$> Pool.integer value
  | .float bits =>
    if bits = 0 then pure [Opcode.fconst0]
    else if bits = 0x3f800000 then pure [Opcode.fconst1]
    else if bits = 0x40000000 then pure [Opcode.fconst2]
    else loadConstant <$> Pool.float bits
  | .double bits =>
    if bits = 0 then pure [Opcode.dconst0]
    else if bits = 0x3ff0000000000000 then pure [Opcode.dconst1]
    else withIndex .ldc2W <$> Pool.double bits
  | .text value => loadConstant <$> Pool.string value

/-- Slots above 255 take the wide form. -/
def encodeSlot (code : Opcode) (index : UInt16) : Bytes :=
  if index.toNat < 256 then [code, index.toUInt8] else Opcode.wide :: withIndex code index

/-- A call through an interface also gives the slots of its arguments and receiver, in
one byte, and a zero. -/
def encodeInvoke (code : Opcode) (target : Member) : PoolM Bytes := do
  let interface := code == Opcode.invokeinterface
  let index ← Pool.methodRef target interface
  if interface then
    match MethodDescriptor.parse target.descriptor with
    | .ok d => return withIndex code index ++ [(d.argSlots + 1).toUInt8, 0]
    | .error e => throw (.descriptor e)
  else
    return withIndex code index

def encode : Instr → PoolM Piece
  | .op code => pure (.bytes [code])
  | .push value => .bytes <$> encodeConstant value
  | .slot code index => pure (.bytes (encodeSlot code index))
  | .jump code target => pure (.jump code target)
  | .mark label => pure (.mark label)
  | .type code className => (.bytes <| withIndex code ·) <$> Pool.className className
  | .field code target => (.bytes <| withIndex code ·) <$> Pool.fieldRef target
  | .invoke code target => .bytes <$> encodeInvoke code target

/-- Label offsets and total size. A label that is placed twice stands at the later
place. -/
def layout (pieces : List Piece) : Std.TreeMap Label Nat × Nat :=
  pieces.foldl
    (fun (offsets, position) piece =>
      (match piece with
        | .mark label => offsets.insert label position
        | _ => offsets,
        position + piece.size))
    (∅, 0)

/-- The branch at `position` to `destination`, if the distance fits in sixteen bits. -/
def branch (code : Opcode) (position destination : Nat) : Option Bytes :=
  let delta : Int := destination - position
  if -32768 ≤ delta ∧ delta ≤ 32767 then some (withIndex code (Int16.ofInt delta).toUInt16)
  else none

/-- The code from `position` on; `acc` holds what comes before it, last first. -/
def link (method : String) (offsets : Std.TreeMap Label Nat) :
    List Bytes → Nat → List Piece → Except ClassFormatError Bytes
  | acc, _, [] => .ok acc.reverse.flatten
  | acc, position, piece :: rest =>
    match piece with
    | .bytes content => link method offsets (content :: acc) (position + content.length) rest
    | .mark _ => link method offsets acc position rest
    | .jump code target =>
      match offsets[target]? with
      | none => .error (.unknownLabel method)
      | some destination =>
        match branch code position destination with
        | none => .error (.branchOutOfRange method)
        | some content => link method offsets (content :: acc) (position + 3) rest

/-- Resolves labels; the code is at most 65535 bytes long. -/
def resolve (method : String) (pieces : List Piece) : Except ClassFormatError Bytes :=
  let (offsets, size) := layout pieces
  if size > 65535 then .error (.codeTooLarge method) else link method offsets [] 0 pieces

end Assembly

/-- Machine code of a method. -/
structure Assembled where
  code : Bytes
  maxStack : UInt16

/-- Encodes the method against the pool. The stack is checked before any constant is
entered; labels are resolved after all of them are. -/
def Method.assemble (m : Method) : PoolM Assembled := do
  let maxStack ← MonadExcept.ofExcept m.maxStack
  let pieces ← m.code.mapM Assembly.encode
  let code ← MonadExcept.ofExcept (Assembly.resolve m.name pieces)
  return ⟨code, maxStack⟩

end ClassGen
