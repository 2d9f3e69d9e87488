import ClassGen.ClassFile.Assembly
import ClassGen.Proofs.Assembly.Pool
import ClassGen.Proofs.Fragment

/-! A linear decoder of machine code. It knows the operands of each opcode and the entries of the
pool, and nothing of how the code was made: branches have displacements in place of labels. -/

namespace ClassGen

/-- Operands that follow an opcode. -/
inductive Opcode.Form where
  | plain
  /-- Pushes a constant, given by the opcode, an immediate operand or the pool. -/
  | constant
  | slot
  /-- Widens the slot of the instruction after it. -/
  | wide
  | jump
  | type
  | field
  | invoke
  | other
  deriving DecidableEq

/-- Constants with opcodes of their own are no plain ones; increments, switches, dynamic calls,
array constructors and long jumps are left out. -/
def Opcode.form (code : Opcode) : Form :=
  let c := code.toNat
  if c ≤ 0x01 ∨ c = 0x09 ∨ c = 0x0a then .plain
  else if c ≤ 0x14 then .constant
  else if c ≤ 0x19 then .slot
  else if c ≤ 0x35 then .plain
  else if c ≤ 0x3a then .slot
  else if c ≤ 0x83 then .plain
  else if c = 0x84 then .other
  else if c ≤ 0x98 then .plain
  else if c ≤ 0xa8 then .jump
  else if c ≤ 0xab then .other
  else if c ≤ 0xb1 then .plain
  else if c ≤ 0xb5 then .field
  else if c ≤ 0xb9 then .invoke
  else if c = 0xbb ∨ c = 0xbd ∨ c = 0xc0 ∨ c = 0xc1 then .type
  else if c = 0xbe ∨ c = 0xbf ∨ c = 0xc2 ∨ c = 0xc3 then .plain
  else if c = 0xc4 then .wide
  else if c = 0xc6 ∨ c = 0xc7 then .jump
  else .other

/-- Reads a big-endian word. -/
def Bytes.toU16 (hi lo : UInt8) : UInt16 := UInt16.ofNat (hi.toNat * 256 + lo.toNat)

theorem Bytes.toU16_ofU16 (v : UInt16) : toU16 (v >>> 8).toUInt8 v.toUInt8 = v := by
  have hv := v.toNat_lt
  have hhi : (v >>> 8).toUInt8.toNat = v.toNat / 256 := by
    rw [UInt16.toNat_toUInt8, UInt16.toNat_shiftRight]
    show v.toNat >>> 8 % 256 = _
    rw [Nat.shiftRight_eq_div_pow]
    omega
  have hlo : v.toUInt8.toNat = v.toNat % 256 := UInt16.toNat_toUInt8 v
  rw [toU16, hhi, hlo, Nat.div_add_mod', UInt16.ofNat_toNat]

/-- An instruction read back. -/
inductive Decoded where
  | op (code : Opcode)
  | push (value : Constant)
  | slot (code : Opcode) (index : UInt16)
  | jump (code : Opcode) (displacement : Int)
  | type (code : Opcode) (className : String)
  | field (code : Opcode) (target : Member)
  | invoke (code : Opcode) (target : Member)
  deriving DecidableEq

namespace Decoder

/-- The constant that an opcode stands for. -/
def ownConstant? : Opcode → Option Constant
  | .fconst0 => some (.float 0)
  | .fconst1 => some (.float 0x3f800000)
  | .fconst2 => some (.float 0x40000000)
  | .dconst0 => some (.double 0)
  | .dconst1 => some (.double 0x3ff0000000000000)
  | code => if 2 ≤ code.toNat ∧ code.toNat ≤ 8 then some (.int (Int32.ofInt (code.toNat - 3)))
      else none

/-- Immediate operands are signed. -/
def constant? (p : Pool) : Opcode → Bytes → Option (Constant × Bytes)
  | .bipush, b :: rest => some (.int b.toInt8.toInt32, rest)
  | .sipush, hi :: lo :: rest => some (.int (Bytes.toU16 hi lo).toInt16.toInt32, rest)
  | .ldc, i :: rest => (p.word? i.toUInt16).map (·, rest)
  | .ldcW, hi :: lo :: rest => (p.word? (Bytes.toU16 hi lo)).map (·, rest)
  | .ldc2W, hi :: lo :: rest => (p.double? (Bytes.toU16 hi lo)).map (·, rest)
  | code, rest => (ownConstant? code).map (·, rest)

/-- A call through an interface repeats the slots of its arguments and receiver. -/
def invoke? (p : Pool) (code : Opcode) : Bytes → Option (Member × Bytes)
  | hi :: lo :: rest => do
    let target ← p.methodRef? (code == .invokeinterface) (Bytes.toU16 hi lo)
    if code = .invokeinterface then
      match MethodDescriptor.parse target.descriptor, rest with
      | .ok d, count :: 0 :: rest =>
        if count.toNat = d.argWidth + 1 then return (target, rest) else none
      | _, _ => none
    else return (target, rest)
  | _ => none

/-- The first instruction, and the bytes after it. -/
@[grind =]
def instr? (p : Pool) : Bytes → Option (Decoded × Bytes)
  | [] => none
  | code :: operands =>
    match Opcode.form code, operands with
    | .plain, rest => some (.op code, rest)
    | .constant, rest => (constant? p code rest).map fun (value, rest) => (.push value, rest)
    | .slot, i :: rest => some (.slot code i.toUInt16, rest)
    | .wide, code :: hi :: lo :: rest =>
      if Opcode.form code = .slot then some (.slot code (Bytes.toU16 hi lo), rest) else none
    | .jump, hi :: lo :: rest => some (.jump code (Bytes.toU16 hi lo).toInt16.toInt, rest)
    | .type, hi :: lo :: rest => (p.className? (Bytes.toU16 hi lo)).map fun name =>
        (.type code name, rest)
    | .field, hi :: lo :: rest => (p.fieldRef? (Bytes.toU16 hi lo)).map fun target =>
        (.field code target, rest)
    | .invoke, rest => (invoke? p code rest).map fun (target, rest) => (.invoke code target, rest)
    | _, _ => none

/-- Instructions with their offsets, the first one at `offset`. -/
def decodeFrom (p : Pool) : Nat → Nat → Bytes → Option (List (Nat × Decoded))
  | _, _, [] => some []
  | 0, _, _ => none
  | fuel + 1, offset, bytes => do
    let (d, rest) ← instr? p bytes
    return (offset, d) :: (← decodeFrom p fuel (offset + (bytes.length - rest.length)) rest)

/-- All instructions of the code with their offsets; every one takes a byte at least. -/
def decode (p : Pool) (code : Bytes) : Option (List (Nat × Decoded)) :=
  decodeFrom p code.length 0 code

end Decoder

end ClassGen
