/-! Opcodes of the stack machine, by their mnemonics. An opcode is a byte; only the
ones that code generation or the assembler decides on have a name. -/

namespace ClassGen

abbrev Opcode := UInt8

namespace Opcode

@[match_pattern] abbrev aconstNull : Opcode := 0x01
/-- The integers from -1 to 5 have the opcodes from one before this on. -/
@[match_pattern] abbrev iconst0 : Opcode := 0x03
@[match_pattern] abbrev fconst0 : Opcode := 0x0b
@[match_pattern] abbrev fconst1 : Opcode := 0x0c
@[match_pattern] abbrev fconst2 : Opcode := 0x0d
@[match_pattern] abbrev dconst0 : Opcode := 0x0e
@[match_pattern] abbrev dconst1 : Opcode := 0x0f
@[match_pattern] abbrev bipush : Opcode := 0x10
@[match_pattern] abbrev sipush : Opcode := 0x11
@[match_pattern] abbrev ldc : Opcode := 0x12
@[match_pattern] abbrev ldcW : Opcode := 0x13
@[match_pattern] abbrev ldc2W : Opcode := 0x14

@[match_pattern] abbrev iload : Opcode := 0x15
@[match_pattern] abbrev lload : Opcode := 0x16
@[match_pattern] abbrev fload : Opcode := 0x17
@[match_pattern] abbrev dload : Opcode := 0x18
@[match_pattern] abbrev aload : Opcode := 0x19
@[match_pattern] abbrev istore : Opcode := 0x36
@[match_pattern] abbrev lstore : Opcode := 0x37
@[match_pattern] abbrev fstore : Opcode := 0x38
@[match_pattern] abbrev dstore : Opcode := 0x39
@[match_pattern] abbrev astore : Opcode := 0x3a

@[match_pattern] abbrev pop : Opcode := 0x57
@[match_pattern] abbrev pop2 : Opcode := 0x58
@[match_pattern] abbrev dup : Opcode := 0x59
@[match_pattern] abbrev dup2 : Opcode := 0x5c

@[match_pattern] abbrev iadd : Opcode := 0x60
@[match_pattern] abbrev fadd : Opcode := 0x62
@[match_pattern] abbrev dadd : Opcode := 0x63
@[match_pattern] abbrev isub : Opcode := 0x64
@[match_pattern] abbrev fsub : Opcode := 0x66
@[match_pattern] abbrev dsub : Opcode := 0x67
@[match_pattern] abbrev imul : Opcode := 0x68
@[match_pattern] abbrev fmul : Opcode := 0x6a
@[match_pattern] abbrev dmul : Opcode := 0x6b
@[match_pattern] abbrev idiv : Opcode := 0x6c
@[match_pattern] abbrev fdiv : Opcode := 0x6e
@[match_pattern] abbrev ddiv : Opcode := 0x6f
@[match_pattern] abbrev irem : Opcode := 0x70
@[match_pattern] abbrev frem : Opcode := 0x72
@[match_pattern] abbrev drem : Opcode := 0x73
@[match_pattern] abbrev ineg : Opcode := 0x74
@[match_pattern] abbrev fneg : Opcode := 0x76
@[match_pattern] abbrev dneg : Opcode := 0x77
@[match_pattern] abbrev ixor : Opcode := 0x82

@[match_pattern] abbrev i2f : Opcode := 0x86
@[match_pattern] abbrev i2d : Opcode := 0x87
@[match_pattern] abbrev f2d : Opcode := 0x8d

@[match_pattern] abbrev fcmpl : Opcode := 0x95
@[match_pattern] abbrev fcmpg : Opcode := 0x96
@[match_pattern] abbrev dcmpl : Opcode := 0x97
@[match_pattern] abbrev dcmpg : Opcode := 0x98

@[match_pattern] abbrev ifeq : Opcode := 0x99
@[match_pattern] abbrev ifne : Opcode := 0x9a
@[match_pattern] abbrev iflt : Opcode := 0x9b
@[match_pattern] abbrev ifge : Opcode := 0x9c
@[match_pattern] abbrev ifgt : Opcode := 0x9d
@[match_pattern] abbrev ifle : Opcode := 0x9e
@[match_pattern] abbrev ifIcmpeq : Opcode := 0x9f
@[match_pattern] abbrev ifIcmpne : Opcode := 0xa0
@[match_pattern] abbrev ifIcmplt : Opcode := 0xa1
@[match_pattern] abbrev ifIcmpge : Opcode := 0xa2
@[match_pattern] abbrev ifIcmpgt : Opcode := 0xa3
@[match_pattern] abbrev ifIcmple : Opcode := 0xa4
@[match_pattern] abbrev ifAcmpeq : Opcode := 0xa5
@[match_pattern] abbrev ifAcmpne : Opcode := 0xa6
@[match_pattern] abbrev goto : Opcode := 0xa7

@[match_pattern] abbrev ireturn : Opcode := 0xac
@[match_pattern] abbrev freturn : Opcode := 0xae
@[match_pattern] abbrev dreturn : Opcode := 0xaf
@[match_pattern] abbrev areturn : Opcode := 0xb0
@[match_pattern] abbrev vreturn : Opcode := 0xb1

@[match_pattern] abbrev getstatic : Opcode := 0xb2
@[match_pattern] abbrev putstatic : Opcode := 0xb3
@[match_pattern] abbrev getfield : Opcode := 0xb4
@[match_pattern] abbrev putfield : Opcode := 0xb5
@[match_pattern] abbrev invokevirtual : Opcode := 0xb6
@[match_pattern] abbrev invokespecial : Opcode := 0xb7
@[match_pattern] abbrev invokestatic : Opcode := 0xb8
@[match_pattern] abbrev invokeinterface : Opcode := 0xb9
@[match_pattern] abbrev new : Opcode := 0xbb
@[match_pattern] abbrev athrow : Opcode := 0xbf
@[match_pattern] abbrev checkcast : Opcode := 0xc0
@[match_pattern] abbrev instanceof : Opcode := 0xc1
@[match_pattern] abbrev wide : Opcode := 0xc4
@[match_pattern] abbrev ifnull : Opcode := 0xc6
@[match_pattern] abbrev ifnonnull : Opcode := 0xc7

/-- Control never reaches the next instruction: a jump, a return or a throw. -/
def isTerminal : Opcode → Bool
  | goto | ireturn | freturn | dreturn | areturn | vreturn | athrow => true
  | _ => false

end Opcode

end ClassGen
