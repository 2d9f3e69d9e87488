import ClassGen.Library
import ClassGen.Ty.Primitive

/-! Fragments of code and the small pieces they are put together from. A fragment is
a list of instructions; fragments are joined by appending. -/

namespace ClassGen

/-- A run of instructions. -/
abbrev Code := List Instr

namespace Code

def pushInt (value : Int32) : Instr := .push (.int value)

def pushBool (value : Bool) : Instr := pushInt (if value then 1 else 0)

def pushText (value : String) : Instr := .push (.text value)

/-- The constant one, in the type `kind`. -/
def pushOne : Primitive → Instr
  | .float => .push (.float 0x3f800000)
  | .double => .push (.double 0x3ff0000000000000)
  | _ => pushInt 1

def loadSlot (slot : Nat) (repr : Representation) : Instr := .slot repr.loadOp slot.toUInt16

def storeSlot (slot : Nat) (repr : Representation) : Instr := .slot repr.storeOp slot.toUInt16

/-- The receiver of an instance method. -/
def loadThis : Instr := loadSlot 0 .reference

def goto (target : Label) : Instr := .jump .goto target

def new (className : String) : Instr := .type .new className

def checkcast (className : String) : Instr := .type .checkcast className

def instanceOf (className : String) : Instr := .type .instanceof className

def getField (target : Member) : Instr := .field .getfield target

def putField (target : Member) : Instr := .field .putfield target

def putStatic (target : Member) : Instr := .field .putstatic target

def callStatic (target : Member) : Instr := .invoke .invokestatic target

def callVirtual (target : Member) : Instr := .invoke .invokevirtual target

def callSpecial (target : Member) : Instr := .invoke .invokespecial target

def callInterface (target : Member) : Instr := .invoke .invokeinterface target

/-- Runs the constructor of `className` that takes `descriptor`. -/
def construct (className descriptor : String) : Instr :=
  callSpecial ⟨className, Library.constructor, descriptor⟩

/-- A scalar on the stack becomes its box; other values stay as they are. -/
def box (kind : Primitive) : Code :=
  match kind.isScalar, kind.boxedClass? with
  | true, some boxed =>
    [callStatic ⟨boxed, "valueOf", "(" ++ kind.descriptor ++ ")" ++ Library.reference boxed⟩]
  | _, _ => []

/-- A value that is known to be the box of `kind` becomes the scalar. -/
def unboxUnchecked (kind : Primitive) : Code :=
  match kind.boxedClass?, kind.unboxMethod? with
  | some boxed, some method => [callVirtual ⟨boxed, method, "()" ++ kind.descriptor⟩]
  | _, _ => []

/-- Any object on the stack becomes the scalar `kind`, or the cast fails. -/
def unbox (kind : Primitive) : Code :=
  match kind.boxedClass?, kind.unboxMethod? with
  | some boxed, some _ => checkcast boxed :: unboxUnchecked kind
  | _, _ => []

/-- Discards a value of this representation. -/
def popValue (repr : Representation) : Code :=
  match repr.slots with
  | 0 => []
  | 2 => [.op .pop2]
  | _ => [.op .pop]

def returnValue (repr : Representation) : Instr := .op repr.returnOp

/-- Control can reach the end of the fragment. -/
def fallsThrough (code : Code) : Bool := !code.getLast?.any Instr.isTerminal

end Code

end ClassGen
