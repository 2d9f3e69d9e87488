import Std.Data.TreeMap
import ClassGen.ClassFile.Error
import ClassGen.ClassFile.Words
import ClassGen.Instr.Basic
import ClassGen.Text.Units

/-! The constant pool. Equal constants share one index; indices start at one and are
handed out in order of first use, a double taking two. An operation that finds the pool
full fails, and what it entered before stays. -/

namespace ClassGen

/-- A constant of the pool. Composite entries point to others by index. -/
inductive PoolEntry where
  | utf8 (text : String)
  | integer (value : Int32)
  | float (bits : UInt32)
  | double (bits : UInt64)
  | className (name : UInt16)
  | string (text : UInt16)
  | fieldRef (owner nameAndType : UInt16)
  | methodRef (owner nameAndType : UInt16)
  | interfaceMethodRef (owner nameAndType : UInt16)
  | nameAndType (name descriptor : UInt16)
  deriving DecidableEq

namespace PoolEntry

def tag : PoolEntry → UInt8
  | utf8 _ => 1
  | integer _ => 3
  | float _ => 4
  | double _ => 6
  | className _ => 7
  | string _ => 8
  | fieldRef _ _ => 9
  | methodRef _ _ => 10
  | interfaceMethodRef _ _ => 11
  | nameAndType _ _ => 12

/-- Indices taken by the entry. -/
def width : PoolEntry → Nat
  | double _ => 2
  | _ => 1

/-- The numbers of an entry as one number; zero for a text. -/
def number : PoolEntry → Nat
  | utf8 _ => 0
  | integer value => value.toUInt32.toNat
  | float bits => bits.toNat
  | double bits => bits.toNat
  | className i | string i => i.toNat
  | fieldRef i j | methodRef i j | interfaceMethodRef i j | nameAndType i j =>
    i.toNat * 65536 + j.toNat

def text : PoolEntry → String
  | utf8 t => t
  | _ => ""

/-- Total order by tag, number and text. -/
def order : PoolEntry → PoolEntry → Ordering :=
  compareLex (compareOn fun e => e.tag.toNat) (compareLex (compareOn number) (compareOn text))

/-- The text of a `utf8` entry is preceded by its byte length in sixteen bits. -/
def bytes (e : PoolEntry) : Bytes :=
  e.tag ::
    match e with
    | utf8 t =>
      let encoded := Text.modifiedUtf8 t
      Bytes.ofU16 encoded.length.toUInt16 ++ encoded
    | integer value => Bytes.ofU32 value.toUInt32
    | float bits => Bytes.ofU32 bits
    | double bits => Bytes.ofU64 bits
    | className i | string i => Bytes.ofU16 i
    | fieldRef i j | methodRef i j | interfaceMethodRef i j | nameAndType i j =>
      Bytes.ofU16 i ++ Bytes.ofU16 j

end PoolEntry

structure Pool where
  /-- In order of their indices. -/
  entries : Array PoolEntry := #[]
  index : Std.TreeMap PoolEntry UInt16 PoolEntry.order := ∅
  /-- One more than the last index taken. -/
  count : Nat := 1

/-- Computations on a pool; the pool outlives a failure. -/
abbrev PoolM := EStateM ClassFormatError Pool

namespace Pool

/-- Index of `e`, which is entered first if it is new. No index reaches 65535. -/
def intern (e : PoolEntry) : PoolM UInt16 := fun p =>
  match p.index[e]? with
  | some i => .ok i p
  | none =>
    if p.count + e.width > 65535 then .error .poolOverflow p
    else
      let i := p.count.toUInt16
      .ok i { entries := p.entries.push e, index := p.index.insert e i, count := p.count + e.width }

def utf8 (text : String) : PoolM UInt16 := intern (.utf8 text)

def integer (value : Int32) : PoolM UInt16 := intern (.integer value)

def float (bits : UInt32) : PoolM UInt16 := intern (.float bits)

def double (bits : UInt64) : PoolM UInt16 := intern (.double bits)

def className (name : String) : PoolM UInt16 := do
  intern (.className (← utf8 name))

def string (text : String) : PoolM UInt16 := do
  intern (.string (← utf8 text))

def nameAndType (name descriptor : String) : PoolM UInt16 := do
  let n ← utf8 name
  let d ← utf8 descriptor
  intern (.nameAndType n d)

def fieldRef (m : Member) : PoolM UInt16 := do
  let owner ← className m.owner
  let nt ← nameAndType m.name m.descriptor
  intern (.fieldRef owner nt)

def methodRef (m : Member) (interface : Bool) : PoolM UInt16 := do
  let owner ← className m.owner
  let nt ← nameAndType m.name m.descriptor
  intern (if interface then .interfaceMethodRef owner nt else .methodRef owner nt)

/-- The count, then every entry. -/
def bytes (p : Pool) : Bytes :=
  Bytes.ofU16 p.count.toUInt16 ++ p.entries.toList.flatMap PoolEntry.bytes

end Pool

end ClassGen
