import ClassGen.Proofs.Assembly.Decoder
import ClassGen.Proofs.Text.ModifiedUtf8

/-! A reader of class files. It follows the format alone: a pool of as many indices as the file
declares, whose entries point to entries of the right kind, then the class with its members and
attributes, each list after its count and each attribute after its length. Nothing may be left
unread. -/

namespace ClassGen

/-- Takes what it reads from the front of the bytes. -/
abbrev Reader := StateT Bytes Option

namespace Reader

variable {α β : Type}

/-! ### Words, lists and stretches of bytes -/

def u8 : Reader UInt8 := fun
  | b :: rest => some (b, rest)
  | [] => none

def u16 : Reader UInt16 := do
  let hi ← u8
  let lo ← u8
  return Bytes.toU16 hi lo

def u32 : Reader UInt32 := do
  let hi ← u16
  let lo ← u16
  return UInt32.ofNat (hi.toNat * 65536 + lo.toNat)

def u64 : Reader UInt64 := do
  let hi ← u32
  let lo ← u32
  return UInt64.ofNat (hi.toNat * 4294967296 + lo.toNat)

/-- The next `n` bytes. -/
def stretch (n : Nat) : Reader Bytes := fun bytes =>
  if n ≤ bytes.length then some (bytes.take n, bytes.drop n) else none

def times : Nat → Reader α → Reader (List α)
  | 0, _ => pure []
  | n + 1, r => do
    let first ← r
    let rest ← times n r
    return first :: rest

/-- A list after its count. -/
def counted (r : Reader α) : Reader (List α) := do
  let n ← u16
  times n.toNat r

/-- A value found elsewhere; reads nothing. -/
def found (a : Option α) : Reader α := fun bytes => a.map (·, bytes)

/-- Fails unless `b`. -/
def check (b : Bool) : Reader Unit := found (if b then some () else none)

/-- What `r` makes of the bytes, if it reads them to the end. -/
def whole (r : Reader α) (bytes : Bytes) : Option α :=
  match r bytes with
  | some (a, []) => some a
  | _ => none

/-! ### The pool -/

/-- The two indices of a reference. -/
def pair (make : UInt16 → UInt16 → PoolEntry) : Reader PoolEntry := do
  let i ← u16
  let j ← u16
  return make i j

/-- What comes after a tag. -/
def tagged : Nat → Reader PoolEntry
  | 1 => do
    let length ← u16
    let content ← stretch length.toNat
    let text ← found (Text.decode? content)
    return .utf8 text
  | 3 => do return .integer (← u32).toInt32
  | 4 => do return .float (← u32)
  | 6 => do return .double (← u64)
  | 7 => do return .className (← u16)
  | 8 => do return .string (← u16)
  | 9 => pair .fieldRef
  | 10 => pair .methodRef
  | 11 => pair .interfaceMethodRef
  | 12 => pair .nameAndType
  | _ => found none

def constant : Reader PoolEntry := do
  let tag ← u8
  tagged tag.toNat

/-- Constants that take `n` indices together. -/
def constants : Nat → Reader (List PoolEntry)
  | 0 => pure []
  | 1 => do
    let e ← constant
    check (e.width == 1)
    return [e]
  | n + 2 => do
    let e ← constant
    let rest ← if e.width = 1 then constants (n + 1) else constants n
    return e :: rest

end Reader

/-- What a reference points to is of its kind. -/
def PoolEntry.isBacked (p : Pool) : PoolEntry → Bool
  | className i | string i => (p.text? i).isSome
  | fieldRef owner nt | methodRef owner nt | interfaceMethodRef owner nt =>
      (p.member? owner nt).isSome
  | nameAndType name descriptor => (p.text? name).isSome && (p.text? descriptor).isSome
  | utf8 _ | integer _ | float _ | double _ => true

/-- The pool of a file that was read, for looking indices up. -/
def Pool.ofConstants (constants : List PoolEntry) : Pool where
  entries := constants.toArray

/-! ### The class -/

/-- An attribute by its name, its content unread. -/
structure RawAttribute where
  name : String
  content : Bytes
  deriving DecidableEq

/-- A range of code, and where an exception thrown in it goes. -/
structure Handler where
  first : UInt16
  stop : UInt16
  target : UInt16
  caught : UInt16
  deriving DecidableEq

structure CodeInfo where
  maxStack : UInt16
  maxLocals : UInt16
  code : Bytes
  handlers : List Handler
  attributes : List RawAttribute
  deriving DecidableEq

inductive Attribute where
  | code (info : CodeInfo)
  | sourceFile (name : String)
  | other (raw : RawAttribute)
  deriving DecidableEq

/-- A field or a method. -/
structure MemberInfo where
  access : Access
  name : String
  descriptor : String
  attributes : List Attribute
  deriving DecidableEq

structure ClassBody where
  access : Access
  name : String
  superName : String
  interfaces : List String
  fields : List MemberInfo
  methods : List MemberInfo
  attributes : List Attribute
  deriving DecidableEq

structure ClassInfo extends ClassBody where
  minor : UInt16
  major : UInt16
  /-- As the file declares it. -/
  constantCount : UInt16
  constants : List PoolEntry
  deriving DecidableEq

namespace Reader

variable (p : Pool)

def text : Reader String := do
  let i ← u16
  found (p.text? i)

def className : Reader String := do
  let i ← u16
  found (p.className? i)

def rawAttribute : Reader RawAttribute := do
  let name ← text p
  let length ← u32
  let content ← stretch length.toNat
  return ⟨name, content⟩

def handler : Reader Handler := do
  let first ← u16
  let stop ← u16
  let target ← u16
  let caught ← u16
  return ⟨first, stop, target, caught⟩

def codeInfo : Reader CodeInfo := do
  let maxStack ← u16
  let maxLocals ← u16
  let length ← u32
  let code ← stretch length.toNat
  let handlers ← counted handler
  let attributes ← counted (rawAttribute p)
  return ⟨maxStack, maxLocals, code, handlers, attributes⟩

/-- The content of an attribute that is understood is read to its end. -/
def understood (raw : RawAttribute) : Option Attribute :=
  if raw.name = "Code" then (whole (codeInfo p) raw.content).map .code
  else if raw.name = "SourceFile" then (whole (text p) raw.content).map .sourceFile
  else some (.other raw)

def attributeInfo : Reader Attribute := do
  let raw ← rawAttribute p
  found (understood p raw)

def memberInfo : Reader MemberInfo := do
  let access ← u16
  let name ← text p
  let descriptor ← text p
  let attributes ← counted (attributeInfo p)
  return ⟨access, name, descriptor, attributes⟩

def classBody : Reader ClassBody := do
  let access ← u16
  let name ← className p
  let superName ← className p
  let interfaces ← counted (className p)
  let fields ← counted (memberInfo p)
  let methods ← counted (memberInfo p)
  let attributes ← counted (attributeInfo p)
  return { access, name, superName, interfaces, fields, methods, attributes }

def classInfo : Reader ClassInfo := do
  let magic ← u32
  check (magic == 0xcafebabe)
  let minor ← u16
  let major ← u16
  let constantCount ← u16
  check (constantCount != 0)
  let constants ← constants (constantCount.toNat - 1)
  check (constants.all (·.isBacked (.ofConstants constants)))
  let body ← classBody (.ofConstants constants)
  return { body with minor, major, constantCount, constants }

end Reader

/-- The class that the bytes, all of them, stand for. -/
def ClassInfo.parse (bytes : Bytes) : Option ClassInfo := Reader.whole Reader.classInfo bytes

namespace Reader

variable {α β : Type} {r : Reader α} {content rest : Bytes} {a : α}

/-! ### Reading what was written -/

/-- The bytes are read as `a`, whatever comes after them. -/
def Reads (r : Reader α) (content : Bytes) (a : α) : Prop :=
  ∀ rest, r (content ++ rest) = some (a, rest)

theorem Reads.bind (h : Reads r content a) (f : α → Reader β) (rest : Bytes) :
    (r >>= f) (content ++ rest) = f a rest := by
  show (r (content ++ rest)).bind _ = _
  rw [h rest]
  rfl

theorem whole_of_reads (h : Reads r content a) : whole r content = some a := by
  have := h []
  rw [List.append_nil] at this
  rw [whole, this]

theorem found_bind {o : Option α} (h : o = some a) (f : α → Reader β) :
    (found o >>= f) rest = f a rest := by
  rw [h]
  rfl

theorem check_bind {b : Bool} (h : b = true) (f : Unit → Reader β) :
    (check b >>= f) rest = f () rest := by
  rw [h]
  rfl

theorem reads_u16 (v : UInt16) : Reads u16 (Bytes.ofU16 v) v := fun rest => by
  show some (Bytes.toU16 (v >>> 8).toUInt8 v.toUInt8, rest) = _
  rw [Bytes.toU16_ofU16]

/-- The upper and the lower half of a word. -/
theorem ofU32_eq (v : UInt32) : Bytes.ofU32 v = Bytes.ofU16 (v >>> 16).toUInt16 ++
    Bytes.ofU16 v.toUInt16 := by
  have hbyte (w : UInt32) : w.toUInt16.toUInt8 = w.toUInt8 := UInt8.toNat_inj.mp (by simp)
  have hhigh (w : UInt32) : (w.toUInt16 >>> 8).toUInt8 = (w >>> 8).toUInt8 := by
    refine UInt8.toNat_inj.mp ?_
    simp [Nat.shiftRight_eq_div_pow]
    omega
  have htwice : v >>> 16 >>> 8 = v >>> 24 := by
    refine UInt32.toNat_inj.mp ?_
    simp [← Nat.shiftRight_add]
  rw [Bytes.ofU32, Bytes.ofU16, Bytes.ofU16, hbyte, hbyte, hhigh, hhigh, htwice]
  rfl

theorem reads_u32 (v : UInt32) : Reads u32 (Bytes.ofU32 v) v := fun rest => by
  have hv := v.toNat_lt
  have hhi : (v >>> 16).toUInt16.toNat = v.toNat / 65536 := by
    simp [Nat.shiftRight_eq_div_pow]
    omega
  have hlo : v.toUInt16.toNat = v.toNat % 65536 := UInt32.toNat_toUInt16 v
  rw [ofU32_eq, List.append_assoc, u32, (reads_u16 _).bind, (reads_u16 _).bind, hhi, hlo,
    Nat.div_add_mod', UInt32.ofNat_toNat]
  rfl

theorem reads_u64 (v : UInt64) : Reads u64 (Bytes.ofU64 v) v := fun rest => by
  have hv := v.toNat_lt
  have hhi : (v >>> 32).toUInt32.toNat = v.toNat / 4294967296 := by
    simp [Nat.shiftRight_eq_div_pow]
    omega
  have hlo : v.toUInt32.toNat = v.toNat % 4294967296 := UInt64.toNat_toUInt32 v
  rw [Bytes.ofU64, List.append_assoc, u64, (reads_u32 _).bind, (reads_u32 _).bind, hhi, hlo,
    Nat.div_add_mod', UInt64.ofNat_toNat]
  rfl

theorem reads_stretch (content : Bytes) : Reads (stretch content.length) content content :=
  fun rest => by
  simp [stretch]

theorem reads_times {contents : List Bytes} {as : List α} (h : List.Forall₂ (Reads r) contents as) :
    Reads (times as.length r) contents.flatten as := by
  intro rest
  induction h generalizing rest with
  | nil => rfl
  | @cons content a contents as hfirst _ ih =>
    have hrest (f : List α → Reader (List α)) : (times as.length r >>= f)
        (contents.flatten ++ rest) = f as rest :=
      Reads.bind ih f rest
    rw [List.flatten_cons, List.append_assoc, List.length_cons, times, hfirst.bind, hrest]
    rfl

/-- A list whose length fits in sixteen bits. -/
theorem reads_counted {contents : List Bytes} {as : List α} (hfit : as.length ≤ 65535)
    (h : List.Forall₂ (Reads r) contents as) :
    Reads (counted r) (Bytes.ofU16 as.length.toUInt16 ++ contents.flatten) as := by
  intro rest
  have hlength : as.length.toUInt16.toNat = as.length :=
    UInt16.toNat_ofNat_of_lt' (Nat.lt_succ_of_le hfit)
  rw [List.append_assoc, counted, (reads_u16 _).bind, hlength]
  exact reads_times h rest

theorem reads_none : Reads (counted r) (Bytes.ofU16 0) [] := fun rest => by
  rw [counted, (reads_u16 0).bind]
  rfl

end Reader

end ClassGen
