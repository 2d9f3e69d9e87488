import ClassGen.ClassFile.Assembly

/-! Class units and their serialization. -/

namespace ClassGen

structure Field where
  access : Access
  name : String
  descriptor : String
  deriving DecidableEq

/-- One nominal type of the output: the unit of a file, or a struct. -/
structure ClassUnit where
  name : String
  superName : String := Library.object
  access : Access
  sourceFile : Option String := none
  fields : List Field := []
  methods : List Method := []
  deriving DecidableEq

namespace ClassUnit

/-- The first method of that name. -/
def method? (u : ClassUnit) (name : String) : Option Method := u.methods.find? (·.name == name)

def methodsNamed (u : ClassUnit) (name : String) : List Method := u.methods.filter (·.name == name)

def hasMethod (u : ClassUnit) (name descriptor : String) : Bool :=
  u.methods.any fun m => m.name == name && m.descriptor == descriptor

def fieldBytes (f : Field) : PoolM Bytes := do
  let name ← Pool.utf8 f.name
  let descriptor ← Pool.utf8 f.descriptor
  return Bytes.ofU16 f.access ++ Bytes.ofU16 name ++ Bytes.ofU16 descriptor ++ Bytes.ofU16 0

/-- The `Code` attribute, named by pool index `nameIndex`: no handlers, no attributes. -/
def codeBytes (nameIndex : UInt16) (maxLocals : UInt16) (a : Assembled) : Bytes :=
  Bytes.ofU16 nameIndex ++ Bytes.ofU32 (12 + a.code.length).toUInt32 ++ Bytes.ofU16 a.maxStack ++
    Bytes.ofU16 maxLocals ++ Bytes.ofU32 a.code.length.toUInt32 ++ a.code ++ Bytes.ofU16 0 ++
    Bytes.ofU16 0

def methodBytes (nameIndex : UInt16) (m : Method) : PoolM Bytes := do
  let name ← Pool.utf8 m.name
  let descriptor ← Pool.utf8 m.descriptor
  let assembled ← m.assemble
  return Bytes.ofU16 m.access ++ Bytes.ofU16 name ++ Bytes.ofU16 descriptor ++ Bytes.ofU16 1 ++
    codeBytes nameIndex m.maxLocals assembled

def attributeBytes : Option String → PoolM Bytes
  | none => pure (Bytes.ofU16 0)
  | some source => do
    let name ← Pool.utf8 "SourceFile"
    let value ← Pool.utf8 source
    return Bytes.ofU16 1 ++ Bytes.ofU16 name ++ Bytes.ofU32 2 ++ Bytes.ofU16 value

/-- Everything after the pool: flags, class names, no interfaces, then fields, methods
and attributes. The counts of fields and methods are written in sixteen bits. -/
def body (u : ClassUnit) : PoolM Bytes := do
  let this ← Pool.className u.name
  let super ← Pool.className u.superName
  let codeAttribute ← Pool.utf8 "Code"
  let fields ← u.fields.mapM fieldBytes
  let methods ← u.methods.mapM (methodBytes codeAttribute)
  let attributes ← attributeBytes u.sourceFile
  return Bytes.ofU16 u.access ++ Bytes.ofU16 this ++ Bytes.ofU16 super ++ Bytes.ofU16 0 ++
    Bytes.ofU16 u.fields.length.toUInt16 ++ fields.flatten ++
    Bytes.ofU16 u.methods.length.toUInt16 ++ methods.flatten ++ attributes

/-- The class file, in format version `major`. -/
def toBytes (u : ClassUnit) (major : UInt16) : Except ClassFormatError Bytes :=
  match u.body {} with
  | .error e _ => .error e
  | .ok body pool =>
    .ok (Bytes.ofU32 0xcafebabe ++ Bytes.ofU16 0 ++ Bytes.ofU16 major ++ pool.bytes ++ body)

end ClassUnit

end ClassGen
