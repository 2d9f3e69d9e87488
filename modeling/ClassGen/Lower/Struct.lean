import ClassGen.Lower.Call

/-! The unit of a struct: its fields, a constructor that takes one argument per field in
declared order, and a textual form that shows every field. -/

namespace ClassGen

/-- Stores the argument at `index` and those after it into the fields from there on. -/
def storeFields (frame : Frame) (owner : StructDef) : Nat → List (String × Ty) → Code
  | _, [] => []
  | index, (field, t) :: rest =>
    [Code.loadThis] ++ frame.loadArg index ++ [Code.putField (fieldMember owner field t)] ++
      storeFields frame owner (index + 1) rest

/-- Appends `field=value` for each field, with a comma before all but the first. -/
def appendFields (owner : StructDef) : Bool → List (String × Ty) → Code
  | _, [] => []
  | first, (field, t) :: rest =>
    [Code.pushText ((if first then "" else ", ") ++ field ++ "="), appendValue .string,
      Code.loadThis, Code.getField (fieldMember owner field t),
      appendValue t] ++ appendFields owner false rest

namespace StructDef

def constructorCode (d : StructDef) (frame : Frame) : Code :=
  [Code.loadThis, Code.callSpecial Library.objectInit] ++ storeFields frame d 0 d.fields

/-- `Name[a=1, b=x]`, or `Name[]` for a struct without fields. -/
def toStringCode (d : StructDef) : Code :=
  if d.fields.isEmpty then [Code.pushText (d.name ++ "[]"), .op .areturn]
  else
    [Code.new Library.stringBuilder, .op .dup, Code.pushText (d.name ++ "["),
      Code.callSpecial Library.builderInitText] ++
      appendFields d true d.fields ++
      [Code.pushText "]", appendValue .string, Code.callVirtual Library.builderToString,
        .op .areturn]

/-- The unit of the struct, in a file with context `file`. -/
def unit (d : StructDef) (file : FileContext) : Lower ClassUnit := do
  let init ← Lower.startFrame file .publicFlag Library.constructor d.constructorDescriptor
  let toText ← Lower.startFrame file .publicFlag "toString" "()Ljava/lang/String;"
  return {
    name := d.qualifiedName
    access := .publicClass
    sourceFile := some file.fileName
    fields := d.fields.map fun (field, t) => ⟨.publicFlag, field, t.descriptor⟩
    methods := [init.finish (d.constructorCode init), toText.finish d.toStringCode] }

end StructDef

/-- Emits the unit of the struct that `scope` knows as `name`, unless there is one of that
qualified name. -/
def lowerStruct (file : FileContext) (scope : ScopeId) (name : String) (span : Span) :
    Lower Unit := do
  match file.scopes.lookup scope name with
  | none => throw (.unknownIdentifier name span)
  | some (.struct decl _) =>
    if (← get).file.structs.any (·.name == decl.qualifiedName) then return ()
    let unit ← decl.unit file
    Lower.log (.struct decl.name decl.qualifiedName decl.fields.length)
    modify fun s => { s with file.structs := s.file.structs ++ [unit] }
  | some other => throw (.fault (.notStruct name other) span)

end ClassGen
