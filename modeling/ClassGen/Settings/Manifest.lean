import ClassGen.Settings.Error
import ClassGen.Toml.Document

/-! The `codegen` table of a project manifest. Every setting is optional, other keys and
other tables are ignored, and a setting of the wrong type is an error. -/

namespace ClassGen

structure Settings where
  classVersion : Option UInt16 := none
  runtimeOwner : Option String := none
  emitInstance : Option Bool := none
  trace : Option Bool := none
  deriving DecidableEq

namespace Settings

def version? : Toml → Option UInt16
  | .integer n => if 0 ≤ n ∧ n ≤ 65535 then some n.toNat.toUInt16 else none
  | _ => none

def text? : Toml → Option String
  | .string s => some s
  | _ => none

def flag? : Toml → Option Bool
  | .boolean b => some b
  | _ => none

/-- The value at `key`, which may be absent but not of another type. -/
def optional {α : Type} (read : Toml → Option α) (entries : Toml.Entries) (key : String) :
    Option (Option α) :=
  match entries.lookup key with
  | none => some none
  | some v => (read v).map some

def ofEntries (entries : Toml.Entries) : Option Settings := do
  return {
    classVersion := ← optional version? entries "class_version"
    runtimeOwner := ← optional text? entries "runtime_owner"
    emitInstance := ← optional flag? entries "emit_instance"
    trace := ← optional flag? entries "trace" }

/-- The settings that a value of `codegen` gives: by key in a table, by position in an
array of at least four. A date-time has no settings in it. -/
def ofValue : Toml → Option Settings
  | .table _ entries | .inline entries => ofEntries entries
  | .array (version :: owner :: emitInstance :: trace :: _) => do
    return ⟨← version? version, ← text? owner, ← flag? emitInstance, ← flag? trace⟩
  | .dateTime => some {}
  | _ => none

/-- The settings of a manifest; none are given if it has no `codegen` table. -/
def parse (path content : String) : Except OptionsError Settings :=
  let settings := (Toml.parse content).bind fun root =>
    match root.lookup "codegen" with
    | none => some {}
    | some v => ofValue v
  match settings with
  | some s => .ok s
  | none => .error (.parse path)

/-- The settings of a manifest file, from what reading its bytes gave. -/
def load (path : String) (content : Except ReadFailure ByteArray) : Except OptionsError Settings :=
  match content with
  | .error cause => .error (.read path cause)
  | .ok bytes =>
    match String.fromUTF8? bytes with
    | some text => parse path text
    | none => .error (.read path .notUtf8)

end Settings

end ClassGen
