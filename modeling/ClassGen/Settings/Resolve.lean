import ClassGen.Settings.Manifest
import ClassGen.Settings.Options
import ClassGen.Text.Blank

/-! Options from their sources: explicit values first, then the environment, then the
manifest, then the defaults. -/

namespace ClassGen

/-- The variables of the environment that count; absent means unset. -/
structure Environment where
  classVersion : Option String := none
  runtimeOwner : Option String := none
  debugTrace : Option String := none

def Environment.ofVars (get : String → Option String) : Environment where
  classVersion := get "IXION_CLASS_VERSION"
  runtimeOwner := get "IXION_RUNTIME_OWNER"
  debugTrace := get "IXION_DEBUG_TRACE"

/-- Explicit values. -/
structure Flags where
  classVersion : Option UInt16 := none
  runtimeOwner : Option String := none

/-- A version number between blanks, with an optional plus sign, of at most sixteen bits. -/
def readVersion (text : String) : Option UInt16 :=
  let digits := match Text.trimBlank text with
    | '+' :: cs => cs
    | cs => cs
  let n := Toml.Scan.numeral 10 digits
  if !digits.isEmpty && digits.all Toml.Scan.isDigit && n ≤ 65535 then some n.toUInt16 else none

namespace Options

def oldestVersion : UInt16 := 45

/-- Later versions require tables that the assembler does not write. -/
def newestVersion : UInt16 := 50

/-- A variable that is no version number counts as unset. The first owner that is given
decides; if it is blank the default is taken. -/
def ofSources (flags : Flags) (env : Environment) (manifest : Option Settings) :
    Except OptionsError Options :=
  let defaults : Options := {}
  let settings := manifest.getD {}
  let version :=
    ((flags.classVersion.or (env.classVersion.bind readVersion)).or settings.classVersion).getD
      defaults.classVersion
  let owner := (flags.runtimeOwner.or env.runtimeOwner).or settings.runtimeOwner
  if version < oldestVersion ∨ newestVersion < version then .error (.unsupportedVersion version)
  else
    .ok
      { classVersion := version
        runtimeOwner := (owner.filter fun o => !(Text.trimBlank o).isEmpty).getD
          defaults.runtimeOwner
        emitInstance := settings.emitInstance.getD defaults.emitInstance
        trace := env.debugTrace.isSome || settings.trace.getD false }

end Options

end ClassGen
