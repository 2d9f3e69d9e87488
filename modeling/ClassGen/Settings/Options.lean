import ClassGen.Scope.Prelude

/-! What a compilation is parameterized by. -/

namespace ClassGen

structure Options where
  /-- Major version written to every class file. -/
  classVersion : UInt16 := 49
  /-- Class that holds the prelude functions. -/
  runtimeOwner : String := Prelude.defaultOwner
  /-- Give every file unit a static instance of itself. -/
  emitInstance : Bool := true
  trace : Bool := false
  deriving DecidableEq

end ClassGen
