import ClassGen.Ty.Equality

/-! Binding the placeholders of a signature from the argument types of a call, and the
types that an instantiation has under such bindings. -/

namespace ClassGen

inductive SpecializeError where
  | arity (expected found : Nat)
  /-- Two arguments ask for different types. -/
  | conflict (key : String) (first second : Ty)
  | unbound (key : String)
  deriving DecidableEq

def SpecializeError.message : SpecializeError → String
  | arity expected found => "expected " ++ toString expected ++ " arguments, found " ++
      toString found
  | conflict key first second =>
    "type parameter `" ++ key ++ "` bound to both `" ++ first.name ++ "` and `" ++
      second.name ++ "`"
  | unbound key => "type parameter `" ++ key ++ "` has no binding"

namespace Specialization

/-- Binds what `declared` asks of `actual`: a placeholder takes the actual type, list
types are compared by their elements, and nothing else binds. -/
def bind : Ty → Ty → Bindings → Except SpecializeError Bindings
  | .generic key, actual, map =>
    match map.lookup key with
    | some first => if first = actual then .ok map else .error (.conflict key first actual)
    | none => .ok (Bindings.insert key actual map)
  | .list declared, .list actual, map => bind declared actual map
  | _, _, map => .ok map

/-- Pairs from left to right. -/
def bindAll : List Ty → List Ty → Bindings → Except SpecializeError Bindings
  | declared :: ds, actual :: as, map =>
    match bind declared actual map with
    | .ok map => bindAll ds as map
    | .error e => .error e
  | _, _, map => .ok map

/-- The type under `map`; a placeholder that is left over is an error. -/
def resolve (map : Bindings) (t : Ty) : Except SpecializeError Ty :=
  let resolved := t.substitute map
  match resolved.placeholder? with
  | some key => .error (.unbound key)
  | none => .ok resolved

end Specialization

namespace Signature

/-- Bindings that a call with these argument types determines. -/
def specialize (s : Signature) (args : List Ty) : Except SpecializeError Bindings :=
  if s.params.length = args.length then Specialization.bindAll s.paramTypes args []
  else .error (.arity s.params.length args.length)

/-- Parameter types and result type under `map`. -/
def instantiate (s : Signature) (map : Bindings) : Except SpecializeError (List Ty × Ty) := do
  let params ← s.paramTypes.mapM (Specialization.resolve map)
  let ret ← Specialization.resolve map s.ret
  return (params, ret)

end Signature

end ClassGen
