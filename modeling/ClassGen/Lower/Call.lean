import ClassGen.Lower.Value

/-! Field access and calls, apart from their operands: which field a chain reaches, what
a callee is, and how a call of a generic function asks for its instantiation. -/

namespace ClassGen

/-- Name of the method emitted for a source function. -/
def mangle (name : String) : String := "_" ++ name

/-- The definition that declares `field`, and the declared type. -/
def structField (owner : Ty) (field : String) (span : Span) : Lower (StructDef × Ty) :=
  match owner with
  | .struct decl _ =>
    match decl.fieldType? field with
    | some declared => return (decl, declared)
    | none => throw (.unknownIdentifier field span)
  | owner => throw (.fault (.noField owner field) span)

/-- The field as the instructions name it. -/
def fieldMember (decl : StructDef) (field : String) (declared : Ty) : Member :=
  ⟨decl.qualifiedName, field, declared.descriptor⟩

/-- The type that a field of declared type `declared` is narrowed to in a struct type with
`bindings`: the declared type if it mentions no placeholder, or if one is left. -/
def narrowed (bindings map : Bindings) (declared : Ty) : Ty :=
  if bindings.isEmpty || !declared.containsGeneric then declared
  else
    let concrete := (declared.substitute bindings).substitute map
    if concrete.containsGeneric then declared else concrete

/-- Descriptor of the constructor as it is spelled where the struct is constructed from these
arguments: the declared types of the fields that they go into. -/
def StructDef.siteDescriptor (d : StructDef) (args : List Expr) : String :=
  "(" ++ (d.fields.zip args).foldl (fun params pair => params ++ pair.1.2.descriptor) "" ++ ")V"

def checkArity (expected found : Nat) (span : Span) : Lower Unit :=
  if expected = found then return () else throw (.fault (.arity expected found) span)

/-- Asks for an instantiation; a new one is traced. -/
def requireInstance (sig : Signature) (map : Bindings) (descriptor : String) : Lower Unit := do
  let s ← get
  let ((index, fresh), table) := s.file.table.require sig map
  set { s with file.table := table }
  if fresh then Lower.log (.requested index sig.name descriptor)

namespace BodyContext

/-- Loads `field` of the struct that `owner` leaves on the stack. -/
def loadField (cx : BodyContext) (owner : Lowered) (field : String) (span : Span) :
    Lower Lowered := do
  let (decl, declared) ← structField owner.type field span
  let bindings : Bindings := match owner.type with
    | .struct _ bindings => bindings
    | _ => []
  let type := narrowed bindings cx.bindings declared
  let load := Code.getField (fieldMember decl field declared)
  return ⟨type, owner.code ++ [load] ++ coerce declared type⟩

/-- Follows a chain of fields. -/
def loadFields (cx : BodyContext) (owner : Lowered) (span : Span) : List String → Lower Lowered
  | [] => return owner
  | field :: rest => do
    let next ← cx.loadField owner field span
    cx.loadFields next span rest

/-- The receiver of a field chain. The annotated type replaces the lowered one when it
knows more: it is the same struct with bindings, or a struct where the other is none. -/
def receiver (cx : BodyContext) (value : Lowered) (note : Note) : Lower Lowered := do
  let annotated ← cx.resolve note
  match value.type, annotated with
  | .struct given bindings, .struct wanted _ =>
    return if given = wanted ∧ bindings.isEmpty then ⟨annotated, value.code⟩ else value
  | .struct _ _, _ => return value
  | _, .struct _ _ => return ⟨annotated, value.code ++ coerce value.type annotated⟩
  | _, _ => return value

/-- What a call calls: a name means what its scope declares, anything else its type. -/
def callee (cx : BodyContext) : Expr → Lower Ty
  | .ident note name =>
    match cx.file.scopes.lookup cx.scope name with
    | some t => return t
    | none => throw (.unknownIdentifier name note.span)
  | e => return e.type

/-- Bindings, parameter types and result type of a call with these argument types. -/
def specialize (sig : Signature) (args : List Ty) (span : Span) : Lower (Bindings × List Ty × Ty) :=
  let answer : Except SpecializeError (Bindings × List Ty × Ty) := do
    let map ← sig.specialize args
    if sig.isGeneric then
      let (params, ret) ← sig.instantiate map
      return (map, params, ret)
    else
      return (map, sig.paramTypes, sig.ret)
  match answer with
  | .ok a => return a
  | .error e => throw (.specialization sig.name e.message span)

/-- The unit to call, with a request if it has to instantiate the function. -/
def linkedUnit (cx : BodyContext) (sig : Signature) (owner : Option String) (map : Bindings)
    (descriptor : String) : Lower String := do
  match owner with
  | some owner => return owner
  | none =>
    if sig.isGeneric then requireInstance sig map descriptor
    return cx.file.unitName

end BodyContext

end ClassGen
