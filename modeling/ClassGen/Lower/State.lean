import ClassGen.ClassFile.Unit
import ClassGen.Diagnostic
import ClassGen.Lower.Event
import ClassGen.Specialization.Table

/-! What lowering knows and what it changes. A file has a fixed context and a state that
grows: methods, struct units, requested instantiations and the trace. A body under
construction has a context, in which only the current scope varies, and a state of its
own: the next free slot and label, and the locals declared so far. Code is not part of
the state; lowering returns it. -/

namespace ClassGen

/-- Fixed while a file is lowered. -/
structure FileContext where
  unitName : String
  fileName : String
  /-- With the prelude bound in the root. -/
  scopes : ScopeTree

/-- A declared local. -/
structure LocalVar where
  slot : Nat
  type : Ty

/-- Grows while a body is lowered. -/
structure BodyState where
  nextSlot : Nat
  nextLabel : Label := 0
  /-- Locals by the scope and name they were declared under. -/
  locals : List ((ScopeId × String) × LocalVar) := []

/-- Grows while a file is lowered. -/
structure FileState where
  /-- Of the file unit, in order of completion. -/
  methods : List Method := []
  structs : List ClassUnit := []
  table : SpecializationTable := {}
  /-- Bodies of the generic functions met so far. -/
  generics : List (String × FunctionDecl) := []
  /-- Methods that a later declaration found already emitted. -/
  reused : List (String × String) := []
  /-- Latest event first. -/
  log : List Event := []

structure LowerState where
  file : FileState := {}
  body : BodyState := { nextSlot := 0 }

/-- Lowering; the state, and with it the trace, outlives a failure. -/
abbrev Lower := EStateM CodegenError LowerState

/-- Fixed while a body is lowered, the current scope apart. -/
structure BodyContext where
  file : FileContext
  /-- As it was opened: the arguments and their slots. -/
  frame : Frame
  /-- Placeholders of the instantiation. -/
  bindings : Bindings
  params : List (String × Ty)
  ret : Ty
  /-- Where the parameters are bound. -/
  bodyScope : ScopeId
  scope : ScopeId

/-- Where the value of a name is kept. -/
inductive Storage where
  | slot (slot : Nat) (type : Ty)
  | param (index : Nat) (type : Ty)

namespace Storage

def type : Storage → Ty
  | slot _ t | param _ t => t

def load (frame : Frame) : Storage → Code
  | slot s t => [Code.loadSlot s t.representation]
  | param i _ => frame.loadArg i

def store (frame : Frame) : Storage → Code
  | slot s t => [Code.storeSlot s t.representation]
  | param i _ => frame.storeArg i

end Storage

namespace Lower

def log (e : Event) : Lower Unit := modify fun s => { s with file.log := e :: s.file.log }

def newLabel : Lower Label := fun s =>
  .ok s.body.nextLabel { s with body.nextLabel := s.body.nextLabel + 1 }

/-- A slot for a value of this representation; even a missing value takes one. -/
def newSlot (repr : Representation) : Lower Nat := fun s =>
  .ok s.body.nextSlot { s with body.nextSlot := s.body.nextSlot + max repr.slots 1 }

/-- A slot for `name` in `scope`. Declaring it again gives it a new one. -/
def declareLocal (scope : ScopeId) (name : String) (type : Ty) : Lower Nat := do
  let slot ← newSlot type.representation
  modify fun s => { s with body.locals := Dict.insert (scope, name) ⟨slot, type⟩ s.body.locals }
  return slot

/-- Runs `act` on the body state `start` and gives its own back to the caller. -/
def isolated {α : Type} (start : BodyState) (act : Lower α) : Lower (α × BodyState) := fun s =>
  match act { s with body := start } with
  | .ok a t => .ok (a, t.body) { t with body := s.body }
  | .error e t => .error e { t with body := s.body }

/-- An empty method of the file, or the error of its descriptor. -/
def startFrame (file : FileContext) (access : Access) (name descriptor : String) : Lower Frame :=
  match Frame.start access name descriptor with
  | .ok frame => pure frame
  | .error e => throw (.classFormat file.unitName e.message)

def addMethod (m : Method) : Lower Unit := modify fun s =>
    { s with file.methods := s.file.methods ++ [m] }

end Lower

namespace BodyContext

/-- The last parameter of that name, with its position counted from `index`. -/
def lastParam? (name : String) : Nat → List (String × Ty) → Option (Nat × Ty)
  | _, [] => none
  | index, (n, t) :: rest =>
    (lastParam? name (index + 1) rest).or (if n = name then some (index, t) else none)

def param? (cx : BodyContext) (name : String) : Option Storage :=
  (lastParam? name 0 cx.params).map fun (index, t) => .param index t

/-- Storage of `name` along a chain of scopes: the first that has a local of the name,
or is the body scope and has a parameter of it. A scope that declares the name and has
neither ends the search, so that no outer variable is taken for it. -/
def storageIn? (cx : BodyContext) (locals : List ((ScopeId × String) × LocalVar)) (name : String) :
    List ScopeId → Option Storage
  | [] => none
  | id :: outer =>
    match locals.lookup (id, name), if id = cx.bodyScope then cx.param? name else none with
    | some l, _ => some (.slot l.slot l.type)
    | none, some p => some p
    | none, none => if cx.file.scopes.declares id name then none
        else storageIn? cx locals name outer

/-- Storage of `name` as seen from the current scope. -/
def storage? (cx : BodyContext) (name : String) : Lower (Option Storage) := do
  return cx.storageIn? (← get).body.locals name (cx.file.scopes.chain cx.scope)

/-- Storage of a name that must be in scope and hold a value. -/
def storageOf (cx : BodyContext) (name : String) (span : Span) : Lower Storage := do
  match cx.file.scopes.lookup cx.scope name, ← cx.storage? name with
  | some _, some storage => return storage
  | _, _ => throw (.unknownIdentifier name span)

/-- The type in this instantiation; no placeholder may be left. -/
def resolveType (cx : BodyContext) (t : Ty) (span : Span) : Lower Ty :=
  match Specialization.resolve cx.bindings t with
  | .ok t => pure t
  | .error e => throw (.specialization cx.frame.name e.message span)

def resolve (cx : BodyContext) (note : Note) : Lower Ty := cx.resolveType note.type note.span

/-- The type that lowering `e` will give, without emitting anything. -/
def plannedType (cx : BodyContext) : Expr → Lower Ty
  | .ident note name => do
    match ← cx.storage? name with
    | some storage => return storage.type
    | none => cx.resolve note
  | .group _ inner => cx.plannedType inner
  | e => cx.resolve e.note

end BodyContext

end ClassGen
