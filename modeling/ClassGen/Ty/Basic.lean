import ClassGen.Library
import ClassGen.Text.Pieces
import ClassGen.Ty.Primitive

/-! The types of source values. A struct type pairs a definition with bindings for the
placeholders in its field types, a function type carries the signature that calls go
through, and a placeholder stands for a type that each instantiation supplies. Union,
placeholder and function values are held as plain objects, list values in the list
wrapper. -/

namespace ClassGen

/-- How calls reach a function. -/
inductive Linkage where
  /-- Declared in source: in this file, or in the unit `owner`. -/
  | user (owner : Option String)
  /-- Static method of a host class. -/
  | external (owner method : String)
  deriving DecidableEq

mutual

inductive Ty where
  | primitive (kind : Primitive)
  /-- `bindings` gives types to the placeholders of the definition, by ascending key;
  a plain struct type has none. -/
  | struct (decl : StructDef) (bindings : List (String × Ty))
  | union (members : List Ty)
  /-- Placeholder of a generic definition. -/
  | generic (key : String)
  /-- A host class. -/
  | external (className : String)
  | function (sig : Signature)
  | list (element : Ty)

/-- Nominal struct with its fields in declared order. -/
structure StructDef where
  name : String
  /-- Internal name of the class that is emitted for it. -/
  qualifiedName : String
  fields : List (String × Ty)

structure Signature where
  name : String
  params : List (String × Ty)
  ret : Ty
  linkage : Linkage

end

/-- Types bound to placeholders, in ascending order of the keys, each key once. -/
abbrev Bindings := List (String × Ty)

namespace Ty

abbrev int : Ty := primitive .int
abbrev float : Ty := primitive .float
abbrev double : Ty := primitive .double
abbrev boolean : Ty := primitive .boolean
abbrev string : Ty := primitive .string
abbrev void : Ty := primitive .void
def object : Ty := external Library.object
def iterator : Ty := external Library.iterator

instance : Inhabited Ty := ⟨void⟩

def primitive? : Ty → Option Primitive
  | primitive kind => some kind
  | _ => none

/-- The primitive if it is a numeric one. -/
def numeric? (t : Ty) : Option Primitive := t.primitive?.filter Primitive.isNumeric

def isVoid : Ty → Bool
  | primitive .void => true
  | _ => false

def isString : Ty → Bool
  | primitive .string => true
  | _ => false

def isStruct : Ty → Bool
  | struct _ _ => true
  | _ => false

def representation : Ty → Representation
  | primitive .void => .void
  | primitive kind => if kind.isScalar then .scalar kind else .reference
  | _ => .reference

/-- Class of a value of this type when it is held as a reference. -/
def className : Ty → String
  | primitive kind => kind.boxedClass?.getD Library.object
  | struct decl _ => decl.qualifiedName
  | external className => className
  | list _ => Library.listWrapper
  | union _ | generic _ | function _ => Library.object

def descriptor : Ty → String
  | primitive kind => kind.descriptor
  | t => Library.reference t.className

mutual

/-- A placeholder occurs, alone or inside unions and lists. -/
def containsGeneric : Ty → Bool
  | generic _ => true
  | union members => anyGeneric members
  | list element => element.containsGeneric
  | _ => false

def anyGeneric : List Ty → Bool
  | [] => false
  | t :: ts => t.containsGeneric || anyGeneric ts

end

mutual

/-- The first placeholder met inside unions and lists, from left to right. -/
def placeholder? : Ty → Option String
  | generic key => some key
  | union members => firstPlaceholder? members
  | list element => element.placeholder?
  | _ => none

def firstPlaceholder? : List Ty → Option String
  | [] => none
  | t :: ts => t.placeholder?.or (firstPlaceholder? ts)

end

mutual

/-- Replaces bound placeholders, inside unions, lists and the bindings of struct types.
Field types of a definition and parameters of a function are left alone. -/
def substitute (map : Bindings) : Ty → Ty
  | generic key => (map.lookup key).getD (generic key)
  | union members => union (substituteAll map members)
  | list element => list (element.substitute map)
  | struct decl bindings => struct decl (substituteBound map bindings)
  | t => t

def substituteAll (map : Bindings) : List Ty → List Ty
  | [] => []
  | t :: ts => t.substitute map :: substituteAll map ts

def substituteBound (map : Bindings) : Bindings → Bindings
  | [] => []
  | (key, t) :: rest => (key, t.substitute map) :: substituteBound map rest

end

mutual

/-- Display name, and the tag of a list of such elements. -/
def name : Ty → String
  | primitive kind => kind.name
  | struct decl _ => decl.name
  | union members => String.intercalate " | " (names members)
  | generic key => key
  | external className => Text.afterLast '/' className
  | function sig => sig.name
  | list element => "[" ++ element.name ++ "]"

def names : List Ty → List String
  | [] => []
  | t :: ts => t.name :: names ts

end

end Ty

namespace StructDef

/-- Declared type of a field; the first one of that name. -/
def fieldType? (d : StructDef) (field : String) : Option Ty := d.fields.lookup field

def constructorDescriptor (d : StructDef) : String :=
  "(" ++ String.join (d.fields.map fun f => f.2.descriptor) ++ ")V"

end StructDef

/-- Descriptor of a method taking `params` and returning `ret`. -/
def methodDescriptor (params : List Ty) (ret : Ty) : String :=
  "(" ++ String.join (params.map Ty.descriptor) ++ ")" ++ ret.descriptor

namespace Signature

def paramTypes (s : Signature) : List Ty := s.params.map Prod.snd

/-- A placeholder occurs in a parameter or in the result. -/
def isGeneric (s : Signature) : Bool := s.paramTypes.any Ty.containsGeneric || s.ret.containsGeneric

def isExternal (s : Signature) : Bool :=
  match s.linkage with
  | .external _ _ => true
  | .user _ => false

/-- Descriptor of the declared types. -/
def descriptor (s : Signature) : String := methodDescriptor s.paramTypes s.ret

end Signature

namespace Bindings

/-- Binds `key`, in its place by the order of keys; an earlier binding is replaced. -/
def insert (key : String) (t : Ty) : Bindings → Bindings
  | [] => [(key, t)]
  | (k, u) :: rest =>
    if key < k then (key, t) :: (k, u) :: rest
    else if key = k then (key, t) :: rest
    else (k, u) :: insert key t rest

/-- Later pairs replace earlier ones of the same key. -/
def ofList (pairs : List (String × Ty)) : Bindings :=
  pairs.foldl (fun map pair => insert pair.1 pair.2 map) []

end Bindings

end ClassGen
