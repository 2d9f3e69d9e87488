import ClassGen.Dict
import ClassGen.Ty.Basic

/-! Lexical scopes. A scope has the names it declares and, the root apart, a parent.
Scopes are numbered in the order they are made and the root is zero. Anything that looks
a name up walks `chain`: the scope itself, its parent, and so on outward. -/

namespace ClassGen

abbrev ScopeId := Nat

structure Scope where
  parent : Option ScopeId
  /-- Declared names; each once. -/
  vars : List (String × Ty) := []

structure ScopeTree where
  scopes : Array Scope := #[{ parent := none }]

namespace ScopeTree

def root : ScopeId := 0

def size (t : ScopeTree) : Nat := t.scopes.size

/-- A scope under `parent`, which need not exist. -/
def child (t : ScopeTree) (parent : ScopeId) : ScopeId × ScopeTree :=
  (t.size, { scopes := t.scopes.push { parent := some parent } })

/-- Declares `name` in `id`; an earlier declaration there is replaced. Nothing happens
for a scope that does not exist. -/
def define (t : ScopeTree) (id : ScopeId) (name : String) (type : Ty) : ScopeTree where
  scopes := t.scopes.modify id fun s => { s with vars := Dict.insert name type s.vars }

def parent? (t : ScopeTree) (id : ScopeId) : Option ScopeId := t.scopes[id]?.bind Scope.parent

/-- The type that `id` itself gives to `name`. -/
def own? (t : ScopeTree) (id : ScopeId) (name : String) : Option Ty :=
  t.scopes[id]?.bind fun s => s.vars.lookup name

def declares (t : ScopeTree) (id : ScopeId) (name : String) : Bool := (t.own? id name).isSome

/-- `id` and at most `fuel` scopes around it, innermost first. -/
def chainWithin (t : ScopeTree) : Nat → ScopeId → List ScopeId
  | 0, id => [id]
  | fuel + 1, id =>
    match t.parent? id with
    | some p => id :: chainWithin t fuel p
    | none => [id]

/-- `id` and the scopes around it, innermost first; a scope that does not exist ends
the chain. Scopes that are not their own ancestors fit in the size of the tree. -/
def chain (t : ScopeTree) (id : ScopeId) : List ScopeId := t.chainWithin t.size id

/-- The type of `name` in the nearest scope of the chain that declares it. -/
def lookup (t : ScopeTree) (id : ScopeId) (name : String) : Option Ty :=
  (t.chain id).findSome? fun s => t.own? s name

end ScopeTree

end ClassGen
