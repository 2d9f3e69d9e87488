import ClassGen.Scope.Tree

/-! The functions that every program can call without declaring them: static methods of
one host class, on plain objects. -/

namespace ClassGen.Prelude

/-- The class that holds the functions unless the options name another. -/
def defaultOwner : String := "ixion/modules/Prelude"

def entry (owner name : String) (params : List String) (ret : Ty) : Signature where
  name := name
  params := params.map fun p => (p, .object)
  ret := ret
  linkage := .external owner name

def functions (owner : String) : List Signature :=
  [entry owner "print" ["value"] .void,
    entry owner "println" ["value"] .void,
    entry owner "panic" ["message"] .void,
    entry owner "readLine" [] .string,
    entry owner "len" ["value"] .int,
    entry owner "push" ["list", "value"] .void,
    entry owner "pop" ["list"] .object]

def function? (owner name : String) : Option Signature := (functions owner).find? (·.name == name)

/-- Declares each of `sigs` in `id`, in order, except those whose name `id` declares by then. -/
def bindAll (sigs : List Signature) (t : ScopeTree) (id : ScopeId) : ScopeTree :=
  sigs.foldl (fun t sig => if t.declares id sig.name then t
    else t.define id sig.name (.function sig)) t

/-- Declares every function of the host class in `id`. -/
def bindInto (owner : String) (t : ScopeTree) (id : ScopeId) : ScopeTree :=
  bindAll (functions owner) t id

end ClassGen.Prelude
