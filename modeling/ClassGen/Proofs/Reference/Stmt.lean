import ClassGen.Lower.Expr
import ClassGen.Proofs.Reference.Expr

/-! Meaning of structured code over scalars. Variables belong to the scope of the block that
declares them, and a name means the variable of the innermost enclosing block that has one by now.
Entering a block empties its scope. Loops are run with fuel; without enough of it there is no
answer. -/

namespace ClassGen.Reference

open Machine (Arith)

/-- Values of the variables, by scope and name. -/
abbrev Store := ScopeId → String → Option Scalar

namespace Store

def empty : Store := fun _ _ => none

def set (σ : Store) (id : ScopeId) (name : String) (v : Scalar) : Store := fun i n =>
  if i = id ∧ n = name then some v else σ i n

/-- Without the variables of a scope. -/
def clear (σ : Store) (id : ScopeId) : Store := fun i n => if i = id then none else σ i n

/-- The scope whose variable the name means, seen from the innermost scope of `path`. -/
def home? (σ : Store) (path : List ScopeId) (name : String) : Option ScopeId :=
  path.find? fun id => (σ id name).isSome

def find (σ : Store) (path : List ScopeId) (name : String) : Option Scalar :=
  (σ.home? path name).bind fun id => σ id name

/-- Arguments as the variables of a scope, from left to right. -/
def bind (id : ScopeId) : List (String × Ty) → List Scalar → Store → Store
  | (name, _) :: params, v :: vs, σ => bind id params vs (σ.set id name v)
  | _, _, σ => σ

end Store

/-- How a statement ends. -/
inductive Completion where
  | normal (σ : Store)
  | returned (value : Option Scalar)
  | divisionByZero

/-- Goes on only after a normal end. -/
def andThen (c : Option Completion) (next : Store → Option Completion) : Option Completion :=
  match c with
  | some (.normal σ) => next σ
  | other => other

/-- Goes on with the value of `e`. -/
def withValue (A : Arith) (σ : Store) (path : List ScopeId) (e : Expr)
    (next : Scalar → Option Completion) : Option Completion :=
  match eval A (σ.find path) e [] with
  | .ok v _ => next v
  | .error .divisionByZero _ => some .divisionByZero
  | .error .stuck _ => none

/-- Goes on in one of two ways. -/
def choose (v : Scalar) (yes no : Option Completion) : Option Completion :=
  match v with
  | .bool true => yes
  | .bool false => no
  | _ => none

/-- A new value for the variable that the name means, converted to the type it has. -/
def assign (A : Arith) (σ : Store) (path : List ScopeId) (name : String) (v : Scalar) :
    Option Completion :=
  match σ.home? path name, σ.find path name with
  | some id, some old => some (.normal (σ.set id name (v.widen A old.kind)))
  | _, _ => none

def one : Primitive → Scalar
  | .float => .float 0x3f800000
  | .double => .double 0x3ff0000000000000
  | _ => .int 1

def stepOperator : StepOp → BinaryOp
  | .increment => .add
  | .decrement => .sub

/-- Runs `turn` again and again; `turn` is given what comes after it. -/
def loop (turn : (Store → Option Completion) → Store → Option Completion) :
    Nat → Store → Option Completion
  | 0 => fun _ => none
  | fuel + 1 => turn (loop turn fuel)

section Exec

variable (A : Arith) (scopes : ScopeTree) (ret : Ty) (fuel : Nat)

mutual

@[simp] def execStmt : Stmt → List ScopeId → Store → Option Completion
  | .expr (.assign _ (.ident _ name) value), path, σ =>
      withValue A σ path value (assign A σ path name)
  | .expr (.step _ op (.ident _ name)), path, σ =>
    match σ.find path name with
    | some old =>
      match apply A (stepOperator op) old (one old.kind) with
      | .ok v => assign A σ path name v
      | .error _ => none
    | none => none
  | .expr value, path, σ => withValue A σ path value fun _ => some (.normal σ)
  | .var _ name init, path, σ =>
    withValue A σ path init fun v =>
      match path with
      | id :: _ =>
        match scopes.own? id name with
        | some (.primitive kind) => some (.normal (σ.set id name (v.widen A kind)))
        | _ => none
      | [] => none
  | .ret _ value, path, σ =>
    if value.isEmpty then some (.returned none)
    else
      withValue A σ path value fun v =>
        match ret with
        | .primitive .void => some (.returned none)
        | .primitive kind => some (.returned (some (v.widen A kind)))
        | _ => none
  | .ifElse _ test body none, path, σ =>
    withValue A σ path test fun v => choose v (execBlock body path σ) (some (.normal σ))
  | .ifElse _ test body (some branch), path, σ =>
    withValue A σ path test fun v => choose v (execBlock body path σ) (execStmt branch path σ)
  | .whileLoop _ test body, path, σ =>
    loop (fun next σ =>
      withValue A σ path test fun v => choose v (andThen (execBlock body path σ) next)
        (some (.normal σ))) fuel σ
  | .block body, path, σ => execBlock body path σ
  | _, _, _ => none

@[simp] def execBlock : Block → List ScopeId → Store → Option Completion
  | ⟨scope, body, _⟩, path, σ => execStmts body (scope :: path) (σ.clear scope)

@[simp] def execStmts : List Stmt → List ScopeId → Store → Option Completion
  | [], _, σ => some (.normal σ)
  | stmt :: rest, path, σ => andThen (execStmt stmt path σ) fun σ => execStmts rest path σ

end

/-- A call of a function with these parameters and this body. -/
def execFunction (params : List (String × Ty)) (body : Block) (args : List Scalar) :
    Option Completion :=
  execStmts A scopes ret fuel body.body [body.scope] (Store.empty.bind body.scope params args)

end Exec

/-! ### Typing -/

/-- A value of the first type can be given to the second: it is the same, or above it in the
widening order. -/
def Converts (a b : Primitive) : Prop := a = b ∨ (a.widenOp? b).isSome

/-- Type of a name, seen from the innermost scope of a path, where `declared` holds the variables
declared so far. A name that a scope declares later has no type there before. -/
def visible (scopes : ScopeTree) (declared : List (ScopeId × String)) (name : String) :
    List ScopeId → Option Primitive
  | [] => none
  | id :: outer =>
    match scopes.own? id name with
    | some t => if (id, name) ∈ declared then t.primitive? else none
    | none => visible scopes declared name outer

section Typing

variable (scopes : ScopeTree) (ret : Ty)

mutual

/-- Statements over scalars, in the scopes of `path`, where `declared` grows to `declared'`. -/
inductive TypedStmt : List ScopeId → List (ScopeId × String) → Stmt → List (ScopeId × String) → Prop
  | expr {path declared e k} (he : HasType [] (visible scopes declared · path) e k) :
    TypedStmt path declared (.expr e) declared
  | assign {path declared note target name e j k} (hk : visible scopes declared name path = some k)
    (he : HasType [] (visible scopes declared · path) e j) (hjk : Converts j k) :
    TypedStmt path declared (.expr (.assign note (.ident target name) e)) declared
  | step {path declared note op target name k} (hk : visible scopes declared name path = some k)
    (hnum : k.isNumeric) :
    TypedStmt path declared (.expr (.step note op (.ident target name))) declared
  | var {id path declared span name e j k} (hown : scopes.own? id name = some (.primitive k))
    (hk : k.isScalar) (he : HasType [] (visible scopes declared · (id :: path)) e j)
    (hjk : Converts j k) :
    TypedStmt (id :: path) declared (.var span name e) ((id, name) :: declared)
  | leave {path declared span note} (hret : ret = .void) :
    TypedStmt path declared (.ret span (.empty note)) declared
  | discard {path declared span e j} (hret : ret = .void)
    (he : HasType [] (visible scopes declared · path) e j) :
    TypedStmt path declared (.ret span e) declared
  | ret {path declared span e j k} (hret : ret = .primitive k) (hk : k.isScalar)
    (he : HasType [] (visible scopes declared · path) e j) (hjk : Converts j k) :
    TypedStmt path declared (.ret span e) declared
  | ifThen {path declared span test body}
      (ht : HasType [] (visible scopes declared · path) test .boolean)
    (hb : TypedBlock path declared body) :
    TypedStmt path declared (.ifElse span test body none) declared
  | ifElse {path declared span test body branch}
    (ht : HasType [] (visible scopes declared · path) test .boolean)
    (hb : TypedBlock path declared body) (he : TypedStmt path declared branch declared) :
    TypedStmt path declared (.ifElse span test body (some branch)) declared
  | whileLoop {path declared span test body}
    (ht : HasType [] (visible scopes declared · path) test .boolean)
    (hb : TypedBlock path declared body) :
    TypedStmt path declared (.whileLoop span test body) declared
  | block {path declared body} (hb : TypedBlock path declared body) :
    TypedStmt path declared (.block body) declared

/-- A block has a scope of its own, right inside that of the block around it. -/
inductive TypedBlock : List ScopeId → List (ScopeId × String) → Block → Prop
  | intro {outer path declared declared' b} (hnew : b.scope ∉ outer :: path)
    (hparent : scopes.parent? b.scope = some outer)
    (hs : TypedStmts (b.scope :: outer :: path) declared b.body declared') :
    TypedBlock (outer :: path) declared b

inductive TypedStmts : List ScopeId → List (ScopeId × String) → List Stmt →
    List (ScopeId × String) → Prop
  | nil {path declared} : TypedStmts path declared [] declared
  | cons {path declared declared₁ declared₂ stmt rest} (hs : TypedStmt path declared stmt declared₁)
    (hrest : TypedStmts path declared₁ rest declared₂) :
    TypedStmts path declared (stmt :: rest) declared₂

end

end Typing

/-! ### Room for the variables -/

mutual

/-- Slots that the variables of a statement take, in the scope it stands in. -/
def stmtSlots (scopes : ScopeTree) (scope : ScopeId) : Stmt → Nat
  | .var _ name _ => ((scopes.own? scope name).map fun t => t.representation.slots).getD 0
  | .ifElse _ _ body none => blockSlots scopes body
  | .ifElse _ _ body (some branch) => blockSlots scopes body + stmtSlots scopes scope branch
  | .whileLoop _ _ body => blockSlots scopes body
  | .block body => blockSlots scopes body
  | _ => 0

def blockSlots (scopes : ScopeTree) : Block → Nat
  | ⟨scope, body, _⟩ => stmtsSlots scopes scope body

def stmtsSlots (scopes : ScopeTree) (scope : ScopeId) : List Stmt → Nat
  | [] => 0
  | stmt :: rest => stmtSlots scopes scope stmt + stmtsSlots scopes scope rest

end

end ClassGen.Reference
