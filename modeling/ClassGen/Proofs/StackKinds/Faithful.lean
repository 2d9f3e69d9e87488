import ClassGen.Lower.File
import ClassGen.Proofs.StackKinds.Pieces

/-! Faithful lowering. Coercion narrows no scalar and drops no value by itself, it just does
nothing; and descriptors are written without a look at the names in them. A run of lowering is
faithful if it never relies on the one or the other: every value that is coerced converts, no
parameter, field, loop variable, pattern or receiver of a field is void, and every class in a
descriptor has a proper name. The checks follow the run from state to state. -/

namespace ClassGen

namespace Faithful

/-- What `next` says of the result of `x`, if there is one. -/
def after {α β : Type} (x : Lower α) (s : LowerState) (otherwise : β)
    (next : α → LowerState → β) : β :=
  match x s with
  | .ok a t => next a t
  | .error _ _ => otherwise

theorem after_ok {α β : Type} {x : Lower α} {s t : LowerState} {a : α} (h : x s = .ok a t)
    (otherwise : β) (next : α → LowerState → β) : after x s otherwise next = next a t := by
  simp only [after, h]

/-- A value that `x` lowers and that is then coerced to `target`. -/
def operand (value : Bool) (x : Lower Lowered) (s : LowerState) (target : Ty)
    (next : LowerState → Bool) : Bool :=
  value && after x s true fun v t => v.type.converts target && next t

/-- Every field of a chain is declared with values, and has one as it is read. -/
def chain (cx : BodyContext) (span : Span) : List String → Lowered → LowerState → Bool
  | [], _, _ => true
  | field :: rest, owner, s =>
    (after (structField owner.type field span) s true fun found _ => found.2.isValued) &&
      after (cx.loadField owner field span) s true fun next t => !next.type.isVoid &&
        chain cx span rest next t

/-- A receiver of fields: the value and how it is taken. -/
def receiver (cx : BodyContext) (value : Bool) (e : Expr) (s : LowerState)
    (next : Lowered → LowerState → Bool) : Bool :=
  value && after (lowerExpr cx e) s true fun r t => !r.type.isVoid &&
    after (cx.receiver r e.note) t true next

mutual

def expr (cx : BodyContext) : Expr → LowerState → Bool
  | .binary note op left right, s =>
    after (cx.resolve note) s true fun result _ =>
      if result.isString && !op.isRelational then
        expr cx left s && after (lowerExpr cx left) s true fun _ t => expr cx right t
      else if op = .and ∨ op = .or then
        operand (expr cx left (s.skip 2)) (lowerExpr cx left) (s.skip 2) .boolean fun t =>
          operand (expr cx right t) (lowerExpr cx right) t .boolean fun _ => true
      else
        after (cx.plannedType left) s true fun lt _ =>
          after (cx.plannedType right) s true fun rt _ =>
          after (op.plan? lt rt) s true fun plan t => plan.all fun plan =>
            operand (expr cx left t) (lowerExpr cx left) t plan.operand fun t =>
              operand (expr cx right t) (lowerExpr cx right) t plan.operand fun _ => true
  | .assign _ (.ident note name) value, s =>
    after (cx.storageOf name note.span) s true fun storage _ =>
      operand (expr cx value s) (lowerExpr cx value) s storage.type fun _ => true
  | .assign _ (.property note target fields) value, s =>
    receiver cx (expr cx target s) target s fun r t =>
      chain cx note.span fields.dropLast r t &&
        after (cx.loadFields r note.span fields.dropLast) t true fun owner t =>
          fields.getLast?.all fun last =>
            after (structField owner.type last note.span) t true fun found t =>
              found.2.isValued &&
                operand (expr cx value t) (lowerExpr cx value) t found.2 fun _ => true
  | .call note callee arguments, s =>
    after (cx.callee callee) s true fun
      | .function sig, s =>
        match sig.linkage with
        | .external _ _ => sig.paramTypes.all Ty.isValued && sig.ret.isNamed &&
            args cx arguments sig.paramTypes s
        | .user _ =>
          after (arguments.mapM cx.plannedType) s true fun types s =>
            after (BodyContext.specialize sig types note.span) s true fun found s =>
              found.2.1.all Ty.isValued && found.2.2.isNamed && args cx arguments found.2.1 s
      | .struct decl _, s =>
        (decl.fields.map Prod.snd).all Ty.isValued && args cx arguments (decl.fields.map Prod.snd) s
      | _, _ => true
  | .property note target fields, s =>
    receiver cx (expr cx target s) target s fun r t => chain cx note.span fields r t
  | .negate _ value, s =>
    after (cx.plannedType value) s true fun planned _ => planned.numeric?.all fun kind =>
      operand (expr cx value s) (lowerExpr cx value) s (.primitive kind) fun _ => true
  | .not _ value, s => operand (expr cx value s) (lowerExpr cx value) s .boolean fun _ => true
  | .group _ inner, s => expr cx inner s
  | .listOf _ items, s => entries cx items s
  | _, _ => true

def args (cx : BodyContext) : List Expr → List Ty → LowerState → Bool
  | arg :: rest, t :: ts, s => operand (expr cx arg s) (lowerExpr cx arg) s t fun u =>
      args cx rest ts u
  | _, _, _ => true

def entries (cx : BodyContext) : List Expr → LowerState → Bool
  | [], _ => true
  | entry :: rest, s => operand (expr cx entry s) (lowerExpr cx entry) s .object fun t =>
      entries cx rest t

end

theorem expr_group (cx : BodyContext) (note : Note) (inner : Expr) (s : LowerState) :
    expr cx (.group note inner) s = expr cx inner s := by
  rw [expr]

/-- Type of a new local: the declared one, or that of the initial value. -/
def varType (cx : BodyContext) (name : String) (init : Expr) (span : Span) : Lower Ty :=
  match cx.file.scopes.lookup cx.scope name with
  | some (.function _) | none => cx.plannedType init
  | some declared => cx.resolveType declared span

/-- Every field of the struct that `scope` knows as `name`. -/
def struct (file : FileContext) (scope : ScopeId) (name : String) : Bool :=
  match file.scopes.lookup scope name with
  | some (.struct decl _) => (decl.fields.map Prod.snd).all Ty.isValued
  | _ => true

mutual

@[simp] def stmt (cx : BodyContext) : Stmt → LowerState → Bool
  | .expr value, s => expr cx value s
  | .var span name init, s =>
    after (varType cx name init span) s true fun type _ =>
      operand (expr cx init s) (lowerExpr cx init) s type fun _ => true
  | .function decl, s => function cx.file cx.scope decl s
  | .struct _ name, _ => struct cx.file cx.scope name
  | .ret _ value, s =>
    value.isEmpty ||
      if cx.ret.isVoid then expr cx value s
      else operand (expr cx value s) (lowerExpr cx value) s cx.ret fun _ => true
  | .ifElse _ test body none, s =>
    operand (expr cx test (s.skip 1)) (lowerExpr cx test) (s.skip 1) .boolean fun t =>
      block cx body t
  | .ifElse _ test body (some branch), s =>
    operand (expr cx test (s.skip 1)) (lowerExpr cx test) (s.skip 1) .boolean fun t =>
      block cx body t && after (lowerBlock cx body) t true fun _ t => stmt cx branch (t.skip 1)
  | .whileLoop _ test body, s =>
    operand (expr cx test (s.skip 2)) (lowerExpr cx test) (s.skip 2) .boolean fun t =>
      block cx body t
  | .forEach span binding iterable body, s =>
    expr cx iterable s && after (openLoop cx binding iterable body.scope span) s true
      fun opened t =>
      !opened.2.2.type.isVoid && block cx body (t.skip 2)
  | .matchType _ subject branches, s =>
    expr cx subject s && after (openMatch cx subject) s true fun opened t =>
      arms cx opened.2 branches (t.skip 1)
  | .block body, s => block cx body s
  | .exported inner, s => stmt cx inner s
  | _, _ => true

@[simp] def block (cx : BodyContext) : Block → LowerState → Bool
  | ⟨scope, body, _⟩, s => stmts { cx with scope := scope } body s

@[simp] def stmts (cx : BodyContext) : List Stmt → LowerState → Bool
  | [], _ => true
  | first :: rest, s =>
    stmt cx first (s.logged (.statement first.kind cx.frame.name)) &&
      after (lowerStmt cx first) (s.logged (.statement first.kind cx.frame.name)) true fun _ t =>
        stmts cx rest t

@[simp] def arms (cx : BodyContext) (subject : Nat) : List Arm → LowerState → Bool
  | [], _ => true
  | ⟨pattern, binding, body, span⟩ :: rest, s =>
    after (cx.resolveType pattern span) (s.skip 1) true fun pattern t => !pattern.isVoid &&
      after (bindSubject subject pattern body.scope binding) t true fun _ t =>
        block cx body t && after (lowerBlock cx body) t true fun _ t => arms cx subject rest t

/-- The entry point may not have parameters: it gets none of them. -/
def function (file : FileContext) (scope : ScopeId) : FunctionDecl → LowerState → Bool
  | ⟨name, definition, span⟩, s =>
    after (functionNamed file scope name span) s true fun sig s =>
      sig.isGeneric || (name != "main" || sig.params.isEmpty) &&
        body file (.declared name sig) definition s

def body (file : FileContext) (plan : MethodPlan) : Block → LowerState → Bool
  | ⟨scope, statements, _⟩, s =>
    plan.emitted s ||
      (plan.params.map Prod.snd).all Ty.isValued && plan.ret.isNamed &&
        after (Lower.startFrame file .publicStatic plan.name plan.descriptor) s true fun frame s =>
          stmts (plan.context file frame scope) statements (plan.opened frame s)

end

theorem stmt_exported (cx : BodyContext) (inner : Stmt) (s : LowerState) :
    stmt cx (.exported inner) s = stmt cx inner s := by
  rw [stmt]

/-- Actions one after the other. -/
def each {α : Type} (check : α → LowerState → Bool) (act : α → Lower Unit) :
    List α → LowerState → Bool
  | [], _ => true
  | a :: rest, s => check a s && after (act a) s true fun _ t => each check act rest t

def top (file : FileContext) : Stmt → LowerState → Bool
  | .function decl, s => function file ScopeTree.root decl s
  | .struct _ name, _ => struct file ScopeTree.root name
  | .exported inner, s => top file inner s
  | _, _ => true

def instantiation (file : FileContext) (decl : FunctionDecl) (sig : Signature) (map : Bindings)
    (s : LowerState) : Bool :=
  match MethodPlan.instantiated decl.name sig map with
  | .ok plan => body file plan decl.body s
  | .error _ => true

def pending (file : FileContext) (name : String) (s : LowerState) : Bool :=
  match s.file.generics.lookup name, s.file.table.get? name with
  | some decl, some entry =>
    each (instantiation file decl entry.sig) (lowerInstance file decl entry.sig)
      (s.file.table.takePending name).1
      { s with file.table := (s.file.table.takePending name).2 }
  | _, _ => true

def drained (file : FileContext) : Nat → LowerState → Bool
  | 0, _ => true
  | rounds + 1, s =>
    match s.file.table.pendingFunctions with
    | [] => true
    | names =>
      each (pending file) (lowerPending file) names s &&
        after (names.forM (lowerPending file)) s true fun _ t => drained file rounds t

def file (rounds : Nat) (context : FileContext) (emitInstance : Bool) (body : List Stmt) : Bool :=
  isClassName context.unitName &&
    after (context.scaffolding emitInstance) {} true fun _ s =>
      each (top context) (lowerTop context) body s &&
        after (body.forM (lowerTop context)) s true fun _ t => drained context rounds t

end Faithful

/-- The run of lowering that compiles the file in so many rounds is faithful. -/
def SourceFile.isFaithful (rounds : Nat) (f : SourceFile) (options : Options) : Bool :=
  Faithful.file rounds (FileContext.ofSource f options) options.emitInstance f.body

end ClassGen
