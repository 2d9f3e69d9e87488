import ClassGen.Proofs.StackKinds.Faithful

/-! The expressions that lowering visits, each in the state in which it is lowered and with what its
value is for. They follow the run from state to state, up to the point where it fails if it fails,
and into the functions that are lowered on the way. -/

namespace ClassGen

namespace Values

open Faithful (after varType)

/-- What the value of an expression is for. -/
inductive Use where
  /-- Nothing, or it is the value of the expression around it. -/
  | free
  /-- Operand, argument, entry, condition, initial, assigned or returned value: it is brought to
  this type. -/
  | as (target : Ty)
  /-- Operand that is appended to a text. -/
  | text
  /-- It is matched on. -/
  | subject
  /-- It is iterated over. -/
  | iterable
  /-- A field of it is accessed. -/
  | owner

/-- An expression, where and when it is lowered. -/
structure Visit where
  cx : BodyContext
  expr : Expr
  state : LowerState
  use : Use

/-- An expression after those in it. -/
def visit (cx : BodyContext) (e : Expr) (use : Use) (s : LowerState) (inner : List Visit) :
    List Visit :=
  inner ++ [⟨cx, e, s, use⟩]

/-- An expression whose value is brought to `target`, and what is visited then. -/
def operand (cx : BodyContext) (e : Expr) (target : Ty) (s : LowerState) (inner : List Visit)
    (next : LowerState → List Visit) : List Visit :=
  visit cx e (.as target) s inner ++ after (lowerExpr cx e) s [] fun v s =>
    after (v.into target e.span) s [] fun _ s => next s

mutual

/-- The expressions inside an expression that is lowered in this state. -/
@[simp] def visits (cx : BodyContext) : Expr → LowerState → List Visit
  | .binary note op left right, s =>
    after (cx.resolve note) s [] fun result s =>
      if result.isString && !op.isRelational then
        visit cx left .text s (visits cx left s) ++ after (lowerExpr cx left) s [] fun l s =>
          after (l.appended left.span) s [] fun _ s => visit cx right .text s (visits cx right s)
      else if op = .and ∨ op = .or then
        operand cx left .boolean (s.skip 2) (visits cx left (s.skip 2)) fun s =>
          visit cx right (.as .boolean) s (visits cx right s)
      else if op = .pow then []
      else
        after (cx.plannedType left) s [] fun lt s => after (cx.plannedType right) s [] fun rt s =>
          after (op.plan? lt rt) s [] fun plan s =>
            match plan with
            | none => []
            | some plan =>
              operand cx left plan.operand s (visits cx left s) fun s =>
                visit cx right (.as plan.operand) s (visits cx right s)
  | .assign _ (.ident note name) value, s =>
    after (cx.storageOf name note.span) s [] fun storage s =>
      visit cx value (.as storage.type) s (visits cx value s)
  | .assign _ (.property note receiver fields) value, s =>
    match fields.getLast? with
    | none => []
    | some last =>
      visit cx receiver .owner s (visits cx receiver s) ++ after (lowerExpr cx receiver) s
        [] fun r s =>
        after (cx.receiver r receiver.note) s [] fun r s =>
          after (cx.loadFields r note.span fields.dropLast) s [] fun owner s =>
            after (structField owner.type last note.span) s [] fun found s =>
              visit cx value (.as found.2) s (visits cx value s)
  | .call note callee args, s =>
    after (cx.callee callee) s [] fun target s =>
      match target with
      | .function sig =>
        after (checkArity sig.params.length args.length note.span) s [] fun _ s =>
          match sig.linkage with
          | .external _ _ => visitsOfArgs cx args sig.paramTypes s
          | .user _ =>
            after (args.mapM cx.plannedType) s [] fun types s =>
              after (BodyContext.specialize sig types note.span) s [] fun found s =>
                visitsOfArgs cx args found.2.1 s
      | .struct decl _ =>
        after (checkArity decl.fields.length args.length note.span) s [] fun _ s =>
          visitsOfArgs cx args (decl.fields.map Prod.snd) s
      | _ => []
  | .property _ receiver fields, s =>
    visit cx receiver (if fields.isEmpty then .free else .owner) s (visits cx receiver s)
  | .negate _ value, s =>
    after (cx.plannedType value) s [] fun planned s =>
      match planned.numeric? with
      | none => []
      | some kind => visit cx value (.as (.primitive kind)) s (visits cx value s)
  | .not _ value, s => visit cx value (.as .boolean) s (visits cx value s)
  | .group _ inner, s => visit cx inner .free s (visits cx inner s)
  | .listOf note entries, s => after (cx.resolve note) s [] fun _ s => visitsOfEntries cx entries s
  | _, _ => []

@[simp] def visitsOfArgs (cx : BodyContext) : List Expr → List Ty → LowerState → List Visit
  | arg :: args, t :: ts, s => operand cx arg t s (visits cx arg s) fun s =>
      visitsOfArgs cx args ts s
  | _, _, _ => []

@[simp] def visitsOfEntries (cx : BodyContext) : List Expr → LowerState → List Visit
  | [], _ => []
  | entry :: entries, s => operand cx entry .object s (visits cx entry s) fun s =>
      visitsOfEntries cx entries s

end

mutual

/-- The expressions in a statement. -/
def visitsOfStmt (cx : BodyContext) : Stmt → LowerState → List Visit
  | .expr value, s => visit cx value .free s (visits cx value s)
  | .var span name init, s =>
    after (varType cx name init span) s [] fun type s =>
      if type.isVoid then [] else visit cx init (.as type) s (visits cx init s)
  | .function decl, s => visitsOfFunction cx.file cx.scope decl s
  | .ret _ value, s =>
    if value.isEmpty then []
    else visit cx value (if cx.ret.isVoid then .free else .as cx.ret) s (visits cx value s)
  | .ifElse _ test body none, s =>
    operand cx test .boolean (s.skip 1) (visits cx test (s.skip 1)) fun s => visitsOfBlock cx body s
  | .ifElse _ test body (some branch), s =>
    operand cx test .boolean (s.skip 1) (visits cx test (s.skip 1)) fun s =>
      visitsOfBlock cx body s ++ after (lowerBlock cx body) s [] fun _ s =>
        visitsOfStmt cx branch (s.skip 1)
  | .whileLoop _ test body, s =>
    operand cx test .boolean (s.skip 2) (visits cx test (s.skip 2)) fun s => visitsOfBlock cx body s
  | .forEach span binding iterable body, s =>
    visit cx iterable .iterable s (visits cx iterable s) ++
      after (openLoop cx binding iterable body.scope span) s [] fun _ s =>
        visitsOfBlock cx body (s.skip 2)
  | .matchType _ subject arms, s =>
    visit cx subject .subject s (visits cx subject s) ++ after (openMatch cx subject) s []
      fun opened s =>
      visitsOfArms cx opened.2 arms (s.skip 1)
  | .block body, s => visitsOfBlock cx body s
  | .exported inner, s => visitsOfStmt cx inner s
  | _, _ => []

def visitsOfBlock (cx : BodyContext) : Block → LowerState → List Visit
  | ⟨scope, body, _⟩, s => visitsOfStmts { cx with scope := scope } body s

def visitsOfStmts (cx : BodyContext) : List Stmt → LowerState → List Visit
  | [], _ => []
  | first :: rest, s =>
    visitsOfStmt cx first (s.logged (.statement first.kind cx.frame.name)) ++
      after (lowerStmt cx first) (s.logged (.statement first.kind cx.frame.name)) [] fun _ s =>
        visitsOfStmts cx rest s

def visitsOfArms (cx : BodyContext) (subject : Nat) : List Arm → LowerState → List Visit
  | [], _ => []
  | ⟨pattern, binding, body, span⟩ :: rest, s =>
    after (cx.resolveType pattern span) (s.skip 1) [] fun pattern s =>
      after (bindSubject subject pattern body.scope binding) s [] fun _ s =>
        visitsOfBlock cx body s ++ after (lowerBlock cx body) s [] fun _ s =>
          visitsOfArms cx subject rest s

/-- A generic function is not lowered where it is declared. -/
def visitsOfFunction (file : FileContext) (scope : ScopeId) : FunctionDecl → LowerState → List Visit
  | ⟨name, body, span⟩, s =>
    after (functionNamed file scope name span) s [] fun sig s =>
      if sig.isGeneric then [] else visitsOfBody file (.declared name sig) body s

def visitsOfBody (file : FileContext) (plan : MethodPlan) : Block → LowerState → List Visit
  | ⟨scope, body, _⟩, s =>
    if plan.emitted s then []
    else after (Lower.startFrame file .publicStatic plan.name plan.descriptor) s [] fun frame s =>
      visitsOfStmts (plan.context file frame scope) body (plan.opened frame s)

end

theorem visitsOfStmt_exported (cx : BodyContext) (inner : Stmt) (s : LowerState) :
    visitsOfStmt cx (.exported inner) s = visitsOfStmt cx inner s := by
  rw [visitsOfStmt]

end Values

end ClassGen
