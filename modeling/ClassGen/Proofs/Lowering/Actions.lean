import ClassGen.Proofs.Lowering.File

/-! Lowering is put together from a few actions. What holds of these, and of a composite computation
if it holds of the parts, holds of all lowering. This is the induction over expressions and
statements, once for every such property. -/

namespace ClassGen

/-- A request is always granted, and a new one is traced. -/
theorem requireInstance_run (sig : Signature) (map : Bindings) (descriptor : String)
    (s : LowerState) :
    ∃ events, requireInstance sig map descriptor s =
        .ok () { s with
          file.table := (s.file.table.require sig map).2
          file.log := events ++ s.file.log } ∧
      ∀ e ∈ events, ∃ index, e = .requested index sig.name descriptor := by
  have hrun : requireInstance sig map descriptor s =
      (if (s.file.table.require sig map).1.2 = true then
          Lower.log (.requested (s.file.table.require sig map).1.1 sig.name descriptor)
        else pure () : Lower Unit) { s with file.table := (s.file.table.require sig map).2 } := rfl
  rw [hrun]
  split_ifs
  · exact ⟨[.requested _ _ _], rfl, by simp⟩
  · exact ⟨[], rfl, by simp⟩

/-! ### Computations put together from actions -/

/-- Holds of the actions on the body of a method, and of what is put together from such. -/
structure Lower.Compositional (P : (α : Type) → Lower α → Prop) : Prop where
  pure : ∀ {α : Type} (a : α), P α (pure a)
  throw : ∀ {α : Type} (e : CodegenError), P α (throw e)
  bind : ∀ {α β : Type} {x : Lower α} {f : α → Lower β}, P α x → (∀ a, P β (f a)) → P β (x >>= f)
  newLabel : P Label Lower.newLabel
  newSlot : ∀ repr, P Nat (Lower.newSlot repr)
  declareLocal : ∀ scope name type, P Nat (Lower.declareLocal scope name type)
  storage? : ∀ (cx : BodyContext) name, P (Option Storage) (cx.storage? name)
  requireInstance : ∀ sig map descriptor, P Unit (requireInstance sig map descriptor)

namespace Lower.Compositional

variable {P : (α : Type) → Lower α → Prop} (hP : Compositional P)

include hP

/-! ### Steps -/

theorem mapM {α β : Type} {f : α → Lower β} (hf : ∀ a, P β (f a)) : ∀ list : List α, P (List β)
    (list.mapM f)
  | [] => by
    rw [List.mapM_nil]
    exact hP.pure _
  | a :: rest => by
    rw [List.mapM_cons]
    exact hP.bind (hf a) fun _ => hP.bind (mapM hf rest) fun _ => hP.pure _

theorem forM {α : Type} {f : α → Lower Unit} (hf : ∀ a, P Unit (f a)) : ∀ list :
    List α, P Unit (list.forM f)
  | [] => hP.pure _
  | a :: rest => hP.bind (hf a) fun _ => forM hf rest

theorem into (v : Lowered) (target : Ty) (span : Span) : P Code (v.into target span) := by
  unfold Lowered.into
  split_ifs
  · exact hP.throw _
  · exact hP.pure _

theorem appended (v : Lowered) (span : Span) : P Code (v.appended span) := by
  unfold Lowered.appended
  split_ifs
  · exact hP.throw _
  · exact hP.pure _

theorem structField (owner : Ty) (field : String) (span : Span) : P (StructDef × Ty)
    (structField owner field span) := by
  unfold ClassGen.structField
  split
  · split
    · exact hP.pure _
    · exact hP.throw _
  · exact hP.throw _

theorem checkArity (expected found : Nat) (span : Span) :
    P Unit (checkArity expected found span) := by
  unfold ClassGen.checkArity
  split_ifs
  · exact hP.pure _
  · exact hP.throw _

theorem plan? (op : BinaryOp) (lt rt : Ty) : P (Option OperatorPlan) (op.plan? lt rt) := by
  unfold BinaryOp.plan?
  split_ifs
  · exact hP.bind hP.newLabel fun _ => hP.bind hP.newLabel fun _ => hP.pure _
  · exact hP.pure _
  · exact hP.pure _

theorem startFrame (file : FileContext) (access : Access) (name descriptor : String) :
    P Frame (Lower.startFrame file access name descriptor) := by
  unfold Lower.startFrame
  split
  · exact hP.pure _
  · exact hP.throw _

theorem functionNamed (file : FileContext) (scope : ScopeId) (name : String) (span : Span) :
    P Signature (functionNamed file scope name span) := by
  unfold ClassGen.functionNamed
  split
  · exact hP.pure _
  · exact hP.throw _
  · exact hP.throw _

theorem resolveType (cx : BodyContext) (type : Ty) (span : Span) :
    P Ty (cx.resolveType type span) := by
  unfold BodyContext.resolveType
  split
  · exact hP.pure _
  · exact hP.throw _

theorem resolve (cx : BodyContext) (note : Note) : P Ty (cx.resolve note) :=
  hP.resolveType cx note.type note.span

theorem storageOf (cx : BodyContext) (name : String) (span : Span) :
    P Storage (cx.storageOf name span) := by
  unfold BodyContext.storageOf
  refine hP.bind (hP.storage? cx name) fun found => ?_
  split
  · exact hP.pure _
  · exact hP.throw _

theorem plannedType (cx : BodyContext) : ∀ e : Expr, P Ty (cx.plannedType e)
  | .ident note name => hP.bind (hP.storage? cx name) fun found => by
    cases found with
    | none => exact hP.resolve cx note
    | some storage => exact hP.pure _
  | .group _ inner => plannedType cx inner
  | .literal _ _ | .binary _ _ _ _ | .assign _ _ _ | .call _ _ _ | .property _ _ _
  | .step _ _ _ | .negate _ _
  | .not _ _ | .emptyList _ | .listOf _ _ | .index _ _ _ | .moduleMember _ _ _
  | .enumValue _ _ _ | .lambda _
  | .empty _ | .bad _ => hP.resolve cx _

theorem loadField (cx : BodyContext) (owner : Lowered) (field : String) (span : Span) :
    P Lowered (cx.loadField owner field span) := hP.bind (hP.structField _ _ _) fun _ => hP.pure _

theorem loadFields (cx : BodyContext) (span : Span) : ∀ (owner : Lowered) (fields : List String),
    P Lowered (cx.loadFields owner span fields)
  | _, [] => hP.pure _
  | owner, field :: rest => hP.bind (hP.loadField cx owner field span) fun next =>
      loadFields cx span next rest

theorem receiver (cx : BodyContext) (value : Lowered) (note : Note) :
    P Lowered (cx.receiver value note) :=
  hP.bind (hP.resolve cx note) fun annotated => by
    split <;> exact hP.pure _

theorem callee (cx : BodyContext) : ∀ e : Expr, P Ty (cx.callee e)
  | .ident note name => by
    rw [BodyContext.callee]
    split
    · exact hP.pure _
    · exact hP.throw _
  | .literal _ _ | .binary _ _ _ _ | .assign _ _ _ | .call _ _ _ | .property _ _ _
  | .step _ _ _ | .negate _ _
  | .not _ _ | .group _ _ | .emptyList _ | .listOf _ _ | .index _ _ _
  | .moduleMember _ _ _ | .enumValue _ _ _
  | .lambda _ | .empty _ | .bad _ => hP.pure _

theorem specialize (sig : Signature) (args : List Ty) (span : Span) :
    P (Bindings × List Ty × Ty) (BodyContext.specialize sig args span) := by
  unfold BodyContext.specialize
  extract_lets answer
  cases answer with
  | ok found => exact hP.pure _
  | error e => exact hP.throw _

theorem linkedUnit (cx : BodyContext) (sig : Signature) (owner : Option String) (map : Bindings)
    (descriptor : String) : P String (cx.linkedUnit sig owner map descriptor) := by
  unfold BodyContext.linkedUnit
  split
  · exact hP.pure _
  · split_ifs
    · exact hP.bind (hP.requireInstance _ _ _) fun _ => hP.pure _
    · exact hP.pure _

/-! ### Expressions -/

mutual

theorem lowerExpr (cx : BodyContext) : ∀ e : Expr, P Lowered (lowerExpr cx e)
  | .literal _ _ => by
    rw [ClassGen.lowerExpr]
    exact hP.pure _
  | .ident note name => by
    rw [ClassGen.lowerExpr]
    exact hP.bind (hP.storageOf cx name note.span) fun _ => hP.pure _
  | .binary note op left right => by
    rw [ClassGen.lowerExpr]
    refine hP.bind (hP.resolve cx note) fun result => ?_
    split_ifs
    · exact hP.bind (lowerExpr cx left) fun l => hP.bind (hP.appended l _) fun _ =>
        hP.bind (lowerExpr cx right) fun r => hP.bind (hP.appended r _) fun _ => hP.pure _
    · exact hP.bind hP.newLabel fun _ => hP.bind hP.newLabel fun _ =>
        hP.bind (lowerExpr cx left) fun l => hP.bind (hP.into l _ _) fun _ =>
          hP.bind (lowerExpr cx right) fun r => hP.bind (hP.into r _ _) fun _ => hP.pure _
    · exact hP.throw _
    · refine hP.bind (hP.plannedType cx left) fun lt => hP.bind (hP.plannedType cx right) fun rt =>
        hP.bind (hP.plan? op lt rt) fun plan => ?_
      cases plan with
      | none => exact hP.throw _
      | some plan =>
        exact hP.bind (lowerExpr cx left) fun l => hP.bind (hP.into l _ _) fun _ =>
          hP.bind (lowerExpr cx right) fun r => hP.bind (hP.into r _ _) fun _ => hP.pure _
  | .assign _ (.ident target name) value => by
    rw [ClassGen.lowerExpr]
    exact hP.bind (hP.storageOf cx name target.span) fun _ =>
      hP.bind (lowerExpr cx value) fun v => hP.bind (hP.into v _ _) fun _ => hP.pure _
  | .assign _ (.property target receiver fields) value => by
    rw [ClassGen.lowerExpr]
    cases fields.getLast? with
    | none => exact hP.throw _
    | some last =>
      exact hP.bind (lowerExpr cx receiver) fun r => hP.bind (hP.receiver cx r _) fun r' =>
        hP.bind (hP.loadFields cx _ r' _) fun owner => hP.bind (hP.structField _ _ _) fun _ =>
          hP.bind (lowerExpr cx value) fun v => hP.bind (hP.into v _ _) fun _ => hP.pure _
  | .assign _ (.literal _ _) _ | .assign _ (.binary _ _ _ _) _ | .assign _ (.assign _ _ _) _
  | .assign _ (.call _ _ _) _ | .assign _ (.step _ _ _) _ | .assign _ (.negate _ _) _
  | .assign _ (.not _ _) _
  | .assign _ (.group _ _) _ | .assign _ (.emptyList _) _ | .assign _ (.listOf _ _) _
  | .assign _ (.index _ _ _) _
  | .assign _ (.moduleMember _ _ _) _ | .assign _ (.enumValue _ _ _) _ | .assign _ (.lambda _) _
  | .assign _ (.empty _) _ | .assign _ (.bad _) _ => by
    rw [ClassGen.lowerExpr] <;> first | exact hP.throw _ | nofun
  | .call note callee args => by
    rw [ClassGen.lowerExpr]
    refine hP.bind (hP.callee cx callee) fun found => ?_
    cases found with
    | function sig =>
      refine hP.bind (hP.checkArity _ _ _) fun _ => ?_
      cases sig.linkage with
      | external owner method => exact hP.bind (lowerArgs cx args _) fun _ => hP.pure _
      | user owner =>
        exact hP.bind (hP.mapM (hP.plannedType cx) args) fun _ =>
          hP.bind (hP.specialize _ _ _) fun _ =>
          hP.bind (lowerArgs cx args _) fun _ => hP.bind (hP.linkedUnit cx _ _ _ _) fun _ =>
            hP.pure _
    | struct decl bindings =>
      exact hP.bind (hP.checkArity _ _ _) fun _ => hP.bind (lowerArgs cx args _) fun _ =>
        hP.bind (hP.resolve cx note) fun _ => hP.pure _
    | _ => exact hP.throw _
  | .property _ receiver fields => by
    rw [ClassGen.lowerExpr]
    exact hP.bind (lowerExpr cx receiver) fun r => hP.bind (hP.receiver cx r _) fun r' =>
      hP.loadFields cx _ r' fields
  | .step _ _ (.ident operand name) => by
    rw [ClassGen.lowerExpr]
    refine hP.bind (hP.storageOf cx name operand.span) fun storage => ?_
    cases storage.type.numeric? with
    | none => exact hP.throw _
    | some kind => exact hP.pure _
  | .step _ _ (.literal _ _) | .step _ _ (.binary _ _ _ _) | .step _ _ (.assign _ _ _)
  | .step _ _ (.call _ _ _)
  | .step _ _ (.property _ _ _) | .step _ _ (.step _ _ _) | .step _ _ (.negate _ _)
  | .step _ _ (.not _ _)
  | .step _ _ (.group _ _) | .step _ _ (.emptyList _) | .step _ _ (.listOf _ _)
  | .step _ _ (.index _ _ _)
  | .step _ _ (.moduleMember _ _ _) | .step _ _ (.enumValue _ _ _) | .step _ _ (.lambda _)
  | .step _ _ (.empty _)
  | .step _ _ (.bad _) => by
    rw [ClassGen.lowerExpr] <;> first | exact hP.throw _ | nofun
  | .negate _ operand => by
    rw [ClassGen.lowerExpr]
    refine hP.bind (hP.plannedType cx operand) fun planned => ?_
    cases planned.numeric? with
    | none => exact hP.throw _
    | some kind =>
        exact hP.bind (lowerExpr cx operand) fun v => hP.bind (hP.into v _ _) fun _ => hP.pure _
  | .not _ operand => by
    rw [ClassGen.lowerExpr]
    exact hP.bind (lowerExpr cx operand) fun v => hP.bind (hP.into v _ _) fun _ => hP.pure _
  | .group _ inner => by
    rw [ClassGen.lowerExpr]
    exact lowerExpr cx inner
  | .emptyList note => by
    rw [ClassGen.lowerExpr]
    exact hP.bind (hP.resolve cx note) fun _ => hP.pure _
  | .listOf note entries => by
    rw [ClassGen.lowerExpr]
    exact hP.bind (hP.resolve cx note) fun _ => hP.bind (lowerEntries cx entries) fun _ => hP.pure _
  | .index _ _ _ => by
    rw [ClassGen.lowerExpr]
    exact hP.throw _
  | .moduleMember _ _ _ | .enumValue _ _ _ | .lambda _ | .empty _ | .bad _ => by
    rw [ClassGen.lowerExpr]
    exact hP.pure _

theorem lowerArgs (cx : BodyContext) : ∀ (args : List Expr) (types : List Ty),
    P Code (lowerArgs cx args types)
  | [], _ | _ :: _, [] => hP.pure _
  | arg :: args, type :: types => by
    rw [ClassGen.lowerArgs]
    exact hP.bind (lowerExpr cx arg) fun v => hP.bind (hP.into v _ _) fun _ =>
      hP.bind (lowerArgs cx args types) fun _ => hP.pure _

theorem lowerEntries (cx : BodyContext) : ∀ entries : List Expr, P Code (lowerEntries cx entries)
  | [] => hP.pure _
  | entry :: entries => by
    rw [ClassGen.lowerEntries]
    exact hP.bind (lowerExpr cx entry) fun v => hP.bind (hP.into v _ _) fun _ =>
      hP.bind (lowerEntries cx entries) fun _ => hP.pure _

end

theorem lowerAs (cx : BodyContext) (e : Expr) (target : Ty) : P Code (lowerAs cx e target) :=
  hP.bind (hP.lowerExpr cx e) fun v => hP.into v _ _

/-! ### Parts of statements -/

theorem bindSubject (subject : Nat) (pattern : Ty) (scope : ScopeId) (binding : String) :
    P Code (bindSubject subject pattern scope binding) := by
  unfold ClassGen.bindSubject
  split_ifs
  · exact hP.pure _
  · exact hP.bind (hP.declareLocal _ _ _) fun _ => hP.pure _

theorem lowerVar (cx : BodyContext) (name : String) (init : Expr) (span : Span) :
    P Code (lowerVar cx name init span) := by
  have htyped (type : Ty) : P Code (do
      if type.isVoid then MonadExcept.throw (.fault (.voidVariable name) span)
      let value ← ClassGen.lowerAs cx init type
      let slot ← Lower.declareLocal cx.scope name type
      return value ++ [Code.storeSlot slot type.representation]) := by
    split_ifs
    · exact hP.bind (hP.throw _) fun _ => hP.bind (hP.lowerAs cx init type) fun _ =>
        hP.bind (hP.declareLocal _ _ _) fun _ => hP.pure _
    · exact hP.bind (hP.lowerAs cx init type) fun _ => hP.bind (hP.declareLocal _ _ _) fun _ =>
        hP.pure _
  unfold ClassGen.lowerVar
  cases cx.file.scopes.lookup cx.scope name with
  | none => exact hP.bind (hP.plannedType cx init) htyped
  | some declared =>
    cases declared with
    | function sig => exact hP.bind (hP.plannedType cx init) htyped
    | _ => exact hP.bind (hP.resolveType cx _ span) htyped

theorem lowerReturn (cx : BodyContext) (value : Expr) (span : Span) :
    P Code (lowerReturn cx value span) := by
  unfold ClassGen.lowerReturn
  split_ifs
  · exact hP.pure _
  · exact hP.bind (hP.lowerExpr cx value) fun _ => hP.pure _
  · exact hP.bind (hP.throw _) fun _ => hP.bind (hP.lowerAs cx value _) fun _ => hP.pure _
  · exact hP.bind (hP.lowerAs cx value _) fun _ => hP.pure _

theorem openLoop (cx : BodyContext) (binding : String) (iterable : Expr) (scope : ScopeId)
    (span : Span) : P (Code × Nat × LocalVar) (openLoop cx binding iterable scope span) := by
  refine hP.bind (hP.lowerExpr cx iterable) fun source => ?_
  cases iteratorCode source.type with
  | none => exact hP.throw _
  | some code =>
    refine hP.bind (hP.newSlot _) fun iterator => ?_
    cases cx.file.scopes.lookup scope binding with
    | none => exact hP.bind (hP.pure _) fun _ => hP.bind (hP.declareLocal _ _ _) fun _ => hP.pure _
    | some declared =>
      exact hP.bind (hP.resolveType cx _ _) fun _ => hP.bind (hP.declareLocal _ _ _) fun _ =>
        hP.pure _

theorem openMatch (cx : BodyContext) (subject : Expr) : P (Code × Nat) (openMatch cx subject) := by
  refine hP.bind (hP.lowerExpr cx subject) fun v => ?_
  split_ifs
  · exact hP.bind (hP.throw _) fun _ => hP.bind (hP.newSlot _) fun _ => hP.pure _
  · exact hP.bind (hP.newSlot _) fun _ => hP.pure _

end Lower.Compositional

/-! ### Statements -/

/-- Properties of what is done inside a method, if any, where a method may have others inside it. -/
structure Lower.Nesting (P : Option String → (α : Type) → Lower α → Prop) : Prop where
  compositional : ∀ inside, Compositional (P inside)
  statement : ∀ kind name, P (some name) Unit (Lower.log (.statement kind name))
  defer : ∀ inside decl, P inside Unit (defer decl)
  struct : ∀ inside file scope name span, P inside Unit (lowerStruct file scope name span)
  method : ∀ inside file (plan : MethodPlan) (b : Block),
    (∀ frame, P (some frame.name) Code (lowerStmts (plan.context file frame b.scope) [] b.body)) →
    P inside Unit (lowerBody file plan b)

namespace Lower.Nesting

variable {P : Option String → (α : Type) → Lower α → Prop}

mutual

theorem lowerStmt (hP : Nesting P) : ∀ (cx : BodyContext) (st : Stmt),
    P (some cx.frame.name) Code (lowerStmt cx st)
  | cx, .expr value => by
    have hC := hP.compositional (some cx.frame.name)
    rw [ClassGen.lowerStmt]
    exact hC.bind (hC.lowerExpr cx value) fun _ => hC.pure _
  | cx, .var span name init => by
    rw [ClassGen.lowerStmt]
    exact (hP.compositional _).lowerVar cx name init span
  | cx, .function decl => by
    have hC := hP.compositional (some cx.frame.name)
    rw [ClassGen.lowerStmt]
    exact hC.bind (lowerFunction hP _ cx.file cx.scope decl) fun _ => hC.pure _
  | cx, .struct span name => by
    have hC := hP.compositional (some cx.frame.name)
    rw [ClassGen.lowerStmt]
    exact hC.bind (hP.struct _ cx.file cx.scope name span) fun _ => hC.pure _
  | cx, .ret span value => by
    rw [ClassGen.lowerStmt]
    exact (hP.compositional _).lowerReturn cx value span
  | cx, .ifElse _ test body none => by
    have hC := hP.compositional (some cx.frame.name)
    rw [ClassGen.lowerStmt]
    exact hC.bind hC.newLabel fun _ => hC.bind (hC.lowerAs cx test _) fun _ =>
      hC.bind (lowerBlock hP cx body) fun _ => hC.pure _
  | cx, .ifElse _ test body (some branch) => by
    have hC := hP.compositional (some cx.frame.name)
    rw [ClassGen.lowerStmt]
    exact hC.bind hC.newLabel fun _ => hC.bind (hC.lowerAs cx test _) fun _ =>
      hC.bind (lowerBlock hP cx body) fun _ => hC.bind hC.newLabel fun _ =>
        hC.bind (lowerStmt hP cx branch) fun _ => hC.pure _
  | cx, .whileLoop _ test body => by
    have hC := hP.compositional (some cx.frame.name)
    rw [ClassGen.lowerStmt]
    exact hC.bind hC.newLabel fun _ => hC.bind hC.newLabel fun _ =>
      hC.bind (hC.lowerAs cx test _) fun _ =>
      hC.bind (lowerBlock hP cx body) fun _ => hC.pure _
  | cx, .forEach span binding iterable body => by
    have hC := hP.compositional (some cx.frame.name)
    rw [ClassGen.lowerStmt]
    exact hC.bind (hC.openLoop cx binding iterable body.scope span) fun _ =>
      hC.bind hC.newLabel fun _ =>
      hC.bind hC.newLabel fun _ => hC.bind (lowerBlock hP cx body) fun _ => hC.pure _
  | cx, .matchType _ subject arms => by
    have hC := hP.compositional (some cx.frame.name)
    rw [ClassGen.lowerStmt]
    exact hC.bind (hC.openMatch cx subject) fun _ => hC.bind hC.newLabel fun _ =>
      hC.bind (lowerArms hP cx _ _ arms) fun _ => hC.pure _
  | cx, .block body => by
    rw [ClassGen.lowerStmt]
    exact lowerBlock hP cx body
  | cx, .exported inner => by
    rw [ClassGen.lowerStmt]
    exact lowerStmt hP cx inner
  | cx, .use _ _ | cx, .typeAlias _ _ | cx, .unionType _ _ => by
    rw [ClassGen.lowerStmt]
    exact (hP.compositional _).pure _
  | cx, .enum _ _ | cx, .parameter _ _ => by
    rw [ClassGen.lowerStmt]
    exact (hP.compositional _).throw _

theorem lowerBlock (hP : Nesting P) : ∀ (cx : BodyContext) (b : Block),
    P (some cx.frame.name) Code (lowerBlock cx b)
  | cx, ⟨scope, body, _⟩ => by
    rw [ClassGen.lowerBlock]
    exact lowerStmts hP { cx with scope } [] body

theorem lowerStmts (hP : Nesting P) : ∀ (cx : BodyContext) (done : List Code) (body : List Stmt),
    P (some cx.frame.name) Code (lowerStmts cx done body)
  | cx, done, [] => by
    rw [ClassGen.lowerStmts]
    exact (hP.compositional _).pure _
  | cx, done, first :: rest => by
    have hC := hP.compositional (some cx.frame.name)
    rw [ClassGen.lowerStmts]
    exact hC.bind (hP.statement _ _) fun _ => hC.bind (lowerStmt hP cx first) fun code =>
      lowerStmts hP cx _ rest

theorem lowerArms (hP : Nesting P) : ∀ (cx : BodyContext) (subject : Nat) (done : Label)
    (arms : List Arm), P (some cx.frame.name) Code (lowerArms cx subject done arms)
  | cx, subject, done, [] => by
    rw [ClassGen.lowerArms]
    exact (hP.compositional _).pure _
  | cx, subject, done, ⟨pattern, binding, body, span⟩ :: rest => by
    have hC := hP.compositional (some cx.frame.name)
    rw [ClassGen.lowerArms]
    exact hC.bind hC.newLabel fun _ => hC.bind (hC.resolveType cx _ _) fun _ =>
      hC.bind (hC.bindSubject _ _ _ _) fun _ =>
      hC.bind (lowerBlock hP cx body) fun _ => hC.bind (lowerArms hP cx subject done rest) fun _ =>
        hC.pure _

theorem lowerFunction (hP : Nesting P) : ∀ (inside : Option String) (file : FileContext)
    (scope : ScopeId) (decl : FunctionDecl), P inside Unit (lowerFunction file scope decl)
  | inside, file, scope, ⟨name, body, span⟩ => by
    have hC := hP.compositional inside
    rw [ClassGen.lowerFunction]
    refine hC.bind (hC.functionNamed file scope name span) fun sig => ?_
    split_ifs
    · exact hP.defer inside _
    · exact lowerBody hP inside file _ body

theorem lowerBody (hP : Nesting P) : ∀ (inside : Option String) (file : FileContext)
    (plan : MethodPlan) (b : Block), P inside Unit (lowerBody file plan b)
  | inside, file, plan, ⟨scope, body, span⟩ =>
    hP.method inside file plan ⟨scope, body, span⟩ fun frame =>
      lowerStmts hP (plan.context file frame scope) [] body

end

/-! ### Declarations and instantiations -/

theorem lowerTop (hP : Nesting P) (file : FileContext) : ∀ st : Stmt, P none Unit (lowerTop file st)
  | .function decl => hP.lowerFunction none file ScopeTree.root decl
  | .struct span name => hP.struct none file ScopeTree.root name span
  | .exported inner => lowerTop hP file inner
  | .use _ _ | .typeAlias _ _ | .unionType _ _ => (hP.compositional none).pure _
  | .expr _ | .var _ _ _ | .ret _ _ | .ifElse _ _ _ _ | .whileLoop _ _ _
  | .forEach _ _ _ _ | .matchType _ _ _
  | .block _ | .enum _ _ | .parameter _ _ => (hP.compositional none).throw _

theorem lowerInstance (hP : Nesting P) (file : FileContext) (decl : FunctionDecl) (sig : Signature)
    (map : Bindings) : P none Unit (lowerInstance file decl sig map) := by
  unfold ClassGen.lowerInstance
  split
  · exact hP.lowerBody none file _ decl.body
  · exact (hP.compositional none).throw _

end Lower.Nesting

end ClassGen
