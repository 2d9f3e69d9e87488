import ClassGen.Proofs.Linking.File

/-! The parts of a body that are evaluated: its statements and their expressions at any depth, each
in its scope. A callee is not evaluated, nor a name that is assigned to, and a function inside has a
body of its own. Whenever a body is lowered, every part of it is, and the code of a part is a
stretch of that of the body. -/

namespace ClassGen

open Run

/-! ### Listing the parts -/

/-- A part of a body, with the scope it is in. -/
inductive BodyPart where
  | expr (scope : ScopeId) (e : Expr)
  | stmt (scope : ScopeId) (st : Stmt)

mutual

/-- What is evaluated for an expression, at any depth. -/
@[simp] def Expr.within (scope : ScopeId) : Expr → List BodyPart
  | .binary _ _ left right => (.expr scope left :: left.within scope) ++
      (.expr scope right :: right.within scope)
  | .assign _ (.ident _ _) value => .expr scope value :: value.within scope
  | .assign _ (.property _ receiver _) value =>
    (.expr scope receiver :: receiver.within scope) ++ (.expr scope value :: value.within scope)
  | .assign _ target value => (.expr scope target :: target.within scope) ++
      (.expr scope value :: value.within scope)
  | .call _ _ args => partsOfAll scope args
  | .property _ inner _ | .step _ _ inner | .negate _ inner | .not _ inner | .group _ inner =>
    .expr scope inner :: inner.within scope
  | .listOf _ entries => partsOfAll scope entries
  | .index _ target position =>
    (.expr scope target :: target.within scope) ++ (.expr scope position :: position.within scope)
  | .literal _ _ | .ident _ _ | .emptyList _ | .moduleMember _ _ _ | .enumValue _ _ _
  | .lambda _ | .empty _ | .bad _ =>
    []

@[simp] def partsOfAll (scope : ScopeId) : List Expr → List BodyPart
  | [] => []
  | e :: rest => (.expr scope e :: e.within scope) ++ partsOfAll scope rest

end

/-- An expression and what is evaluated for it. -/
def Expr.parts (scope : ScopeId) (e : Expr) : List BodyPart := .expr scope e :: e.within scope

mutual

/-- What is evaluated for a statement, at any depth. -/
@[simp] def Stmt.within (scope : ScopeId) : Stmt → List BodyPart
  | .expr value | .var _ _ value | .ret _ value => value.parts scope
  | .ifElse _ test body none => test.parts scope ++ body.parts
  | .ifElse _ test body (some branch) => test.parts scope ++ body.parts ++
      (.stmt scope branch :: branch.within scope)
  | .whileLoop _ test body => test.parts scope ++ body.parts
  | .forEach _ _ iterable body => iterable.parts scope ++ body.parts
  | .matchType _ subject arms => subject.parts scope ++ partsOfArms arms
  | .block body => body.parts
  | .exported inner => .stmt scope inner :: inner.within scope
  | .function _ | .struct _ _ | .use _ _ | .typeAlias _ _ | .unionType _ _
  | .enum _ _ | .parameter _ _ => []

@[simp] def Block.parts : Block → List BodyPart
  | ⟨scope, body, _⟩ => partsOf scope body

@[simp] def partsOf (scope : ScopeId) : List Stmt → List BodyPart
  | [] => []
  | st :: rest => (.stmt scope st :: st.within scope) ++ partsOf scope rest

@[simp] def partsOfArms : List Arm → List BodyPart
  | [] => []
  | ⟨_, _, body, _⟩ :: rest => body.parts ++ partsOfArms rest

end

/-! ### Parts of code -/

/-- The part was lowered in its scope, to a stretch of `code`. -/
def BodyPart.LoweredIn (cx : BodyContext) (code : Code) : BodyPart → Prop
  | .expr scope e => ∃ s v t, lowerExpr { cx with scope } e s = .ok v t ∧ v.code <:+: code
  | .stmt scope st => ∃ s c t, lowerStmt { cx with scope } st s = .ok c t ∧ c <:+: code

/-- All of them were lowered, to stretches of `code`. -/
def AllLowered (cx : BodyContext) (code : Code) (parts : List BodyPart) : Prop :=
  ∀ p ∈ parts, p.LoweredIn cx code

variable {cx : BodyContext} {s t : LowerState} {v : Lowered} {c d : Code} {ps qs : List BodyPart}

theorem BodyPart.LoweredIn.mono {p : BodyPart} (h : p.LoweredIn cx c) (hpart : c <:+: d) :
    p.LoweredIn cx d := by
  cases p with
  | expr scope e =>
    obtain ⟨s, v, t, hrun, hcode⟩ := h
    exact ⟨s, v, t, hrun, hcode.trans hpart⟩
  | stmt scope st =>
    obtain ⟨s, c, t, hrun, hcode⟩ := h
    exact ⟨s, c, t, hrun, hcode.trans hpart⟩

namespace AllLowered

theorem nil : AllLowered cx c [] := nofun

theorem cons {p : BodyPart} (hp : p.LoweredIn cx c) (h : AllLowered cx c ps) :
    AllLowered cx c (p :: ps) :=
  List.forall_mem_cons.mpr ⟨hp, h⟩

theorem append (hp : AllLowered cx c ps) (hq : AllLowered cx c qs) : AllLowered cx c (ps ++ qs) :=
  List.forall_mem_append.mpr ⟨hp, hq⟩

theorem mono (h : AllLowered cx c ps) (hpart : c <:+: d) : AllLowered cx d ps :=
  fun p hp => (h p hp).mono hpart

/-- More code behind. -/
theorem left (h : AllLowered cx c ps) : AllLowered cx (c ++ d) ps :=
  h.mono (List.prefix_append c d).isInfix

/-- More code before. -/
theorem right (h : AllLowered cx c ps) : AllLowered cx (d ++ c) ps :=
  h.mono (List.suffix_append d c).isInfix

end AllLowered

/-! ### Expressions -/

/-- Lowering the expression lowers all that is evaluated for it. -/
def ExprLowers (e : Expr) : Prop :=
  ∀ ⦃cx : BodyContext⦄ ⦃s t : LowerState⦄ ⦃v : Lowered⦄, lowerExpr cx e s = .ok v t →
    AllLowered cx v.code (e.within cx.scope)

theorem ExprLowers.parts {e : Expr} (h : ExprLowers e) (hrun : lowerExpr cx e s = .ok v t) :
    AllLowered cx v.code (e.parts cx.scope) :=
  .cons ⟨s, v, t, hrun, List.infix_rfl⟩ (h hrun)

/-- The code of a receiver comes first. -/
theorem prefix_receiver {r : Lowered} {note : Note} (h : cx.receiver v note s = .ok r t) :
    v.code <+: r.code := by
  obtain ⟨-, rfl | ⟨decl, given, wanted, -, rfl⟩ | ⟨decl, wanted, -, rfl⟩⟩ :=
    BodyContext.receiver_ok h
  · exact List.prefix_rfl
  · exact List.prefix_rfl
  · exact List.prefix_append _ _

theorem prefix_loadFields {fields : List String} {owner : Lowered} {span : Span}
    (h : cx.loadFields owner span fields s = .ok v t) : owner.code <+: v.code := by
  induction fields generalizing s owner with
  | nil =>
    obtain ⟨rfl, -⟩ := pure_ok.mp h
    exact List.prefix_rfl
  | cons field rest ih =>
    simp only [BodyContext.loadFields, BodyContext.loadField, bind_ok, pure_ok] at h
    obtain ⟨next, r, ⟨a, q, -, rfl, rfl⟩, hrest⟩ := h
    refine List.IsPrefix.trans ?_ (ih hrest)
    simp only [List.append_assoc]
    exact List.prefix_append _ _

theorem lowers_binary {note : Note} {op : BinaryOp} {left right : Expr} (hl : ExprLowers left)
    (hr : ExprLowers right) : ExprLowers (.binary note op left right) := by
  intro cx s t v h
  rw [Expr.within]
  cases exprRun_of_ok h with
  | concat _ _ hl' _ hr' _ =>
    exact ((hl.parts hl').left.right.left.left).append ((hr.parts hr').left.right.left)
  | logic _ hl' _ hr' _ =>
      exact (hl.parts hl').left.left.left.left.append (hr.parts hr').left.right.left
  | planned _ _ _ hl' _ hr' _ =>
      exact (hl.parts hl').left.left.left.append (hr.parts hr').left.right.left
  | absent hn => cases hn

theorem lowers_assignName {note target : Note} {name : String} {value : Expr}
    (hv : ExprLowers value) : ExprLowers (.assign note (.ident target name) value) := by
  intro cx s t v h
  rw [Expr.within]
  cases exprRun_of_ok h with
  | assignName _ hv' _ => exact (hv.parts hv').left.left
  | absent hn => cases hn

theorem lowers_assignField {note target : Note} {receiver value : Expr} {fields : List String}
    (hr : ExprLowers receiver) (hv : ExprLowers value) :
    ExprLowers (.assign note (.property target receiver fields) value) := by
  intro cx s t v h
  rw [Expr.within]
  cases exprRun_of_ok h with
  | assignField _ hr' hreceiver howner _ hv' _ =>
    have hprefix := (prefix_receiver hreceiver).trans (prefix_loadFields howner)
    exact ((hr.parts hr').mono hprefix.isInfix).left.left.append (hv.parts hv').left.right.left
  | absent hn => cases hn

def ArgsLower (args : List Expr) : Prop :=
  ∀ ⦃cx : BodyContext⦄ ⦃types : List Ty⦄ ⦃s t : LowerState⦄ ⦃c :
    Code⦄, lowerArgs cx args types s = .ok c t →
    types.length = args.length → AllLowered cx c (partsOfAll cx.scope args)

theorem argsLower_cons {arg : Expr} {args : List Expr} (harg : ExprLowers arg)
    (hargs : ArgsLower args) : ArgsLower (arg :: args) := by
  intro cx types s t c h hlength
  cases types with
  | nil => cases hlength
  | cons type types =>
    simp only [lowerArgs, bind_ok, pure_ok, Lowered.into_ok] at h
    obtain ⟨v, _, hv, _, _, ⟨-, rfl, rfl⟩, rest, _, hrest, rfl, rfl⟩ := h
    rw [partsOfAll]
    exact (harg.parts hv).left.left.append (hargs hrest (Nat.succ.inj hlength)).right

def EntriesLower (entries : List Expr) : Prop :=
  ∀ ⦃cx : BodyContext⦄ ⦃s t : LowerState⦄ ⦃c : Code⦄, lowerEntries cx entries s = .ok c t →
    AllLowered cx c (partsOfAll cx.scope entries)

theorem entriesLower_cons {entry : Expr} {entries : List Expr} (hentry : ExprLowers entry)
    (hentries : EntriesLower entries) : EntriesLower (entry :: entries) := by
  intro cx s t c h
  simp only [lowerEntries, bind_ok, pure_ok, Lowered.into_ok] at h
  obtain ⟨v, _, hv, _, _, ⟨-, rfl, rfl⟩, rest, _, hrest, rfl, rfl⟩ := h
  rw [partsOfAll]
  exact (hentry.parts hv).left.right.left.left.append (hentries hrest).right

theorem lowers_call {note : Note} {callee : Expr} {args : List Expr} (hargs : ArgsLower args) :
    ExprLowers (.call note callee args) := by
  intro cx s t v h
  rw [Expr.within]
  cases exprRun_of_ok h with
  | callExternal _ harity _ hcode =>
    exact (hargs hcode ((List.length_map _).trans harity)).left
  | callUser _ harity _ _ hspec hcode _ =>
    exact (hargs hcode ((specialize_length hspec).trans harity)).left
  | construct _ harity hcode _ =>
    exact (hargs hcode ((List.length_map _).trans harity)).right.left
  | absent hn => cases hn

theorem lowers_property {note : Note} {receiver : Expr} {fields : List String}
    (hr : ExprLowers receiver) : ExprLowers (.property note receiver fields) := by
  intro cx s t v h
  rw [Expr.within]
  cases exprRun_of_ok h with
  | property hr' hreceiver hv =>
    exact (hr.parts hr').mono ((prefix_receiver hreceiver).trans (prefix_loadFields hv)).isInfix
  | absent hn => cases hn

/-- A step reads its operand first. -/
theorem lowers_step {note : Note} {op : StepOp} {operand : Expr} :
    ExprLowers (.step note op operand) := by
  intro cx s t v h
  cases exprRun_of_ok h with
  | @step _ _ operand name _ storage kind hst hk =>
    rw [Expr.within, Expr.within]
    have hread : lowerExpr cx (.ident operand name) s =
        .ok ⟨storage.type, storage.load cx.frame⟩ s := by
      rw [lowerExpr, bind_of_ok hst]
      rfl
    have hfirst : AllLowered cx (storage.load cx.frame) [.expr cx.scope (.ident operand name)] :=
      .cons ⟨s, _, s, hread, List.infix_rfl⟩ .nil
    exact hfirst.left.left.left
  | absent hn => cases hn

theorem lowers_listOf {note : Note} {entries : List Expr} (he : EntriesLower entries) :
    ExprLowers (.listOf note entries) := by
  intro cx s t v h
  rw [Expr.within]
  cases exprRun_of_ok h with
  | listOf _ hcode =>
    cases entries with
    | nil => exact .nil
    | cons entry entries => exact (he hcode).right.left.right
  | absent hn => cases hn

theorem lowers_negate {note : Note} {operand : Expr} (ho : ExprLowers operand) :
    ExprLowers (.negate note operand) := by
  intro cx s t v h
  rw [Expr.within]
  cases exprRun_of_ok h with
  | negate _ _ hv _ => exact (ho.parts hv).left.left
  | absent hn => cases hn

theorem lowers_not {note : Note} {operand : Expr} (ho : ExprLowers operand) :
    ExprLowers (.not note operand) := by
  intro cx s t v h
  rw [Expr.within]
  cases exprRun_of_ok h with
  | not hv _ => exact (ho.parts hv).left.left
  | absent hn => cases hn

mutual

theorem exprLowers : ∀ e : Expr, ExprLowers e
  | .binary _ _ left right => lowers_binary (exprLowers left) (exprLowers right)
  | .assign _ target value => by
    cases target with
    | ident note name => exact lowers_assignName (exprLowers value)
    | property note receiver fields =>
        exact lowers_assignField (exprLowers receiver) (exprLowers value)
    | _ =>
      intro cx s t v h
      simp only [lowerExpr, throw_ok] at h
  | .call _ _ args => lowers_call (argsLower args)
  | .property _ receiver _ => lowers_property (exprLowers receiver)
  | .step _ _ _ => lowers_step
  | .negate _ operand => lowers_negate (exprLowers operand)
  | .not _ operand => lowers_not (exprLowers operand)
  | .group _ inner => fun _ _ _ _ h => by
    rw [lowerExpr] at h
    rw [Expr.within]
    exact (exprLowers inner).parts h
  | .listOf _ entries => lowers_listOf (entriesLower entries)
  | .index _ _ _ => fun _ _ _ _ h => by simp only [lowerExpr, throw_ok] at h
  | .literal _ _ | .ident _ _ | .emptyList _ | .moduleMember _ _ _ | .enumValue _ _ _
  | .lambda _ | .empty _ | .bad _ =>
    fun _ _ _ _ _ => by
      rw [Expr.within]
      exact .nil

theorem argsLower : ∀ args : List Expr, ArgsLower args
  | [] => fun _ _ _ _ _ _ _ => by
    rw [partsOfAll]
    exact .nil
  | arg :: args => argsLower_cons (exprLowers arg) (argsLower args)

theorem entriesLower : ∀ entries : List Expr, EntriesLower entries
  | [] => fun _ _ _ _ _ => by
    rw [partsOfAll]
    exact .nil
  | entry :: entries => entriesLower_cons (exprLowers entry) (entriesLower entries)

end

/-- Lowering an expression lowers it and all that is evaluated for it. -/
theorem lowerExpr_parts {e : Expr} (h : lowerExpr cx e s = .ok v t) :
    AllLowered cx v.code (e.parts cx.scope) :=
  (exprLowers e).parts h

/-! ### Statements -/

def StmtLowers (st : Stmt) : Prop :=
  ∀ ⦃cx : BodyContext⦄ ⦃s t : LowerState⦄ ⦃c : Code⦄, lowerStmt cx st s = .ok c t →
    AllLowered cx c (st.within cx.scope)

def BlockLowers (b : Block) : Prop :=
  ∀ ⦃cx : BodyContext⦄ ⦃s t : LowerState⦄ ⦃c : Code⦄, lowerBlock cx b s = .ok c t →
    AllLowered cx c b.parts

def StmtsLower (body : List Stmt) : Prop :=
  ∀ ⦃cx : BodyContext⦄ ⦃s t : LowerState⦄ ⦃c : Code⦄, lowerStmts cx [] body s = .ok c t →
    AllLowered cx c (partsOf cx.scope body)

def ArmsLower (arms : List Arm) : Prop :=
  ∀ ⦃cx : BodyContext⦄ ⦃subject : Nat⦄ ⦃done : Label⦄ ⦃s t : LowerState⦄ ⦃c : Code⦄,
    lowerArms cx subject done arms s = .ok c t → AllLowered cx c (partsOfArms arms)

theorem StmtLowers.parts {st : Stmt} (h : StmtLowers st) (hrun : lowerStmt cx st s = .ok c t) :
    AllLowered cx c (.stmt cx.scope st :: st.within cx.scope) :=
  .cons ⟨s, c, t, hrun, List.infix_rfl⟩ (h hrun)

theorem lowers_expr {value : Expr} : StmtLowers (.expr value) := by
  intro cx s t c h
  rw [Stmt.within]
  cases stmtRun_of_ok h with
  | expr hv => exact (lowerExpr_parts hv).left
  | nothing hn => cases hn

theorem lowers_var {span : Span} {name : String} {init : Expr} :
    StmtLowers (.var span name init) := by
  intro cx s t c h
  rw [Stmt.within]
  cases stmtRun_of_ok h with
  | var _ _ hv _ => exact (lowerExpr_parts hv).left.left
  | nothing hn => cases hn

/-- An absent value is lowered to nothing, wherever that is done. -/
theorem empty_parts {value : Expr} (h : value.isEmpty = true) :
    AllLowered cx c (value.parts cx.scope) := by
  cases value with
  | empty note =>
    rw [Expr.parts, Expr.within]
    exact .cons ⟨{}, .absent, {}, rfl, List.nil_infix⟩ .nil
  | _ => cases h

theorem lowers_ret {span : Span} {value : Expr} : StmtLowers (.ret span value) := by
  intro cx s t c h
  rw [Stmt.within]
  cases stmtRun_of_ok h with
  | leave _ he => exact empty_parts he
  | discard _ _ hv => exact (lowerExpr_parts hv).left.left
  | ret _ _ hv _ => exact (lowerExpr_parts hv).left.left
  | nothing hn => cases hn

theorem lowers_ifThen {span : Span} {test : Expr} {body : Block} (hb : BlockLowers body) :
    StmtLowers (.ifElse span test body none) := by
  intro cx s t c h
  rw [Stmt.within]
  cases stmtRun_of_ok h with
  | ifThen hv _ hb' => exact (lowerExpr_parts hv).left.left.left.left.append (hb hb').right.left
  | nothing hn => cases hn

theorem lowers_ifElse {span : Span} {test : Expr} {body : Block} {branch : Stmt}
    (hb : BlockLowers body) (he : StmtLowers branch) :
    StmtLowers (.ifElse span test body (some branch)) := by
  intro cx s t c h
  rw [Stmt.within]
  cases stmtRun_of_ok h with
  | ifElse hv _ hb' he' =>
    refine .append (.append ?_ ?_) (he.parts he').right.left
    · exact (lowerExpr_parts hv).left.left.left.left.left.left
    · exact ((hb hb').mono (prefix_thenGoto _ _).isInfix).right.left.left.left
  | nothing hn => cases hn

theorem lowers_whileLoop {span : Span} {test : Expr} {body : Block} (hb : BlockLowers body) :
    StmtLowers (.whileLoop span test body) := by
  intro cx s t c h
  rw [Stmt.within]
  cases stmtRun_of_ok h with
  | whileLoop hv _ hb' =>
      exact (lowerExpr_parts hv).left.right.left.left.left.append (hb hb').right.left
  | nothing hn => cases hn

theorem lowers_forEach {span : Span} {binding : String} {iterable : Expr} {body : Block}
    (hb : BlockLowers body) : StmtLowers (.forEach span binding iterable body) := by
  intro cx s t c h
  rw [Stmt.within]
  cases stmtRun_of_ok h with
  | forEach hv _ _ hb' =>
      exact (lowerExpr_parts hv).left.left.left.left.left.left.append (hb hb').right.left
  | nothing hn => cases hn

theorem lowers_matchType {span : Span} {subject : Expr} {arms : List Arm} (ha : ArmsLower arms) :
    StmtLowers (.matchType span subject arms) := by
  intro cx s t c h
  rw [Stmt.within]
  cases stmtRun_of_ok h with
  | matchType hv _ ha' => exact (lowerExpr_parts hv).left.left.left.left.append (ha ha').right.left
  | nothing hn => cases hn

theorem armsLower_cons {arm : Arm} {rest : List Arm} (hb : BlockLowers arm.body)
    (hr : ArmsLower rest) : ArmsLower (arm :: rest) := by
  intro cx subject done s t c h
  obtain ⟨pattern, bound, s₁, b, s₂, a, -, -, hb', ha, rfl⟩ := lowerArms_cons h
  obtain ⟨pattern, binding, body, span⟩ := arm
  rw [partsOfArms]
  exact ((hb hb').mono (prefix_thenGoto _ _).isInfix).right.left.left.append (hr ha).right

theorem stmtsLower_cons {first : Stmt} {rest : List Stmt} (hf : StmtLowers first)
    (hr : StmtsLower rest) : StmtsLower (first :: rest) := by
  intro cx s t c h
  obtain ⟨c₁, s₁, c₂, hfirst, hrest, rfl⟩ := lowerStmts_cons.mp h
  rw [partsOf]
  exact (hf.parts hfirst).left.append (hr hrest).right

mutual

theorem stmtLowers : ∀ st : Stmt, StmtLowers st
  | .expr _ => lowers_expr
  | .var _ _ _ => lowers_var
  | .ret _ _ => lowers_ret
  | .ifElse _ _ body none => lowers_ifThen (blockLowers body)
  | .ifElse _ _ body (some branch) => lowers_ifElse (blockLowers body) (stmtLowers branch)
  | .whileLoop _ _ body => lowers_whileLoop (blockLowers body)
  | .forEach _ _ _ body => lowers_forEach (blockLowers body)
  | .matchType _ _ arms => lowers_matchType (armsLower arms)
  | .block body => fun _ _ _ _ h => by
    rw [lowerStmt] at h
    rw [Stmt.within]
    exact blockLowers body h
  | .exported inner => fun _ _ _ _ h => by
    rw [lowerStmt] at h
    rw [Stmt.within]
    exact (stmtLowers inner).parts h
  | .function _ | .struct _ _ | .use _ _ | .typeAlias _ _ | .unionType _ _
  | .enum _ _ | .parameter _ _ =>
    fun _ _ _ _ _ => by
      rw [Stmt.within]
      exact .nil

theorem blockLowers : ∀ b : Block, BlockLowers b
  | ⟨_, body, _⟩ => fun _ _ _ _ h => by
    rw [lowerBlock] at h
    rw [Block.parts]
    exact stmtsLower body h

theorem stmtsLower : ∀ body : List Stmt, StmtsLower body
  | [] => fun _ _ _ _ _ => by
    rw [partsOf]
    exact .nil
  | first :: rest => stmtsLower_cons (stmtLowers first) (stmtsLower rest)

theorem armsLower : ∀ arms : List Arm, ArmsLower arms
  | [] => fun _ _ _ _ _ _ _ => by
    rw [partsOfArms]
    exact .nil
  | ⟨_, _, body, _⟩ :: rest => armsLower_cons (blockLowers body) (armsLower rest)

end

/-! ### Methods -/

/-- All parts of a body are in the method that it became. -/
theorem method_parts {plan : MethodPlan} {file : FileContext} {frame : Frame} {b : Block} (n : Nat)
    (h : lowerStmts (plan.context file frame b.scope) [] b.body s = .ok c t) :
    AllLowered (plan.context file frame b.scope) (plan.method frame n c).code b.parts := by
  have hparts : b.parts = partsOf b.scope b.body := by
    cases b
    rw [Block.parts]
  rw [hparts]
  exact (stmtsLower b.body h).mono ((prefix_closed plan frame c).trans (prefix_finish _ _)).isInfix

/-! ### Methods of a file -/

/-- A run lowered every part of its body into its method. -/
theorem BodyRun.Sound.parts {file : FileContext} {r : BodyRun} (h : r.Sound file) :
    ∃ frame, Frame.start .publicStatic r.plan.name r.plan.descriptor = .ok frame ∧
      AllLowered (r.plan.context file frame r.body.scope) r.method.code r.body.parts := by
  obtain ⟨frame, s, code, u, hframe, hcode, hmethod⟩ := h.lowers
  exact ⟨frame, hframe, hmethod ▸ method_parts _ hcode⟩

/-- The methods of a compiled file are those of its runs, constructors and initializers apart. -/
theorem SourceFile.runs_of_compile {f : SourceFile} {rounds : Nat} {options : Options}
    {compiled : CompiledFile} {trace : List Event}
    (h : f.compileWithin rounds options = some ⟨.ok compiled, trace⟩) :
    (∀ m ∈ compiled.fileUnit.methods, m.name = Library.constructor ∨ m.name = Library.classInit ∨
      ∃ r ∈ (f.trail rounds options).runs, r.method = m) ∧
      ∀ r ∈ (f.trail rounds options).runs,
        r.method ∈ compiled.fileUnit.methods ∧ r.Sound (FileContext.ofSource f options) := by
  obtain ⟨final, hlowered, rfl⟩ := Option.map_eq_some_iff.mp (compiled?_eq_some.mpr ⟨trace, h⟩)
  obtain ⟨-, base, s, done, rfl, hs⟩ := standing hlowered
  have hmem (m : Method) : m ∈ s.file.methods ↔
      m ∈ base.file.methods ∨ ∃ r ∈ (f.trail rounds options).runs, r.method = m := by
    rw [hs.advances.methods, List.mem_append, List.mem_map]
  refine ⟨fun m hm => ?_, fun r hr =>
    ⟨(hmem r.method).mpr (.inr ⟨r, hr, rfl⟩), hs.advances.sound r hr⟩⟩
  rcases (hmem m).mp hm with hm | hm
  · exact (hs.scaffolding.methods m hm).imp_right .inl
  · exact .inr (.inr hm)

end ClassGen
