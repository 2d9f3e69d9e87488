import ClassGen.Lower.Stmt
import ClassGen.Proofs.Lowering.Expr

/-! The ways in which lowering a statement can succeed, and what a method in the middle of another
leaves alone. -/

namespace ClassGen

open Run

attribute [grind =] lowerStmt lowerBlock lowerStmts lowerArms lowerFunction lowerBody

variable {cx : BodyContext} {s t : LowerState} {c : Code}

/-- Type of a new local: the declared one, or that of the initial value. -/
def VarType (cx : BodyContext) (s : LowerState) (name : String) (init : Expr) (type : Ty) : Prop :=
  match cx.file.scopes.lookup cx.scope name with
  | some (.function _) | none => cx.plannedType init s = .ok type s
  | some declared => Specialization.resolve cx.bindings declared = .ok type

/-- Type of the variable of a loop. -/
def ElementType (cx : BodyContext) (scope : ScopeId) (binding : String) (source type : Ty) : Prop :=
  match cx.file.scopes.lookup scope binding with
  | some declared => Specialization.resolve cx.bindings declared = .ok type
  | none => elementType source = type

/-- Statements that are lowered to no code at all. -/
def Stmt.isInert : Stmt → Bool
  | .use _ _ | .typeAlias _ _ | .unionType _ _ => true
  | _ => false

/-- One successful lowering, in terms of those of the parts. -/
inductive StmtRun (cx : BodyContext) : Stmt → LowerState → Code → LowerState → Prop
  | expr {value s v t} (hv : lowerExpr cx value s = .ok v t) :
      StmtRun cx (.expr value) s v.dropped t
  | var {span name init s v t type} (ht : VarType cx s name init type) (hvoid : type.isVoid = false)
    (hv : lowerExpr cx init s = .ok v t) (hvv : v.type.isVoid = false) :
    StmtRun cx (.var span name init) s
      ((v.code ++ coerce v.type type) ++ [Code.storeSlot t.body.nextSlot type.representation])
      (t.withLocal cx.scope name type)
  | function {decl s t} (h : lowerFunction cx.file cx.scope decl s = .ok () t) :
      StmtRun cx (.function decl) s [] t
  | struct {span name s t} (h : lowerStruct cx.file cx.scope name span s = .ok () t) :
    StmtRun cx (.struct span name) s [] t
  | leave {span value s} (hret : cx.ret.isVoid) (he : value.isEmpty) :
    StmtRun cx (.ret span value) s [.op .vreturn] s
  | discard {span value s v t} (hret : cx.ret.isVoid) (he : value.isEmpty = false)
    (hv : lowerExpr cx value s = .ok v t) :
    StmtRun cx (.ret span value) s (v.dropped ++ [.op .vreturn]) t
  | ret {span value s v t} (hret : cx.ret.isVoid = false) (he : value.isEmpty = false)
    (hv : lowerExpr cx value s = .ok v t) (hvv : v.type.isVoid = false) :
    StmtRun cx (.ret span value) s
      ((v.code ++ coerce v.type cx.ret) ++ [Code.returnValue cx.ret.representation]) t
  | ifThen {span test body s s₁ v b t} (hv : lowerExpr cx test (s.skip 1) = .ok v s₁)
    (hvv : v.type.isVoid = false) (hb : lowerBlock cx body s₁ = .ok b t) :
    StmtRun cx (.ifElse span test body none) s
      ((v.code ++ coerce v.type .boolean) ++ [.jump .ifeq s.body.nextLabel] ++ b ++
        [.mark s.body.nextLabel]) t
  | ifElse {span test body branch s s₁ s₂ v b e t} (hv : lowerExpr cx test (s.skip 1) = .ok v s₁)
    (hvv : v.type.isVoid = false) (hb : lowerBlock cx body s₁ = .ok b s₂)
    (he : lowerStmt cx branch (s₂.skip 1) = .ok e t) :
    StmtRun cx (.ifElse span test body (some branch)) s
      ((v.code ++ coerce v.type .boolean) ++ [.jump .ifeq s.body.nextLabel] ++
        thenGoto b s₂.body.nextLabel ++
        [.mark s.body.nextLabel] ++ e ++
          (if Code.fallsThrough b then [.mark s₂.body.nextLabel] else [])) t
  | whileLoop {span test body s s₁ v b t} (hv : lowerExpr cx test (s.skip 2) = .ok v s₁)
    (hvv : v.type.isVoid = false) (hb : lowerBlock cx body s₁ = .ok b t) :
    StmtRun cx (.whileLoop span test body) s
      ([.mark s.body.nextLabel] ++ (v.code ++ coerce v.type .boolean) ++
        [.jump .ifeq (s.body.nextLabel + 1)] ++
        b ++ [Code.goto s.body.nextLabel, .mark (s.body.nextLabel + 1)]) t
  | forEach {span binding iterable body s s₁ source code type b t}
    (hv : lowerExpr cx iterable s = .ok source s₁) (hit : iteratorCode source.type = some code)
    (htype : ElementType cx body.scope binding source.type type)
    (hb : lowerBlock cx body (((s₁.withSlot .reference).withLocal body.scope binding type).skip 2) =
      .ok b t) :
    StmtRun cx (.forEach span binding iterable body) s
      ((source.code ++ code ++ [Code.storeSlot s₁.body.nextSlot .reference]) ++
        [.mark s₁.body.nextLabel] ++
        advanceLoop s₁.body.nextSlot ⟨(s₁.withSlot .reference).body.nextSlot, type⟩
          (s₁.body.nextLabel + 1) ++ b ++
          [Code.goto s₁.body.nextLabel, .mark (s₁.body.nextLabel + 1)]) t
  | matchType {span subject arms s s₁ v a t} (hv : lowerExpr cx subject s = .ok v s₁)
    (hvv : v.type.isVoid = false)
    (ha : lowerArms cx s₁.body.nextSlot s₁.body.nextLabel arms ((s₁.withSlot .reference).skip 1) =
      .ok a t) :
    StmtRun cx (.matchType span subject arms) s
      ((v.code ++ coerce v.type .object ++ [Code.storeSlot s₁.body.nextSlot .reference]) ++ a ++
        [.mark s₁.body.nextLabel]) t
  | block {body s b t} (hb : lowerBlock cx body s = .ok b t) : StmtRun cx (.block body) s b t
  | exported {inner s c t} (hi : lowerStmt cx inner s = .ok c t) :
      StmtRun cx (.exported inner) s c t
  | nothing {stmt s} (h : stmt.isInert) : StmtRun cx stmt s [] s

theorem stmtRun_var {span : Span} {name : String} {init : Expr}
    (h : lowerStmt cx (.var span name init) s = .ok c t) :
    StmtRun cx (.var span name init) s c t := by
  rw [lowerStmt] at h
  have typed : ∀ type, VarType cx s name init type →
      (do
        if type.isVoid then throw (.fault (.voidVariable name) span)
        let value ← lowerAs cx init type
        let slot ← Lower.declareLocal cx.scope name type
        return value ++ [Code.storeSlot slot type.representation] : Lower Code) s = .ok c t →
      StmtRun cx (.var span name init) s c t := by
    intro type ht h
    cases hvoid : type.isVoid with
    | true => simp [hvoid, bind_ok, throw_ok] at h
    | false =>
      simp only [hvoid, Bool.false_eq_true, if_false, lowerAs, bind_ok, pure_ok, Lowered.into_ok,
        Lower.declareLocal_ok] at h
      obtain ⟨_, r, ⟨v, _, hv, hvv, rfl, rfl⟩, _, _, ⟨rfl, rfl⟩, rfl, rfl⟩ := h
      exact .var ht hvoid hv (Bool.eq_false_iff.mpr hvv)
  unfold VarType at typed
  unfold lowerVar at h
  cases hl : cx.file.scopes.lookup cx.scope name with
  | none =>
    simp only [hl] at h typed
    obtain ⟨type, _, htype, h⟩ := bind_ok.mp h
    obtain rfl := BodyContext.plannedType_state htype
    exact typed type htype h
  | some declared =>
    cases declared <;> simp only [hl] at h typed
    case function sig =>
      obtain ⟨type, _, htype, h⟩ := bind_ok.mp h
      obtain rfl := BodyContext.plannedType_state htype
      exact typed type htype h
    all_goals
      obtain ⟨type, _, htype, h⟩ := bind_ok.mp h
      obtain ⟨hresolve, rfl⟩ := BodyContext.resolveType_ok.mp htype
      exact typed type hresolve h

theorem stmtRun_ret {span : Span} {value : Expr} (h : lowerStmt cx (.ret span value) s = .ok c t) :
    StmtRun cx (.ret span value) s c t := by
  rw [lowerStmt, lowerReturn] at h
  cases hret : cx.ret.isVoid with
  | true =>
    rw [hret, if_pos rfl] at h
    cases he : value.isEmpty with
    | true =>
      rw [he, if_pos rfl] at h
      obtain ⟨rfl, rfl⟩ := pure_ok.mp h
      exact .leave hret he
    | false =>
      rw [he, if_neg Bool.false_ne_true] at h
      simp only [bind_ok, pure_ok] at h
      obtain ⟨v, _, hv, rfl, rfl⟩ := h
      exact .discard hret he hv
  | false =>
    rw [hret, if_neg Bool.false_ne_true] at h
    cases he : value.isEmpty with
    | true => simp [he, bind_ok, throw_ok] at h
    | false =>
      simp only [he, Bool.false_eq_true, if_false, lowerAs, bind_ok, pure_ok, Lowered.into_ok] at h
      obtain ⟨_, _, ⟨v, _, hv, hvv, rfl, rfl⟩, rfl, rfl⟩ := h
      exact .ret hret he hv (isVoid_of_into hvv hret)

theorem openLoop_ok {binding : String} {iterable : Expr} {scope : ScopeId} {span : Span}
    {setup : Code} {iterator : Nat} {element : LocalVar}
    (h : openLoop cx binding iterable scope span s = .ok (setup, iterator, element) t) :
    ∃ source s₁ code type, lowerExpr cx iterable s = .ok source s₁ ∧
      iteratorCode source.type = some code ∧
      ElementType cx scope binding source.type type ∧
      source.code ++ code ++ [Code.storeSlot s₁.body.nextSlot .reference] = setup ∧
      s₁.body.nextSlot = iterator ∧ ⟨(s₁.withSlot .reference).body.nextSlot, type⟩ = element ∧
      (s₁.withSlot .reference).withLocal scope binding type = t := by
  simp only [openLoop, bind_ok] at h
  obtain ⟨source, s₁, hv, h⟩ := h
  cases hit : iteratorCode source.type with
  | none => simp only [hit, throw_ok] at h
  | some code =>
    simp only [hit, bind_ok, Lower.newSlot_ok] at h
    obtain ⟨_, _, ⟨rfl, rfl⟩, h⟩ := h
    cases hl : cx.file.scopes.lookup scope binding with
    | none =>
      simp only [hl, bind_ok, pure_ok, Lower.declareLocal_ok, Prod.mk.injEq] at h
      obtain ⟨type, _, ⟨htype, rfl⟩, _, _, ⟨rfl, rfl⟩, ⟨hs, hi, he⟩, rfl⟩ := h
      exact ⟨source, s₁, code, type, hv,
        hit, by simpa only [ElementType, hl] using htype, hs, hi, he, rfl⟩
    | some declared =>
      simp only [hl, bind_ok, pure_ok, Lower.declareLocal_ok, Prod.mk.injEq,
        BodyContext.resolveType_ok] at h
      obtain ⟨type, _, ⟨htype, rfl⟩, _, _, ⟨rfl, rfl⟩, ⟨hs, hi, he⟩, rfl⟩ := h
      exact ⟨source, s₁, code, type, hv,
        hit, by simpa only [ElementType, hl] using htype, hs, hi, he, rfl⟩

theorem openMatch_ok {subject : Expr} {setup : Code} {slot : Nat}
    (h : openMatch cx subject s = .ok (setup, slot) t) :
    ∃ v s₁, lowerExpr cx subject s = .ok v s₁ ∧ v.type.isVoid = false ∧
      v.code ++ coerce v.type .object ++ [Code.storeSlot s₁.body.nextSlot .reference] = setup ∧
      s₁.body.nextSlot = slot ∧ s₁.withSlot .reference = t := by
  simp only [openMatch, bind_ok] at h
  obtain ⟨v, s₁, hv, h⟩ := h
  cases hvv : v.type.isVoid with
  | true => simp [hvv, bind_ok, throw_ok] at h
  | false =>
    simp only [hvv, Bool.false_eq_true, if_false, bind_ok, pure_ok, Lower.newSlot_ok,
      Prod.mk.injEq] at h
    obtain ⟨_, _, ⟨rfl, rfl⟩, ⟨hsetup, hslot⟩, rfl⟩ := h
    exact ⟨v, s₁, hv, hvv, hsetup, hslot, rfl⟩

theorem stmtRun_matchType {span : Span} {subject : Expr} {arms : List Arm}
    (h : lowerStmt cx (.matchType span subject arms) s = .ok c t) :
    StmtRun cx (.matchType span subject arms) s c t := by
  rw [lowerStmt, bind_ok] at h
  obtain ⟨⟨setup, slot⟩, s₂, hopen, h⟩ := h
  simp only [bind_ok, pure_ok, Lower.newLabel_ok] at h
  obtain ⟨_, _, ⟨rfl, rfl⟩, a, _, ha, rfl, rfl⟩ := h
  obtain ⟨v, s₁, hv, hvv, rfl, rfl, rfl⟩ := openMatch_ok hopen
  exact .matchType hv hvv ha

theorem stmtRun_of_ok {stmt : Stmt} (h : lowerStmt cx stmt s = .ok c t) :
    StmtRun cx stmt s c t := by
  cases stmt with
  | expr value =>
    simp only [lowerStmt, bind_ok, pure_ok] at h
    obtain ⟨v, _, hv, rfl, rfl⟩ := h
    exact .expr hv
  | var span name init => exact stmtRun_var h
  | function decl =>
    simp only [lowerStmt, bind_ok, pure_ok] at h
    obtain ⟨_, _, hf, rfl, rfl⟩ := h
    exact .function hf
  | struct span name =>
    simp only [lowerStmt, bind_ok, pure_ok] at h
    obtain ⟨_, _, hs, rfl, rfl⟩ := h
    exact .struct hs
  | ret span value => exact stmtRun_ret h
  | ifElse span test body otherwise =>
    cases otherwise with
    | none =>
      simp only [lowerStmt, lowerAs, bind_ok, pure_ok, Lower.newLabel_ok, Lowered.into_ok] at h
      obtain ⟨_, _, ⟨rfl, rfl⟩, _, _, ⟨v, _, hv, hvv, rfl, rfl⟩, b, _, hb, rfl, rfl⟩ := h
      exact .ifThen hv (isVoid_of_into hvv rfl) hb
    | some branch =>
      simp only [lowerStmt, lowerAs, bind_ok, pure_ok, Lower.newLabel_ok, Lowered.into_ok] at h
      obtain ⟨_, _, ⟨rfl, rfl⟩, _, _, ⟨v, _, hv, hvv, rfl, rfl⟩, b, _, hb, _, _,
          ⟨rfl, rfl⟩, e, _, he,
        rfl, rfl⟩ := h
      exact .ifElse hv (isVoid_of_into hvv rfl) hb he
  | whileLoop span test body =>
    simp only [lowerStmt, lowerAs, bind_ok, pure_ok, Lower.newLabel_ok, Lowered.into_ok] at h
    obtain ⟨_, _, ⟨rfl, rfl⟩, _, _, ⟨rfl, rfl⟩, _, _, ⟨v, _, hv, hvv, rfl, rfl⟩, b, _, hb,
        rfl, rfl⟩ := h
    exact .whileLoop hv (isVoid_of_into hvv rfl) hb
  | forEach span binding iterable body =>
    simp only [lowerStmt, bind_ok, pure_ok, Lower.newLabel_ok] at h
    obtain ⟨⟨setup, iterator, element⟩, _, hopen, _, _, ⟨rfl, rfl⟩, _, _, ⟨rfl, rfl⟩, b, _, hb,
        rfl, rfl⟩ := h
    obtain ⟨source, s₁, code, type, hv, hit, htype, rfl, rfl, rfl, rfl⟩ := openLoop_ok hopen
    rw [LowerState.skip_skip] at hb
    exact .forEach hv hit htype hb
  | matchType span subject arms => exact stmtRun_matchType h
  | block body =>
    rw [lowerStmt] at h
    exact .block h
  | exported inner =>
    rw [lowerStmt] at h
    exact .exported h
  | enum span name => simp only [lowerStmt, throw_ok] at h
  | parameter span name => simp only [lowerStmt, throw_ok] at h
  | _ =>
    rw [lowerStmt, pure_ok] at h
    obtain ⟨rfl, rfl⟩ := h
    exact .nothing rfl

/-! ### Sequences and bodies -/

/-- The context of the statements of a block. -/
def BodyContext.inside (cx : BodyContext) (b : Block) : BodyContext := { cx with scope := b.scope }

theorem lowerBlock_eq (b : Block) : lowerBlock cx b = lowerStmts (cx.inside b) [] b.body := by
  cases b
  rw [lowerBlock]
  rfl

theorem lowerStmts_done {done : List Code} {body : List Stmt} :
    lowerStmts cx done body s = .ok c t ↔
      ∃ c', lowerStmts cx [] body s = .ok c' t ∧ done.reverse.flatten ++ c' = c := by
  induction body generalizing s done c with
  | nil =>
    simp only [lowerStmts, pure_ok]
    constructor
    · rintro ⟨rfl, rfl⟩
      exact ⟨[], ⟨rfl, rfl⟩, by simp⟩
    · rintro ⟨_, ⟨rfl, rfl⟩, rfl⟩
      exact ⟨by simp, rfl⟩
  | cons stmt rest ih =>
    simp only [lowerStmts, bind_ok]
    constructor
    · rintro ⟨u, s₁, hlog, c₁, s₂, hc, hrest⟩
      obtain ⟨c₂, h₂, rfl⟩ := ih.mp hrest
      refine ⟨c₁ ++ c₂, ⟨u, s₁, hlog, c₁, s₂, hc, ih.mpr ⟨c₂, h₂, by simp⟩⟩, by simp⟩
    · rintro ⟨c', ⟨u, s₁, hlog, c₁, s₂, hc, hrest⟩, rfl⟩
      obtain ⟨c₂, h₂, rfl⟩ := ih.mp hrest
      exact ⟨u, s₁, hlog, c₁, s₂, hc, ih.mpr ⟨c₂, h₂, by simp⟩⟩

theorem lowerStmts_nil : lowerStmts cx [] [] s = .ok c t ↔ c = [] ∧ s = t := by
  simp [lowerStmts, pure_ok, eq_comm]

/-- The trace of a statement, then its code, then that of those after it. -/
theorem lowerStmts_cons {stmt : Stmt} {rest : List Stmt} :
    lowerStmts cx [] (stmt :: rest) s = .ok c t ↔
      ∃ c₁ s₁ c₂, lowerStmt cx stmt (s.logged (.statement stmt.kind cx.frame.name)) = .ok c₁ s₁ ∧
        lowerStmts cx [] rest s₁ = .ok c₂ t ∧ c₁ ++ c₂ = c := by
  simp only [lowerStmts, bind_ok, Lower.log_ok]
  constructor
  · rintro ⟨_, _, rfl, c₁, s₁, hc, hrest⟩
    obtain ⟨c₂, h₂, rfl⟩ := lowerStmts_done.mp hrest
    exact ⟨c₁, s₁, c₂, hc, h₂, by simp⟩
  · rintro ⟨c₁, s₁, c₂, hc, hrest, rfl⟩
    exact ⟨(), _, rfl, c₁, s₁, hc, lowerStmts_done.mpr ⟨c₂, hrest, by simp⟩⟩

/-- Code and state after the subject of a match was bound in an arm. -/
theorem bindSubject_ok {subject : Nat} {pattern : Ty} {scope : ScopeId} {binding : String} :
    bindSubject subject pattern scope binding s = .ok c t ↔
      if binding.isEmpty then [] = c ∧ s = t
      else (boundSubject subject pattern).code ++
          [Code.storeSlot s.body.nextSlot (boundSubject subject pattern).type.representation] = c ∧
        s.withLocal scope binding (boundSubject subject pattern).type = t := by
  unfold bindSubject
  by_cases hb : binding.isEmpty
  · simp [hb, pure_ok]
  · rw [if_neg hb, if_neg hb]
    simp only [bind_ok, pure_ok, Lower.declareLocal_ok]
    constructor
    · rintro ⟨_, _, ⟨rfl, rfl⟩, rfl, rfl⟩
      exact ⟨rfl, rfl⟩
    · rintro ⟨rfl, rfl⟩
      exact ⟨_, _, ⟨rfl, rfl⟩, rfl, rfl⟩

theorem lowerArms_cons {subject : Nat} {done : Label} {arm : Arm} {rest : List Arm}
    (h : lowerArms cx subject done (arm :: rest) s = .ok c t) :
    ∃ pattern bound s₁ b s₂ a, Specialization.resolve cx.bindings arm.pattern = .ok pattern ∧
      bindSubject subject pattern arm.body.scope arm.binding (s.skip 1) = .ok bound s₁ ∧
      lowerBlock cx arm.body s₁ = .ok b s₂ ∧ lowerArms cx subject done rest s₂ = .ok a t ∧
      patternTest subject s.body.nextLabel pattern ++ bound ++ thenGoto b done ++
        [.mark s.body.nextLabel] ++ a = c := by
  obtain ⟨pattern, binding, body, span⟩ := arm
  simp only [lowerArms, bind_ok, pure_ok, Lower.newLabel_ok, BodyContext.resolveType_ok] at h
  obtain ⟨_, _, ⟨rfl, rfl⟩, u, _, ⟨hp, rfl⟩, bound, s₁, hbound, b, s₂, hb, a, s₃, ha, rfl, rfl⟩ := h
  exact ⟨u, bound, s₁, b, s₂, a, hp, hbound, hb, ha, rfl⟩

/-! The code of a body comes first in what is made of it. -/

theorem prefix_thenGoto (b : Code) (l : Label) : b <+: thenGoto b l := by
  unfold thenGoto
  split
  · exact List.prefix_append _ _
  · exact List.prefix_rfl

theorem prefix_closed (plan : MethodPlan) (frame : Frame) (code : Code) :
    code <+: plan.closed frame code := by
  unfold MethodPlan.closed
  split
  · exact List.prefix_append _ _
  · exact List.prefix_rfl

theorem prefix_finish (frame : Frame) (code : Code) : code <+: (frame.finish code).code := by
  unfold Frame.finish
  split
  · exact List.prefix_append _ _
  · exact List.prefix_rfl

namespace MethodPlan

/-- There is a method of this name and descriptor. -/
def emitted (plan : MethodPlan) (s : LowerState) : Bool :=
  s.file.methods.any fun m => m.name == plan.name && m.descriptor == plan.descriptor

/-- Where the body of the method is lowered. -/
def context (plan : MethodPlan) (file : FileContext) (frame : Frame) (scope : ScopeId) :
    BodyContext :=
  { file, frame, bindings := plan.bindings, params := plan.params, ret := plan.ret,
    bodyScope := scope, scope }

/-- The method with this body, which took the slots below `nextSlot`. -/
def method (plan : MethodPlan) (frame : Frame) (nextSlot : Nat) (code : Code) : Method :=
  Frame.finish { frame with nextSlot } (plan.closed frame code)

end MethodPlan

variable {file : FileContext} {plan : MethodPlan}

/-- Whether a method is there is told by the methods; a reuse may be traced. -/
theorem isEmitted_run (plan : MethodPlan) (s : LowerState) :
    ∃ reused events, isEmitted plan s =
        .ok (plan.emitted s) { s with file.reused := reused, file.log := events ++ s.file.log } ∧
      ∀ e ∈ events, e = .reused plan.name plan.descriptor := by
  change ∃ reused events, (if plan.emitted s = true then _ else _ : Lower Bool) s = _ ∧ _
  cases plan.emitted s with
  | false => exact ⟨_, [], rfl, by simp⟩
  | true =>
    rw [if_pos rfl]
    split_ifs
    · exact ⟨_, [.reused _ _], rfl, by simp⟩
    · exact ⟨_, [], rfl, by simp⟩

theorem isEmitted_of_new (h : plan.emitted s = false) : isEmitted plan s = .ok false s := by
  change (if plan.emitted s = true then _ else _ : Lower Bool) s = _
  rw [h, if_neg Bool.false_ne_true]
  rfl

theorem isolated_ok {α : Type} {start : BodyState} {act : Lower α} {a : α} {final : BodyState} :
    Lower.isolated start act s = .ok (a, final) t ↔
      ∃ u, act { s with body := start } = .ok a u ∧ u.body = final ∧
        { u with body := s.body } = t := by
  unfold Lower.isolated
  cases act { s with body := start } with
  | error e u => simp
  | ok x u =>
    simp only [EStateM.Result.ok.injEq, Prod.mk.injEq]
    constructor
    · rintro ⟨⟨rfl, rfl⟩, rfl⟩
      exact ⟨u, ⟨rfl, rfl⟩, rfl, rfl⟩
    · rintro ⟨_, ⟨rfl, rfl⟩, rfl, rfl⟩
      exact ⟨⟨rfl, rfl⟩, rfl⟩

theorem startFrame_ok {access : Access} {name descriptor : String} {frame : Frame} :
    Lower.startFrame file access name descriptor s = .ok frame t ↔
      Frame.start access name descriptor = .ok frame ∧ s = t := by
  unfold Lower.startFrame
  cases Frame.start access name descriptor <;> simp [pure_ok, throw_ok]

/-- The state in which the body of the planned method is lowered. -/
def MethodPlan.opened (plan : MethodPlan) (frame : Frame) (s : LowerState) : LowerState :=
  { s.logged (.opened plan.name plan.descriptor) with body := { nextSlot := frame.nextSlot } }

/-- The state after the method was added, where `u` is the one after its body. -/
def MethodPlan.added (plan : MethodPlan) (m : Method) (s u : LowerState) : LowerState :=
  { file := { u.file with
      methods := u.file.methods ++ [m]
      log := .closed plan.name plan.descriptor :: u.file.log }
    body := s.body }

/-- A new method is lowered apart from the body around it and then added. -/
theorem lowerBody_new {b : Block} (hnew : plan.emitted s = false) :
    lowerBody file plan b s = .ok () t ↔
      ∃ frame code u, Frame.start .publicStatic plan.name plan.descriptor = .ok frame ∧
        lowerStmts (plan.context file frame b.scope) [] b.body (plan.opened frame s) = .ok code u ∧
        plan.added (plan.method frame u.body.nextSlot code) s u = t := by
  obtain ⟨scope, body, span⟩ := b
  rw [lowerBody, bind_of_ok (isEmitted_of_new hnew), if_neg Bool.false_ne_true]
  simp only [bind_ok, Lower.log_ok, startFrame_ok, Lower.addMethod, modify_ok]
  constructor
  · rintro ⟨_, _, rfl, frame, _, ⟨hf, rfl⟩, ⟨code, final⟩, _, hiso, _, _, rfl, rfl⟩
    obtain ⟨u, hu, rfl, rfl⟩ := isolated_ok.mp hiso
    exact ⟨frame, code, u, hf, hu, rfl⟩
  · rintro ⟨frame, code, u, hf, hu, rfl⟩
    exact ⟨(), _, rfl, frame, _, ⟨hf, rfl⟩, (code, u.body), _, isolated_ok.mpr ⟨u, hu, rfl, rfl⟩,
      (), _, rfl, rfl⟩

/-- A method that is there already leaves at most a note of that. -/
theorem lowerBody_reused {b : Block} (hold : plan.emitted s = true)
    (h : lowerBody file plan b s = .ok () t) :
    ∃ reused events, { s with file.reused := reused, file.log := events ++ s.file.log } = t ∧
      ∀ e ∈ events, e = .reused plan.name plan.descriptor := by
  obtain ⟨scope, body, span⟩ := b
  obtain ⟨reused, events, hrun, hevents⟩ := isEmitted_run plan s
  rw [lowerBody, bind_of_ok hrun, hold, if_pos rfl] at h
  exact ⟨reused, events, (pure_ok.mp h).2, hevents⟩

/-- A method that is there already is not lowered again. -/
theorem lowerBody_emitted {b : Block} (hold : plan.emitted s = true)
    (h : lowerBody file plan b s = .ok () t) :
    ∃ reused log, { s with file.reused := reused, file.log := log } = t := by
  obtain ⟨reused, events, hstate, -⟩ := lowerBody_reused hold h
  exact ⟨reused, _, hstate⟩

theorem lowerBody_body {b : Block} (h : lowerBody file plan b s = .ok () t) : t.body = s.body := by
  cases he : plan.emitted s with
  | true =>
    obtain ⟨_, _, rfl⟩ := lowerBody_emitted he h
    rfl
  | false =>
    obtain ⟨frame, code, u, -, -, rfl⟩ := (lowerBody_new he).mp h
    rfl

/-- A function is kept for its instantiations if it is generic, and else becomes a method. -/
theorem lowerFunction_ok {scope : ScopeId} {decl : FunctionDecl} :
    lowerFunction file scope decl s = .ok () t ↔
      ∃ sig, file.scopes.lookup scope decl.name = some (.function sig) ∧
        if sig.isGeneric then defer decl s = .ok () t
        else lowerBody file (MethodPlan.declared decl.name sig) decl.body s = .ok () t := by
  obtain ⟨name, body, span⟩ := decl
  rw [lowerFunction, bind_ok]
  constructor
  · rintro ⟨sig, r, hsig, h⟩
    unfold functionNamed at hsig
    cases hl : file.scopes.lookup scope name with
    | none => simp only [hl, throw_ok] at hsig
    | some u =>
      cases u <;> simp only [hl, throw_ok, pure_ok] at hsig
      obtain ⟨rfl, rfl⟩ := hsig
      refine ⟨_, rfl, ?_⟩
      split_ifs at h ⊢ <;> exact h
  · rintro ⟨sig, hl, h⟩
    refine ⟨sig, s, by simp only [functionNamed, hl, pure_ok, and_self], ?_⟩
    split_ifs at h ⊢ <;> exact h

theorem lowerFunction_body {scope : ScopeId} {decl : FunctionDecl}
    (h : lowerFunction file scope decl s = .ok () t) : t.body = s.body := by
  obtain ⟨sig, -, h⟩ := lowerFunction_ok.mp h
  split_ifs at h
  · simp only [defer, bind_ok, Lower.log_ok, modify_ok] at h
    obtain ⟨_, _, rfl, rfl⟩ := h
    rfl
  · exact lowerBody_body h

/-- The unit of a struct does not depend on what was lowered before it. -/
theorem StructDef.unit_ok {decl : StructDef} {unit : ClassUnit} : decl.unit file s = .ok unit t ↔
    (∃ init text, Frame.start .publicFlag Library.constructor decl.constructorDescriptor =
      .ok init ∧
      Frame.start .publicFlag "toString" "()Ljava/lang/String;" = .ok text ∧
      { name := decl.qualifiedName
        access := .publicClass
        sourceFile := some file.fileName
        fields := decl.fields.map fun (field, t) => ⟨.publicFlag, field, t.descriptor⟩
        methods := [init.finish (decl.constructorCode init), text.finish decl.toStringCode] } =
          unit) ∧ s = t := by
  simp only [StructDef.unit, bind_ok, startFrame_ok, pure_ok]
  constructor
  · rintro ⟨init, _, ⟨hinit, rfl⟩, text, _, ⟨htext, rfl⟩, hunit, rfl⟩
    exact ⟨⟨init, text, hinit, htext, hunit⟩, rfl⟩
  · rintro ⟨⟨init, text, hinit, htext, hunit⟩, rfl⟩
    exact ⟨init, s, ⟨hinit, rfl⟩, text, s, ⟨htext, rfl⟩, hunit, rfl⟩

theorem lowerStruct_iff {scope : ScopeId} {name : String} {span : Span} :
    lowerStruct file scope name span s = .ok () t ↔
      ∃ decl bindings, file.scopes.lookup scope name = some (.struct decl bindings) ∧
        if s.file.structs.any (·.name == decl.qualifiedName) then s = t
        else ∃ unit, decl.unit file s = .ok unit s ∧
          { s.logged (.struct decl.name decl.qualifiedName decl.fields.length) with
            file.structs := s.file.structs ++ [unit] } = t := by
  unfold lowerStruct
  cases hl : file.scopes.lookup scope name with
  | none => simp [throw_ok]
  | some u =>
    cases u with
    | struct decl bindings =>
      simp only [bind_ok, get_ok, Option.some.injEq, Ty.struct.injEq]
      constructor
      · rintro ⟨_, _, ⟨rfl, rfl⟩, h⟩
        refine ⟨decl, bindings, ⟨rfl, rfl⟩, ?_⟩
        split_ifs at h ⊢
        · exact (pure_ok.mp h).2
        · simp only [bind_ok, Lower.log_ok, modify_ok] at h
          obtain ⟨unit, r, hunit, _, _, rfl, rfl⟩ := h
          obtain ⟨-, rfl⟩ := StructDef.unit_ok.mp hunit
          exact ⟨unit, hunit, rfl⟩
      · rintro ⟨_, _, ⟨rfl, rfl⟩, h⟩
        refine ⟨s, s, ⟨rfl, rfl⟩, ?_⟩
        split_ifs at h ⊢
        · exact pure_ok.mpr ⟨rfl, h⟩
        · obtain ⟨unit, hunit, rfl⟩ := h
          simp only [bind_ok, Lower.log_ok, modify_ok]
          exact ⟨unit, s, hunit, (), _, rfl, rfl⟩
    | _ => simp [throw_ok]

/-- A struct adds its unit, unless there is one. -/
theorem lowerStruct_ok {scope : ScopeId} {name : String} {span : Span}
    (h : lowerStruct file scope name span s = .ok () t) :
    s = t ∨ ∃ decl bindings unit, file.scopes.lookup scope name = some (.struct decl bindings) ∧
      decl.unit file s = .ok unit s ∧
        { s.logged (.struct decl.name decl.qualifiedName decl.fields.length) with
          file.structs := s.file.structs ++ [unit] } = t := by
  obtain ⟨decl, bindings, hl, h⟩ := lowerStruct_iff.mp h
  split_ifs at h
  · exact .inl h
  · obtain ⟨unit, hunit, h⟩ := h
    exact .inr ⟨decl, bindings, unit, hl, hunit, h⟩

theorem lowerStruct_body {scope : ScopeId} {name : String} {span : Span}
    (h : lowerStruct file scope name span s = .ok () t) : t.body = s.body := by
  obtain rfl | ⟨_, _, _, -, -, rfl⟩ := lowerStruct_ok h <;> rfl

end ClassGen
