import ClassGen.Proofs.StackKinds.Stmt
import ClassGen.Proofs.Values.Visits

/-! Missing values. An expression can be lowered to no value where one is needed; lowering then
fails, with two exceptions. A value that is to be of type void may be missing. And a receiver that
is annotated with a struct type is taken for one, whatever it was lowered to. -/

namespace ClassGen.Values

open Run
open Faithful (after after_ok varType)

/-! ### Positions -/

namespace Visit

/-- The annotation makes a struct of it. -/
def isStruct (x : Visit) : Bool :=
  match Specialization.resolve x.cx.bindings x.expr.type with
  | .ok t => t.isStruct
  | .error _ => false

/-- A missing value is noticed here. -/
def isGuarded (x : Visit) : Bool :=
  match x.use with
  | .free => false
  | .as target => !target.isVoid
  | .owner => !x.isStruct
  | .text | .subject | .iterable => true

/-- The missing value `v` is taken for one: for one of type void, or for a struct. No code is added.
-/
def LetsBy (x : Visit) (v : Lowered) : Prop :=
  match x.use with
  | .as target => target.isVoid = true ∧ ∀ s, v.into target x.expr.span s = .ok v.code s
  | .owner => ∃ decl bindings, ∀ s, x.cx.receiver v x.expr.note s =
      .ok ⟨.struct decl bindings, v.code⟩ s
  | _ => False

/-- If the value is missing, nothing notices. -/
def Supplied (x : Visit) : Prop :=
  ∀ v t, lowerExpr x.cx x.expr x.state = .ok v t → v.type.isVoid = true → x.isGuarded = false

variable {x : Visit} {cx : BodyContext} {e : Expr} {s t : LowerState} {v : Lowered} {use : Use}

/-- An expression that was lowered to a value, or where a missing one is not noticed. -/
theorem supplied_of_ok (hv : lowerExpr cx e s = .ok v t)
    (h : v.type.isVoid = true → isGuarded ⟨cx, e, s, use⟩ = false) : Supplied ⟨cx, e, s, use⟩ := by
  intro v' t' hv' hvoid
  cases hv.symm.trans hv'
  exact h hvoid

/-- Where a missing value is not noticed, it is let by. -/
theorem letsBy (huse : x.use ≠ .free) (hguard : x.isGuarded = false) (hv : v.type.isVoid = true) :
    x.LetsBy v := by
  obtain ⟨cx, e, s, use⟩ := x
  have hvoid : v.type = .void := by
    cases h : v.type with
    | primitive kind =>
      rw [h] at hv
      cases kind <;> first | rfl | cases hv
    | _ => rw [h] at hv; cases hv
  cases use with
  | free => exact absurd rfl huse
  | as target =>
    have htarget : target.isVoid = true := by simpa [isGuarded] using hguard
    refine ⟨htarget, fun s => ?_⟩
    simp [Lowered.into, hvoid, htarget, coerce, Ty.representation, pure, EStateM.pure]
  | owner =>
    simp only [isGuarded, isStruct, Bool.not_eq_false'] at hguard
    cases hresolve : Specialization.resolve cx.bindings e.type with
    | error e => simp [hresolve] at hguard
    | ok annotated =>
      cases annotated with
      | struct decl bindings =>
        refine ⟨decl, bindings, fun s => ?_⟩
        have hrun : cx.resolve e.note s = .ok (.struct decl bindings) s :=
          BodyContext.resolve_ok.mpr ⟨hresolve, rfl⟩
        simp only [BodyContext.receiver, bind_of_ok hrun, hvoid]
        simp [coerce, Ty.representation, pure, EStateM.pure]
      | _ => simp [hresolve, Ty.isStruct] at hguard
  | _ => cases hguard

end Visit

/-! ### Expressions -/

/-- If the run succeeds, nothing that is missing at these visits was noticed. -/
def Supplies (xs : List Visit) {α : Type} (r : EStateM.Result CodegenError LowerState α) : Prop :=
  ∀ a t, r = .ok a t → ∀ x ∈ xs, x.Supplied

namespace Supplies

variable {cx : BodyContext} {e : Expr} {use : Use} {s : LowerState} {α β : Type} {x : Lower α}
  {f : α → Lower β} {xs ys inner : List Visit} {next : α → LowerState → List Visit}

theorem nil {r : EStateM.Result CodegenError LowerState α} : Supplies [] r := fun _ _ _ => nofun

theorem throw {err : CodegenError} : Supplies xs ((throw err : Lower α) s) :=
  fun _ _ h => (throw_ok.mp h).elim

/-- What a first computation visits, and what the next does if there is one. -/
theorem bind (hx : Supplies xs (x s)) (hf : ∀ a t, x s = .ok a t → Supplies (next a t) (f a t)) :
    Supplies (xs ++ after x s [] next) ((x >>= f) s) := by
  intro b t h
  obtain ⟨a, r, hrun, h⟩ := bind_ok.mp h
  rw [after_ok hrun, List.forall_mem_append]
  exact ⟨hx a r hrun, hf a r hrun b t h⟩

theorem andThen (hf : ∀ a t, x s = .ok a t → Supplies (next a t) (f a t)) :
    Supplies (after x s [] next) ((x >>= f) s) := nil.bind hf

theorem first (hx : Supplies xs (x s)) : Supplies xs ((x >>= f) s) := by
  intro b t h
  obtain ⟨a, r, hrun, -⟩ := bind_ok.mp h
  exact hx a r hrun

/-- An expression after those in it, if what is done with its value fails where the missing value is
noticed. -/
theorem visit {f : Lowered → Lower β} (hinner : Supplies inner (lowerExpr cx e s))
    (hf : ∀ v t b u, v.type.isVoid = true → f v t = .ok b u →
      Visit.isGuarded ⟨cx, e, s, use⟩ = false) :
    Supplies (Values.visit cx e use s inner) ((lowerExpr cx e >>= f) s) := by
  intro b u h
  rw [Values.visit, List.forall_mem_append, List.forall_mem_singleton]
  refine ⟨hinner.first b u h, ?_⟩
  obtain ⟨v, t, hv, h⟩ := bind_ok.mp h
  exact Visit.supplied_of_ok hv fun hvoid => hf v t b u hvoid h

theorem visit_bind {f : Lowered → Lower β} {next : Lowered → LowerState → List Visit}
    (hinner : Supplies inner (lowerExpr cx e s))
    (hf : ∀ v t b u, v.type.isVoid = true → f v t = .ok b u →
      Visit.isGuarded ⟨cx, e, s, use⟩ = false)
    (hnext : ∀ v t, Supplies (next v t) (f v t)) :
    Supplies (Values.visit cx e use s inner ++ after (lowerExpr cx e) s [] next)
      ((lowerExpr cx e >>= f) s) := by
  intro b u h
  rw [List.forall_mem_append]
  exact ⟨visit hinner hf b u h, andThen (fun v t _ => hnext v t) b u h⟩

end Supplies

section Guards

variable {cx : BodyContext} {e : Expr} {s t u : LowerState} {α : Type} {a : α} {v : Lowered}

theorem guarded_into {target : Ty} {span : Span} {f : Code → Lower α} (hv : v.type.isVoid = true)
    (h : (v.into target span >>= f) t = .ok a u) :
    Visit.isGuarded ⟨cx, e, s, .as target⟩ = false := by
  obtain ⟨c, r, hc, -⟩ := bind_ok.mp h
  simp [Visit.isGuarded, (Lowered.into_ok.mp hc).1 hv]

theorem guarded_appended {span : Span} {f : Code → Lower α} (hv : v.type.isVoid = true)
    (h : (v.appended span >>= f) t = .ok a u) : Visit.isGuarded ⟨cx, e, s, .text⟩ = false := by
  obtain ⟨c, r, hc, -⟩ := bind_ok.mp h
  rw [(Lowered.appended_ok.mp hc).1] at hv
  cases hv

/-- A field is there only if the receiver was made a struct. -/
theorem guarded_receiver {f : Lowered → Lower α} (hv : v.type.isVoid = true)
    (hf : ∀ r q, r.type.isVoid = true → f r q ≠ .ok a u)
    (h : (cx.receiver v e.note >>= f) t = .ok a u) :
    Visit.isGuarded ⟨cx, e, s, .owner⟩ = false := by
  obtain ⟨r, q, hr, h⟩ := bind_ok.mp h
  have hr' : r.type.isVoid = false := Bool.eq_false_iff.mpr fun hvoid => hf r q hvoid h
  simp only [BodyContext.receiver, bind_ok, BodyContext.resolve_ok] at hr
  obtain ⟨annotated, _, ⟨hresolve, rfl⟩, hr⟩ := hr
  have hresolve' : Specialization.resolve cx.bindings e.type = .ok annotated := hresolve
  simp only [Visit.isGuarded, Visit.isStruct, hresolve', Bool.not_eq_false']
  cases annotated with
  | struct decl bindings => rfl
  | _ =>
    -- the receiver is what it was lowered to
    have hsame : v = r := by
      cases htype : v.type <;> simp only [htype, pure_ok] at hr <;> exact hr.1
    rw [hsame, hr'] at hv
    cases hv

theorem structField_of_void {owner : Ty} {field : String} {span : Span} {found : StructDef × Ty}
    (ho : owner.isVoid = true) : structField owner field span s ≠ .ok found t := by
  cases owner with
  | struct decl bindings => cases ho
  | _ => simp [structField, throw_ok]

theorem loadFields_of_void {fields : List String} {span : Span} {owner v : Lowered}
    (ho : owner.type.isVoid = true) (hne : fields ≠ []) :
    cx.loadFields owner span fields s ≠ .ok v t := by
  cases fields with
  | nil => exact absurd rfl hne
  | cons field rest =>
    intro h
    simp only [BodyContext.loadFields, BodyContext.loadField, bind_ok] at h
    obtain ⟨_, _, ⟨_, _, hfield, -⟩, -⟩ := h
    exact structField_of_void ho hfield

end Guards

def ExprSupplies (cx : BodyContext) (e : Expr) : Prop :=
  ∀ s, Supplies (visits cx e s) (lowerExpr cx e s)

section Expressions

variable {cx : BodyContext}

theorem newLabel_skip (s : LowerState) : Lower.newLabel s = .ok s.body.nextLabel (s.skip 1) := rfl

/-- An operand that is brought to a type. -/
theorem supplies_operand {e : Expr} {target : Ty} {α : Type} {f : Code → Lower α}
    {next : LowerState → List Visit} (he : ExprSupplies cx e) (s : LowerState)
    (hf : ∀ c t, Supplies (next t) (f c t)) :
    Supplies (operand cx e target s (visits cx e s) next)
      ((lowerExpr cx e >>= fun v => v.into target e.span >>= f) s) :=
  .visit_bind (he s) (fun _ _ _ _ => guarded_into) fun _ _ => .andThen fun c t _ => hf c t

theorem supplies_binary {note : Note} {op : BinaryOp} {left right : Expr}
    (hl : ExprSupplies cx left) (hr : ExprSupplies cx right) :
    ExprSupplies cx (.binary note op left right) := by
  intro s
  rw [lowerExpr, visits]
  refine .andThen fun result s _ => ?_
  split
  · exact .visit_bind (hl s) (fun _ _ _ _ => guarded_appended) fun _ _ => .andThen fun _ t _ =>
      .visit (hr t) fun _ _ _ _ => guarded_appended
  split
  · rw [bind_of_ok (newLabel_skip s), bind_of_ok (newLabel_skip (s.skip 1)), LowerState.skip_skip]
    exact supplies_operand hl (s.skip 2) fun _ t => .visit (hr t) fun _ _ _ _ => guarded_into
  split
  · exact .throw
  refine .andThen fun lt s _ => .andThen fun rt s _ => .andThen fun plan s _ => ?_
  cases plan with
  | none => exact .throw
  | some plan => exact supplies_operand hl s fun _ t => .visit (hr t) fun _ _ _ _ => guarded_into

theorem supplies_assign {note target : Note} {name : String} {value : Expr}
    (hvalue : ExprSupplies cx value) :
    ExprSupplies cx (.assign note (.ident target name) value) := by
  intro s
  rw [lowerExpr, visits]
  exact .andThen fun _ s _ => .visit (hvalue s) fun _ _ _ _ => guarded_into

theorem supplies_assignField {note target : Note} {receiver value : Expr} {fields : List String}
    (hreceiver : ExprSupplies cx receiver) (hvalue : ExprSupplies cx value) :
    ExprSupplies cx (.assign note (.property target receiver fields) value) := by
  intro s
  rw [lowerExpr, visits]
  cases fields.getLast? with
  | none => exact .throw
  | some last =>
    refine .visit_bind (hreceiver s)
      (fun _ _ _ _ hv h => guarded_receiver hv (fun r q hr h => ?_) h) fun _ _ => .andThen
      fun _ _ _ => .andThen fun _ _ _ => .andThen fun _ s _ => .visit (hvalue s) fun _ _ _ _ =>
        guarded_into
    obtain ⟨owner, q', howner, h⟩ := bind_ok.mp h
    obtain ⟨found, _, hfield, -⟩ := bind_ok.mp h
    by_cases hnil : fields.dropLast = []
    · rw [hnil] at howner
      obtain ⟨rfl, rfl⟩ := pure_ok.mp howner
      exact structField_of_void hr hfield
    · exact loadFields_of_void hr hnil howner

theorem supplies_property {note : Note} {receiver : Expr} {fields : List String}
    (hreceiver : ExprSupplies cx receiver) : ExprSupplies cx (.property note receiver fields) := by
  intro s
  rw [lowerExpr, visits]
  refine .visit (hreceiver s) fun v t a u hv h => ?_
  cases fields with
  | nil => rfl
  | cons field rest =>
      exact guarded_receiver hv (fun r q hr => loadFields_of_void hr (List.cons_ne_nil _ _)) h

theorem supplies_negate {note : Note} {value : Expr} (hvalue : ExprSupplies cx value) :
    ExprSupplies cx (.negate note value) := by
  intro s
  rw [lowerExpr, visits]
  refine .andThen fun planned s _ => ?_
  cases planned.numeric? with
  | none => exact .throw
  | some kind => exact .visit (hvalue s) fun _ _ _ _ => guarded_into

theorem supplies_call {note : Note} {callee : Expr} {args : List Expr}
    (hargs : ∀ ts s, Supplies (visitsOfArgs cx args ts s) (lowerArgs cx args ts s)) :
    ExprSupplies cx (.call note callee args) := by
  intro s
  rw [lowerExpr, visits]
  refine .andThen fun target s _ => ?_
  cases target with
  | function sig =>
    refine .andThen fun _ s _ => ?_
    cases sig.linkage with
    | external owner method => exact (hargs _ s).first
    | user owner => exact .andThen fun _ s _ => .andThen fun _ s _ => (hargs _ s).first
  | struct decl bindings => exact .andThen fun _ s _ => (hargs _ s).first
  | _ => exact .throw

mutual

theorem lowerExpr_supplies : ∀ e : Expr, ExprSupplies cx e
  | .binary _ _ left right => supplies_binary (lowerExpr_supplies left) (lowerExpr_supplies right)
  | .assign _ target value => by
    cases target with
    | ident note name => exact supplies_assign (lowerExpr_supplies value)
    | property note receiver fields =>
        exact supplies_assignField (lowerExpr_supplies receiver) (lowerExpr_supplies value)
    | _ => exact fun _ => .nil
  | .call _ _ args => supplies_call (lowerArgs_supplies args)
  | .property _ receiver _ => supplies_property (lowerExpr_supplies receiver)
  | .negate _ value => supplies_negate (lowerExpr_supplies value)
  | .not note value => fun s => by
    rw [lowerExpr, visits]
    exact .visit (lowerExpr_supplies value s) fun _ _ _ _ => guarded_into
  | .group note inner => fun s => by
    intro v t h x hx
    rw [lowerExpr] at h
    rw [visits, visit, List.mem_append, List.mem_singleton] at hx
    rcases hx with hx | rfl
    · exact lowerExpr_supplies inner s v t h x hx
    · exact fun _ _ _ _ => rfl
  | .listOf note entries => fun s => by
    rw [lowerExpr, visits]
    exact .andThen fun _ s _ => (lowerEntries_supplies entries s).first
  | .literal _ _ | .ident _ _ | .step _ _ _ | .emptyList _ | .index _ _ _
  | .moduleMember _ _ _ | .enumValue _ _ _
  | .lambda _ | .empty _ | .bad _ => fun _ => .nil

theorem lowerArgs_supplies : ∀ (args : List Expr) (ts : List Ty) (s : LowerState),
    Supplies (visitsOfArgs cx args ts s) (lowerArgs cx args ts s)
  | [], _, _ | _ :: _, [], _ => .nil
  | arg :: args, t :: ts, s => by
    rw [lowerArgs, visitsOfArgs]
    exact supplies_operand (lowerExpr_supplies arg) s fun _ t =>
      (lowerArgs_supplies args ts t).first

theorem lowerEntries_supplies : ∀ (entries : List Expr) (s : LowerState),
    Supplies (visitsOfEntries cx entries s) (lowerEntries cx entries s)
  | [], _ => .nil
  | entry :: entries, s => by
    rw [lowerEntries, visitsOfEntries]
    exact supplies_operand (lowerExpr_supplies entry) s fun _ t =>
      (lowerEntries_supplies entries t).first

end

end Expressions

/-! ### Statements -/

def StmtSupplies (st : Stmt) : Prop :=
  ∀ (cx : BodyContext) (s : LowerState), Supplies (visitsOfStmt cx st s) (lowerStmt cx st s)

def BlockSupplies (b : Block) : Prop :=
  ∀ (cx : BodyContext) (s : LowerState), Supplies (visitsOfBlock cx b s) (lowerBlock cx b s)

def StmtsSupply (body : List Stmt) : Prop :=
  ∀ (cx : BodyContext) (s : LowerState), Supplies (visitsOfStmts cx body s)
    (lowerStmts cx [] body s)

def ArmsSupply (arms : List Arm) : Prop :=
  ∀ (cx : BodyContext) (subject : Nat) (done : Label) (s : LowerState),
    Supplies (visitsOfArms cx subject arms s) (lowerArms cx subject done arms s)

theorem supplies_var {span : Span} {name : String} {init : Expr} :
    StmtSupplies (.var span name init) := by
  intro cx s c t h x hx
  cases stmtRun_of_ok h with
  | var ht hvoid hv hvv =>
    rw [visitsOfStmt, after_ok (varType_ok ht), hvoid, if_neg Bool.false_ne_true, visit,
      List.mem_append, List.mem_singleton] at hx
    rcases hx with hx | rfl
    · exact lowerExpr_supplies init s _ _ hv x hx
    · exact Visit.supplied_of_ok hv fun h => by rw [hvv] at h; cases h
  | nothing hn => cases hn

theorem supplies_ret {span : Span} {value : Expr} : StmtSupplies (.ret span value) := by
  intro cx s
  rw [lowerStmt, lowerReturn, visitsOfStmt]
  cases value.isEmpty with
  | true => exact .nil
  | false =>
    cases cx.ret.isVoid with
    | true => exact .visit (lowerExpr_supplies value s) fun _ _ _ _ _ _ => rfl
    | false =>
      simp only [Bool.false_eq_true, if_false, lowerAs, bind_assoc]
      exact .visit (lowerExpr_supplies value s) fun _ _ _ _ => guarded_into

theorem supplies_ifElse {span : Span} {test : Expr} {body : Block} {branch : Option Stmt}
    (hbody : BlockSupplies body) (hbranch : ∀ st, branch = some st → StmtSupplies st) :
    StmtSupplies (.ifElse span test body branch) := by
  intro cx s
  cases branch with
  | none =>
    rw [lowerStmt, visitsOfStmt, bind_of_ok (newLabel_skip s)]
    simp only [lowerAs, bind_assoc]
    exact supplies_operand (lowerExpr_supplies test) (s.skip 1) fun _ t => (hbody cx t).first
  | some st =>
    rw [lowerStmt, visitsOfStmt, bind_of_ok (newLabel_skip s)]
    simp only [lowerAs, bind_assoc]
    refine supplies_operand (lowerExpr_supplies test) (s.skip 1) fun _ t =>
      (hbody cx t).bind fun _ t _ => ?_
    rw [bind_of_ok (newLabel_skip t)]
    exact (hbranch st rfl cx (t.skip 1)).first

theorem supplies_whileLoop {span : Span} {test : Expr} {body : Block} (hbody : BlockSupplies body) :
    StmtSupplies (.whileLoop span test body) := by
  intro cx s
  rw [lowerStmt, visitsOfStmt, bind_of_ok (newLabel_skip s), bind_of_ok (newLabel_skip (s.skip 1)),
    LowerState.skip_skip]
  simp only [lowerAs, bind_assoc]
  exact supplies_operand (lowerExpr_supplies test) (s.skip 2) fun _ t => (hbody cx t).first

/-- Nothing can be iterated over that is missing. -/
theorem iteratorCode_of_void {t : Ty} (h : t.isVoid = true) : iteratorCode t = none := by
  cases t with
  | primitive kind => rfl
  | _ => cases h

theorem supplies_forEach {span : Span} {binding : String} {iterable : Expr} {body : Block}
    (hbody : BlockSupplies body) : StmtSupplies (.forEach span binding iterable body) := by
  intro cx s
  rw [lowerStmt, visitsOfStmt]
  refine .bind (.visit (lowerExpr_supplies iterable s) fun v t b u hv h => ?_) fun opened t _ => ?_
  · simp only [iteratorCode_of_void hv, throw_ok] at h
  · obtain ⟨setup, iterator, element⟩ := opened
    dsimp only
    rw [bind_of_ok (newLabel_skip t), bind_of_ok (newLabel_skip (t.skip 1)), LowerState.skip_skip]
    exact (hbody cx (t.skip 2)).first

theorem supplies_matchType {span : Span} {subject : Expr} {arms : List Arm}
    (harms : ArmsSupply arms) : StmtSupplies (.matchType span subject arms) := by
  intro cx s
  rw [lowerStmt, visitsOfStmt]
  refine .bind (.visit (lowerExpr_supplies subject s) fun v t b u hv h => ?_) fun opened t _ => ?_
  · simp only [hv, if_true, bind_ok, throw_ok, false_and, exists_false] at h
  · obtain ⟨setup, slot⟩ := opened
    dsimp only
    rw [bind_of_ok (newLabel_skip t)]
    exact (harms cx slot _ (t.skip 1)).first

theorem supply_cons {first : Stmt} {rest : List Stmt} (hfirst : StmtSupplies first)
    (hrest : StmtsSupply rest) : StmtsSupply (first :: rest) := by
  intro cx s c t h
  obtain ⟨c₁, s₁, c₂, hc₁, hc₂, -⟩ := lowerStmts_cons.mp h
  rw [visitsOfStmts, after_ok hc₁, List.forall_mem_append]
  exact ⟨hfirst cx _ c₁ s₁ hc₁, hrest cx s₁ c₂ t hc₂⟩

theorem supply_arm {pattern : Ty} {binding : String} {body : Block} {span : Span} {rest : List Arm}
    (hbody : BlockSupplies body) (hrest : ArmsSupply rest) :
    ArmsSupply (⟨pattern, binding, body, span⟩ :: rest) := by
  intro cx subject done s
  rw [lowerArms, visitsOfArms, bind_of_ok (newLabel_skip s)]
  exact .andThen fun _ _ _ => .andThen fun _ t _ => (hbody cx t).bind fun _ t _ =>
    (hrest cx subject done t).first

theorem supplies_body {file : FileContext} {plan : MethodPlan} {body : Block}
    (hbody : StmtsSupply body.body) (s : LowerState) : Supplies (visitsOfBody file plan body s)
    (lowerBody file plan body s) := by
  intro _ t h
  obtain ⟨scope, body, span⟩ := body
  rw [visitsOfBody]
  cases hnew : plan.emitted s with
  | true => exact nofun
  | false =>
    obtain ⟨frame, code, u, hframe, hcode, -⟩ := (lowerBody_new hnew).mp h
    rw [if_neg Bool.false_ne_true, after_ok (startFrame_ok.mpr ⟨hframe, rfl⟩)]
    exact hbody _ _ code u hcode

mutual

theorem lowerStmt_supplies : ∀ st : Stmt, StmtSupplies st
  | .expr value => fun cx s => by
    rw [lowerStmt, visitsOfStmt]
    exact .visit (lowerExpr_supplies value s) fun _ _ _ _ _ _ => rfl
  | .var _ _ _ => supplies_var
  | .function ⟨name, body, span⟩ => fun cx s => by
    rw [lowerStmt, visitsOfStmt, lowerFunction, visitsOfFunction]
    refine .first (.andThen fun sig s _ => ?_)
    cases sig.isGeneric with
    | true => exact .nil
    | false => exact supplies_body (lowerBody_supplies body) s
  | .ret _ _ => supplies_ret
  | .ifElse _ _ body none => supplies_ifElse (lowerBlock_supplies body) nofun
  | .ifElse _ _ body (some branch) => supplies_ifElse (lowerBlock_supplies body) fun _ h =>
    Option.some.inj h ▸ lowerStmt_supplies branch
  | .whileLoop _ _ body => supplies_whileLoop (lowerBlock_supplies body)
  | .forEach _ _ _ body => supplies_forEach (lowerBlock_supplies body)
  | .matchType _ _ arms => supplies_matchType (lowerArms_supplies arms)
  | .block body => fun cx s => by
    rw [lowerStmt, visitsOfStmt]
    exact lowerBlock_supplies body cx s
  | .exported inner => fun cx s => by
    rw [lowerStmt, visitsOfStmt_exported]
    exact lowerStmt_supplies inner cx s
  | .struct _ _ | .use _ _ | .typeAlias _ _ | .unionType _ _ | .enum _ _ | .parameter _ _ =>
      fun _ _ => .nil

theorem lowerBody_supplies : ∀ b : Block, StmtsSupply b.body
  | ⟨_, body, _⟩ => lowerStmts_supply body

theorem lowerBlock_supplies : ∀ b : Block, BlockSupplies b
  | ⟨scope, body, _⟩ => fun cx s => by
    rw [lowerBlock, visitsOfBlock]
    exact lowerStmts_supply body _ s

theorem lowerStmts_supply : ∀ body : List Stmt, StmtsSupply body
  | [] => fun _ _ => .nil
  | first :: rest => supply_cons (lowerStmt_supplies first) (lowerStmts_supply rest)

theorem lowerArms_supplies : ∀ arms : List Arm, ArmsSupply arms
  | [] => fun _ _ _ _ => .nil
  | ⟨_, _, body, _⟩ :: rest => supply_arm (lowerBlock_supplies body) (lowerArms_supplies rest)

end

/-! ### Lowering fails -/

theorem Supplies.fails {α : Type} {r : EStateM.Result CodegenError LowerState α}
    {xs : List Visit} {x : Visit} {v : Lowered} {t : LowerState} (h : Supplies xs r) (hx : x ∈ xs)
    (hv : lowerExpr x.cx x.expr x.state = .ok v t) (hvoid : v.type.isVoid = true)
    (hguard : x.isGuarded = true) : ∃ err u, r = .error err u := by
  cases r with
  | error err u => exact ⟨err, u, rfl⟩
  | ok a u =>
    rw [h a u rfl x hx v t hv hvoid] at hguard
    cases hguard

/-- An expression whose value is needed but which is lowered to none. Where this is noticed, the
lowering of all that it is visited by fails. It is noticed unless a value of type void is asked for,
or a receiver is annotated with a struct type; then the code goes on as if the value were there. -/
theorem lowering_of_missing (cx : BodyContext) (s : LowerState) {x : Visit} {v : Lowered}
    {t : LowerState} (huse : x.use ≠ .free) (hv : lowerExpr x.cx x.expr x.state = .ok v t)
    (hvoid : v.type.isVoid = true) :
    (x.isGuarded = true →
      (∀ e, x ∈ visits cx e s → ∃ err u, lowerExpr cx e s = .error err u) ∧
        ∀ st, x ∈ visitsOfStmt cx st s → ∃ err u, lowerStmt cx st s = .error err u) ∧
      (x.isGuarded = false → x.LetsBy v) :=
  ⟨fun hguard => ⟨fun e hx => (lowerExpr_supplies e s).fails hx hv hvoid hguard,
    fun st hx => (lowerStmt_supplies st cx s).fails hx hv hvoid hguard⟩, fun hguard =>
      Visit.letsBy huse hguard hvoid⟩

/-- `while (true) { for (x in <bad>) { } }`, where what is iterated over was to be a list. -/
def sampleLoops : Stmt :=
  .whileLoop {} (.literal ⟨.boolean, {}⟩ (.bool true))
    ⟨1, [.forEach {} "x" (.bad ⟨.list .int, {}⟩) ⟨1, [], {}⟩], {}⟩

theorem lowering_of_missing_iterable :
    (∃ x ∈ visitsOfStmt (sampleContext [] []) sampleLoops (sampleState []), x.use = .iterable ∧
      x.isGuarded = true ∧
      lowerExpr x.cx x.expr x.state = .ok ⟨.void, []⟩ x.state) ∧
      ∃ err u, lowerStmt (sampleContext [] []) sampleLoops (sampleState []) = .error err u := by
  let x : Visit := ⟨sampleContext [] [], .bad ⟨.list .int, {}⟩,
    ((sampleState []).skip 2).logged (.statement "for" "_f"), .iterable⟩
  have hx : x ∈ visitsOfStmt (sampleContext [] []) sampleLoops (sampleState []) :=
    List.mem_of_getElem? (i := 1) rfl
  have hmissing : lowerExpr x.cx x.expr x.state = .ok ⟨.void, []⟩ x.state := rfl
  have huse : x.use ≠ .free := fun h : Use.iterable = .free => nomatch h
  exact ⟨⟨x, hx, rfl, rfl, hmissing⟩,
    ((lowering_of_missing (sampleContext [] []) (sampleState []) huse hmissing rfl).1 rfl).2 _ hx⟩

/-- `struct Point { x: int }` -/
def samplePoint : StructDef := ⟨"Point", "sample$Point", [("x", .int)]⟩

/-- `geometry::origin`, which is a point. -/
def sampleOrigin : Expr := .moduleMember ⟨.struct samplePoint [], {}⟩ "geometry" "origin"

/-- `geometry::origin.x` -/
def sampleAccess : Expr := .property ⟨.int, {}⟩ sampleOrigin ["x"]

/-- A member of a module is lowered to nothing, and the field of nothing is read. -/
theorem lowering_reads_missing :
    (∃ x ∈ visits (sampleContext [] []) sampleAccess (sampleState []), x.use = .owner ∧
      lowerExpr x.cx x.expr x.state = .ok ⟨.void, []⟩ x.state) ∧
      lowerExpr (sampleContext [] []) sampleAccess (sampleState []) =
        .ok ⟨.int, [Code.getField ⟨"sample$Point", "x", "I"⟩]⟩ (sampleState []) := by
  let x : Visit := ⟨sampleContext [] [], sampleOrigin, sampleState [], .owner⟩
  exact ⟨⟨x, List.mem_singleton_self x, rfl, rfl⟩, rfl⟩

end ClassGen.Values
