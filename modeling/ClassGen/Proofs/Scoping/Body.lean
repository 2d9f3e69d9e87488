import ClassGen.Proofs.Scoping.Trace

/-! Lexical scoping. In a body whose blocks are nested as their scopes are, and have different
scopes, lowering finds every name where the text alone says it is: at the latest variable of the
innermost block around it that has one, at a parameter, or nowhere. A statement keeps the run
aligned with the walk. -/

namespace ClassGen.Scoping

open Run
open Faithful (after after_ok varType)

/-! ### Scopes whose locals change -/

/-- Locals of other scopes than these are as they were. -/
structure Alters (s t : LowerState) (ids : List ScopeId) : Prop where
  other : ∀ id, id ∉ ids → ∀ name, t.body.locals.lookup (id, name) = s.body.locals.lookup (id, name)

namespace Alters

variable {s t u : LowerState} {ids more : List ScopeId}

theorem of_eq (h : t.body.locals = s.body.locals) : Alters s t ids := ⟨fun _ _ _ => by rw [h]⟩

theorem congr_left (h : Alters t u ids) (heq : t.body.locals = s.body.locals) : Alters s u ids :=
  ⟨fun id hid name => (h.other id hid name).trans (by rw [heq])⟩

theorem congr_right (h : Alters s t ids) (heq : u.body.locals = t.body.locals) : Alters s u ids :=
  ⟨fun id hid name => heq ▸ h.other id hid name⟩

theorem mono (h : Alters s t ids) (hsub : ids ⊆ more) : Alters s t more :=
  ⟨fun id hid => h.other id fun hmem => hid (hsub hmem)⟩

theorem trans {all : List ScopeId} (hst : Alters s t ids) (htu : Alters t u more) (hids : ids ⊆ all)
    (hmore : more ⊆ all) : Alters s u all :=
  ⟨fun id hid name => ((htu.mono hmore).other id hid name).trans
    ((hst.mono hids).other id hid name)⟩

theorem withLocal (s : LowerState) (scope : ScopeId) (name : String) (type : Ty) :
    Alters s (s.withLocal scope name type) [scope] := by
  constructor
  intro id hid name'
  have hne : (id, name') ≠ (scope, name) :=
    fun heq => hid (List.mem_singleton.mpr (Prod.mk.inj heq).1)
  simp only [LowerState.withLocal, Dict.lookup_insert, if_neg hne]

end Alters

section Alters

open Alters

theorem bindSubject_alters {s t : LowerState} {c : Code} {subject : Nat} {pattern : Ty}
    {scope : ScopeId} {binding : String}
    (h : bindSubject subject pattern scope binding s = .ok c t) : Alters s t [scope] := by
  rw [bindSubject_ok] at h
  split at h
  · obtain ⟨-, rfl⟩ := h
    exact of_eq rfl
  · obtain ⟨-, rfl⟩ := h
    exact withLocal ..

mutual

theorem lowerStmt_alters : ∀ (st : Stmt) {cx : BodyContext} {s t : LowerState} {c : Code},
    lowerStmt cx st s = .ok c t → Alters s t (cx.scope :: st.scopes)
  | .expr value, _, _, _, _, h => by
    cases stmtRun_of_ok h with
    | expr hv => exact of_eq (lowerExpr_kept hv).locals
    | nothing hn => cases hn
  | .ret span value, _, _, _, _, h => by
    cases stmtRun_of_ok h with
    | leave => exact of_eq rfl
    | discard _ _ hv => exact of_eq (lowerExpr_kept hv).locals
    | ret _ _ hv => exact of_eq (lowerExpr_kept hv).locals
    | nothing hn => cases hn
  | .var span name init, cx, _, _, _, h => by
    cases stmtRun_of_ok h with
    | var _ _ hv =>
      exact mono (congr_left (withLocal _ cx.scope name _) (lowerExpr_kept hv).locals) (by simp)
    | nothing hn => cases hn
  | .ifElse span test body none, _, _, _, _, h => by
    rw [Stmt.scopes]
    cases stmtRun_of_ok h with
    | ifThen hv _ hb =>
      exact mono (congr_left (lowerBlock_alters body hb) (lowerExpr_kept hv).locals)
        (List.subset_cons_self ..)
    | nothing hn => cases hn
  | .ifElse span test body (some branch), _, _, _, _, h => by
    rw [Stmt.scopes]
    cases stmtRun_of_ok h with
    | ifElse hv _ hb he =>
      exact trans (congr_left (lowerBlock_alters body hb) (lowerExpr_kept hv).locals)
        (congr_left (lowerStmt_alters branch he) rfl) (by simp) (by simp)
    | nothing hn => cases hn
  | .whileLoop span test body, _, _, _, _, h => by
    rw [Stmt.scopes]
    cases stmtRun_of_ok h with
    | whileLoop hv _ hb =>
      exact mono (congr_left (lowerBlock_alters body hb) (lowerExpr_kept hv).locals)
        (List.subset_cons_self ..)
    | nothing hn => cases hn
  | .forEach span binding iterable body, _, _, _, _, h => by
    rw [Stmt.scopes]
    cases stmtRun_of_ok h with
    | @forEach _ _ _ _ _ s₁ _ _ type _ _ hv _ _ hb =>
      exact trans (congr_left (withLocal (s₁.withSlot .reference) body.scope binding type)
        (lowerExpr_kept hv).locals)
        (congr_left (lowerBlock_alters body hb) rfl)
          (by simp [Block.scopes_eq]) (List.subset_cons_self ..)
    | nothing hn => cases hn
  | .matchType span subject arms, _, _, _, _, h => by
    rw [Stmt.scopes]
    cases stmtRun_of_ok h with
    | matchType hv _ ha =>
      exact mono (congr_left (lowerArms_alters arms ha) (lowerExpr_kept hv).locals)
        (List.subset_cons_self ..)
    | nothing hn => cases hn
  | .block body, _, _, _, _, h => by
    rw [lowerStmt] at h
    rw [Stmt.scopes]
    exact (lowerBlock_alters body h).mono (List.subset_cons_self ..)
  | .exported inner, _, _, _, _, h => by
    rw [lowerStmt] at h
    rw [Stmt.scopes]
    exact lowerStmt_alters inner h
  | .function decl, _, _, _, _, h => of_eq (congrArg _ (function_leavesBody decl h).2)
  | .struct span name, _, _, _, _, h => of_eq (congrArg _ (struct_leavesBody span name h).2)
  | .use _ _, _, _, _, _, h | .typeAlias _ _, _, _, _, _, h | .unionType _ _, _, _, _, _, h
  | .enum _ _, _, _, _, _, h | .parameter _ _, _, _, _, _, h => by
    cases stmtRun_of_ok h
    exact of_eq rfl

theorem lowerBlock_alters : ∀ (b : Block) {cx : BodyContext} {s t : LowerState} {c : Code},
    lowerBlock cx b s = .ok c t → Alters s t b.scopes
  | ⟨scope, body, _⟩, _, _, _, _, h => by
    rw [lowerBlock] at h
    rw [Block.scopes]
    exact lowerStmts_alters body h

theorem lowerStmts_alters : ∀ (body : List Stmt) {cx : BodyContext} {s t : LowerState} {c : Code},
    lowerStmts cx [] body s = .ok c t → Alters s t (cx.scope :: scopesOf body)
  | [], _, _, _, _, h => by
    obtain ⟨-, rfl⟩ := lowerStmts_nil.mp h
    exact of_eq rfl
  | first :: rest, _, s, _, _, h => by
    obtain ⟨_, _, _, hfirst, hrest, -⟩ := lowerStmts_cons.mp h
    rw [scopesOf]
    exact trans (congr_left (lowerStmt_alters first hfirst) rfl) (lowerStmts_alters rest hrest)
      (by simp) (by simp)

theorem lowerArms_alters : ∀ (arms : List Arm) {cx : BodyContext} {s t : LowerState} {c : Code}
    {subject : Nat} {done : Label}, lowerArms cx subject done arms s = .ok c t →
      Alters s t (scopesOfArms arms)
  | [], _, _, _, _, _, _, h => by
    rw [lowerArms, pure_ok] at h
    exact of_eq (h.2 ▸ rfl)
  | ⟨_, _, body, _⟩ :: rest, _, s, _, _, _, _, h => by
    obtain ⟨_, _, _, _, _, _, -, hbound, hb, hrest, -⟩ := lowerArms_cons h
    rw [scopesOfArms]
    have hbody : Alters s _ body.scopes :=
      trans (congr_left (bindSubject_alters hbound) rfl) (lowerBlock_alters body hb)
        (by simp [Block.scopes_eq]) (by simp)
    exact trans hbody (lowerArms_alters rest hrest) (by simp) (by simp)

end

end Alters

/-! ### Blocks -/

/-- Blocks with these scopes may be entered: none was entered before or is open. -/
structure Ready (cx : BodyContext) (ids : List ScopeId) (s : LowerState) : Prop where
  depth : ∃ n, cx.file.scopes.Depth cx.scope n
  nodup : ids.Nodup
  unused : ∀ id ∈ ids, ∀ name, s.body.locals.lookup (id, name) = none
  apart : ∀ id ∈ ids, id ∉ cx.file.scopes.chain cx.scope

section Blocks

variable {cx : BodyContext} {w v : Walk} {tr tr' : Trace} {s t : LowerState}
  {ids more : List ScopeId} {b : Block} {α : Type} {r : EStateM.Result CodegenError LowerState α}

namespace Ready

theorem congr (h : Ready cx ids s) (heq : t.body.locals = s.body.locals) : Ready cx ids t :=
  ⟨h.depth, h.nodup, heq ▸ h.unused, h.apart⟩

theorem left (h : Ready cx (ids ++ more) s) : Ready cx ids s where
  depth := h.depth
  nodup := (List.nodup_append.mp h.nodup).1
  unused id hid := h.unused id (List.mem_append_left _ hid)
  apart id hid := h.apart id (List.mem_append_left _ hid)

/-- What remains to be entered, behind blocks with scopes `ids`. -/
theorem next (h : Ready cx (ids ++ more) s) (halters : Alters s t (cx.scope :: ids)) :
    Ready cx more t where
  depth := h.depth
  nodup := (List.nodup_append.mp h.nodup).2.1
  unused id hid name := by
    have hscope : id ≠ cx.scope := fun heq => h.apart id (List.mem_append_right _ hid)
      (heq ▸ ScopeTree.self_mem_chain)
    have hids : id ∉ ids := fun hmem => (List.nodup_append.mp h.nodup).2.2 id hmem id hid rfl
    rw [halters.other id (by simp [hscope, hids])]
    exact h.unused id (List.mem_append_right _ hid) name
  apart id hid := h.apart id (List.mem_append_right _ hid)

theorem chain_inside (h : Ready cx ids s)
    (hlex : b.isLexical cx.file.scopes.parent? cx.scope = true) :
    cx.file.scopes.chain b.scope = b.scope :: cx.file.scopes.chain cx.scope := by
  obtain ⟨n, hdepth⟩ := h.depth
  exact hdepth.chain_child (Block.isLexical_iff.mp hlex).1

/-- In the block, where at most locals of its own were declared. -/
theorem inside (h : Ready cx b.scopes s) (hlex : b.isLexical cx.file.scopes.parent? cx.scope = true)
    (halters : Alters s t [b.scope]) : Ready (cx.inside b) (scopesOf b.body) t := by
  rw [Block.scopes_eq] at h
  obtain ⟨hscope, hnodup⟩ := List.nodup_cons.mp h.nodup
  have hne : ∀ id ∈ scopesOf b.body, id ≠ b.scope := fun id hid heq => hscope (heq ▸ hid)
  obtain ⟨n, hdepth⟩ := h.depth
  refine ⟨⟨n + 1, .child (Block.isLexical_iff.mp hlex).1 hdepth⟩, hnodup, fun id hid name => ?_,
    fun id hid => ?_⟩
  · rw [halters.other id (by simpa using hne id hid)]
    exact h.unused id (List.mem_cons_of_mem _ hid) name
  · show id ∉ cx.file.scopes.chain b.scope
    rw [h.chain_inside hlex, List.mem_cons, not_or]
    exact ⟨hne id hid, h.apart id (List.mem_cons_of_mem _ hid)⟩

end Ready

theorem Aligned.enter (h : Aligned cx w tr s) (hready : Ready cx b.scopes s)
    (hlex : b.isLexical cx.file.scopes.parent? cx.scope = true) : Aligned (cx.inside b)
    (w.enter b.scope none) tr s := by
  have hmem : b.scope ∈ b.scopes := by simp [Block.scopes_eq]
  refine ⟨⟨h.declared, h.uses, h.found⟩, ?_⟩
  show Tracks cx.bodyScope _ _ _ (cx.file.scopes.chain b.scope)
  rw [hready.chain_inside hlex]
  exact .inner (.empty (hready.unused b.scope hmem)) (hready.apart b.scope hmem) h.tracks

/-- Behind the block its variables are out of sight. -/
theorem Reached.leave (hr : Reached (cx.inside b) v (tr ++ tr') r) (h : Aligned cx w tr s)
    (hready : Ready cx b.scopes s) (halters : ∀ a t, r = .ok a t → Alters s t b.scopes) :
    Reached cx (v.leave w) (tr ++ tr') r := by
  cases r with
  | error e t => exact Cut.extend hr ((Walk.Extends.refl v).leave w)
  | ok a t =>
    -- The scopes around the block are none of its own, so their locals are as they were.
    refine ⟨⟨hr.declared, hr.uses, hr.found⟩,
      (h.tracks.append tr'.vars).congr fun id hid name => ?_⟩
    exact (halters a t rfl).other id (fun hmem => hready.apart id hmem hid) name

end Blocks

/-! ### Statements -/

theorem lowerAs_locals {cx : BodyContext} {s t : LowerState} {e : Expr} {target : Ty} {c : Code}
    (h : lowerAs cx e target s = .ok c t) : t.body.locals = s.body.locals := by
  obtain ⟨v, r, hv, hinto⟩ := bind_ok.mp h
  exact (quiet_into _ _ _ _ _ hinto).trans (lowerExpr_kept hv).locals

theorem newLabel_eq (s : LowerState) : Lower.newLabel s = .ok s.body.nextLabel (s.skip 1) := rfl

def StmtAligns (st : Stmt) : Prop :=
  ∀ {cx : BodyContext} {w : Walk} {tr : Trace} {s : LowerState},
    st.isLexical cx.file.scopes.parent? cx.scope = true →
    Ready cx st.scopes s → Aligned cx w tr s →
      Reached cx (st.walk cx.file.scopes cx.params w) (tr ++ Trace.stmt cx st s) (lowerStmt cx st s)

def StmtsAlign (body : List Stmt) : Prop :=
  ∀ {cx : BodyContext} {w : Walk} {tr : Trace} {s : LowerState} (done : List Code),
    stmtsLexical cx.file.scopes.parent? cx.scope body = true → Ready cx (scopesOf body) s →
      Aligned cx w tr s →
      Reached cx (walkStmts cx.file.scopes cx.params body w) (tr ++ Trace.stmts cx body s)
        (lowerStmts cx done body s)

def ArmsAlign (arms : List Arm) : Prop :=
  ∀ {cx : BodyContext} {w : Walk} {tr : Trace} {s : LowerState} (subject : Nat) (done : Label),
    armsLexical cx.file.scopes.parent? cx.scope arms = true → Ready cx (scopesOfArms arms) s →
      Aligned cx w tr s →
      Reached cx (walkArms cx.file.scopes cx.params arms w) (tr ++ Trace.arms cx subject arms s)
        (lowerArms cx subject done arms s)

/-- A block that is entered in `t`, where the variable `bound` was declared since `s`. -/
def BlockAligns (b : Block) : Prop :=
  ∀ {cx : BodyContext} {w : Walk} {tr tr' : Trace} {s t : LowerState} (bound : Option String),
    b.isLexical cx.file.scopes.parent? cx.scope = true → Ready cx b.scopes s → Aligned cx w tr s →
      Alters s t [b.scope] →
      Aligned (cx.inside b) (w.enter b.scope bound) (tr ++ tr') t →
        Reached cx (b.walk cx.file.scopes cx.params bound w) (tr ++ tr' ++ Trace.block cx b t)
          (lowerBlock cx b t)

section Statements

variable {cx : BodyContext} {w : Walk} {tr : Trace} {s t : LowerState}

theorem blockAligns_of_stmts {b : Block} (ih : StmtsAlign b.body) : BlockAligns b := by
  intro cx w tr tr' s t bound hlex hready h halters hin
  have hbody := ih [] (Block.isLexical_iff.mp hlex).2 (hready.inside hlex halters) hin
  obtain ⟨scope, body, span⟩ := b
  rw [lowerBlock, Block.walk, Trace.block, Trace.append_assoc]
  rw [Trace.append_assoc] at hbody
  refine hbody.leave h hready fun c u hrun => ?_
  rw [Block.scopes]
  exact halters.trans (lowerStmts_alters body hrun) (by simp) (List.Subset.refl _)

/-- A block in which nothing is bound. -/
theorem BlockAligns.plain {b : Block} (ih : BlockAligns b)
    (hlex : b.isLexical cx.file.scopes.parent? cx.scope = true) (hready : Ready cx b.scopes s)
    (h : Aligned cx w tr s) :
    Reached cx (b.walk cx.file.scopes cx.params none w) (tr ++ Trace.block cx b s)
      (lowerBlock cx b s) := by
  have hin : Aligned (cx.inside b) (w.enter b.scope none) (tr ++ {}) s := by
    rw [Trace.append_nil]
    exact h.enter hready hlex
  have hblock := ih none hlex hready h (.of_eq rfl) hin
  rwa [Trace.append_nil] at hblock

theorem aligns_expr (value : Expr) : StmtAligns (.expr value) := by
  intro cx w tr s _ _ h
  rw [lowerStmt, Stmt.walk, Trace.stmt]
  exact (h.lowerExpr value).then_quiet fun _ _ _ => quiet_pure _

theorem aligns_ret (span : Span) (value : Expr) : StmtAligns (.ret span value) := by
  intro cx w tr s _ _ h
  rw [lowerStmt, Stmt.walk, Trace.stmt, lowerReturn]
  cases he : value.isEmpty with
  | true =>
    -- The two outcomes without a value have nothing to look up.
    have hquiet {α : Type} {x : Lower α} (hx : Quiet x s) :
        Reached cx (w.eval cx.file.scopes cx.params value)
        (tr ++ Trace.ofExpr cx value s) (x s) := by
      obtain ⟨note, rfl⟩ : ∃ note, value = .empty note := by
        cases value <;> first | exact ⟨_, rfl⟩ | cases he
      exact h.eval (.quiet hx)
    split
    · exact hquiet (quiet_pure _)
    · exact hquiet (quiet_throw _)
  | false =>
    split
    · exact (h.lowerExpr value).then_quiet fun _ _ _ => quiet_pure _
    · exact (h.lowerAs value cx.ret).then_quiet fun _ _ _ => quiet_pure _

theorem lowerVar_eq (cx : BodyContext) (name : String) (init : Expr) (span : Span) :
    lowerVar cx name init span = (do
    let type ← varType cx name init span
    if type.isVoid then throw (.fault (.voidVariable name) span)
    let value ← lowerAs cx init type
    let slot ← Lower.declareLocal cx.scope name type
    return value ++ [Code.storeSlot slot type.representation]) := by
  unfold lowerVar varType
  cases cx.file.scopes.lookup cx.scope name with
  | none => rfl
  | some declared => cases declared <;> rfl

theorem quiet_varType (name : String) (init : Expr) (span : Span) :
    Quiet (varType cx name init span) s := by
  unfold varType
  split
  · exact quiet_plannedType init
  · exact quiet_plannedType init
  · exact fun _ _ h => by rw [(BodyContext.resolveType_ok.mp h).2]

theorem aligns_var (span : Span) (name : String) (init : Expr) :
    StmtAligns (.var span name init) := by
  intro cx w tr s _ _ h
  rw [lowerStmt, lowerVar_eq, Stmt.walk, Trace.stmt]
  have hdeclare := Walk.extends_declare name (w.eval cx.file.scopes cx.params init)
  have hext := (Walk.extends_eval cx.file.scopes cx.params init w).trans hdeclare
  refine (h.quiet (quiet_varType name init span)).bind hext fun type s _ h => ?_
  cases type.isVoid with
  | true =>
    rw [if_pos rfl, if_pos rfl, Trace.append_nil]
    exact (h.cut _).extend hext
  | false =>
    rw [if_neg Bool.false_ne_true, if_neg Bool.false_ne_true, ← Trace.append_assoc]
    refine (h.lowerAs init type).bind hdeclare fun _ s _ h => ?_
    have hrun : Lower.declareLocal cx.scope name type s =
        .ok s.body.nextSlot (s.withLocal cx.scope name type) :=
      Lower.declareLocal_ok.mpr ⟨rfl, rfl⟩
    rw [bind_of_ok hrun, after_ok hrun]
    exact h.declare rfl

theorem aligns_ifThen {span : Span} {test : Expr} {body : Block} (ih : BlockAligns body) :
    StmtAligns (.ifElse span test body none) := by
  intro cx w tr s hlex hready h
  rw [Stmt.isLexical] at hlex
  rw [Stmt.scopes] at hready
  rw [lowerStmt, Stmt.walk, Trace.stmt, ← Trace.append_assoc, bind_of_ok (newLabel_eq s)]
  have htest := (h.congr (t := s.skip 1) rfl).lowerAs test .boolean
  refine htest.bind (body.extends_walk _ _ none _) fun _ t hrun hin => ?_
  have hlocals := lowerAs_locals hrun
  exact (ih.plain hlex (hready.congr hlocals) hin).then_quiet fun _ _ _ => quiet_pure _

theorem aligns_ifElse {span : Span} {test : Expr} {body : Block} {branch : Stmt}
    (ih : BlockAligns body) (ihb : StmtAligns branch) :
    StmtAligns (.ifElse span test body (some branch)) := by
  intro cx w tr s hlex hready h
  rw [Stmt.isLexical, Bool.and_eq_true] at hlex
  rw [Stmt.scopes] at hready
  rw [lowerStmt, Stmt.walk, Trace.stmt, ← Trace.append_assoc, bind_of_ok (newLabel_eq s)]
  have htest := (h.congr (t := s.skip 1) rfl).lowerAs test .boolean
  have hext := (body.extends_walk cx.file.scopes cx.params none
    (w.eval cx.file.scopes cx.params test)).trans
    (branch.extends_walk cx.file.scopes cx.params _)
  refine htest.bind hext fun _ t hrun hin => ?_
  have hlocals := lowerAs_locals hrun
  have hready := hready.congr hlocals
  rw [← Trace.append_assoc]
  refine (ih.plain hlex.1 hready.left hin).bind (branch.extends_walk _ _ _) fun _ u hbody hout => ?_
  rw [bind_of_ok (newLabel_eq u)]
  have hrest := hready.next ((lowerBlock_alters body hbody).mono (List.subset_cons_self ..))
  exact (ihb hlex.2 (hrest.congr (t := u.skip 1) rfl) (hout.congr rfl)).then_quiet fun _ _ _ =>
    quiet_pure _

theorem aligns_whileLoop {span : Span} {test : Expr} {body : Block} (ih : BlockAligns body) :
    StmtAligns (.whileLoop span test body) := by
  intro cx w tr s hlex hready h
  rw [Stmt.isLexical] at hlex
  rw [Stmt.scopes] at hready
  rw [lowerStmt, Stmt.walk, Trace.stmt, ← Trace.append_assoc, bind_of_ok (newLabel_eq s),
    bind_of_ok (newLabel_eq (s.skip 1)), LowerState.skip_skip]
  have htest := (h.congr (t := s.skip 2) rfl).lowerAs test .boolean
  refine htest.bind (body.extends_walk _ _ none _) fun _ t hrun hin => ?_
  have hlocals := lowerAs_locals hrun
  exact (ih.plain hlex (hready.congr hlocals) hin).then_quiet fun _ _ _ => quiet_pure _

theorem aligns_block {body : Block} (ih : BlockAligns body) : StmtAligns (.block body) := by
  intro cx w tr s hlex hready h
  rw [Stmt.isLexical] at hlex
  rw [Stmt.scopes] at hready
  rw [lowerStmt, Stmt.walk, Trace.stmt]
  exact ih.plain hlex hready h

theorem aligns_exported {inner : Stmt} (ih : StmtAligns inner) : StmtAligns (.exported inner) := by
  intro cx w tr s hlex hready h
  rw [Stmt.isLexical] at hlex
  rw [Stmt.scopes] at hready
  rw [lowerStmt, Stmt.walk_exported, Trace.stmt_exported]
  exact ih hlex hready h

theorem stmtsAlign_nil : StmtsAlign [] := by
  intro cx w tr s done _ _ h
  rw [lowerStmts, walkStmts, Trace.stmts, Trace.append_nil]
  exact h.quiet (quiet_pure _)

theorem stmtsAlign_cons {first : Stmt} {rest : List Stmt} (ih : StmtAligns first)
    (ihr : StmtsAlign rest) : StmtsAlign (first :: rest) := by
  intro cx w tr s done hlex hready h
  rw [stmtsLexical, Bool.and_eq_true] at hlex
  rw [scopesOf] at hready
  have hlog : Lower.log (.statement first.kind cx.frame.name) s =
      .ok () (s.logged (.statement first.kind cx.frame.name)) := rfl
  rw [lowerStmts, walkStmts, Trace.stmts, ← Trace.append_assoc, bind_of_ok hlog]
  have hready := hready.congr (t := s.logged (.statement first.kind cx.frame.name)) rfl
  refine (ih hlex.1 hready.left (h.congr rfl)).bind (extends_walkStmts _ _ rest _) fun c t
    hrun hin => ?_
  exact ihr (c :: done) hlex.2 (hready.next (lowerStmt_alters first hrun)) hin

theorem aligns_forEach {span : Span} {binding : String} {iterable : Expr} {body : Block}
    (ih : BlockAligns body) : StmtAligns (.forEach span binding iterable body) := by
  intro cx w tr s hlex hready h
  rw [Stmt.isLexical] at hlex
  rw [Stmt.scopes] at hready
  rw [lowerStmt, Stmt.walk, Trace.stmt]
  have hsource := h.lowerExpr iterable
  cases hopen : openLoop cx binding iterable body.scope span s with
  | error e t =>
    rw [bind_of_error hopen, after, hopen, Trace.append_nil]
    exact (hsource.failed hopen).extend (body.extends_walk _ _ _ _).of_hide
  | ok opened t =>
    obtain ⟨setup, iterator, element⟩ := opened
    obtain ⟨source, s₁, code, type, hv, -, -, -, -, -, rfl⟩ := openLoop_ok hopen
    rw [hv] at hsource
    have hsource := hsource.hide
    have hready := hready.congr (lowerExpr_kept hv).locals
    -- The variable belongs to the block of the body, which is entered before it is declared.
    have hvar : Alters s₁ (((s₁.withSlot .reference).withLocal body.scope binding type).skip 2)
        [body.scope] :=
      Alters.congr_left
        (.congr_right (.withLocal (s₁.withSlot .reference) body.scope binding type) rfl) rfl
    have hin := (hsource.enter hready hlex).declare
      (t := (s₁.withSlot .reference).withLocal body.scope binding type) rfl
    rw [bind_of_ok hopen, after_ok hopen, ← Trace.append_assoc, ← Trace.append_assoc]
    dsimp only
    rw [bind_of_ok (newLabel_eq _), bind_of_ok (newLabel_eq _), LowerState.skip_skip]
    exact (ih (some binding) hlex hready hsource hvar (hin.congr rfl)).then_quiet fun _ _ _ =>
      quiet_pure _

theorem aligns_matchType {span : Span} {subject : Expr} {arms : List Arm} (ih : ArmsAlign arms) :
    StmtAligns (.matchType span subject arms) := by
  intro cx w tr s hlex hready h
  rw [Stmt.isLexical] at hlex
  rw [Stmt.scopes] at hready
  rw [lowerStmt, Stmt.walk, Trace.stmt]
  have hsubject := h.lowerExpr subject
  cases hopen : openMatch cx subject s with
  | error e t =>
    rw [bind_of_error hopen, after, hopen, Trace.append_nil]
    exact (hsubject.failed hopen).extend (extends_walkArms _ _ _ _).of_hide
  | ok opened t =>
    obtain ⟨setup, slot⟩ := opened
    obtain ⟨v, s₁, hv, -, -, -, rfl⟩ := openMatch_ok hopen
    rw [hv] at hsubject
    have hready := hready.congr (lowerExpr_kept hv).locals
    rw [bind_of_ok hopen, after_ok hopen, ← Trace.append_assoc]
    dsimp only
    rw [bind_of_ok (newLabel_eq _)]
    have hready := hready.congr (t := (s₁.withSlot .reference).skip 1) rfl
    exact (ih slot _ hlex hready (hsubject.hide.congr rfl)).then_quiet fun _ _ _ => quiet_pure _

theorem armsAlign_nil : ArmsAlign [] := by
  intro cx w tr s subject done _ _ h
  rw [lowerArms, walkArms, Trace.arms, Trace.append_nil]
  exact h.quiet (quiet_pure _)

theorem quiet_resolveType (type : Ty) (span : Span) : Quiet (cx.resolveType type span) s :=
  fun _ _ h => by
  rw [(BodyContext.resolveType_ok.mp h).2]

/-- The body of an arm and the arms behind it, where the subject may have been bound. -/
theorem armsAlign_behind {body : Block} {rest : List Arm} {subject : Nat} {done : Label}
    {finish : Code → Code → Code} {tr' : Trace} {bound : Option String} (ih : BlockAligns body)
    (ihr : ArmsAlign rest) (hlex : body.isLexical cx.file.scopes.parent? cx.scope = true)
    (hlexr : armsLexical cx.file.scopes.parent? cx.scope rest = true)
    (hready : Ready cx (body.scopes ++ scopesOfArms rest) s) (h : Aligned cx w tr s)
    (halters : Alters s t [body.scope])
    (hin : Aligned (cx.inside body) (w.enter body.scope bound) (tr ++ tr') t) :
    Reached cx (walkArms cx.file.scopes cx.params rest (body.walk cx.file.scopes cx.params bound w))
      (tr ++ (tr' ++ (Trace.block cx body t ++ after (lowerBlock cx body) t {} fun _ s =>
        Trace.arms cx subject rest s)))
      ((do
        let b ← lowerBlock cx body
        let arms ← lowerArms cx subject done rest
        return finish b arms : Lower Code) t) := by
  rw [← Trace.append_assoc, ← Trace.append_assoc]
  refine (ih bound hlex hready.left h halters hin).bind (extends_walkArms _ _ rest _) fun _ u
    hrun hout => ?_
  have hbody : Alters s u (cx.scope :: body.scopes) :=
    halters.trans (lowerBlock_alters body hrun)
      (by simp [Block.scopes_eq]) (List.subset_cons_self ..)
  exact (ihr subject done hlexr (hready.next hbody) hout).then_quiet fun _ _ _ => quiet_pure _

theorem armsAlign_cons {arm : Arm} {rest : List Arm} (ih : BlockAligns arm.body)
    (ihr : ArmsAlign rest) : ArmsAlign (arm :: rest) := by
  intro cx w tr s subject done hlex hready h
  obtain ⟨pattern, binding, body, span⟩ := arm
  rw [armsLexical, Bool.and_eq_true] at hlex
  rw [scopesOfArms] at hready
  rw [lowerArms, walkArms, Trace.arms, bind_of_ok (newLabel_eq s)]
  have hext := (body.extends_walk cx.file.scopes cx.params
    (Arm.bound? ⟨pattern, binding, body, span⟩) w.hide).trans
    (extends_walkArms cx.file.scopes cx.params rest _)
  refine ((h.hide.congr (t := s.skip 1) rfl).quiet (quiet_resolveType pattern span)).bind hext
    fun type t hrun h => ?_
  have hlocals := quiet_resolveType pattern span _ _ hrun
  have hready := hready.congr hlocals
  have henter := h.enter hready.left hlex.1
  by_cases hb : binding.isEmpty
  · have hbind : bindSubject subject type body.scope binding t = .ok [] t := by
      rw [bindSubject_ok, if_pos hb]
      exact ⟨rfl, rfl⟩
    rw [bind_of_ok hbind, after_ok hbind, if_pos hb, Arm.bound?, if_pos hb]
    rw [← Trace.append_nil tr] at henter
    exact armsAlign_behind ih ihr hlex.1 hlex.2 hready h (.of_eq rfl) henter
  · obtain ⟨c, hbind⟩ : ∃ c, bindSubject subject type body.scope binding t =
        .ok c (t.withLocal body.scope binding (boundSubject subject type).type) := by
      simp only [bindSubject_ok, if_neg hb, and_true, exists_eq']
    rw [bind_of_ok hbind, after_ok hbind, if_neg hb, Arm.bound?, if_neg hb]
    exact armsAlign_behind ih ihr hlex.1 hlex.2 hready h (.withLocal ..) (henter.declare rfl)

/-- Statements that concern other bodies, or none. -/
theorem aligns_quiet {st : Stmt} (hwalk : ∀ scopes params w, st.walk scopes params w = w)
    (htrace : ∀ cx s, Trace.stmt cx st s = {}) (hquiet : ∀ cx s, Quiet (lowerStmt cx st) s) :
    StmtAligns st := by
  intro cx w tr s _ _ h
  rw [hwalk, htrace, Trace.append_nil]
  exact h.quiet (hquiet cx s)

mutual

theorem stmtAligns : ∀ st : Stmt, StmtAligns st
  | .expr value => aligns_expr value
  | .var span name init => aligns_var span name init
  | .ret span value => aligns_ret span value
  | .ifElse _ _ body none => aligns_ifThen (blockAligns body)
  | .ifElse _ _ body (some branch) => aligns_ifElse (blockAligns body) (stmtAligns branch)
  | .whileLoop _ _ body => aligns_whileLoop (blockAligns body)
  | .forEach _ _ _ body => aligns_forEach (blockAligns body)
  | .matchType _ _ arms => aligns_matchType (armsAlign arms)
  | .block body => aligns_block (blockAligns body)
  | .exported inner => aligns_exported (stmtAligns inner)
  | .function decl => aligns_quiet (fun _ _ _ => rfl) (fun _ _ => rfl)
      fun _ _ _ _ h => congrArg _ (function_leavesBody decl h).2
  | .struct span name => aligns_quiet (fun _ _ _ => rfl) (fun _ _ => rfl)
      fun _ _ _ _ h => congrArg _ (struct_leavesBody span name h).2
  | .use _ _ | .typeAlias _ _ | .unionType _ _ | .enum _ _ | .parameter _ _ =>
    aligns_quiet (fun _ _ _ => rfl) (fun _ _ => rfl) fun _ _ => by
      rw [lowerStmt]
      first | exact quiet_pure _ | exact quiet_throw _

theorem blockAligns : ∀ b : Block, BlockAligns b
  | ⟨_, body, _⟩ => blockAligns_of_stmts (stmtsAlign body)

theorem stmtsAlign : ∀ body : List Stmt, StmtsAlign body
  | [] => stmtsAlign_nil
  | first :: rest => stmtsAlign_cons (stmtAligns first) (stmtsAlign rest)

theorem armsAlign : ∀ arms : List Arm, ArmsAlign arms
  | [] => armsAlign_nil
  | ⟨_, _, body, _⟩ :: rest => armsAlign_cons (blockAligns body) (armsAlign rest)

end

end Statements

end ClassGen.Scoping
