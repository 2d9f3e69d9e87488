import ClassGen.Proofs.Linking.Methods
import ClassGen.Proofs.Order.Local

/-! The run of a body without declarations depends on its plan alone: wherever it is lowered it
becomes the same method, with the same calls. -/

namespace ClassGen

open Run
open Faithful (after after_ok)

variable {s s' t : LowerState}

theorem LowerState.skip_congr (h : s'.body = s.body) (n : Nat) :
    (s'.skip n).body = (s.skip n).body := by
  simp only [LowerState.skip, h]

/-! ### Trails -/

namespace Trail

variable {cx : BodyContext}

theorem ofExpr_local (h : s'.body = s.body) (e : Expr) : ofExpr cx e s' = ofExpr cx e s := by
  rw [ofExpr, ofExpr, h]

theorem after_local {α : Type} {x : Lower α} {k : α → LowerState → Trail} (hx : x.Local)
    (h : s'.body = s.body) (hk : ∀ {a t t'}, t'.body = t.body → k a t' = k a t) :
    after x s' {} k = after x s {} k := by
  unfold after
  cases hs : x s with
  | ok a t =>
    obtain ⟨t', hs', ht⟩ := hx.answers hs h
    rw [hs']
    exact hk ht
  | error e t =>
    cases hs' : x s' with
    | ok a t' =>
      obtain ⟨_, hok, -⟩ := hx.answers hs' h.symm
      rw [hs] at hok
      cases hok
    | error e' t' => rfl

mutual

theorem stmt_local : ∀ {st : Stmt}, st.isFlat = true → ∀ {cx : BodyContext} {s s' : LowerState},
    s'.body = s.body →
    stmt cx st s' = stmt cx st s
  | .expr value, _, cx, s, s', h | .var _ _ value, _, cx, s, s', h
  | .ret _ value, _, cx, s, s', h => by
    simp only [stmt]
    exact ofExpr_local h value
  | .ifElse _ test body none, hflat, cx, s, s', h => by
    rw [Stmt.isFlat] at hflat
    simp only [stmt]
    exact congrArg₂ _ (ofExpr_local h test) (after_local (local_compositional.lowerExpr cx test)
      (LowerState.skip_congr h 1) fun ht => block_local hflat ht)
  | .ifElse _ test body (some branch), hflat, cx, s, s', h => by
    rw [Stmt.isFlat, Bool.and_eq_true] at hflat
    simp only [stmt]
    refine congrArg₂ _ (ofExpr_local h test) (after_local (local_compositional.lowerExpr cx test)
      (LowerState.skip_congr h 1) fun ht => congrArg₂ _ (block_local hflat.1 ht)
        (after_local (lowerBlock_local hflat.1 cx) ht fun hu => ?_))
    exact stmt_local hflat.2 (LowerState.skip_congr hu 1)
  | .whileLoop _ test body, hflat, cx, s, s', h => by
    rw [Stmt.isFlat] at hflat
    simp only [stmt]
    exact congrArg₂ _ (ofExpr_local h test) (after_local (local_compositional.lowerExpr cx test)
      (LowerState.skip_congr h 2) fun ht => block_local hflat ht)
  | .forEach span binding iterable body, hflat, cx, s, s', h => by
    rw [Stmt.isFlat] at hflat
    simp only [stmt]
    exact congrArg₂ _ (ofExpr_local h iterable) (after_local
      (local_compositional.openLoop cx binding iterable body.scope span) h fun ht =>
        block_local hflat (LowerState.skip_congr ht 2))
  | .matchType _ subject branches, hflat, cx, s, s', h => by
    rw [Stmt.isFlat] at hflat
    simp only [stmt]
    exact congrArg₂ _ (ofExpr_local h subject)
        (after_local (local_compositional.openMatch cx subject) h fun ht =>
      arms_local hflat (LowerState.skip_congr ht 1))
  | .block body, hflat, cx, s, s', h => by
    rw [Stmt.isFlat] at hflat
    simp only [stmt]
    exact block_local hflat h
  | .exported inner, hflat, cx, s, s', h => by
    rw [Stmt.isFlat] at hflat
    simp only [stmt]
    exact stmt_local hflat h
  | .use _ _, _, cx, s, s', h | .typeAlias _ _, _, cx, s, s', h | .unionType _ _, _, cx, s, s', h
  | .enum _ _, _, cx, s, s', h | .parameter _ _, _, cx, s, s', h => by simp only [stmt]

theorem block_local : ∀ {b : Block}, b.isFlat = true → ∀ {cx : BodyContext} {s s' : LowerState},
    s'.body = s.body →
    block cx b s' = block cx b s
  | ⟨scope, body, _⟩, hflat, cx, s, s', h => by
    rw [Block.isFlat] at hflat
    simp only [block]
    exact stmts_local hflat h

theorem stmts_local : ∀ {body : List Stmt}, stmtsFlat body = true → ∀ {cx : BodyContext}
    {s s' : LowerState}, s'.body = s.body → stmts cx body s' = stmts cx body s
  | [], _, cx, s, s', h => by simp only [stmts]
  | first :: rest, hflat, cx, s, s', h => by
    rw [stmtsFlat, Bool.and_eq_true] at hflat
    simp only [stmts]
    exact congrArg₂ _ (stmt_local hflat.1 h)
      (after_local (lowerStmt_local hflat.1 cx) h fun ht => stmts_local hflat.2 ht)

theorem arms_local : ∀ {branches : List Arm}, armsFlat branches = true → ∀ {cx : BodyContext}
    {subject : Nat} {s s' : LowerState}, s'.body = s.body → arms cx subject branches s' = arms cx
      subject branches s
  | [], _, cx, subject, s, s', h => by simp only [arms]
  | ⟨pattern, binding, body, span⟩ :: rest, hflat, cx, subject, s, s', h => by
    rw [armsFlat, Bool.and_eq_true] at hflat
    simp only [arms]
    refine after_local (local_compositional.resolveType cx pattern span)
        (LowerState.skip_congr h 1) fun ht =>
      after_local (local_compositional.bindSubject _ _ _ _) ht fun hu =>
        congrArg₂ _ (block_local hflat.1 hu) ?_
    exact after_local (lowerBlock_local hflat.1 cx) hu fun hv => arms_local hflat.2 hv

end

end Trail

/-! ### Runs -/

variable {file : FileContext} {plan : MethodPlan} {b : Block} {r r' : BodyRun}

/-- A body is lowered to one method. -/
theorem BodyRun.Made.unique (h : r.Made file) (h' : r'.Made file) (hplan : r.plan = r'.plan)
    (hbody : r.body = r'.body) (hflat : r.body.isFlat = true) : r = r' := by
  obtain ⟨plan, body, method, calls⟩ := r
  obtain ⟨plan', body', method', calls'⟩ := r'
  obtain rfl : plan = plan' := hplan
  obtain rfl : body = body' := hbody
  obtain ⟨frame, s, code, u, hframe, hcode, hmethod, hcalls⟩ := h
  obtain ⟨frame', s', code', u', hframe', hcode', hmethod', hcalls'⟩ := h'
  obtain rfl : frame = frame' := Except.ok.inj (hframe.symm.trans hframe')
  rw [Block.isFlat_eq] at hflat
  have hopened : (plan.opened frame s').body = (plan.opened frame s).body := rfl
  obtain ⟨v, hv, hvbody⟩ := (lowerStmts_local hflat _ []).answers hcode hopened
  obtain ⟨rfl, rfl⟩ := EStateM.Result.ok.inj (hv.symm.trans hcode')
  have hsame : plan.method frame u.body.nextSlot code = plan.method frame v.body.nextSlot
      code := by rw [hvbody]
  obtain rfl : method = method' := hmethod.symm.trans (hsame.trans hmethod')
  obtain rfl : calls = calls' :=
    hcalls.symm.trans ((congrArg Trail.calls (Trail.stmts_local hflat hopened).symm).trans hcalls')
  rfl

theorem lowerBody_of_emitted (h : plan.emitted s = true) :
    ∃ t, lowerBody file plan b s = .ok () t := by
  obtain ⟨t, ht⟩ : ∃ t, isEmitted plan s = .ok true t := by
    change ∃ t, (if plan.emitted s = true then _ else _ : Lower Bool) s = _
    rw [h, if_pos rfl]
    split_ifs
    · exact ⟨_, rfl⟩
    · exact ⟨_, rfl⟩
  obtain ⟨scope, body, span⟩ := b
  rw [lowerBody, bind_of_ok ht]
  exact ⟨t, rfl⟩

/-- What was lowered once can be lowered anywhere. -/
theorem BodyRun.Made.lowerBody (h : r.Made file) (hflat : r.body.isFlat = true) (s : LowerState) :
    ∃ t, lowerBody file r.plan r.body s = .ok () t := by
  cases hemitted : r.plan.emitted s with
  | true => exact lowerBody_of_emitted hemitted
  | false =>
    obtain ⟨frame, s₀, code, u, hframe, hcode, -⟩ := h
    rw [Block.isFlat_eq] at hflat
    have hopened : (r.plan.opened frame s).body = (r.plan.opened frame s₀).body := rfl
    obtain ⟨v, hv, -⟩ := (lowerStmts_local hflat _ []).answers hcode hopened
    exact ⟨_, (lowerBody_new hemitted).mpr ⟨frame, code, v, hframe, hv, rfl⟩⟩

/-- A body adds its method and nothing else. -/
theorem lowerBody_keeps (hflat : b.isFlat = true) (h : lowerBody file plan b s = .ok () t) :
    t.file.structs = s.file.structs ∧ t.file.generics = s.file.generics := by
  cases hemitted : plan.emitted s with
  | true =>
    obtain ⟨_, _, rfl⟩ := lowerBody_emitted hemitted h
    exact ⟨rfl, rfl⟩
  | false =>
    obtain ⟨frame, code, u, -, hcode, rfl⟩ := (lowerBody_new hemitted).mp h
    rw [Block.isFlat_eq] at hflat
    have hkept := (lowerStmts_local hflat _ []).keeps hcode
    exact ⟨hkept.structs, hkept.generics⟩

end ClassGen
