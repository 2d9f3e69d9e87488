import ClassGen.Proofs.Fragment
import ClassGen.Proofs.Lowering.Stmt

/-! The labels of lowered code: each is taken while the code is lowered, and placed at most once. -/

namespace ClassGen

open Run

/-- The fragment places labels from `lo` on and below `hi`, none of them twice. -/
structure Code.Fresh (lo hi : Nat) (c : Code) : Prop where
  le : lo ≤ hi
  nodup : c.marks.Nodup
  range : ∀ l : Nat, l ∈ c.marks → lo ≤ l ∧ l < hi

namespace Code

variable {lo mid hi : Nat} {a b c : Code}

theorem fresh_unmarked (h : lo ≤ hi) (hc : c.marks = []) : Fresh lo hi c :=
  ⟨h, by simp [hc], by simp [hc]⟩

theorem fresh_mark (l : Nat) : Fresh l (l + 1) [.mark l] :=
  ⟨Nat.le_succ l, by simp [marks_cons, Instr.mark?], by simp [marks_cons, Instr.mark?]⟩

theorem Fresh.append (ha : Fresh lo mid a) (hb : Fresh mid hi b) : Fresh lo hi (a ++ b) where
  le := Nat.le_trans ha.le hb.le
  nodup := by
    rw [marks_append, List.nodup_append]
    exact ⟨ha.nodup, hb.nodup, fun l hl k hk =>
      Nat.ne_of_lt (Nat.lt_of_lt_of_le (ha.range l hl).2 (hb.range k hk).1)⟩
  range l hl := by
    have := ha.le
    have := hb.le
    rw [marks_append, List.mem_append] at hl
    rcases hl with hl | hl
    · have := ha.range l hl; omega
    · have := hb.range l hl; omega

/-- Only the labels matter, not their order. -/
theorem Fresh.perm (ha : Fresh lo hi a) (h : b.marks.Perm a.marks) : Fresh lo hi b :=
  ⟨ha.le, h.nodup_iff.mpr ha.nodup, fun l hl => ha.range l (h.mem_iff.mp hl)⟩

/-- Labels that are taken first may be placed last. -/
theorem Fresh.rotate (h : Fresh lo hi (a ++ b)) (hc : c.marks = b.marks ++ a.marks) :
    Fresh lo hi c :=
  h.perm (by rw [hc, marks_append]; exact List.perm_append_comm)

theorem Fresh.congr (ha : Fresh lo hi a) (h : b.marks = a.marks) : Fresh lo hi b :=
  ha.perm (h ▸ .refl _)

end Code

/-! ### Pieces that place no label -/

section Unmarked

open Code

@[simp] theorem marks_instr (i : Instr) (c : Code) : marks (i :: c) = i.mark?.toList ++ marks c :=
  marks_cons i c

@[simp] theorem marks_box (k : Primitive) : (box k).marks = [] := by
  cases k <;> rfl

@[simp] theorem marks_unbox (k : Primitive) : (unbox k).marks = [] := by
  cases k <;> rfl

@[simp] theorem marks_coerce (a b : Ty) : (coerce a b).marks = [] := by
  unfold coerce
  split
  · next given wanted _ _ => cases given.widenOp? wanted <;> rfl
  · simp
  · simp
  · split_ifs <;> rfl
  · rfl

@[simp] theorem marks_load (st : Storage) (frame : Frame) : Code.marks (st.load frame) = [] := by
  cases st with
  | slot => rfl
  | param i t => cases h : frame.args[i]? <;> simp [Storage.load, Frame.loadArg, Arg.load, h,
      Instr.mark?]

@[simp] theorem marks_store (st : Storage) (frame : Frame) : Code.marks (st.store frame) = [] := by
  cases st with
  | slot => rfl
  | param i t => cases h : frame.args[i]? <;> simp [Storage.store, Frame.storeArg, Arg.store, h,
      Instr.mark?]

@[simp] theorem marks_arithmeticCode (k : Primitive) (x : Arithmetic) :
    (arithmeticCode k x).marks = [] := by
  unfold arithmeticCode
  cases k.arithmeticOp? x <;> rfl

@[simp] theorem marks_popValue (r : Representation) : (popValue r).marks = [] := by
  unfold popValue
  split <;> rfl

@[simp] theorem marks_dropped (v : Lowered) : v.dropped.marks = v.code.marks := by
  simp [Lowered.dropped]

@[simp] theorem marks_newWrapper (t : Ty) : (newWrapper t).marks = [] := rfl

@[simp] theorem marks_fillWrapper (c : Code) : (fillWrapper c).marks = c.marks := by
  simp [fillWrapper, Code.callVirtual, Instr.mark?]

@[simp] theorem marks_concat (l r : Code) : (concat l r).marks = l.marks ++ r.marks := by
  simp [concat, Code.callVirtual, Code.callSpecial, Code.new, Instr.mark?]

@[simp] theorem marks_shortCircuit (x : Bool) (d e : Label) (l r : Code) :
    (shortCircuit x d e l r).marks = l.marks ++ r.marks ++ [d, e] := by
  simp [shortCircuit, Instr.mark?, Code.goto, Code.pushBool, Code.pushInt]

theorem marks_iteratorCode {t : Ty} {c : Code} (h : iteratorCode t = some c) : c.marks = [] := by
  unfold iteratorCode at h
  split at h
  · cases h; rfl
  · cases h; rfl
  · cases h; rfl
  · split_ifs at h <;> cases h <;> rfl
  · cases h

@[simp] theorem marks_advanceLoop (n : Nat) (v : LocalVar) (l : Label) :
    (advanceLoop n v l).marks = [] := by
  simp [advanceLoop, Instr.mark?, Code.loadSlot, Code.storeSlot, Code.callInterface]

@[simp] theorem marks_patternTest (n : Nat) (l : Label) (t : Ty) :
    (patternTest n l t).marks = [] := by
  unfold patternTest
  split <;> rfl

@[simp] theorem marks_boundSubject (n : Nat) (t : Ty) : (boundSubject n t).code.marks = [] := by
  unfold boundSubject
  split
  · rfl
  · next kind _ =>
    split_ifs
    · cases kind <;> rfl
    · simp [Instr.mark?, Code.loadSlot]
  · simp [Instr.mark?, Code.loadSlot]

@[simp] theorem marks_thenGoto (c : Code) (l : Label) : (thenGoto c l).marks = c.marks := by
  unfold thenGoto
  split_ifs
  · simp [Instr.mark?, Code.goto]
  · rfl

end Unmarked

/-! ### Expressions -/

variable {cx : BodyContext} {s t : LowerState}

theorem marks_loadFields {fields : List String} {span : Span} {owner v : Lowered}
    (h : cx.loadFields owner span fields s = .ok v t) : v.code.marks = owner.code.marks := by
  induction fields generalizing s owner with
  | nil => rw [← (pure_ok.mp h).1]
  | cons field rest ih =>
    simp only [BodyContext.loadFields, BodyContext.loadField, bind_ok, pure_ok] at h
    obtain ⟨_, _, ⟨_, _, -, rfl, rfl⟩, h⟩ := h
    rw [ih h]
    simp [Code.getField, Instr.mark?]

theorem marks_receiver {v r : Lowered} {note : Note} (h : cx.receiver v note s = .ok r t) :
    r.code.marks = v.code.marks := by
  obtain ⟨-, rfl | ⟨_, _, _, -, rfl⟩ | ⟨_, _, -, rfl⟩⟩ := BodyContext.receiver_ok h <;> simp

theorem marks_comparison {op : BinaryOp} {lt rt common : Ty} {l : Label} {test : Code}
    (h : op.comparison? lt rt l = some (common, test)) : test.marks = [] := by
  unfold BinaryOp.comparison? at h
  split at h
  · cases h
    unfold BinaryOp.numericTest
    split <;> rfl
  · split_ifs at h <;> cases h <;> rfl

theorem marks_xorPlan {lt rt : Ty} {plan : OperatorPlan} (h : BinaryOp.xorPlan? lt rt = some plan) :
    plan.code.marks = [] := by
  unfold BinaryOp.xorPlan? at h
  split at h <;> cases h <;> rfl

theorem marks_arithmeticPlan {op : BinaryOp} {lt rt : Ty} {plan : OperatorPlan}
    (h : op.arithmeticPlan? lt rt = some plan) : plan.code.marks = [] := by
  simp only [BinaryOp.arithmeticPlan?, Option.bind_eq_bind, Option.bind_eq_some_iff,
    Option.pure_def, Option.some.injEq] at h
  obtain ⟨_, -, _, -, _, -, _, -, rfl⟩ := h
  rfl

/-- The plan of an operator takes the labels that it places. -/
theorem fresh_plan {op : BinaryOp} {lt rt : Ty} {plan : OperatorPlan}
    (h : op.plan? lt rt s = .ok (some plan) t) :
    Code.Fresh s.body.nextLabel t.body.nextLabel plan.code := by
  cases hrel : op.isRelational with
  | true =>
    obtain ⟨hplan, rfl⟩ := (BinaryOp.plan?_ok_relational hrel).mp h
    obtain ⟨⟨common, test⟩, htest, rfl⟩ := Option.map_eq_some_iff.mp hplan
    refine ((Code.fresh_mark s.body.nextLabel).append
      (Code.fresh_mark (s.body.nextLabel + 1))).congr ?_
    simp [marks_comparison htest, BinaryOp.truthValue, Instr.mark?, Code.goto, Code.pushBool,
      Code.pushInt]
  | false =>
    by_cases hx : op = .xor
    · subst hx
      obtain ⟨hplan, rfl⟩ := BinaryOp.plan?_ok_xor.mp h
      exact Code.fresh_unmarked (Nat.le_refl _) (marks_xorPlan hplan)
    · obtain ⟨hplan, rfl⟩ := (BinaryOp.plan?_ok_arithmetic hrel hx).mp h
      exact Code.fresh_unmarked (Nat.le_refl _) (marks_arithmeticPlan hplan)

theorem fresh_self {s : LowerState} {c : Code} (h : c.marks = []) :
    Code.Fresh s.body.nextLabel s.body.nextLabel c := Code.fresh_unmarked (Nat.le_refl _) h

mutual

/-- The labels in the code of an expression were taken while it was lowered. -/
theorem lowerExpr_fresh : ∀ {e : Expr} {s t : LowerState} {v : Lowered},
    lowerExpr cx e s = .ok v t →
    Code.Fresh s.body.nextLabel t.body.nextLabel v.code := by
  intro e s t v h
  cases exprRun_of_ok h with
  | literal => exact fresh_self (by cases ‹Literal› <;> rfl)
  | ident hst => exact fresh_self (marks_load _ _)
  | concat hs hop hl hlv hr hrv =>
    refine ((lowerExpr_fresh hl).append (lowerExpr_fresh hr)).congr ?_
    simp [appendValue, Code.callVirtual, Instr.mark?]
  | logic hop hl hlv hr hrv =>
    have labels := (Code.fresh_mark s.body.nextLabel).append
      (Code.fresh_mark (s.body.nextLabel + 1))
    refine (labels.append ((lowerExpr_fresh hl).append (lowerExpr_fresh hr))).rotate ?_
    simp [Instr.mark?]
  | planned hlt hrt hplan hl hlv hr hrv =>
    exact ((fresh_plan hplan).append ((lowerExpr_fresh hl).append (lowerExpr_fresh hr))).rotate
      (by simp)
  | assignName hst hv hvv => exact (lowerExpr_fresh hv).congr (by simp)
  | assignField hlast hr hr' howner hfield hv hvv =>
    refine ((lowerExpr_fresh hr).append (lowerExpr_fresh hv)).congr ?_
    simp [marks_loadFields howner, marks_receiver hr', Code.putField, Instr.mark?]
  | callExternal hc harity hlink hargs =>
    exact (lowerArgs_fresh hargs).congr (by simp [Code.callStatic, Instr.mark?])
  | callUser hc harity hlink htypes hspec hargs hunit =>
    obtain ⟨_, _, rfl⟩ := BodyContext.linkedUnit_ok hunit
    exact (lowerArgs_fresh hargs).congr (by simp [Code.callStatic, Instr.mark?])
  | construct hc harity hargs hn =>
    refine (lowerArgs_fresh hargs).congr ?_
    simp [Code.new, Code.construct, Code.callSpecial, Instr.mark?]
  | property hr hr' hv => exact (lowerExpr_fresh hr).congr (by rw [marks_loadFields hv,
      marks_receiver hr'])
  | step hst hk =>
    refine fresh_self ?_
    rename_i kind
    cases kind <;> simp [Code.pushOne, Code.pushInt, Instr.mark?]
  | negate hp hk hv hvv => exact (lowerExpr_fresh hv).congr (by simp)
  | not hv hvv => exact (lowerExpr_fresh hv).congr (by simp [Code.pushInt, Instr.mark?])
  | group hi => exact lowerExpr_fresh hi
  | emptyList hn => exact fresh_self rfl
  | listOf hn he =>
    refine (lowerEntries_fresh he).congr ?_
    rename_i entries _ code
    cases entries with
    | nil =>
      obtain ⟨rfl, -⟩ := pure_ok.mp he
      simp
    | cons entry entries => simp
  | absent he => exact fresh_self rfl

theorem lowerArgs_fresh : ∀ {args : List Expr} {types : List Ty} {s t : LowerState} {c : Code},
    lowerArgs cx args types s = .ok c t → Code.Fresh s.body.nextLabel t.body.nextLabel c
  | [], _, s, t, c, h | _ :: _, [], s, t, c, h => by
    obtain ⟨rfl, rfl⟩ := pure_ok.mp h
    exact fresh_self rfl
  | arg :: args, type :: types, s, t, c, h => by
    simp only [lowerArgs, bind_ok, pure_ok, Lowered.into_ok] at h
    obtain ⟨v, s₁, hv, _, _, ⟨-, rfl, rfl⟩, rest, _, hrest, rfl, rfl⟩ := h
    exact ((lowerExpr_fresh hv).append (lowerArgs_fresh hrest)).congr (by simp)

theorem lowerEntries_fresh : ∀ {entries : List Expr} {s t : LowerState} {c : Code},
    lowerEntries cx entries s = .ok c t → Code.Fresh s.body.nextLabel t.body.nextLabel c
  | [], s, t, c, h => by
    obtain ⟨rfl, rfl⟩ := pure_ok.mp h
    exact fresh_self rfl
  | entry :: entries, s, t, c, h => by
    simp only [lowerEntries, bind_ok, pure_ok, Lowered.into_ok] at h
    obtain ⟨v, s₁, hv, _, _, ⟨-, rfl, rfl⟩, rest, _, hrest, rfl, rfl⟩ := h
    refine ((lowerExpr_fresh hv).append (lowerEntries_fresh hrest)).congr ?_
    simp [Code.callVirtual, Instr.mark?]

end

/-! ### Statements -/

theorem bindSubject_fresh {subject : Nat} {pattern : Ty} {scope : ScopeId}
    {binding : String} {c : Code} (h : bindSubject subject pattern scope binding s = .ok c t) :
    c.marks = [] ∧ t.body.nextLabel = s.body.nextLabel := by
  have h := bindSubject_ok.mp h
  split_ifs at h <;> obtain ⟨rfl, rfl⟩ := h
  · exact ⟨rfl, rfl⟩
  · exact ⟨by simp [Code.storeSlot, Instr.mark?], rfl⟩

mutual

/-- The labels in the code of a statement were taken while it was lowered. -/
theorem lowerStmt_fresh : ∀ {cx : BodyContext} {stmt : Stmt} {s t : LowerState} {c : Code},
    lowerStmt cx stmt s = .ok c t → Code.Fresh s.body.nextLabel t.body.nextLabel c := by
  intro cx stmt s t c h
  cases stmtRun_of_ok h with
  | expr hv => exact (lowerExpr_fresh hv).congr (by simp)
  | var ht hvoid hv hvv => exact (lowerExpr_fresh hv).congr (by simp [Code.storeSlot, Instr.mark?])
  | function hf =>
    rw [lowerFunction_body hf]
    exact fresh_self rfl
  | struct hs =>
    rw [lowerStruct_body hs]
    exact fresh_self rfl
  | leave hret he => exact fresh_self rfl
  | discard hret he hv => exact (lowerExpr_fresh hv).congr (by simp [Instr.mark?])
  | ret hret he hv hvv => exact (lowerExpr_fresh hv).congr (by simp [Code.returnValue, Instr.mark?])
  | ifThen hv hvv hb =>
    have label := Code.fresh_mark s.body.nextLabel
    exact (label.append ((lowerExpr_fresh hv).append (lowerBlock_fresh hb))).rotate
      (by simp [Instr.mark?])
  | ifElse hv hvv hb he =>
    rename_i s₂ v b e
    have first := Code.fresh_mark s.body.nextLabel
    have second : Code.Fresh s₂.body.nextLabel (s₂.body.nextLabel + 1)
        (if Code.fallsThrough b then [.mark s₂.body.nextLabel] else []) := by
      split_ifs
      · exact Code.fresh_mark _
      · exact Code.fresh_unmarked (Nat.le_succ _) rfl
    refine (first.append ((lowerExpr_fresh hv).append ((lowerBlock_fresh hb).append
      (second.append (lowerStmt_fresh he))))).perm (List.perm_iff_count.mpr fun l => ?_)
    simp [Instr.mark?, List.count_append, List.count_cons]
    omega
  | whileLoop hv hvv hb =>
    have labels := (Code.fresh_mark s.body.nextLabel).append
      (Code.fresh_mark (s.body.nextLabel + 1))
    refine (labels.append ((lowerExpr_fresh hv).append (lowerBlock_fresh hb))).perm
      (List.perm_iff_count.mpr fun l => ?_)
    simp [Instr.mark?, Code.goto, List.count_append, List.count_cons]
    omega
  | forEach hv hit htype hb =>
    rename_i s₁ source code type b
    have labels := (Code.fresh_mark s₁.body.nextLabel).append
      (Code.fresh_mark (s₁.body.nextLabel + 1))
    refine ((lowerExpr_fresh hv).append (labels.append (lowerBlock_fresh hb))).perm
      (List.perm_iff_count.mpr fun l => ?_)
    simp [Instr.mark?, Code.goto, Code.storeSlot, List.count_append, List.count_cons,
      marks_iteratorCode hit]
  | matchType hv hvv ha =>
    rename_i s₁ v a
    have label := Code.fresh_mark s₁.body.nextLabel
    refine ((lowerExpr_fresh hv).append (label.append (lowerArms_fresh ha))).perm
      (List.perm_iff_count.mpr fun l => ?_)
    simp [Instr.mark?, Code.storeSlot, List.count_append, List.count_cons]
  | block hb => exact lowerBlock_fresh hb
  | exported hi => exact lowerStmt_fresh hi
  | nothing h => exact fresh_self rfl

theorem lowerBlock_fresh : ∀ {cx : BodyContext} {b : Block} {s t : LowerState} {c : Code},
    lowerBlock cx b s = .ok c t → Code.Fresh s.body.nextLabel t.body.nextLabel c
  | _, ⟨_, _, _⟩, _, _, _, h => lowerStmts_fresh h

theorem lowerStmts_fresh : ∀ {cx : BodyContext} {body : List Stmt} {s t : LowerState} {c : Code},
    lowerStmts cx [] body s = .ok c t → Code.Fresh s.body.nextLabel t.body.nextLabel c
  | _, [], _, _, _, h => by
    obtain ⟨rfl, rfl⟩ := lowerStmts_nil.mp h
    exact fresh_self rfl
  | _, stmt :: rest, _, _, _, h => by
    obtain ⟨c₁, s₁, c₂, hc, hrest, rfl⟩ := lowerStmts_cons.mp h
    exact (lowerStmt_fresh hc).append (lowerStmts_fresh hrest)

theorem lowerArms_fresh : ∀ {cx : BodyContext} {subject : Nat} {done : Label} {arms : List Arm}
    {s t : LowerState} {c : Code}, lowerArms cx subject done arms s = .ok c t →
      Code.Fresh s.body.nextLabel t.body.nextLabel c
  | _, _, _, [], _, _, _, h => by
    obtain ⟨rfl, rfl⟩ := pure_ok.mp h
    exact fresh_self rfl
  | _, _, _, ⟨pattern, binding, body, span⟩ :: rest, s, _, _, h => by
    obtain ⟨u, bound, s₁, b, s₂, a, -, hbound, hb, ha, rfl⟩ := lowerArms_cons h
    obtain ⟨hmarks, hlabel⟩ := bindSubject_fresh hbound
    have label := Code.fresh_mark s.body.nextLabel
    have block := lowerBlock_fresh hb
    rw [hlabel] at block
    refine (label.append (block.append (lowerArms_fresh ha))).perm
      (List.perm_iff_count.mpr fun l => ?_)
    simp [Instr.mark?, hmarks, List.count_append, List.count_cons]
    omega

end

end ClassGen
