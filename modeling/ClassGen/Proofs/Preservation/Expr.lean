import ClassGen.Proofs.Lowering.Labels
import ClassGen.Proofs.Preservation.Operator

/-! Lowered scalar expressions compute their reference values. -/

namespace ClassGen.Preservation

open Machine Reference Run

/-- The name is visible, and its value of type `kind` is loaded from `slot`. -/
structure Bound (cx : BodyContext) (locals : List ((ScopeId × String) × LocalVar)) (name : String)
    (kind : Primitive) (slot : UInt16) : Prop where
  visible : (cx.file.scopes.lookup cx.scope name).isSome
  kept : ∃ st : Storage, cx.storageIn? locals name (cx.file.scopes.chain cx.scope) = some st ∧
    st.type = .primitive kind ∧ st.load cx.frame = [.slot kind.loadOp slot]

/-- The locals hold the values of the names that `Γ` types, in their slots. -/
def Holds (Γ : String → Option Primitive) (slots : String → UInt16) (env : String → Option Scalar)
    (locals : Nat → Option Value) : Prop :=
  ∀ name k, Γ name = some k →
    ∃ v, env name = some v ∧ v.kind = k ∧ locals (slots name).toNat = some v.cell

/-- From the state `s`, the expression lowers to code of type `kind` and takes nothing but labels.
In every program that has the code, and each label once, the code does what the evaluation does. -/
def Preserved (cx : BodyContext) (Γ : String → Option Primitive) (slots : String → UInt16)
    (s : LowerState) (e : Expr) (kind : Primitive) : Prop :=
  ∃ c n, lowerExpr cx e s = .ok ⟨.primitive kind, c⟩ (s.skip n) ∧
    ∀ (A : Arith) (P : Code) (m : State) (env : String → Option Scalar), P.marks.Nodup →
      Holds Γ slots env m.locals → ∀ st names,
      Realizes A P m slots kind c st st names (eval A env e names)

variable {cx : BodyContext} {Γ : String → Option Primitive} {slots : String → UInt16}
  {s : LowerState}

/-- A typed expression is planned with its type. -/
theorem plannedType_typed {e : Expr} {k : Primitive} (he : HasType cx.bindings Γ e k)
    (hΓ : ∀ name k, Γ name = some k → Bound cx s.body.locals name k (slots name)) :
    cx.plannedType e s = .ok (.primitive k) s := by
  induction he with
  | ident hk hn =>
    obtain ⟨st, hst, ht, -⟩ := (hΓ _ _ hk).kept
    rw [BodyContext.plannedType, bind_of_ok (BodyContext.storage?_ok.mpr ⟨hst, rfl⟩), ← ht]
    rfl
  | group hi hn ih => rw [BodyContext.plannedType, ih]
  | literal hv hn => exact BodyContext.resolve_ok.mpr ⟨hn, rfl⟩
  | arithmetic _ _ _ _ _ hn => exact BodyContext.resolve_ok.mpr ⟨hn, rfl⟩
  | xor _ _ _ hn => exact BodyContext.resolve_ok.mpr ⟨hn, rfl⟩
  | logic _ _ _ hn => exact BodyContext.resolve_ok.mpr ⟨hn, rfl⟩
  | compare _ _ _ _ hn => exact BodyContext.resolve_ok.mpr ⟨hn, rfl⟩
  | negate _ _ hn => exact BodyContext.resolve_ok.mpr ⟨hn, rfl⟩
  | not _ hn => exact BodyContext.resolve_ok.mpr ⟨hn, rfl⟩

theorem preserved_literal {note : Note} {value : Literal} {v : Scalar}
    (hv : Scalar.ofLiteral value = some v) :
    Preserved cx Γ slots s (.literal note value) v.kind := by
  refine ⟨[value.push], 0, ?_, ?_⟩
  · cases value <;> cases hv <;> rfl
  · intro A P m env _ _ st names
    simp only [eval, hv]
    refine realizes_pure ?_
    cases value <;> cases hv <;> exact turns_push _

theorem loadKind_loadOp (v : Scalar) : ∃ accepts, loadKind? v.kind.loadOp = some accepts ∧
    accepts v.cell := by
  cases v <;> exact ⟨_, rfl, rfl⟩

theorem preserved_ident {note : Note} {name : String} {k : Primitive} (hk : Γ name = some k)
    (hb : Bound cx s.body.locals name k (slots name)) :
    Preserved cx Γ slots s (.ident note name) k := by
  obtain ⟨hvis, storage, hst, ht, hload⟩ := hb
  refine ⟨[.slot k.loadOp (slots name)], 0, ?_, ?_⟩
  · rw [lowerExpr, bind_of_ok (BodyContext.storageOf_ok.mpr ⟨hvis, hst, rfl⟩), hload, ht]
    rfl
  · intro A P m env _ henv st names
    obtain ⟨v, hv, rfl, hlocal⟩ := henv name k hk
    obtain ⟨accepts, hop, ha⟩ := loadKind_loadOp v
    simp only [eval, readName, hv]
    exact ⟨rfl, fun n h => runs_load (s := m.moved n st (seen m slots names)) h.head hop hlocal ha⟩

/-! ### Operators that evaluate both operands -/

theorem lowerExpr_planned {note : Note} {op : BinaryOp} {left right : Expr} {lt rt result : Ty}
    {plan : OperatorPlan} {l r : Lowered} {s₁ s₂ s₃ : LowerState}
    (hn : Specialization.resolve cx.bindings note.type = .ok result)
    (hresult : (result.isString && !op.isRelational) = false) (hlogic : ¬(op = .and ∨ op = .or))
    (hpow : op ≠ .pow) (hlt : cx.plannedType left s = .ok lt s)
    (hrt : cx.plannedType right s = .ok rt s) (hplan : op.plan? lt rt s = .ok (some plan) s₁)
    (hl : lowerExpr cx left s₁ = .ok l s₂) (hlv : l.type.isVoid → plan.operand.isVoid)
    (hr : lowerExpr cx right s₂ = .ok r s₃) (hrv : r.type.isVoid → plan.operand.isVoid) :
    lowerExpr cx (.binary note op left right) s =
      .ok ⟨plan.result, (l.code ++ coerce l.type plan.operand) ++
        (r.code ++ coerce r.type plan.operand) ++
        plan.code⟩ s₃ := by
  rw [lowerExpr, bind_of_ok (BodyContext.resolve_ok.mpr ⟨hn, rfl⟩), hresult,
    if_neg Bool.false_ne_true, if_neg hlogic, if_neg hpow, bind_of_ok hlt, bind_of_ok hrt,
    bind_of_ok hplan]
  simp only
  rw [bind_of_ok hl, bind_of_ok (Lowered.into_ok.mpr ⟨hlv, rfl, rfl⟩), bind_of_ok hr,
    bind_of_ok (Lowered.into_ok.mpr ⟨hrv, rfl, rfl⟩)]
  rfl

/-- Two operands in order, each converted as soon as it is there, and then what is done with them.
-/
theorem realizes_operands {A : Arith} {P : Code} {m : State} {a b common k : Primitive}
    {cl cr code : Code} {st : List Value} {names : List String} {x y : Eval Scalar}
    {f : Scalar → Scalar → Eval Scalar} (hc : common.isScalar)
    (hl : Realizes A P m slots a cl st st names (x names))
    (hr : ∀ st names, Realizes A P m slots b cr st st names (y names))
    (hf : ∀ v w names, v.kind = a → w.kind = b →
      Realizes A P m slots k code ((w.widen A common).cell :: (v.widen A common).cell :: st)
        st names (f v w names)) :
    Realizes A P m slots k (cl ++ coerce (.primitive a) (.primitive common) ++
      (cr ++ coerce (.primitive b) (.primitive common)) ++ code) st st names
      ((do let v ← x; let w ← y; f v w) names) := by
  simp only [List.append_assoc]
  refine Realizes.bind hl fun v names₁ hv => ?_
  rw [← hv]
  refine Realizes.after (turns_coerce v hc) ?_
  refine Realizes.bind (hr _ names₁) fun w names₂ hw => ?_
  rw [← hw]
  exact Realizes.after (turns_coerce w hc) (hf v w names₂ hv hw)

variable {note : Note} {op : BinaryOp} {left right : Expr} {a b : Primitive}

theorem not_void {k : Primitive} {t : Ty} (hk : k.isScalar) :
    (Ty.primitive k).isVoid → t.isVoid := by
  cases k <;> simp_all [Ty.isVoid, Primitive.isScalar]

theorem eval_operator {A : Arith} {env : String → Option Scalar}
    (hlogic : ¬(op = .and ∨ op = .or)) :
    eval A env (.binary note op left right) = (do
      let v ← eval A env left
      let w ← eval A env right
      MonadExcept.ofExcept (apply A op v w)) := by
  simp only [eval, if_neg hlogic]

/-- An operator whose plan computes what the operator means. -/
theorem preserved_planned {common k : Primitive} {code : Code} {p : Nat}
    (hn : Annotated cx.bindings note k) (hk : k.isScalar) (hlogic : ¬(op = .and ∨ op = .or))
    (hpow : op ≠ .pow) (ha : a.isScalar) (hb : b.isScalar) (hc : common.isScalar)
    (hlt : cx.plannedType left s = .ok (.primitive a) s)
    (hrt : cx.plannedType right s = .ok (.primitive b) s)
    (hplan : op.plan? (.primitive a) (.primitive b) s =
      .ok (some ⟨.primitive common, .primitive k, code⟩) (s.skip p))
    (hl : ∀ n, Preserved cx Γ slots (s.skip n) left a)
    (hr : ∀ n, Preserved cx Γ slots (s.skip n) right b)
    (hcode : ∀ (A : Arith) (P : Code) (m : State), P.marks.Nodup → ∀ st v w names, v.kind = a →
      w.kind = b →
      Realizes A P m slots k code ((w.widen A common).cell :: (v.widen A common).cell :: st)
        st names ((MonadExcept.ofExcept (apply A op v w) : Eval Scalar) names)) :
    Preserved cx Γ slots s (.binary note op left right) k := by
  obtain ⟨cl, n, hl, realizes_l⟩ := hl p
  obtain ⟨cr, n', hr, realizes_r⟩ := hr (p + n)
  have hresult : ((Ty.primitive k).isString && !op.isRelational) = false := by
    cases k <;> first | rfl | cases hk
  rw [← LowerState.skip_skip] at hr
  have lowered := lowerExpr_planned hn hresult hlogic hpow hlt hrt hplan hl (not_void ha) hr
    (not_void hb)
  rw [LowerState.skip_skip, LowerState.skip_skip] at lowered
  refine ⟨_, _, lowered, fun A P m env hP henv st names => ?_⟩
  rw [eval_operator hlogic]
  exact realizes_operands hc (realizes_l A P m env hP henv st names) (realizes_r A P m env hP henv)
    (hcode A P m hP st)

theorem isScalar_of_isNumeric {k : Primitive} (hk : k.isNumeric) : k.isScalar = true := by
  cases k <;> first | rfl | cases hk

theorem wider_isNumeric (ha : a.isNumeric) : (Primitive.wider a b).isNumeric = true := by
  cases a <;> cases b <;> first | rfl | cases ha

theorem numeric?_primitive (ha : a.isNumeric) : (Ty.primitive a).numeric? = some a := by
  simp [Ty.numeric?, Ty.primitive?, ha]

theorem plan?_arithmetic {x : Arithmetic} (hop : op.arithmetic? = some x) (ha : a.isNumeric)
    (hb : b.isNumeric) :
    op.plan? (.primitive a) (.primitive b) s = .ok (some ⟨.primitive (Primitive.wider a b),
      .primitive (Primitive.wider a b), arithmeticCode (Primitive.wider a b) x⟩) s := by
  have hrel : op.isRelational = false := by cases op <;> first | rfl | cases hop
  have hx : op ≠ .xor := by rintro rfl; cases hop
  obtain ⟨code, hcode⟩ : ∃ code, (Primitive.wider a b).arithmeticOp? x = some code := by
    have hwide := wider_isNumeric (b := b) ha
    generalize Primitive.wider a b = k at hwide ⊢
    cases k <;> cases x <;> first | exact ⟨_, rfl⟩ | cases hwide
  refine (BinaryOp.plan?_ok_arithmetic hrel hx).mpr ⟨?_, rfl⟩
  simp [BinaryOp.arithmeticPlan?, numeric?_primitive ha, numeric?_primitive hb, hop, hcode,
    arithmeticCode]

theorem preserved_arithmetic {x : Arithmetic} (hop : op.arithmetic? = some x) (ha : a.isNumeric)
    (hb : b.isNumeric) (hn : Annotated cx.bindings note (Primitive.wider a b))
    (hlt : cx.plannedType left s = .ok (.primitive a) s)
    (hrt : cx.plannedType right s = .ok (.primitive b) s)
    (hl : ∀ n, Preserved cx Γ slots (s.skip n) left a)
    (hr : ∀ n, Preserved cx Γ slots (s.skip n) right b) :
    Preserved cx Γ slots s (.binary note op left right) (Primitive.wider a b) := by
  have hwide := wider_isNumeric (b := b) ha
  refine preserved_planned (p := 0) hn (isScalar_of_isNumeric hwide) ?_ ?_
    (isScalar_of_isNumeric ha) (isScalar_of_isNumeric hb) (isScalar_of_isNumeric hwide) hlt hrt
    (plan?_arithmetic hop ha hb) hl hr ?_
  · rintro (rfl | rfl) <;> cases hop
  · rintro rfl; cases hop
  · rintro A P m hP st v w names rfl rfl
    obtain ⟨hv, hw⟩ := widen_wider_kind (A := A) (.inl ⟨ha, hb⟩)
    have compute : Realizes A P m slots _ (arithmeticCode _ x) _ st names _ :=
      realizes_arithmetic hop (hv.symm ▸ hwide) hw
    rwa [hv] at compute

theorem preserved_xor {k : Primitive} (hk : k = .int ∨ k = .boolean)
    (hn : Annotated cx.bindings note k) (hlt : cx.plannedType left s = .ok (.primitive k) s)
    (hrt : cx.plannedType right s = .ok (.primitive k) s)
    (hl : ∀ n, Preserved cx Γ slots (s.skip n) left k)
    (hr : ∀ n, Preserved cx Γ slots (s.skip n) right k) :
    Preserved cx Γ slots s (.binary note .xor left right) k := by
  have hs : k.isScalar := by rcases hk with rfl | rfl <;> rfl
  have hplan : BinaryOp.xor.plan? (.primitive k) (.primitive k) s =
      .ok (some ⟨.primitive k, .primitive k, [.op .ixor]⟩) (s.skip 0) := by
    rcases hk with rfl | rfl <;> exact BinaryOp.plan?_ok_xor.mpr ⟨rfl, rfl⟩
  refine preserved_planned hn hs (by decide) (by decide) hs hs hs hlt hrt hplan hl hr ?_
  rintro A P m hP st v w names rfl hw
  have hwide : Primitive.wider v.kind w.kind = v.kind := by simp [Primitive.wider, hw]
  have hself : w.widen A v.kind = w := by rw [← hw, widen_self]
  simp only [apply, hwide, hself, widen_self]
  exact realizes_xor hk hw

theorem comparison?_primitive {l : Label}
    (hab : (a.isNumeric ∧ b.isNumeric) ∨ (a = .boolean ∧ b = .boolean)) :
    op.comparison? (.primitive a) (.primitive b) l =
      some (.primitive (Primitive.wider a b), op.numericTest l (Primitive.wider a b)) := by
  rcases hab with ⟨ha, hb⟩ | ⟨rfl, rfl⟩
  · simp [BinaryOp.comparison?, numeric?_primitive ha, numeric?_primitive hb]
  · exact if_pos ⟨rfl, rfl⟩

theorem preserved_compare (hop : op.isRelational)
    (hab : (a.isNumeric ∧ b.isNumeric) ∨ (a = .boolean ∧ b = .boolean))
    (hn : Annotated cx.bindings note .boolean) (hlt : cx.plannedType left s = .ok (.primitive a) s)
    (hrt : cx.plannedType right s = .ok (.primitive b) s)
    (hl : ∀ n, Preserved cx Γ slots (s.skip n) left a)
    (hr : ∀ n, Preserved cx Γ slots (s.skip n) right b) :
    Preserved cx Γ slots s (.binary note op left right) .boolean := by
  have scalars : a.isScalar ∧ b.isScalar ∧ (Primitive.wider a b).isScalar := by
    rcases hab with ⟨ha, hb⟩ | ⟨rfl, rfl⟩
    · exact ⟨isScalar_of_isNumeric ha, isScalar_of_isNumeric hb,
        isScalar_of_isNumeric (wider_isNumeric ha)⟩
    · exact ⟨rfl, rfl, rfl⟩
  obtain ⟨ha, hb, hc⟩ := scalars
  have hplan := (BinaryOp.plan?_ok_relational (s := s) hop).mpr
    ⟨congrArg (Option.map _) (comparison?_primitive (l := s.body.nextLabel) hab), rfl⟩
  refine preserved_planned hn rfl ?_ ?_ ha hb hc hlt hrt hplan hl hr ?_
  · rintro (rfl | rfl) <;> cases hop
  · rintro rfl; cases hop
  · rintro A P m hP st v w names rfl rfl
    obtain ⟨hv, hw⟩ := widen_wider_kind (A := A) hab
    obtain ⟨x, happly, test⟩ :=
      tests_comparison (A := A) (m := m) (l := s.body.nextLabel) (r := seen m slots names) hP hop hw
    rw [hv] at test
    simp only [apply, happly]
    exact realizes_pure (v := .bool x) (turns_truthValue hP test)

/-! ### The other operators -/

theorem preserved_logic (hop : op = .and ∨ op = .or) (hn : Annotated cx.bindings note .boolean)
    (hl : ∀ n, Preserved cx Γ slots (s.skip n) left .boolean)
    (hr : ∀ n, Preserved cx Γ slots (s.skip n) right .boolean) :
    Preserved cx Γ slots s (.binary note op left right) .boolean := by
  obtain ⟨cl, n, hl, realizes_l⟩ := hl 2
  obtain ⟨cr, n', hr, realizes_r⟩ := hr (2 + n)
  rw [← LowerState.skip_skip] at hr
  have hresult : ((Ty.primitive .boolean).isString && !op.isRelational) = false := rfl
  have lowered : lowerExpr cx (.binary note op left right) s =
      .ok ⟨.boolean, Code.shortCircuit (op = .and) s.body.nextLabel (s.body.nextLabel + 1) cl cr⟩
        (((s.skip 2).skip n).skip n') := by
    rw [lowerExpr, bind_of_ok (BodyContext.resolve_ok.mpr ⟨hn, rfl⟩), hresult,
      if_neg Bool.false_ne_true, if_pos hop, bind_of_ok (Lower.newLabel_ok.mpr ⟨rfl, rfl⟩),
      bind_of_ok (Lower.newLabel_ok.mpr ⟨rfl, rfl⟩), LowerState.skip_skip, bind_of_ok hl,
      bind_of_ok (Lowered.into_ok.mpr ⟨not_void rfl, rfl, rfl⟩), bind_of_ok hr,
      bind_of_ok (Lowered.into_ok.mpr ⟨not_void rfl, rfl, rfl⟩), coerce_self, List.append_nil,
      List.append_nil]
    rfl
  rw [LowerState.skip_skip, LowerState.skip_skip] at lowered
  refine ⟨_, _, lowered, fun A P m env hP henv st names => ?_⟩
  simp only [eval, if_pos hop]
  refine realizes_shortCircuit hP (fun x => ?_) (realizes_l A P m env hP henv st names)
    (realizes_r A P m env hP henv st)
  rcases hop with rfl | rfl <;> cases x <;> rfl

theorem preserved_negate {operand : Expr} {k : Primitive} (hk : k.isNumeric)
    (ho : cx.plannedType operand s = .ok (.primitive k) s) (h : Preserved cx Γ slots s operand k) :
    Preserved cx Γ slots s (.negate note operand) k := by
  obtain ⟨c, n, hc, realizes_c⟩ := h
  have hs := isScalar_of_isNumeric hk
  refine ⟨c ++ arithmeticCode k .neg, n, ?_, fun A P m env hP henv st names => ?_⟩
  · rw [lowerExpr, bind_of_ok ho]
    simp only [numeric?_primitive hk]
    rw [bind_of_ok hc, bind_of_ok (Lowered.into_ok.mpr ⟨not_void hs, rfl, rfl⟩), coerce_self,
      List.append_nil]
    rfl
  · simp only [eval]
    refine Realizes.bind (realizes_c A P m env hP henv st names) fun v names' hv => ?_
    subst hv
    exact realizes_negate hk

theorem preserved_not {operand : Expr} (h : Preserved cx Γ slots s operand .boolean) :
    Preserved cx Γ slots s (.not note operand) .boolean := by
  obtain ⟨c, n, hc, realizes_c⟩ := h
  refine ⟨c ++ [Code.pushInt 1, .op .ixor], n, ?_, fun A P m env hP henv st names => ?_⟩
  · rw [lowerExpr, bind_of_ok hc, bind_of_ok (Lowered.into_ok.mpr ⟨not_void rfl, rfl, rfl⟩),
      coerce_self, List.append_nil]
    rfl
  · simp only [eval]
    exact Realizes.bind (realizes_c A P m env hP henv st names) fun v names' hv =>
      realizes_invert hv

/-- Every typed expression lowers, and its code does what its evaluation does. -/
theorem preserved_typed {e : Expr} {k : Primitive} (he : HasType cx.bindings Γ e k)
    (hΓ : ∀ name k, Γ name = some k → Bound cx s.body.locals name k (slots name)) :
    Preserved cx Γ slots s e k := by
  induction he generalizing s with
  | literal hv _ => exact preserved_literal hv
  | ident hk _ => exact preserved_ident hk (hΓ _ _ hk)
  | group _ _ ih =>
    obtain ⟨c, n, hc, realizes_c⟩ := ih hΓ
    exact ⟨c, n, by rw [lowerExpr, hc], by simpa only [eval] using realizes_c⟩
  | arithmetic hop hl hr ha hb hn ihl ihr =>
    exact preserved_arithmetic hop ha hb hn (plannedType_typed hl hΓ) (plannedType_typed hr hΓ)
      (fun _ => ihl hΓ) (fun _ => ihr hΓ)
  | xor hk hl hr hn ihl ihr =>
    exact preserved_xor hk hn (plannedType_typed hl hΓ) (plannedType_typed hr hΓ)
      (fun _ => ihl hΓ) (fun _ => ihr hΓ)
  | logic hop _ _ hn ihl ihr => exact preserved_logic hop hn (fun _ => ihl hΓ) (fun _ => ihr hΓ)
  | compare hop hl hr hab hn ihl ihr =>
    exact preserved_compare hop hab hn (plannedType_typed hl hΓ) (plannedType_typed hr hΓ)
      (fun _ => ihl hΓ) (fun _ => ihr hΓ)
  | negate hk ho _ ih => exact preserved_negate hk (plannedType_typed ho hΓ) (ih hΓ)
  | not _ _ ih => exact preserved_not (ih hΓ)

/-- Lowering a typed expression succeeds, takes nothing but labels and places each at most once. The
code, wherever it stands, goes to its end with exactly the reference value pushed, the variables
read in the order of the evaluation and all else as it was; or it traps where the evaluation divides
by zero, and only there. -/
theorem lowerExpr_computes_eval {e : Expr} {k : Primitive} (he : HasType cx.bindings Γ e k)
    (hΓ : ∀ name k, Γ name = some k → Bound cx s.body.locals name k (slots name)) :
    ∃ c n, lowerExpr cx e s = .ok ⟨.primitive k, c⟩ (s.skip n) ∧ c.marks.Nodup ∧
      (∀ l ∈ c.marks, s.body.nextLabel ≤ l ∧ l < s.body.nextLabel + n) ∧
      ∀ (A : Arith) (m : State) (env : String → Option Scalar), Holds Γ slots env m.locals →
        (∀ P : Code, P.marks.Nodup → P.At m.pc c →
          match eval A env e [] with
          | .ok v names => v.kind = k ∧
            Runs A P m (m.moved (m.pc + c.length) (v.cell :: m.stack) (seen m slots names))
          | .error .divisionByZero names => ∃ t, Runs A P m t ∧ t.reads = seen m slots names ∧
            step A P t = some (.stop .divisionByZero)
          | .error .stuck _ => False) ∧
        (m.pc = 0 → (Ends A c m .divisionByZero ↔
          ∃ names, eval A env e [] = .error .divisionByZero names)) := by
  obtain ⟨c, n, hc, realizes⟩ := preserved_typed he hΓ
  have fresh := lowerExpr_fresh hc
  refine ⟨c, n, hc, fresh.nodup, fresh.range, fun A m env henv => ?_⟩
  refine ⟨fun P hP hat => ?_, fun hpc => ?_⟩
  · have run := realizes A P m env hP henv m.stack []
    match eval A env e [], run with
    | .ok v names, run => exact ⟨run.1, run.2 m.pc hat⟩
    | .error .divisionByZero names, run => exact run m.pc hat
  · have run := realizes A c m env fresh.nodup henv m.stack []
    have hat : c.At m.pc c := hpc ▸ Code.at_self c
    match eval A env e [], run with
    | .ok v names, run =>
      have stands : step A c (m.moved (m.pc + c.length) (v.cell :: m.stack) (seen m slots names)) =
          none := by
        simp [step, hpc]
      have never : ¬Ends A c m .divisionByZero := (run.2 m.pc hat).not_ends stands
      simpa using never
    | .error .divisionByZero names, run =>
      obtain ⟨t, ht, -, hs⟩ := run m.pc hat
      exact ⟨fun _ => ⟨names, rfl⟩, fun _ => ⟨t, ht, hs⟩⟩

/-- Two integer variables. -/
def sampleVars : List (String × Ty) := [("n", .int), ("d", .int)]

/-- `(n == d) or (n % d < 1.5)` -/
def sampleExpr : Expr :=
  let n := Expr.ident ⟨.int, {}⟩ "n"
  let d := Expr.ident ⟨.int, {}⟩ "d"
  .binary ⟨.boolean, {}⟩ .or (.group ⟨.boolean, {}⟩ (.binary ⟨.boolean, {}⟩ .eq n d))
    (.group ⟨.boolean, {}⟩
      (.binary ⟨.boolean, {}⟩ .lt (.binary ⟨.int, {}⟩ .mod n d)
        (.literal ⟨.float, {}⟩ (.float 0x3fc00000))))

/-- The code of the sample traps if `d` is zero and `n` is not. -/
theorem lowerExpr_computes_eval_sample :
    ∃ c n, lowerExpr (sampleContext sampleVars []) sampleExpr (sampleState sampleVars) =
        .ok ⟨.boolean, c⟩ ((sampleState sampleVars).skip n) ∧
      ∀ (A : Arith) (m : State), m.pc = 0 → m.locals 0 = some (.int 9) →
        m.locals 1 = some (.int 0) →
        Ends A c m .divisionByZero := by
  let Γ : String → Option Primitive := fun name => if name = "n" ∨ name = "d" then some .int
    else none
  let slots : String → UInt16 := fun name => if name = "n" then 0 else 1
  have hn : HasType [] Γ (.ident ⟨.int, {}⟩ "n") .int := .ident rfl rfl
  have hd : HasType [] Γ (.ident ⟨.int, {}⟩ "d") .int := .ident rfl rfl
  have hf : HasType [] Γ (.literal ⟨.float, {}⟩ (.float 0x3fc00000)) .float :=
    .literal (v := .float _) rfl rfl
  have typed : HasType [] Γ sampleExpr .boolean :=
    .logic (.inr rfl) (.group (.compare rfl hn hd (.inl ⟨rfl, rfl⟩) rfl) rfl)
      (.group (.compare rfl (.arithmetic (x := .rem) rfl hn hd rfl rfl rfl) hf (.inl ⟨rfl, rfl⟩)
        rfl) rfl) rfl
  have bound : ∀ name k, Γ name = some k → Bound (sampleContext sampleVars [])
      (sampleState sampleVars).body.locals name k (slots name) := by
    intro name k hk
    obtain ⟨rfl | rfl, rfl⟩ : (name = "n" ∨ name = "d") ∧ Primitive.int = k := by simpa [Γ] using hk
    · exact ⟨rfl, .slot 0 .int, rfl, rfl, rfl⟩
    · exact ⟨rfl, .slot 1 .int, rfl, rfl, rfl⟩
  obtain ⟨c, n, hc, -, -, run⟩ := lowerExpr_computes_eval typed bound
  refine ⟨c, n, hc, fun A m hpc h0 h1 => ?_⟩
  let env : String → Option Scalar := fun name => if name = "n" then some (.int 9)
    else some (.int 0)
  have holds : Holds Γ slots env m.locals := by
    intro name k hk
    obtain ⟨rfl | rfl, rfl⟩ : (name = "n" ∨ name = "d") ∧ Primitive.int = k := by simpa [Γ] using hk
    · exact ⟨.int 9, rfl, rfl, h0⟩
    · exact ⟨.int 0, rfl, rfl, h1⟩
  exact ((run A m env holds).2 hpc).mpr ⟨_, rfl⟩

end ClassGen.Preservation
