import ClassGen.Proofs.Lowering.Labels
import ClassGen.Proofs.StackKinds.Faithful

/-! The code of an expression that is lowered faithfully puts one value of its type on the stack. -/

namespace ClassGen

open Run Faithful

/-! ### What expressions leave alone -/

/-- Neither locals nor units changed, nor the functions that wait for their instantiations. -/
structure LowerState.Kept (s t : LowerState) : Prop where
  locals : t.body.locals = s.body.locals
  methods : t.file.methods = s.file.methods
  structs : t.file.structs = s.file.structs
  generics : t.file.generics = s.file.generics

namespace LowerState.Kept

theorem refl (s : LowerState) : Kept s s := ⟨rfl, rfl, rfl, rfl⟩

theorem trans {s t u : LowerState} (hst : Kept s t) (htu : Kept t u) : Kept s u :=
  ⟨htu.locals.trans hst.locals, htu.methods.trans hst.methods, htu.structs.trans hst.structs,
    htu.generics.trans hst.generics⟩

theorem of_skip {s t : LowerState} {n : Nat} (h : Kept (s.skip n) t) : Kept s t :=
  ⟨h.locals, h.methods, h.structs, h.generics⟩

end LowerState.Kept

/-- Nor was a slot taken. -/
structure LowerState.Untouched (s t : LowerState) : Prop extends Kept s t where
  nextSlot : t.body.nextSlot = s.body.nextSlot

namespace LowerState.Untouched

theorem refl (s : LowerState) : Untouched s s := ⟨.refl s, rfl⟩

theorem trans {s t u : LowerState} (hst : Untouched s t) (htu : Untouched t u) : Untouched s u :=
  ⟨hst.toKept.trans htu.toKept, htu.nextSlot.trans hst.nextSlot⟩

theorem of_skip {s t : LowerState} {n : Nat} (h : Untouched (s.skip n) t) : Untouched s t :=
  ⟨h.toKept.of_skip, h.nextSlot⟩

end LowerState.Untouched

open LowerState

variable {cx : BodyContext} {s t : LowerState}

theorem plan_untouched {op : BinaryOp} {lt rt : Ty} {plan : Option OperatorPlan}
    (h : op.plan? lt rt s = .ok plan t) : Untouched s t := by
  cases hrel : op.isRelational with
  | true =>
    obtain ⟨-, rfl⟩ := (BinaryOp.plan?_ok_relational hrel).mp h
    exact ⟨⟨rfl, rfl, rfl, rfl⟩, rfl⟩
  | false =>
    by_cases hx : op = .xor
    · subst hx
      obtain ⟨-, rfl⟩ := BinaryOp.plan?_ok_xor.mp h
      exact .refl s
    · obtain ⟨-, rfl⟩ := (BinaryOp.plan?_ok_arithmetic hrel hx).mp h
      exact .refl s

mutual

theorem lowerExpr_untouched : ∀ {e : Expr} {s t : LowerState} {v : Lowered},
    lowerExpr cx e s = .ok v t → Untouched s t := by
  intro e s t v h
  cases exprRun_of_ok h with
  | literal => exact .refl s
  | ident hst => exact .refl s
  | concat hs hop hl hlv hr hrv => exact (lowerExpr_untouched hl).trans (lowerExpr_untouched hr)
  | logic hop hl hlv hr hrv => exact (lowerExpr_untouched hl).of_skip.trans (lowerExpr_untouched hr)
  | planned hlt hrt hplan hl hlv hr hrv =>
    exact (plan_untouched hplan).trans ((lowerExpr_untouched hl).trans (lowerExpr_untouched hr))
  | assignName hst hv hvv => exact lowerExpr_untouched hv
  | assignField hlast hr hr' howner hfield hv hvv =>
      exact (lowerExpr_untouched hr).trans (lowerExpr_untouched hv)
  | callExternal hc harity hlink hargs => exact lowerArgs_untouched hargs
  | callUser hc harity hlink htypes hspec hargs hunit =>
    obtain ⟨_, _, rfl⟩ := BodyContext.linkedUnit_ok hunit
    exact (lowerArgs_untouched hargs).trans ⟨⟨rfl, rfl, rfl, rfl⟩, rfl⟩
  | construct hc harity hargs hn => exact lowerArgs_untouched hargs
  | property hr hr' hv => exact lowerExpr_untouched hr
  | step hst hk => exact .refl s
  | negate hp hk hv hvv => exact lowerExpr_untouched hv
  | not hv hvv => exact lowerExpr_untouched hv
  | group hi => exact lowerExpr_untouched hi
  | emptyList hn => exact .refl s
  | listOf hn he => exact lowerEntries_untouched he
  | absent he => exact .refl s

theorem lowerArgs_untouched : ∀ {args : List Expr} {types : List Ty} {s t : LowerState} {c : Code},
    lowerArgs cx args types s = .ok c t → Untouched s t
  | [], _, s, t, c, h | _ :: _, [], s, t, c, h => by
    obtain ⟨-, rfl⟩ := pure_ok.mp h
    exact .refl s
  | arg :: args, type :: types, s, t, c, h => by
    simp only [lowerArgs, bind_ok, pure_ok, Lowered.into_ok] at h
    obtain ⟨v, s₁, hv, _, _, ⟨-, rfl, rfl⟩, rest, _, hrest, rfl, rfl⟩ := h
    exact (lowerExpr_untouched hv).trans (lowerArgs_untouched hrest)

theorem lowerEntries_untouched : ∀ {entries : List Expr} {s t : LowerState} {c : Code},
    lowerEntries cx entries s = .ok c t → Untouched s t
  | [], s, t, c, h => by
    obtain ⟨-, rfl⟩ := pure_ok.mp h
    exact .refl s
  | entry :: entries, s, t, c, h => by
    simp only [lowerEntries, bind_ok, pure_ok, Lowered.into_ok] at h
    obtain ⟨v, s₁, hv, _, _, ⟨-, rfl, rfl⟩, rest, _, hrest, rfl, rfl⟩ := h
    exact (lowerExpr_untouched hv).trans (lowerEntries_untouched hrest)

end

theorem lowerExpr_kept {e : Expr} {v : Lowered} (h : lowerExpr cx e s = .ok v t) : Kept s t :=
  (lowerExpr_untouched h).toKept

theorem plan_kept {op : BinaryOp} {lt rt : Ty} {plan : Option OperatorPlan}
    (h : op.plan? lt rt s = .ok plan t) : Kept s t :=
  (plan_untouched h).toKept

/-! ### Storage -/

/-- All that can be loaded holds a value: locals have types with values, and parameters stand among
the arguments. -/
structure Ready (cx : BodyContext) (s : LowerState) : Prop where
  locals : ∀ entry ∈ s.body.locals, entry.2.type.isVoid = false
  params : ∀ name i t, BodyContext.lastParam? name 0 cx.params = some (i, t) → cx.frame.HasArg i t

theorem Ready.of_kept (h : Ready cx s) (hk : Kept s t) : Ready cx t :=
  ⟨hk.locals ▸ h.locals, h.params⟩

theorem Ready.holds (h : Ready cx s) {name : String} {ids : List ScopeId} {st : Storage}
    (hst : cx.storageIn? s.body.locals name ids = some st) : st.Holds cx.frame := by
  induction ids with
  | nil => cases hst
  | cons id outer ih =>
    rw [BodyContext.storageIn?] at hst
    split at hst
    · rename_i l hl
      cases hst
      obtain ⟨before, after, heq, -⟩ := List.lookup_eq_some_iff.mp hl
      exact h.locals ((id, name), l) (heq ▸ List.mem_append_right _ List.mem_cons_self)
    · rename_i p hl hp
      cases hst
      split_ifs at hp
      obtain ⟨⟨i, t⟩, hparam, rfl⟩ := Option.map_eq_some_iff.mp hp
      exact h.params name i t hparam
    · split_ifs at hst
      exact ih hst

theorem Ready.storage (h : Ready cx s) {name : String} {span : Span} {st : Storage}
    (hst : cx.storageOf name span s = .ok st t) : st.Holds cx.frame :=
  h.holds (BodyContext.storageOf_ok.mp hst).2.1

/-! ### Values -/

/-- The code, lowered from `s` to `t`, puts `kinds` on top of any stack. -/
def Puts (s t : LowerState) (c : Code) (kinds : List Kind) : Prop :=
  ∀ ret σ, Labelled s.body.nextLabel t.body.nextLabel fun ρ => Flows ρ ret c (some σ)
    (some (kinds ++ σ))

/-- Lowered faithfully, the expression puts a value of its type on the stack. -/
def ExprPuts (cx : BodyContext) (e : Expr) : Prop :=
  ∀ {s t : LowerState} {v : Lowered}, lowerExpr cx e s = .ok v t → expr cx e s = true → Ready cx s →
    Puts s t v.code v.type.kinds

theorem Puts.of_flows {c : Code} {kinds : List Kind}
    (h : ∀ ρ ret σ, Flows ρ ret c (some σ) (some (kinds ++ σ))) : Puts s s c kinds :=
  fun ret σ => .of_forall (Nat.le_refl _) fun ρ => h ρ ret σ

theorem Puts.then {c d : Code} {kinds after : List Kind} (hc : Puts s t c kinds)
    (hd : ∀ ρ ret σ, Flows ρ ret d (some (kinds ++ σ)) (some (after ++ σ))) :
    Puts s t (c ++ d) after :=
  fun ret σ => (hc ret σ).mono fun ρ hρ => hρ.append (hd ρ ret σ)

theorem Puts.coerced {v : Lowered} {target : Ty} (h : Puts s t v.code v.type.kinds)
    (hc : v.type.converts target = true) (hv : v.type.isVoid → target.isVoid) :
    Puts s t (v.code ++ coerce v.type target) target.kinds :=
  h.then fun _ _ _ => flows_coerce hc hv

/-- A checked operand that was lowered. -/
theorem operand_ok {value : Bool} {x : Lower Lowered} {target : Ty} {next : LowerState → Bool}
    {v : Lowered} (hf : operand value x s target next = true) (hx : x s = .ok v t) :
    value = true ∧ v.type.converts target = true ∧ next t = true := by
  simpa only [operand, after_ok hx, Bool.and_eq_true] using hf

theorem receiver_ok {value : Bool} {e : Expr} {next : Lowered → LowerState → Bool} {r r' : Lowered}
    (hf : receiver cx value e s next = true) (hr : lowerExpr cx e s = .ok r t)
    (hr' : cx.receiver r e.note t = .ok r' t) :
    value = true ∧ r.type.isVoid = false ∧ next r' t = true := by
  simpa only [receiver, after_ok hr, after_ok hr', Bool.and_eq_true, Bool.not_eq_true'] using hf

theorem puts_binary {note : Note} {op : BinaryOp} {left right : Expr} (ihl : ExprPuts cx left)
    (ihr : ExprPuts cx right) : ExprPuts cx (.binary note op left right) := by
  intro s t v h hf hready
  rw [lowerExpr, bind_ok] at h
  obtain ⟨result, _, hn, h⟩ := h
  rw [expr, after_ok hn] at hf
  obtain ⟨-, rfl⟩ := BodyContext.resolve_ok.mp hn
  split_ifs at h hf with hstring hlogic hpow
  · simp only [bind_ok, pure_ok, Lowered.appended_ok] at h
    obtain ⟨l, s₁, hl, _, _, ⟨hlv, rfl, rfl⟩, r, s₂, hr, _, _, ⟨hrv, rfl, rfl⟩, rfl, rfl⟩ := h
    simp only [after_ok hl, Bool.and_eq_true] at hf
    have hready₁ := hready.of_kept (lowerExpr_kept hl)
    intro ret σ
    have both := (ihl hl hf.1 hready ret (.ref :: σ)).and (ihr hr hf.2 hready₁ ret (.ref :: σ))
    exact both.mono fun ρ hρ =>
      flows_concat (hρ.1.append (flows_appendValue hlv)) (hρ.2.append (flows_appendValue hrv))
  · simp only [bind_ok, pure_ok, Lowered.into_ok, Lower.newLabel_ok] at h
    obtain ⟨_, _, ⟨rfl, rfl⟩, _, _, ⟨rfl, rfl⟩, l, s₁, hl, _, _, ⟨hlv, rfl, rfl⟩, r, s₂, hr, _, _,
      ⟨hrv, rfl, rfl⟩, rfl, rfl⟩ := h
    rw [LowerState.skip_skip] at hl
    obtain ⟨hfl, hcl, hf⟩ := operand_ok hf hl
    obtain ⟨hfr, hcr, -⟩ := operand_ok hf hr
    have hready₀ : Ready cx (s.skip 2) := hready.of_kept ⟨rfl, rfl, rfl, rfl⟩
    have hready₁ := hready₀.of_kept (lowerExpr_kept hl)
    intro ret σ
    have labels := (Labelled.at_label s.body.nextLabel σ).and (.at_label (s.body.nextLabel + 1)
      (.int :: σ))
    have both := ((ihl hl hfl hready₀).coerced hcl hlv ret σ).and
      ((ihr hr hfr hready₁).coerced hcr hrv ret σ)
    exact (labels.and both).mono fun ρ hρ => flows_shortCircuit _ hρ.2.1 hρ.2.2 hρ.1.1 hρ.1.2
  · exact (throw_ok.mp h).elim
  · simp only [bind_ok] at h
    obtain ⟨lt, _, hlt, rt, _, hrt, plan, s₁, hplan, h⟩ := h
    obtain rfl := BodyContext.plannedType_state hlt
    obtain rfl := BodyContext.plannedType_state hrt
    cases plan with
    | none => exact (throw_ok.mp h).elim
    | some plan =>
      simp only [bind_ok, pure_ok, Lowered.into_ok] at h
      obtain ⟨l, s₂, hl, _, _, ⟨hlv, rfl, rfl⟩, r, s₃, hr, _, _, ⟨hrv, rfl, rfl⟩, rfl, rfl⟩ := h
      simp only [after_ok hlt, after_ok hrt, after_ok hplan, Option.all_some] at hf
      obtain ⟨hfl, hcl, hf⟩ := operand_ok hf hl
      obtain ⟨hfr, hcr, -⟩ := operand_ok hf hr
      have hready₁ := hready.of_kept (plan_kept hplan)
      have hready₂ := hready₁.of_kept (lowerExpr_kept hl)
      intro ret σ
      have both := ((ihl hl hfl hready₁).coerced hcl hlv ret σ).and
        ((ihr hr hfr hready₂).coerced hcr hrv ret (plan.operand.kinds ++ σ))
      exact ((flows_plan hplan σ).2.and both).mono fun ρ hρ => (hρ.2.1.append hρ.2.2).append hρ.1

/-! ### Fields -/

theorem structField_ok {owner : Ty} {field : String} {span : Span} {found : StructDef × Ty}
    (h : structField owner field span s = .ok found t) :
    ∃ bindings, owner = .struct found.1 bindings := by
  cases owner with
  | struct decl bindings =>
    cases hf : decl.fieldType? field <;> simp only [structField, hf, throw_ok, pure_ok] at h
    exact ⟨bindings, by rw [← h.1]⟩
  | _ => exact (throw_ok.mp h).elim

theorem Ty.converts_self (t : Ty) : t.converts t := by
  unfold converts
  cases t.representation <;> simp

/-- A field without placeholders is read as it is declared; any other one is a reference. -/
theorem converts_narrowed (bindings map : Bindings) {declared : Ty} (hd : declared.isVoid = false)
    (hn : (narrowed bindings map declared).isVoid = false) :
    declared.converts (narrowed bindings map declared) := by
  cases declared with
  | primitive kind =>
    have hsame : narrowed bindings map (.primitive kind) =
        .primitive kind := by simp [narrowed, Ty.containsGeneric]
    rw [hsame]
    exact Ty.converts_self _
  | _ => exact Ty.converts_of_reference rfl hn

theorem puts_loadFields {fields : List String} {span : Span} {owner v : Lowered} {r : LowerState}
    (hv : cx.loadFields owner span fields s = .ok v r) (hf : chain cx span fields owner s = true)
    (howner : owner.type.isVoid = false) {s₀ t₀ : LowerState}
    (h : Puts s₀ t₀ owner.code owner.type.kinds) : Puts s₀ t₀ v.code v.type.kinds := by
  induction fields generalizing s owner with
  | nil =>
    obtain ⟨rfl, -⟩ := pure_ok.mp hv
    exact h
  | cons field rest ih =>
    rw [BodyContext.loadFields, bind_ok] at hv
    obtain ⟨next, s₁, hnext, hv⟩ := hv
    rw [chain, after_ok hnext] at hf
    rw [BodyContext.loadField, bind_ok] at hnext
    obtain ⟨⟨decl, declared⟩, s₂, hfield, hnext⟩ := hnext
    obtain ⟨rfl, rfl⟩ := pure_ok.mp hnext
    simp only [after_ok hfield, Bool.and_eq_true, Bool.not_eq_true'] at hf
    obtain ⟨hvalued, hvoid, hf⟩ := hf
    obtain ⟨bindings, hstruct⟩ := structField_ok hfield
    refine ih hv hf hvoid ?_
    have hget : Puts s₀ t₀ (owner.code ++ [Code.getField (fieldMember decl field declared)])
        declared.kinds := by
      refine h.then fun ρ ret σ => ?_
      rw [hstruct]
      exact flows_getField decl field hvalued
    exact hget.then fun ρ ret σ =>
      flows_coerce (converts_narrowed _ _ (Ty.isValued_iff.mp hvalued).1 hvoid) fun hd => by
        rw [(Ty.isValued_iff.mp hvalued).1] at hd
        cases hd

/-- A receiver that has a value is a value still, whatever it is taken for. -/
theorem puts_receiver {v r : Lowered} {note : Note} (hr : cx.receiver v note s = .ok r t)
    (hv : v.type.isVoid = false) {s₀ t₀ : LowerState} (h : Puts s₀ t₀ v.code v.type.kinds) :
    r.type.isVoid = false ∧ Puts s₀ t₀ r.code r.type.kinds := by
  obtain ⟨-, rfl | ⟨decl, given, wanted, htype, rfl⟩ | ⟨decl, wanted, -, rfl⟩⟩ :=
    BodyContext.receiver_ok hr
  · exact ⟨hv, h⟩
  · rw [htype] at h
    exact ⟨rfl, h⟩
  · refine ⟨rfl, h.coerced (Ty.converts_to_reference _ rfl) fun hvoid => ?_⟩
    rw [hv] at hvoid
    cases hvoid

theorem puts_assignName {note target : Note} {name : String} {value : Expr}
    (ih : ExprPuts cx value) : ExprPuts cx (.assign note (.ident target name) value) := by
  intro s t v h hf hready
  cases exprRun_of_ok h with
  | assignName hst hv hvv =>
    rw [expr, after_ok hst] at hf
    obtain ⟨hfv, hc, -⟩ := operand_ok hf hv
    exact ((ih hv hfv hready).coerced hc hvv).then fun ρ ret σ => flows_store (hready.storage hst)
  | absent he => cases he

theorem puts_assignField {note target : Note} {object value : Expr} {fields : List String}
    (iho : ExprPuts cx object) (ihv : ExprPuts cx value) :
    ExprPuts cx (.assign note (.property target object fields) value) := by
  intro s t v h hf hready
  cases exprRun_of_ok h with
  | assignField hlast hr hr' howner hfield hv hvv =>
    rename_i last s₁ r r' owner v decl declared
    rw [expr] at hf
    obtain ⟨hfr, hrv, hf⟩ := receiver_ok hf hr hr'
    simp only [after_ok howner, hlast, Option.all_some, after_ok hfield, Bool.and_eq_true] at hf
    obtain ⟨hchain, hvalued, hf⟩ := hf
    obtain ⟨hfv, hc, -⟩ := operand_ok hf hv
    obtain ⟨hrv', hputs⟩ := puts_receiver hr' hrv (iho hr hfr hready)
    obtain ⟨bindings, hstruct⟩ := structField_ok hfield
    have hready₁ := hready.of_kept (lowerExpr_kept hr)
    intro ret σ
    have hown := puts_loadFields howner hchain hrv' hputs ret σ
    have hval := (ihv hv hfv hready₁).coerced hc hvv ret (.ref :: σ)
    refine (hown.and hval).mono fun ρ hρ => ?_
    obtain ⟨ho, hw⟩ := hρ
    rw [hstruct] at ho
    exact (ho.append hw).append (flows_putField decl last hvalued)
  | absent he => cases he

theorem puts_property {note : Note} {object : Expr} {fields : List String}
    (ih : ExprPuts cx object) : ExprPuts cx (.property note object fields) := by
  intro s t v h hf hready
  cases exprRun_of_ok h with
  | property hr hr' hv =>
    rw [expr] at hf
    obtain ⟨hfr, hrv, hf⟩ := receiver_ok hf hr hr'
    obtain ⟨hrv', hputs⟩ := puts_receiver hr' hrv (ih hr hfr hready)
    exact puts_loadFields hv hf hrv' hputs
  | absent he => cases he

/-! ### Calls -/

/-- Lowered faithfully, the arguments put their values on the stack. -/
def ArgsPut (cx : BodyContext) (list : List Expr) : Prop :=
  ∀ {types : List Ty} {s t : LowerState} {c : Code}, lowerArgs cx list types s = .ok c t →
    args cx list types s = true → list.length = types.length → Ready cx s →
      Puts s t c (Ty.argKinds types)

theorem argsPut_nil : ArgsPut cx [] := by
  intro types s t c h hf hlen hready
  obtain ⟨rfl, rfl⟩ := pure_ok.mp h
  cases types with
  | nil => exact .of_flows fun _ _ _ => .nil
  | cons type types => cases hlen

theorem argsPut_cons {arg : Expr} {rest : List Expr} (ih : ExprPuts cx arg)
    (ihr : ArgsPut cx rest) : ArgsPut cx (arg :: rest) := by
  intro types s t c h hf hlen hready
  cases types with
  | nil => cases hlen
  | cons type types =>
    simp only [lowerArgs, bind_ok, pure_ok, Lowered.into_ok] at h
    obtain ⟨v, s₁, hv, _, _, ⟨hvv, rfl, rfl⟩, d, _, hrest, rfl, rfl⟩ := h
    rw [args] at hf
    obtain ⟨hfv, hc, hf⟩ := operand_ok hf hv
    have hready₁ := hready.of_kept (lowerExpr_kept hv)
    intro ret σ
    have hfirst := (ih hv hfv hready).coerced hc hvv ret σ
    have hothers := ihr hrest hf (Nat.succ.inj hlen) hready₁ ret (type.kinds ++ σ)
    have hkinds : Ty.argKinds (type :: types) ++ σ = Ty.argKinds types ++ (type.kinds ++ σ) := by
      rw [Ty.argKinds_cons, Ty.kinds_reverse, List.append_assoc]
    refine (hfirst.and hothers).mono fun ρ hρ => ?_
    rw [hkinds]
    exact hρ.1.append hρ.2

theorem length_of_mapM {α β ε : Type} {f : α → Except ε β} {xs : List α} {ys : List β}
    (h : xs.mapM f = .ok ys) : ys.length = xs.length := by
  induction xs generalizing ys with
  | nil =>
    cases h
    rfl
  | cons x xs ih =>
    rw [List.mapM_cons] at h
    cases hx : f x with
    | error e => simp [hx, bind, Except.bind] at h
    | ok y =>
      cases hrest : xs.mapM f with
      | error e => simp [hx, hrest, bind, Except.bind] at h
      | ok rest =>
        simp only [hx, hrest, bind, Except.bind, pure, Except.pure, Except.ok.injEq] at h
        rw [← h, List.length_cons, List.length_cons, ih hrest]

theorem instantiate_length {sig : Signature} {map : Bindings} {params : List Ty} {ret : Ty}
    (h : sig.instantiate map = .ok (params, ret)) : params.length = sig.params.length := by
  unfold Signature.instantiate at h
  cases hp : sig.paramTypes.mapM (Specialization.resolve map) with
  | error e => simp [hp, bind, Except.bind] at h
  | ok ps =>
    cases hr : Specialization.resolve map sig.ret with
    | error e => simp [hp, hr, bind, Except.bind] at h
    | ok r =>
      simp only [hp, hr, bind, Except.bind, pure, Except.pure, Except.ok.injEq, Prod.mk.injEq] at h
      obtain ⟨rfl, -⟩ := h
      rw [length_of_mapM hp, Signature.paramTypes, List.length_map]

theorem specialize_length {sig : Signature} {types params : List Ty} {span : Span}
    {map : Bindings} {ret : Ty} (h : BodyContext.specialize sig types span s =
      .ok (map, params, ret) t) :
    params.length = sig.params.length := by
  have hspec := (BodyContext.specialize_ok h).1
  split_ifs at hspec
  · exact instantiate_length hspec
  · rw [hspec.1, Signature.paramTypes, List.length_map]

theorem puts_call {note : Note} {callee : Expr} {list : List Expr} (ih : ArgsPut cx list) :
    ExprPuts cx (.call note callee list) := by
  intro s t v h hf hready
  cases exprRun_of_ok h with
  | callExternal hc harity hlink hargs =>
    rename_i sig owner method code
    simp only [expr, after_ok hc, hlink, Bool.and_eq_true, List.all_eq_true] at hf
    obtain ⟨⟨hp, hret⟩, hf⟩ := hf
    have hlen : list.length = sig.paramTypes.length := by rw [← harity, Signature.paramTypes,
      List.length_map]
    exact (ih hargs hf hlen hready).then fun ρ ret σ => flows_callStatic _ _ hp hret
  | callUser hc harity hlink htypes hspec hargs hunit =>
    simp only [expr, after_ok hc, hlink, after_ok htypes, after_ok hspec, Bool.and_eq_true,
      List.all_eq_true] at hf
    obtain ⟨⟨hp, hret⟩, hf⟩ := hf
    have hlen := harity.symm.trans (specialize_length hspec).symm
    obtain ⟨_, _, rfl⟩ := BodyContext.linkedUnit_ok hunit
    exact (ih hargs hf hlen hready).then fun ρ ret σ => flows_callStatic _ _ hp hret
  | construct hc harity hargs hn =>
    rename_i decl bindings code annotated
    simp only [expr, after_ok hc, Bool.and_eq_true, List.all_eq_true] at hf
    obtain ⟨hp, hf⟩ := hf
    have hlen : list.length = (decl.fields.map Prod.snd).length := by rw [← harity, List.length_map]
    have hkinds : Ty.kinds (if annotated.isStruct then annotated else .struct decl bindings) =
        [.ref] := by
      split
      · cases annotated <;> first | rfl | contradiction
      · rfl
    intro ret σ
    refine (ih hargs hf hlen hready ret (.ref :: .ref :: σ)).mono fun ρ hρ => ?_
    rw [hkinds]
    exact ((flows_new decl.qualifiedName).append hρ).append (flows_construct hp)
  | absent he => cases he

/-! ### Lists -/

/-- Lowered faithfully, the entries are added to the list on the stack. -/
def EntriesPut (cx : BodyContext) (items : List Expr) : Prop :=
  ∀ {s t : LowerState} {c : Code}, lowerEntries cx items s = .ok c t → entries cx items s = true →
    Ready cx s →
    ∀ ret σ, Labelled s.body.nextLabel t.body.nextLabel fun ρ =>
      Flows ρ ret c (some (.ref :: σ)) (some (.ref :: σ))

theorem entriesPut_nil : EntriesPut cx [] := by
  intro s t c h hf hready ret σ
  obtain ⟨rfl, rfl⟩ := pure_ok.mp h
  exact .of_forall (Nat.le_refl _) fun ρ => .nil

theorem entriesPut_cons {entry : Expr} {rest : List Expr} (ih : ExprPuts cx entry)
    (ihr : EntriesPut cx rest) : EntriesPut cx (entry :: rest) := by
  intro s t c h hf hready ret σ
  simp only [lowerEntries, bind_ok, pure_ok, Lowered.into_ok] at h
  obtain ⟨v, s₁, hv, _, _, ⟨hvv, rfl, rfl⟩, d, _, hrest, rfl, rfl⟩ := h
  rw [entries] at hf
  obtain ⟨hfv, hc, hf⟩ := operand_ok hf hv
  have hready₁ := hready.of_kept (lowerExpr_kept hv)
  have hfirst := (ih hv hfv hready).coerced hc hvv ret (.ref :: .ref :: σ)
  exact (hfirst.and (ihr hrest hf hready₁ ret σ)).mono fun ρ hρ => (flows_entry hρ.1).append hρ.2

theorem kinds_wrapperType (t : Ty) : (wrapperType t).kinds = [.ref] := by
  cases t <;> rfl

theorem puts_listOf {note : Note} {items : List Expr} (ih : EntriesPut cx items) :
    ExprPuts cx (.listOf note items) := by
  intro s t v h hf hready
  cases exprRun_of_ok h with
  | listOf hn he =>
    rw [expr] at hf
    intro ret σ
    refine (ih he hf hready ret (.ref :: σ)).mono fun ρ hρ => ?_
    rw [kinds_wrapperType]
    refine (flows_newWrapper _).append ?_
    split
    · exact .nil
    · exact flows_fillWrapper hρ
  | absent he => cases he

/-! ### All expressions -/

theorem puts_step {note : Note} {op : StepOp} {e : Expr} : ExprPuts cx (.step note op e) := by
  intro s t v h hf hready
  cases exprRun_of_ok h with
  | step hst hk =>
    rename_i operand name storage kind
    obtain ⟨htype, hnumeric⟩ := Ty.numeric_iff.mp hk
    have hkinds : storage.type.kinds = [kind.kind] := htype ▸ (Ty.kinds_numeric hnumeric).1
    have hholds := hready.storage hst
    refine .of_flows fun ρ ret σ => ?_
    have hload : Flows ρ ret (storage.load cx.frame) (some σ) (some (storage.type.kinds ++ σ)) :=
      flows_load hholds
    have hstore : Flows ρ ret (storage.store cx.frame) (some (storage.type.kinds ++ σ)) (some σ) :=
      flows_store hholds
    rw [hkinds] at hload hstore
    have hop : op.arithmetic ≠ .neg := by cases op <;> nofun
    have hone := hload.append (flows_pushOne hnumeric)
    exact (hone.append (flows_arithmetic hnumeric hop)).append hstore
  | absent he => cases he

theorem puts_negate {note : Note} {value : Expr} (ih : ExprPuts cx value) :
    ExprPuts cx (.negate note value) := by
  intro s t v h hf hready
  cases exprRun_of_ok h with
  | negate hp hk hv hvv =>
    simp only [expr, after_ok hp, hk, Option.all_some] at hf
    obtain ⟨hfv, hc, -⟩ := operand_ok hf hv
    obtain ⟨hkinds, -⟩ := Ty.kinds_numeric (Ty.numeric_iff.mp hk).2
    have hputs := (ih hv hfv hready).coerced hc fun hvoid => by rw [hvv] at hvoid; cases hvoid
    rw [hkinds] at hputs ⊢
    exact hputs.then fun ρ ret σ => flows_negation (Ty.numeric_iff.mp hk).2
  | absent he => cases he

theorem puts_not {note : Note} {value : Expr} (ih : ExprPuts cx value) :
    ExprPuts cx (.not note value) := by
  intro s t v h hf hready
  cases exprRun_of_ok h with
  | not hv hvv =>
    rw [expr] at hf
    obtain ⟨hfv, hc, -⟩ := operand_ok hf hv
    have hputs := (ih hv hfv hready).coerced hc fun hvoid => by rw [hvv] at hvoid; cases hvoid
    refine hputs.then fun ρ ret σ => ?_
    have hone : Flows ρ ret [Code.pushInt 1] (some (.int :: σ)) (some (.int :: .int :: σ)) :=
      .shaped [] [.int] rfl rfl
    exact hone.cons (.shaped [.int, .int] [.int] rfl rfl)
  | absent he => cases he

theorem puts_group {note : Note} {inner : Expr} (ih : ExprPuts cx inner) :
    ExprPuts cx (.group note inner) := by
  intro s t v h hf hready
  rw [lowerExpr] at h
  rw [expr_group] at hf
  exact ih h hf hready

/-- An expression without parts. -/
theorem puts_leaf {e : Expr} (h : ∀ {s t : LowerState} {v : Lowered}, lowerExpr cx e s = .ok v t →
    Ready cx s →
    s = t ∧ ∀ ρ ret σ, Flows ρ ret v.code (some σ) (some (v.type.kinds ++ σ))) : ExprPuts cx e := by
  intro s t v hv _ hready
  obtain ⟨rfl, hflows⟩ := h hv hready
  exact .of_flows hflows

mutual

theorem exprPuts : ∀ e : Expr, ExprPuts cx e
  | .literal _ value => puts_leaf fun h _ => by
    simp only [lowerExpr, pure_ok] at h
    obtain ⟨rfl, rfl⟩ := h
    exact ⟨rfl, fun _ _ _ => flows_literal value⟩
  | .ident _ _ => puts_leaf fun h hready => by
    cases exprRun_of_ok h with
    | ident hst => exact ⟨rfl, fun _ _ _ => flows_load (hready.storage hst)⟩
    | absent he => cases he
  | .binary _ _ left right => puts_binary (exprPuts left) (exprPuts right)
  | .assign _ target value => by
    cases target with
    | ident _ _ => exact puts_assignName (exprPuts value)
    | property _ object _ => exact puts_assignField (exprPuts object) (exprPuts value)
    | _ => exact puts_leaf fun h _ => by simp only [lowerExpr, throw_ok] at h
  | .call _ _ list => puts_call (argsPut list)
  | .property _ object _ => puts_property (exprPuts object)
  | .step _ _ _ => puts_step
  | .negate _ value => puts_negate (exprPuts value)
  | .not _ value => puts_not (exprPuts value)
  | .group _ inner => puts_group (exprPuts inner)
  | .emptyList _ => puts_leaf fun h _ => by
    cases exprRun_of_ok h with
    | emptyList hn =>
      refine ⟨rfl, fun ρ ret σ => ?_⟩
      rw [kinds_wrapperType]
      exact flows_newWrapper _
    | absent he => cases he
  | .listOf _ items => puts_listOf (entriesPut items)
  | .index _ _ _ => puts_leaf fun h _ => by simp only [lowerExpr, throw_ok] at h
  | .moduleMember _ _ _ | .enumValue _ _ _ | .lambda _ | .empty _ | .bad _ =>
      puts_leaf fun h _ => by
    rw [lowerExpr, pure_ok] at h
    obtain ⟨rfl, rfl⟩ := h
    exact ⟨rfl, fun _ _ _ => .nil⟩

theorem argsPut : ∀ list : List Expr, ArgsPut cx list
  | [] => argsPut_nil
  | arg :: rest => argsPut_cons (exprPuts arg) (argsPut rest)

theorem entriesPut : ∀ items : List Expr, EntriesPut cx items
  | [] => entriesPut_nil
  | entry :: rest => entriesPut_cons (exprPuts entry) (entriesPut rest)

end

end ClassGen
