import Mathlib.Tactic.SplitIfs
import ClassGen.Proofs.Lowering.Steps

/-! The ways in which lowering an expression can succeed. -/

namespace ClassGen

open Run

attribute [grind =] lowerExpr lowerArgs lowerEntries

/-- Expressions that are lowered to no value at all. -/
def Expr.isAbsent : Expr → Bool
  | .moduleMember _ _ _ | .enumValue _ _ _ | .lambda _ | .empty _ | .bad _ => true
  | _ => false

/-- One successful lowering, from state to state, in terms of those of the parts. -/
inductive ExprRun (cx : BodyContext) : Expr → LowerState → Lowered → LowerState → Prop
  | literal {note value s} : ExprRun cx (.literal note value) s ⟨value.type, [value.push]⟩ s
  | ident {note name s storage} (hst : cx.storageOf name note.span s = .ok storage s) :
    ExprRun cx (.ident note name) s ⟨storage.type, storage.load cx.frame⟩ s
  | concat {note op left right s s₁ t l r}
      (hs : Specialization.resolve cx.bindings note.type = .ok .string)
    (hop : op.isRelational = false) (hl : lowerExpr cx left s = .ok l s₁)
    (hlv : l.type.isVoid = false) (hr : lowerExpr cx right s₁ = .ok r t)
    (hrv : r.type.isVoid = false) :
    ExprRun cx (.binary note op left right) s
      ⟨.string, Code.concat (l.code ++ [appendValue l.type]) (r.code ++ [appendValue r.type])⟩ t
  | logic {note op left right s s₁ t l r} (hop : op = .and ∨ op = .or)
    (hl : lowerExpr cx left (s.skip 2) = .ok l s₁) (hlv : l.type.isVoid = false)
    (hr : lowerExpr cx right s₁ = .ok r t) (hrv : r.type.isVoid = false) :
    ExprRun cx (.binary note op left right) s
      ⟨.boolean, Code.shortCircuit (op = .and) s.body.nextLabel (s.body.nextLabel + 1)
        (l.code ++ coerce l.type .boolean) (r.code ++ coerce r.type .boolean)⟩ t
  | planned {note op left right s s₁ s₂ t l r lt rt plan} (hlt : cx.plannedType left s = .ok lt s)
    (hrt : cx.plannedType right s = .ok rt s) (hplan : op.plan? lt rt s = .ok (some plan) s₁)
    (hl : lowerExpr cx left s₁ = .ok l s₂) (hlv : l.type.isVoid → plan.operand.isVoid)
    (hr : lowerExpr cx right s₂ = .ok r t) (hrv : r.type.isVoid → plan.operand.isVoid) :
    ExprRun cx (.binary note op left right) s
      ⟨plan.result, (l.code ++ coerce l.type plan.operand) ++
        (r.code ++ coerce r.type plan.operand) ++
        plan.code⟩ t
  | assignName {note target name value s t v storage}
      (hst : cx.storageOf name target.span s = .ok storage s)
    (hv : lowerExpr cx value s = .ok v t) (hvv : v.type.isVoid → storage.type.isVoid) :
    ExprRun cx (.assign note (.ident target name) value) s
      ⟨.void, (v.code ++ coerce v.type storage.type) ++ storage.store cx.frame⟩ t
  | assignField {note target receiver fields value last s s₁ t r r' owner v decl declared}
    (hlast : fields.getLast? = some last) (hr : lowerExpr cx receiver s = .ok r s₁)
    (hr' : cx.receiver r receiver.note s₁ = .ok r' s₁)
    (howner : cx.loadFields r' target.span fields.dropLast s₁ = .ok owner s₁)
    (hfield : structField owner.type last target.span s₁ = .ok (decl, declared) s₁)
    (hv : lowerExpr cx value s₁ = .ok v t) (hvv : v.type.isVoid → declared.isVoid) :
    ExprRun cx (.assign note (.property target receiver fields) value) s
      ⟨.void, owner.code ++ (v.code ++ coerce v.type declared) ++
        [Code.putField (fieldMember decl last declared)]⟩ t
  | callExternal {note callee args s t sig owner method code}
    (hc : cx.callee callee s = .ok (.function sig) s) (harity : sig.params.length = args.length)
    (hlink : sig.linkage = .external owner method)
    (hargs : lowerArgs cx args sig.paramTypes s = .ok code t) :
    ExprRun cx (.call note callee args) s
      ⟨sig.ret, code ++ [Code.callStatic ⟨owner, method, sig.descriptor⟩]⟩ t
  | callUser {note callee args s s₁ t sig owner types map params ret code unit}
    (hc : cx.callee callee s = .ok (.function sig) s) (harity : sig.params.length = args.length)
    (hlink : sig.linkage = .user owner) (htypes : args.mapM cx.plannedType s = .ok types s)
    (hspec : BodyContext.specialize sig types note.span s = .ok (map, params, ret) s)
    (hargs : lowerArgs cx args params s = .ok code s₁)
    (hunit : cx.linkedUnit sig owner map (methodDescriptor params ret) s₁ = .ok unit t) :
    ExprRun cx (.call note callee args) s
      ⟨ret, code ++ [Code.callStatic ⟨unit, mangle sig.name, methodDescriptor params ret⟩]⟩ t
  | construct {note callee args s t decl bindings code annotated}
    (hc : cx.callee callee s = .ok (.struct decl bindings) s)
    (harity : decl.fields.length = args.length)
    (hargs : lowerArgs cx args (decl.fields.map Prod.snd) s = .ok code t)
    (hn : Specialization.resolve cx.bindings note.type = .ok annotated) :
    ExprRun cx (.call note callee args) s
      ⟨if annotated.isStruct then annotated else .struct decl bindings,
        [Code.new decl.qualifiedName, .op .dup] ++ code ++
          [Code.construct decl.qualifiedName decl.constructorDescriptor]⟩ t
  | property {note receiver fields s t r r' v} (hr : lowerExpr cx receiver s = .ok r t)
    (hr' : cx.receiver r receiver.note t = .ok r' t)
    (hv : cx.loadFields r' note.span fields t = .ok v t) :
    ExprRun cx (.property note receiver fields) s v t
  | step {note op operand name s storage kind}
      (hst : cx.storageOf name operand.span s = .ok storage s)
    (hk : storage.type.numeric? = some kind) :
    ExprRun cx (.step note op (.ident operand name)) s
      ⟨.void, storage.load cx.frame ++ [Code.pushOne kind] ++ arithmeticCode kind op.arithmetic ++
        storage.store cx.frame⟩ s
  | negate {note operand s t planned kind v} (hp : cx.plannedType operand s = .ok planned s)
    (hk : planned.numeric? = some kind) (hv : lowerExpr cx operand s = .ok v t)
    (hvv : v.type.isVoid = false) :
    ExprRun cx (.negate note operand) s
      ⟨.primitive kind, (v.code ++ coerce v.type (.primitive kind)) ++ arithmeticCode kind .neg⟩ t
  | not {note operand s t v} (hv : lowerExpr cx operand s = .ok v t) (hvv : v.type.isVoid = false) :
    ExprRun cx (.not note operand) s
      ⟨.boolean, (v.code ++ coerce v.type .boolean) ++ [Code.pushInt 1, .op .ixor]⟩ t
  | group {note inner s v t} (hi : lowerExpr cx inner s = .ok v t) :
      ExprRun cx (.group note inner) s v t
  | emptyList {note s type} (hn : Specialization.resolve cx.bindings note.type = .ok type) :
    ExprRun cx (.emptyList note) s ⟨wrapperType type, newWrapper type⟩ s
  | listOf {note entries s t type code}
      (hn : Specialization.resolve cx.bindings note.type = .ok type)
    (he : lowerEntries cx entries s = .ok code t) :
    ExprRun cx (.listOf note entries) s
      ⟨wrapperType type, newWrapper type ++ (if entries.isEmpty then [] else fillWrapper code)⟩ t
  | absent {e s} (he : e.isAbsent) : ExprRun cx e s Lowered.absent s

variable {cx : BodyContext} {s t : LowerState} {v : Lowered}

theorem isVoid_of_into {type target : Ty} (h : type.isVoid → target.isVoid)
    (ht : target.isVoid = false) : type.isVoid = false := by
  cases hv : type.isVoid with
  | false => rfl
  | true => rw [h hv] at ht; cases ht

theorem isVoid_numeric {t : Ty} {kind : Primitive} (h : t.numeric? = some kind) :
    (Ty.primitive kind).isVoid = false := by
  rw [Ty.numeric?, Option.filter_eq_some_iff] at h
  cases kind <;> first | rfl | cases h.2

theorem eq_string {t : Ty} (h : t.isString) : t = .string := by
  cases t with
  | primitive kind => cases kind <;> first | rfl | cases h
  | _ => cases h

theorem exprRun_binary {note : Note} {op : BinaryOp} {left right : Expr}
    (h : lowerExpr cx (.binary note op left right) s = .ok v t) :
    ExprRun cx (.binary note op left right) s v t := by
  rw [lowerExpr, bind_ok] at h
  obtain ⟨result, _, hn, h⟩ := h
  obtain ⟨hresolve, rfl⟩ := BodyContext.resolve_ok.mp hn
  split_ifs at h with hstring hlogic hpow
  · simp only [bind_ok, pure_ok, Lowered.appended_ok] at h
    obtain ⟨l, s₁, hl, _, _, ⟨hlv, rfl, rfl⟩, r, s₂, hr, _, _, ⟨hrv, rfl, rfl⟩, rfl, rfl⟩ := h
    simp only [Bool.and_eq_true, Bool.not_eq_true'] at hstring
    exact .concat (eq_string hstring.1 ▸ hresolve) hstring.2 hl hlv hr hrv
  · simp only [bind_ok, pure_ok, Lowered.into_ok, Lower.newLabel_ok] at h
    obtain ⟨_, _, ⟨rfl, rfl⟩, _, _, ⟨rfl, rfl⟩, l, s₁, hl, _, _, ⟨hlv, rfl, rfl⟩, r, s₂, hr, _, _,
      ⟨hrv, rfl, rfl⟩, rfl, rfl⟩ := h
    rw [LowerState.skip_skip] at hl
    exact .logic hlogic hl (isVoid_of_into hlv rfl) hr (isVoid_of_into hrv rfl)
  · exact (throw_ok.mp h).elim
  · simp only [bind_ok] at h
    obtain ⟨lt, _, hlt, rt, _, hrt, plan, s₁, hplan, h⟩ := h
    obtain rfl := BodyContext.plannedType_state hlt
    obtain rfl := BodyContext.plannedType_state hrt
    cases plan with
    | none => exact (throw_ok.mp h).elim
    | some plan =>
      simp only [bind_ok, pure_ok, Lowered.into_ok] at h
      obtain ⟨l, s₂, hl, _, _, ⟨hlv, rfl, rfl⟩, r, s₃, hr, _, _, ⟨hrv, rfl, rfl⟩, rfl, rfl⟩ := h
      exact .planned hlt hrt hplan hl hlv hr hrv

theorem exprRun_assign {note : Note} {target value : Expr}
    (h : lowerExpr cx (.assign note target value) s = .ok v t) :
    ExprRun cx (.assign note target value) s v t := by
  cases target with
  | ident target name =>
    simp only [lowerExpr, bind_ok, pure_ok, Lowered.into_ok] at h
    obtain ⟨storage, _, hst, v, s₁, hv, _, _, ⟨hvv, rfl, rfl⟩, rfl, rfl⟩ := h
    obtain ⟨-, -, rfl⟩ := BodyContext.storageOf_ok.mp hst
    exact .assignName hst hv hvv
  | property target receiver fields =>
    rw [lowerExpr] at h
    cases hlast : fields.getLast? with
    | none => simp only [hlast, throw_ok] at h
    | some last =>
      simp only [hlast, bind_ok, pure_ok, Lowered.into_ok] at h
      obtain ⟨r, s₁, hr, r', _, hr', owner, _, howner, ⟨decl, declared⟩, _, hfield, v, s₂, hv, _, _,
        ⟨hvv, rfl, rfl⟩, rfl, rfl⟩ := h
      obtain ⟨rfl, -⟩ := BodyContext.receiver_ok hr'
      obtain rfl := BodyContext.loadFields_state howner
      obtain rfl := structField_state hfield
      exact .assignField hlast hr hr' howner hfield hv hvv
  | _ => simp only [lowerExpr, throw_ok] at h

/-- With an argument for each field, the site spells the descriptor of the constructor. -/
theorem StructDef.siteDescriptor_eq {d : StructDef} {args : List Expr}
    (h : d.fields.length = args.length) : d.siteDescriptor args = d.constructorDescriptor := by
  have hzip : (d.fields.zip args).map Prod.fst = d.fields := List.map_fst_zip (Nat.le_of_eq h)
  have hparams : (d.fields.zip args).foldl (fun params pair => params ++ pair.1.2.descriptor) "" =
      ((d.fields.zip args).map Prod.fst).foldl
        (fun params field => params ++ field.2.descriptor) "" := by
    rw [List.foldl_map]
  rw [siteDescriptor, hparams, hzip, constructorDescriptor, String.join, List.foldl_map]

theorem exprRun_call {note : Note} {callee : Expr} {args : List Expr}
    (h : lowerExpr cx (.call note callee args) s = .ok v t) :
    ExprRun cx (.call note callee args) s v t := by
  rw [lowerExpr, bind_ok] at h
  obtain ⟨u, _, hc, h⟩ := h
  obtain rfl := BodyContext.callee_state hc
  cases u with
  | function sig =>
    simp only [bind_ok, checkArity_ok] at h
    obtain ⟨_, _, ⟨harity, rfl⟩, h⟩ := h
    cases hlink : sig.linkage with
    | external owner method =>
      simp only [hlink, bind_ok, pure_ok] at h
      obtain ⟨code, s₁, hargs, rfl, rfl⟩ := h
      exact .callExternal hc harity hlink hargs
    | user owner =>
      simp only [hlink, bind_ok, pure_ok] at h
      obtain ⟨types, _, htypes, ⟨map, params, ret⟩, _, hspec, code, s₁, hargs, unit, s₂, hunit,
          rfl, rfl⟩ := h
      obtain rfl := BodyContext.mapM_plannedType_state htypes
      obtain ⟨-, rfl⟩ := BodyContext.specialize_ok hspec
      exact .callUser hc harity hlink htypes hspec hargs hunit
  | struct decl bindings =>
    simp only [bind_ok, checkArity_ok, pure_ok, BodyContext.resolve_ok] at h
    obtain ⟨_, _, ⟨harity, rfl⟩, code, s₁, hargs, annotated, _, ⟨hn, rfl⟩, rfl, rfl⟩ := h
    rw [StructDef.siteDescriptor_eq harity]
    exact .construct hc harity hargs hn
  | _ => exact (throw_ok.mp h).elim

theorem exprRun_step {note : Note} {op : StepOp} {operand : Expr}
    (h : lowerExpr cx (.step note op operand) s = .ok v t) :
    ExprRun cx (.step note op operand) s v t := by
  cases operand with
  | ident operand name =>
    simp only [lowerExpr, bind_ok] at h
    obtain ⟨storage, _, hst, h⟩ := h
    obtain ⟨-, -, rfl⟩ := BodyContext.storageOf_ok.mp hst
    cases hk : storage.type.numeric? with
    | none => simp only [hk, throw_ok] at h
    | some kind =>
      simp only [hk, pure_ok] at h
      obtain ⟨rfl, rfl⟩ := h
      exact .step hst hk
  | _ => simp only [lowerExpr, throw_ok] at h

theorem exprRun_negate {note : Note} {operand : Expr}
    (h : lowerExpr cx (.negate note operand) s = .ok v t) :
    ExprRun cx (.negate note operand) s v t := by
  simp only [lowerExpr, bind_ok] at h
  obtain ⟨planned, _, hp, h⟩ := h
  obtain rfl := BodyContext.plannedType_state hp
  cases hk : planned.numeric? with
  | none => simp only [hk, throw_ok] at h
  | some kind =>
    simp only [hk, bind_ok, pure_ok, Lowered.into_ok] at h
    obtain ⟨v, s₁, hv, _, _, ⟨hvv, rfl, rfl⟩, rfl, rfl⟩ := h
    exact .negate hp hk hv (isVoid_of_into hvv (isVoid_numeric hk))

/-- A lowering that succeeds does so in one of these ways. -/
theorem exprRun_of_ok {e : Expr} (h : lowerExpr cx e s = .ok v t) : ExprRun cx e s v t := by
  cases e with
  | literal note value =>
    simp only [lowerExpr, pure_ok] at h
    obtain ⟨rfl, rfl⟩ := h
    exact .literal
  | ident note name =>
    simp only [lowerExpr, bind_ok, pure_ok] at h
    obtain ⟨storage, _, hst, rfl, rfl⟩ := h
    obtain ⟨-, -, rfl⟩ := BodyContext.storageOf_ok.mp hst
    exact .ident hst
  | binary note op left right => exact exprRun_binary h
  | assign note target value => exact exprRun_assign h
  | call note callee args => exact exprRun_call h
  | property note receiver fields =>
    simp only [lowerExpr, bind_ok] at h
    obtain ⟨r, s₁, hr, r', _, hr', hv⟩ := h
    obtain ⟨rfl, -⟩ := BodyContext.receiver_ok hr'
    obtain rfl := BodyContext.loadFields_state hv
    exact .property hr hr' hv
  | step note op operand => exact exprRun_step h
  | negate note operand => exact exprRun_negate h
  | not note operand =>
    simp only [lowerExpr, bind_ok, pure_ok, Lowered.into_ok] at h
    obtain ⟨v, s₁, hv, _, _, ⟨hvv, rfl, rfl⟩, rfl, rfl⟩ := h
    exact .not hv (isVoid_of_into hvv rfl)
  | group note inner =>
    rw [lowerExpr] at h
    exact .group h
  | emptyList note =>
    simp only [lowerExpr, bind_ok, pure_ok, BodyContext.resolve_ok] at h
    obtain ⟨type, _, ⟨hn, rfl⟩, rfl, rfl⟩ := h
    exact .emptyList hn
  | listOf note entries =>
    simp only [lowerExpr, bind_ok, pure_ok, BodyContext.resolve_ok] at h
    obtain ⟨type, _, ⟨hn, rfl⟩, code, s₁, he, rfl, rfl⟩ := h
    exact .listOf hn he
  | index note target position => simp only [lowerExpr, throw_ok] at h
  | _ =>
    rw [lowerExpr, pure_ok] at h
    obtain ⟨rfl, rfl⟩ := h
    exact .absent rfl

end ClassGen
