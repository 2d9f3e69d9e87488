import ClassGen.Proofs.Linking.Table
import ClassGen.Proofs.StackKinds.Expr

/-! The calls of generic functions that an expression makes. Which instantiation a call asks for
depends on the context and the declared locals alone, so the calls of an expression can be listed
beforehand: lowering it records them, in order, and emits an instruction for each. -/

namespace ClassGen

open Run LowerState

/-- A call of a generic function of the file: the instantiation it asks for. -/
structure GenericCall where
  sig : Signature
  map : Bindings
  params : List Ty
  ret : Ty
  instantiates : sig.instantiate map = .ok (params, ret)

namespace GenericCall

def descriptor (c : GenericCall) : String := methodDescriptor c.params c.ret

/-- The instruction, in the file unit `unit`. -/
def instr (unit : String) (c : GenericCall) : Instr :=
  Code.callStatic ⟨unit, mangle c.sig.name, c.descriptor⟩

/-- The instantiation that `sig` gets from arguments of these types. -/
def of? (sig : Signature) (types : List Ty) : Option GenericCall :=
  match sig.specialize types with
  | .ok map =>
    match h : sig.instantiate map with
    | .ok (params, ret) => some ⟨sig, map, params, ret, h⟩
    | .error _ => none
  | .error _ => none

theorem of?_eq {sig : Signature} {types params : List Ty} {map : Bindings} {ret : Ty}
    (hmap : sig.specialize types = .ok map) (h : sig.instantiate map = .ok (params, ret)) :
    of? sig types = some ⟨sig, map, params, ret, h⟩ := by
  simp only [of?, hmap]
  split
  · next params' ret' h' =>
    obtain ⟨rfl, rfl⟩ : params' = params ∧ ret' = ret := by
      simpa using h'.symm.trans h
    rfl
  · next h' => simp [h] at h'

end GenericCall

namespace SpecializationTable

/-- After the requests of these calls. -/
def recordAll (t : SpecializationTable) (calls : List GenericCall) : SpecializationTable :=
  calls.foldl (fun t c => t.record c.sig c.map) t

theorem recordAll_append (t : SpecializationTable) (as bs : List GenericCall) :
    t.recordAll (as ++ bs) = (t.recordAll as).recordAll bs := List.foldl_append

end SpecializationTable

namespace BodyContext

variable (cx : BodyContext) (locals : List ((ScopeId × String) × LocalVar))

/-- The type that is planned for an expression where these locals are declared. -/
def planned? : Expr → Option Ty
  | .ident note name =>
    match cx.storageIn? locals name (cx.file.scopes.chain cx.scope) with
    | some storage => some storage.type
    | none => (Specialization.resolve cx.bindings note.type).toOption
  | .group _ inner => planned? inner
  | e => (Specialization.resolve cx.bindings e.note.type).toOption

def callee? : Expr → Option Ty
  | .ident _ name => cx.file.scopes.lookup cx.scope name
  | e => some e.type

/-- The call, if it is one of a generic function of the file. -/
def genericCall? (callee : Expr) (args : List Expr) : Option GenericCall :=
  match cx.callee? callee with
  | some (.function sig) =>
    if sig.linkage = .user none ∧ sig.isGeneric then
      (args.mapM (cx.planned? locals)).bind (GenericCall.of? sig)
    else none
  | _ => none

mutual

/-- The calls of generic functions in an expression, in the order they are lowered. -/
def calls : Expr → List GenericCall
  | .binary _ _ left right => calls left ++ calls right
  | .assign _ (.property _ target _) value => calls target ++ calls value
  | .assign _ _ value => calls value
  | .call _ callee args => callsIn args ++ (cx.genericCall? locals callee args).toList
  | .property _ target _ => calls target
  | .negate _ operand | .not _ operand | .group _ operand => calls operand
  | .listOf _ entries => callsIn entries
  | _ => []

def callsIn : List Expr → List GenericCall
  | [] => []
  | e :: rest => calls e ++ callsIn rest

end

variable {cx} {s t : LowerState}

theorem plannedType_ok {e : Expr} {u : Ty} (h : cx.plannedType e s = .ok u t) :
    cx.planned? s.body.locals e = some u := by
  induction e using plannedType.induct with
  | case1 note name =>
    simp only [plannedType, bind_ok, storage?_ok] at h
    obtain ⟨o, _, ⟨ho, rfl⟩, h⟩ := h
    cases o with
    | none =>
      obtain ⟨hu, -⟩ := resolve_ok.mp h
      simp [planned?, ho, hu, Except.toOption]
    | some st =>
      obtain ⟨rfl, -⟩ := pure_ok.mp h
      simp [planned?, ho]
  | case2 note inner ih =>
    rw [plannedType] at h
    rw [planned?]
    exact ih h
  | case3 e hi hg =>
    rw [plannedType] at h
    · obtain ⟨hu, -⟩ := resolve_ok.mp h
      rw [planned?]
      · simp [hu, Except.toOption]
      · exact hi
      · exact hg
    · exact hi
    · exact hg

theorem mapM_plannedType_ok {es : List Expr} {us : List Ty}
    (h : es.mapM cx.plannedType s = .ok us t) : es.mapM (cx.planned? s.body.locals) = some us := by
  induction es generalizing s us with
  | nil =>
    obtain ⟨rfl, -⟩ := pure_ok.mp h
    rfl
  | cons e es ih =>
    simp only [List.mapM_cons, bind_ok, pure_ok] at h
    obtain ⟨u, r, hu, vs, q, hvs, rfl, rfl⟩ := h
    obtain rfl := plannedType_state hu
    simp [List.mapM_cons, plannedType_ok hu, ih hvs]

theorem callee_ok {e : Expr} {u : Ty} (h : cx.callee e s = .ok u t) : cx.callee? e = some u := by
  cases e with
  | ident note name =>
    cases hl : cx.file.scopes.lookup cx.scope name <;>
      simp only [callee, hl, throw_ok, pure_ok] at h
    rw [callee?, hl, h.1]
  | _ => exact congrArg some (pure_ok.mp h).1

theorem specialize_map {sig : Signature} {args params : List Ty} {span : Span}
    {map : Bindings} {ret : Ty} (h : specialize sig args span s = .ok (map, params, ret) t) :
    sig.specialize args = .ok map := by
  unfold specialize at h
  cases hm : sig.specialize args with
  | error e => simp [hm, bind, Except.bind, throw_ok] at h
  | ok m =>
    by_cases hg : sig.isGeneric
    · cases hi : sig.instantiate m with
      | error e => simp [hm, hg, hi, bind, Except.bind, throw_ok] at h
      | ok a =>
        simp [hm, hg, hi, bind, Except.bind, pure, Except.pure, EStateM.pure] at h
        rw [h.1.1]
    · simp [hm, hg, bind, Except.bind, pure, Except.pure, EStateM.pure] at h
      rw [h.1.1]

/-- Only a call of a generic function of the file is recorded. -/
theorem linkedUnit_table {sig : Signature} {owner : Option String} {map : Bindings}
    {descriptor unit : String} (h : cx.linkedUnit sig owner map descriptor s = .ok unit t) :
    (owner = none → unit = cx.file.unitName) ∧
      t.file.table = if owner = none ∧ sig.isGeneric then s.file.table.record sig map
        else s.file.table := by
  cases owner with
  | some owner =>
    obtain ⟨-, rfl⟩ := pure_ok.mp h
    simp
  | none =>
    simp only [linkedUnit] at h
    cases hg : sig.isGeneric with
    | true =>
      rw [hg, if_pos rfl] at h
      obtain ⟨_, r, hr, h⟩ := bind_ok.mp h
      obtain ⟨rfl, rfl⟩ := pure_ok.mp h
      simp only [requireInstance, bind_ok, get_ok, set_ok] at hr
      obtain ⟨_, _, ⟨rfl, rfl⟩, _, _, rfl, hr⟩ := hr
      split at hr
      · obtain rfl := Lower.log_ok.mp hr
        exact ⟨fun _ => rfl, rfl⟩
      · obtain ⟨-, rfl⟩ := pure_ok.mp hr
        exact ⟨fun _ => rfl, rfl⟩
    | false =>
      rw [hg, if_neg Bool.false_ne_true] at h
      obtain ⟨rfl, rfl⟩ := pure_ok.mp h
      simp

theorem loadFields_subset {fields : List String} {owner v : Lowered} {span : Span}
    (h : cx.loadFields owner span fields s = .ok v t) : owner.code ⊆ v.code := by
  induction fields generalizing s owner with
  | nil =>
    obtain ⟨rfl, -⟩ := pure_ok.mp h
    exact List.Subset.refl _
  | cons field rest ih =>
    simp only [loadFields, loadField, bind_ok, pure_ok] at h
    obtain ⟨next, r, ⟨_, _, -, rfl, -⟩, hr⟩ := h
    refine List.Subset.trans (fun i hi => ?_) (ih hr)
    simp [hi]

theorem receiver_subset {v r : Lowered} {note : Note} (h : cx.receiver v note s = .ok r t) :
    v.code ⊆ r.code := by
  obtain ⟨-, rfl | ⟨_, _, _, -, rfl⟩ | ⟨_, _, -, rfl⟩⟩ := receiver_ok h
  · exact List.Subset.refl _
  · exact List.Subset.refl _
  · exact List.subset_append_left _ _

end BodyContext

open BodyContext

/-- From `s` to `t` the calls were recorded, and their instructions are in the code. -/
structure Calls (cx : BodyContext) (s : LowerState) (code : Code) (t : LowerState)
    (calls : List GenericCall) : Prop where
  table : t.file.table = s.file.table.recordAll calls
  code : ∀ c ∈ calls, c.instr cx.file.unitName ∈ code

variable {cx : BodyContext} {s t u : LowerState}

namespace Calls

theorem none (htable : t.file.table = s.file.table) {code : Code} : Calls cx s code t [] :=
  ⟨htable, nofun⟩

theorem mono {c d : Code} {as : List GenericCall} (h : Calls cx s c t as) (hsub : c ⊆ d) :
    Calls cx s d t as :=
  ⟨h.table, fun a ha => hsub (h.code a ha)⟩

/-- From a state with the same table. -/
theorem start {c : Code} {as : List GenericCall} (h : Calls cx t c u as)
    (htable : t.file.table = s.file.table) : Calls cx s c u as :=
  ⟨htable ▸ h.table, h.code⟩

/-- One after the other, in code that has the code of both. -/
theorem append {c d e : Code} {as bs : List GenericCall} (h : Calls cx s c t as)
    (k : Calls cx t d u bs) (hc : c ⊆ e) (hd : d ⊆ e) : Calls cx s e u (as ++ bs) where
  table := by rw [k.table, h.table, SpecializationTable.recordAll_append]
  code a ha := by
    rcases List.mem_append.mp ha with ha | ha
    · exact hc (h.code a ha)
    · exact hd (k.code a ha)

end Calls

theorem plan_table {op : BinaryOp} {lt rt : Ty} {plan : Option OperatorPlan}
    (h : op.plan? lt rt s = .ok plan t) : t.file.table = s.file.table := by
  cases hrel : op.isRelational with
  | true =>
    obtain ⟨-, rfl⟩ := (BinaryOp.plan?_ok_relational hrel).mp h
    rfl
  | false =>
    by_cases hx : op = .xor
    · subst hx
      obtain ⟨-, rfl⟩ := BinaryOp.plan?_ok_xor.mp h
      rfl
    · obtain ⟨-, rfl⟩ := (BinaryOp.plan?_ok_arithmetic hrel hx).mp h
      rfl

/-- A call and its arguments; it counts if it is one of a generic function of the file. -/
theorem calls_user {note : Note} {callee : Expr} {args : List Expr} {sig : Signature}
    {owner : Option String} {types params : List Ty} {map : Bindings} {ret : Ty} {code : Code}
    {unit : String} {s₁ : LowerState} (hc : cx.callee callee s = .ok (.function sig) s)
    (hlink : sig.linkage = .user owner) (htypes : args.mapM cx.plannedType s = .ok types s)
    (hspec : BodyContext.specialize sig types note.span s = .ok (map, params, ret) s)
    (hargs : Calls cx s code s₁ (cx.callsIn s.body.locals args))
    (hunit : cx.linkedUnit sig owner map (methodDescriptor params ret) s₁ = .ok unit t) :
    Calls cx s (code ++ [Code.callStatic ⟨unit, mangle sig.name, methodDescriptor params ret⟩]) t
      (cx.calls s.body.locals (.call note callee args)) := by
  obtain ⟨hname, htable⟩ := linkedUnit_table hunit
  rw [BodyContext.calls]
  refine hargs.append ?_ (List.subset_append_left _ _) (List.subset_append_right _ _)
  by_cases hg : owner = none ∧ sig.isGeneric
  · have hinst := (specialize_ok hspec).1
    rw [if_pos hg.2] at hinst
    have hcall : cx.genericCall? s.body.locals callee args =
        some ⟨sig, map, params, ret, hinst⟩ := by
      rw [genericCall?, callee_ok hc]
      simp only [hlink, hg, and_self, if_true, mapM_plannedType_ok htypes, Option.bind_some]
      exact GenericCall.of?_eq (specialize_map hspec) hinst
    rw [hcall]
    refine ⟨by rw [htable, if_pos hg]; rfl, ?_⟩
    simp [GenericCall.instr, GenericCall.descriptor, hname hg.1]
  · have hcall : cx.genericCall? s.body.locals callee args = none := by
      rw [genericCall?, callee_ok hc]
      simpa [hlink] using fun ho hg' => (hg ⟨ho, hg'⟩).elim
    rw [hcall]
    exact .none (by rw [htable, if_neg hg])

theorem genericCall?_external {callee : Expr} {args : List Expr} {sig : Signature}
    {owner method : String} {locals : List ((ScopeId × String) × LocalVar)}
    (hc : cx.callee callee s = .ok (.function sig) s)
    (hlink : sig.linkage = .external owner method) : cx.genericCall? locals callee args = none := by
  simp [genericCall?, callee_ok hc, hlink]

theorem genericCall?_struct {callee : Expr} {args : List Expr} {decl : StructDef}
    {bindings : Bindings} {locals : List ((ScopeId × String) × LocalVar)}
    (hc : cx.callee callee s = .ok (.struct decl bindings) s) :
    cx.genericCall? locals callee args = none := by
  simp [genericCall?, callee_ok hc]

mutual

theorem lowerExpr_calls : ∀ {e : Expr} {s t : LowerState} {v : Lowered},
    lowerExpr cx e s = .ok v t →
    Calls cx s v.code t (cx.calls s.body.locals e) := by
  intro e s t v h
  cases exprRun_of_ok h with
  | literal => exact .none rfl
  | ident hst => exact .none rfl
  | concat hs hop hl hlv hr hrv =>
    rw [BodyContext.calls]
    exact (lowerExpr_calls hl).append ((lowerExpr_kept hl).locals ▸ lowerExpr_calls hr)
      (fun i hi => by simp [Code.concat, hi]) (fun i hi => by simp [Code.concat, hi])
  | logic hop hl hlv hr hrv =>
    rw [BodyContext.calls]
    have hleft : Calls cx s _ _ _ := (lowerExpr_calls hl).start rfl
    exact hleft.append ((lowerExpr_kept hl).locals ▸ lowerExpr_calls hr)
      (fun i hi => by simp [Code.shortCircuit, hi]) (fun i hi => by simp [Code.shortCircuit, hi])
  | planned hlt hrt hplan hl hlv hr hrv =>
    have hkept := plan_kept hplan
    have hleft := (lowerExpr_calls hl).start (plan_table hplan)
    have hright := lowerExpr_calls hr
    rw [(lowerExpr_kept hl).locals, hkept.locals] at hright
    rw [hkept.locals] at hleft
    rw [BodyContext.calls]
    exact hleft.append hright (fun i hi => by simp [hi]) (fun i hi => by simp [hi])
  | assignName hst hv hvv =>
    rw [BodyContext.calls]
    · exact (lowerExpr_calls hv).mono fun i hi => by simp [hi]
    · nofun
  | assignField hlast hr hr' howner hfield hv hvv =>
    rw [BodyContext.calls]
    have hcode := List.Subset.trans (receiver_subset hr') (loadFields_subset howner)
    exact (lowerExpr_calls hr).append ((lowerExpr_kept hr).locals ▸ lowerExpr_calls hv)
      (fun i hi => by simp [hcode hi]) (fun i hi => by simp [hi])
  | callExternal hc harity hlink hargs =>
    rw [BodyContext.calls, genericCall?_external hc hlink, Option.toList_none, List.append_nil]
    exact (lowerArgs_calls hargs (by simp [Signature.paramTypes,
      harity])).mono (List.subset_append_left _ _)
  | callUser hc harity hlink htypes hspec hargs hunit =>
    have hlength := specialize_length hspec
    exact calls_user hc hlink htypes hspec (lowerArgs_calls hargs (by omega)) hunit
  | construct hc harity hargs hn =>
    rw [BodyContext.calls, genericCall?_struct hc, Option.toList_none, List.append_nil]
    exact (lowerArgs_calls hargs (by simp [harity])).mono fun i hi => by simp [hi]
  | property hr hr' hv =>
    rw [BodyContext.calls]
    exact (lowerExpr_calls hr).mono (List.Subset.trans (receiver_subset hr') (loadFields_subset hv))
  | step hst hk => exact .none rfl
  | negate hp hk hv hvv =>
    rw [BodyContext.calls]
    exact (lowerExpr_calls hv).mono fun i hi => by simp [hi]
  | not hv hvv =>
    rw [BodyContext.calls]
    exact (lowerExpr_calls hv).mono fun i hi => by simp [hi]
  | group hi =>
    rw [BodyContext.calls]
    exact lowerExpr_calls hi
  | emptyList hn => exact .none rfl
  | @listOf _ entries _ _ _ _ hn he =>
    rw [BodyContext.calls]
    cases entries with
    | nil =>
      obtain ⟨-, rfl⟩ := pure_ok.mp he
      exact .none rfl
    | cons => exact (lowerEntries_calls he).mono fun i hi => by simp [fillWrapper, hi]
  | absent he =>
    cases e <;> first | exact .none rfl | cases he

theorem lowerArgs_calls : ∀ {args : List Expr} {types : List Ty} {s t : LowerState} {c : Code},
    lowerArgs cx args types s = .ok c t → args.length ≤ types.length →
    Calls cx s c t (cx.callsIn s.body.locals args)
  | [], _, s, t, c, h, _ => by
    obtain ⟨-, rfl⟩ := pure_ok.mp h
    exact .none rfl
  | arg :: args, type :: types, s, t, c, h, hle => by
    simp only [lowerArgs, bind_ok, pure_ok, Lowered.into_ok] at h
    obtain ⟨v, s₁, hv, _, _, ⟨-, rfl, rfl⟩, rest, _, hrest, rfl, rfl⟩ := h
    rw [callsIn]
    exact (lowerExpr_calls hv).append
      ((lowerExpr_kept hv).locals ▸ lowerArgs_calls hrest (Nat.le_of_succ_le_succ hle))
      (fun i hi => by simp [hi]) (List.subset_append_right _ _)

theorem lowerEntries_calls : ∀ {entries : List Expr} {s t : LowerState} {c : Code},
    lowerEntries cx entries s = .ok c t → Calls cx s c t (cx.callsIn s.body.locals entries)
  | [], s, t, c, h => by
    obtain ⟨-, rfl⟩ := pure_ok.mp h
    exact .none rfl
  | entry :: entries, s, t, c, h => by
    simp only [lowerEntries, bind_ok, pure_ok, Lowered.into_ok] at h
    obtain ⟨v, s₁, hv, _, _, ⟨-, rfl, rfl⟩, rest, _, hrest, rfl, rfl⟩ := h
    rw [callsIn]
    exact (lowerExpr_calls hv).append ((lowerExpr_kept hv).locals ▸ lowerEntries_calls hrest)
      (fun i hi => by simp [hi]) (fun i hi => by simp [hi])

end

end ClassGen
