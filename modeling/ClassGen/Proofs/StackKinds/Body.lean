import ClassGen.Proofs.StackKinds.Stmt

/-! The methods that lowering emits: those of functions, and the constructor and textual form of a
struct. -/

namespace ClassGen

open Run Faithful LowerState

variable {file : FileContext} {declared : List FunctionDecl} {s t : LowerState}

/-! ### Frames -/

theorem frame_start {access : Access} {name descriptor : String} {frame : Frame}
    (h : Frame.start access name descriptor = .ok frame) :
    ∃ d, MethodDescriptor.parse descriptor = .ok d ∧ frame.access = access ∧ frame.descriptor =
      descriptor ∧
      frame.returnsVoid = d.ret.isNone ∧ ∃ base,
      frame.args = List.zipWith Arg.mk (d.argOffsets base) d.params := by
  unfold Frame.start at h
  cases hparse : MethodDescriptor.parse descriptor with
  | error e => simp [hparse, Except.map] at h
  | ok d =>
    rw [hparse] at h
    cases h
    exact ⟨d, rfl, rfl, rfl, rfl, _, rfl⟩

/-- The arguments of a method stand in the order of its parameters. -/
theorem hasArg_of_start {access : Access} {name : String} {params : List Ty} {type t : Ty}
    {frame : Frame} {i : Nat} (h : Frame.start access name (methodDescriptor params type) =
      .ok frame) (hp : ∀ t ∈ params, t.isValued)
    (hr : type.isNamed) (hi : params[i]? = some t) : frame.HasArg i t := by
  obtain ⟨d, hparse, -, -, hfields, -⟩ := parse_valuedMethod hp hr
  obtain ⟨d', hparse', -, -, -, base, hargs⟩ := frame_start h
  obtain rfl : d = d' := Except.ok.inj (hparse.symm.trans hparse')
  have hfield : (d.params.map some)[i]? = some t.fieldType? := by
    rw [← hfields, List.getElem?_map, hi]
    rfl
  rw [List.getElem?_map] at hfield
  obtain ⟨f, hf, htype⟩ := Option.map_eq_some_iff.mp hfield
  have hlen : i < (d.argOffsets base).length := by
    rw [MethodDescriptor.argOffsets, MethodDescriptor.offsetsFrom_length]
    exact (List.getElem?_eq_some_iff.mp hf).1
  refine ⟨⟨(d.argOffsets base)[i], f⟩, ?_, htype.symm⟩
  rw [hargs, List.getElem?_zipWith, List.getElem?_eq_getElem hlen, hf]

/-- The frame returns what its descriptor says. -/
theorem returnsVoid_kinds {d : MethodDescriptor} {ret : List Kind}
    (hret : d.resultKinds? = some ret) : d.ret.isNone = true → ret = [] := by
  intro hnone
  rw [Option.isNone_iff_eq_none] at hnone
  rw [MethodDescriptor.resultKinds?, hnone] at hret
  exact (Option.some.inj hret).symm

theorem settled_finish {ρ : Label → List Kind} {ret : List Kind} {f : Frame} {c : Code}
    {B : List Nat} (h : Settled ρ ret c B) (hret : f.returnsVoid = true → ret = []) :
    Settled ρ ret (f.finish c).code B := by
  unfold Frame.finish
  simp only
  split
  · next hcond =>
    rw [Bool.and_eq_true] at hcond
    obtain rfl := hret hcond.2
    exact h.then flows_leave
  · exact h

/-! ### Safe methods -/

theorem stackSafe_of_settled {m : Method} {d : MethodDescriptor} {ret : List Kind}
    {ρ : Label → List Kind} {B : List Nat} (hparse : MethodDescriptor.parse m.descriptor = .ok d)
    (hret : d.resultKinds? = some ret) (h : Settled ρ ret m.code B)
    (hB : Boundaries file declared m B) : StackSafe file declared m := by
  obtain ⟨J, -, hrun⟩ := h.flows []
  refine ⟨⟨d, ret, Flow.at ρ ret m.code, B, hparse, hret, Flow.typing_of_run hrun, hB,
    fun n hn => ?_⟩, maxStack_of_run hrun⟩
  obtain ⟨J', -, hprefix⟩ := (h.clear n hn).2 []
  exact Flow.at_of_stack hprefix rfl

/-- A method without statements that is finished in a frame of its own. -/
theorem stackSafe_generated {access : Access} {name descriptor : String} {frame : Frame} {c : Code}
    {d : MethodDescriptor} {ret : List Kind} {ρ : Label → List Kind}
    (h : Frame.start access name descriptor = .ok frame) (ha : access ≠ .publicStatic)
    (hparse : MethodDescriptor.parse descriptor = .ok d) (hret : d.resultKinds? = some ret)
    (hc : Flows ρ ret c (some []) (some [])) : StackSafe file declared (frame.finish c) := by
  obtain ⟨d', hparse', haccess, hdescriptor, hvoid, -⟩ := frame_start h
  obtain rfl : d = d' := Except.ok.inj (hparse.symm.trans hparse')
  have hsettled : Settled ρ ret (frame.finish c).code [] :=
    settled_finish (.of_flows hc) fun hr => returnsVoid_kinds hret (hvoid ▸ hr)
  refine stackSafe_of_settled (m := frame.finish c) ?_ hret hsettled (.generated ?_)
  · rw [show (frame.finish c).descriptor = descriptor from hdescriptor]
    exact hparse
  · rw [show (frame.finish c).access = access from haccess]
    exact ha

/-! ### Methods of functions -/

namespace MethodPlan

/-- The descriptor shows the parameters and the result of the plan; only the entry point has an
argument that is no parameter. -/
def Described (plan : MethodPlan) : Prop :=
  plan.params = [] ∧ plan.descriptor = mainDescriptor ∧ plan.ret = .void ∨
    plan.descriptor = methodDescriptor (plan.params.map Prod.snd) plan.ret

theorem declared_described {name : String} {sig : Signature}
    (h : (name != "main" || sig.params.isEmpty) = true) :
    (MethodPlan.declared name sig).Described := by
  unfold MethodPlan.declared
  split
  · next hmain =>
    subst hmain
    exact .inl ⟨List.isEmpty_iff.mp h, rfl, rfl⟩
  · exact .inr rfl

theorem instantiated_described {name : String} {sig : Signature} {map : Bindings}
    {plan : MethodPlan} (h : MethodPlan.instantiated name sig map = .ok plan) : plan.Described := by
  unfold MethodPlan.instantiated at h
  cases hi : sig.instantiate map with
  | error e => simp [hi, bind, Except.bind] at h
  | ok found =>
    obtain ⟨params, ret⟩ := found
    simp only [hi, bind, Except.bind, pure, Except.pure, Except.ok.injEq] at h
    subst h
    refine .inr ?_
    have hlen : params.length = (sig.params.map Prod.fst).length := by
      rw [instantiate_length hi, List.length_map]
    rw [List.map_snd_zip (Nat.le_of_eq hlen)]

/-- What the descriptor says about the result and where the parameters stand. -/
theorem Described.frame {plan : MethodPlan} {frame : Frame} (h : plan.Described)
    (hp : ∀ t ∈ plan.params.map Prod.snd, t.isValued) (hr : plan.ret.isNamed)
    (hframe : Frame.start .publicStatic plan.name plan.descriptor = .ok frame) :
    (∃ d, MethodDescriptor.parse plan.descriptor = .ok d ∧ d.resultKinds? = some plan.ret.kinds ∧
      frame.returnsVoid = d.ret.isNone) ∧
    ∀ name i t, BodyContext.lastParam? name 0 plan.params = some (i, t) → frame.HasArg i t := by
  obtain ⟨d, hparse, -, -, hvoid, -⟩ := frame_start hframe
  refine ⟨⟨d, hparse, ?_, hvoid⟩, fun name i t hparam => ?_⟩
  · rcases h with ⟨-, hmain, hret⟩ | hdescriptor
    · rw [hmain] at hparse
      rw [hret, ← Except.ok.inj hparse]
      rfl
    · obtain ⟨d', hparse', -, hresult, -⟩ := parse_valuedMethod hp hr
      rw [hdescriptor, hparse'] at hparse
      rwa [← Except.ok.inj hparse]
  · obtain ⟨j, hj, hget⟩ := BodyContext.lastParam?_get hparam
    rw [Nat.zero_add] at hj
    subst hj
    rcases h with ⟨hnone, -, -⟩ | hdescriptor
    · rw [hnone] at hget
      cases hget
    · rw [hdescriptor] at hframe
      exact hasArg_of_start hframe hp hr (by rw [List.getElem?_map, hget]; rfl)

end MethodPlan

theorem settled_closed {ρ : Label → List Kind} {ret : List Kind} {c : Code} {B : List Nat}
    (plan : MethodPlan) (frame : Frame) (h : Settled ρ ret c B) :
    Settled ρ ret (plan.closed frame c) B := by
  unfold MethodPlan.closed
  split
  · exact h.then (flows_missingReturn plan)
  · exact h

/-- The method of a function that was lowered faithfully is safe, and so are those of functions in
it. -/
theorem body_safe {decl : FunctionDecl} {plan : MethodPlan}
    (ih : StmtsSettle declared decl.body.body) (hplan : decl.Plans plan)
    (hdescribed : plan.Described) (h : lowerBody file plan decl.body s = .ok () t)
    (hf : Faithful.body file plan decl.body s = true) (hsub : decl.functions ⊆ declared)
    (hunits : UnitsSafe file declared s) : UnitsSafe file declared t := by
  cases hemitted : plan.emitted s with
  | true =>
    obtain ⟨_, _, rfl⟩ := lowerBody_emitted hemitted h
    exact ⟨hunits.methods, hunits.structs, hunits.generics⟩
  | false =>
    obtain ⟨name, ⟨scope, statements, span⟩, declSpan⟩ := decl
    obtain ⟨frame, code, u, hframe, hcode, rfl⟩ := (lowerBody_new hemitted).mp h
    rw [Faithful.body, hemitted, Bool.false_or, after_ok (startFrame_ok.mpr ⟨hframe, rfl⟩)] at hf
    simp only [Bool.and_eq_true, List.all_eq_true] at hf
    obtain ⟨⟨hp, hr⟩, hf⟩ := hf
    obtain ⟨⟨d, hparse, hresult, hvoid⟩, hparams⟩ := hdescribed.frame hp hr hframe
    rw [FunctionDecl.functions, List.cons_subset] at hsub
    have hfit : Fit declared (plan.context file frame scope) (plan.opened frame s) :=
      ⟨⟨nofun, hparams⟩, hunits.methods, hunits.structs, hunits.generics⟩
    obtain ⟨hlabelled, hfit'⟩ := ih hcode hf hsub.2 hfit
    obtain ⟨ρ, hsettled⟩ := hlabelled.exists_facts
    have hmethod : StackSafe file declared (plan.method frame u.body.nextSlot code) := by
      obtain ⟨-, -, -, hdescriptor, -⟩ := frame_start hframe
      have hfinished := settled_finish (f := { frame with nextSlot := u.body.nextSlot })
        (settled_closed plan frame hsettled) fun hret => returnsVoid_kinds hresult (hvoid ▸ hret)
      refine stackSafe_of_settled ?_ hresult hfinished (.function hsub.1 hplan hframe hcode)
      rw [show (plan.method frame u.body.nextSlot code).descriptor =
        plan.descriptor from hdescriptor]
      exact hparse
    refine ⟨fun m hm => ?_, hfit'.units.structs, hfit'.units.generics⟩
    rcases List.mem_append.mp hm with hm | hm
    · exact hfit'.units.methods m hm
    · rw [List.mem_singleton.mp hm]
      exact hmethod

theorem function_safe {decl : FunctionDecl} {scope : ScopeId}
    (ih : StmtsSettle declared decl.body.body) (h : lowerFunction file scope decl s = .ok () t)
    (hf : function file scope decl s = true) (hsub : decl.functions ⊆ declared)
    (hunits : UnitsSafe file declared s) : UnitsSafe file declared t := by
  obtain ⟨sig, hlookup, h⟩ := lowerFunction_ok.mp h
  have hnamed : functionNamed file scope decl.name decl.span s = .ok sig s := by
    simp only [functionNamed, hlookup, pure_ok, and_self]
  obtain ⟨name, definition, span⟩ := decl
  rw [function, after_ok hnamed] at hf
  split_ifs at h with hgeneric
  · simp only [defer, bind_ok, Lower.log_ok, modify_ok] at h
    obtain ⟨_, _, rfl, rfl⟩ := h
    refine ⟨hunits.methods, hunits.structs, fun entry hentry => ?_⟩
    rcases Dict.mem_insert hentry with rfl | hentry
    · exact hsub
    · exact hunits.generics entry hentry
  · rw [Bool.eq_false_iff.mpr hgeneric, Bool.false_or, Bool.and_eq_true] at hf
    exact body_safe ih (.declared sig) (MethodPlan.declared_described hf.1) h hf.2 hsub hunits

/-! ### Structs -/

theorem flows_storeFields {ρ : Label → List Kind} {ret : List Kind} {frame : Frame}
    {owner : StructDef} {index : Nat} {fields : List (String × Ty)}
    (hargs : ∀ i t, (fields.map Prod.snd)[i]? = some t → frame.HasArg (index + i) t)
    (hp : ∀ t ∈ fields.map Prod.snd, t.isValued) :
    Flows ρ ret (storeFields frame owner index fields) (some []) (some []) := by
  induction fields generalizing index with
  | nil => exact .nil
  | cons f rest ih =>
    obtain ⟨field, t⟩ := f
    have hthis : Flows ρ ret [Code.loadThis] (some []) (some [.ref]) := flows_loadReference 0
    have harg : Flows ρ ret (frame.loadArg index) (some [.ref]) (some (t.kinds ++ [Kind.ref])) :=
      flows_loadArg (hargs 0 t rfl)
    have hput : Flows ρ ret [Code.putField (fieldMember owner field t)]
        (some (t.kinds ++ [Kind.ref])) (some []) :=
      flows_putField owner field (hp t List.mem_cons_self)
    refine ((hthis.append harg).append hput).append (ih (fun i u hu => ?_) fun u hu =>
      hp u (List.mem_cons_of_mem _ hu))
    have := hargs (i + 1) u hu
    rwa [show index + 1 + i = index + (i + 1) by omega]

theorem flows_appendFields {ρ : Label → List Kind} {ret : List Kind} {owner : StructDef}
    {first : Bool} {fields : List (String × Ty)} (hp : ∀ t ∈ fields.map Prod.snd, t.isValued) :
    Flows ρ ret (appendFields owner first fields) (some [.ref]) (some [.ref]) := by
  induction fields generalizing first with
  | nil => exact .nil
  | cons f rest ih =>
    obtain ⟨field, t⟩ := f
    have hvalued := hp t List.mem_cons_self
    have hlabel : Flows ρ ret [appendValue .string] (some [.ref, .ref]) (some [.ref]) :=
      flows_appendValue rfl
    have hthis : Flows ρ ret [Code.loadThis] (some [.ref]) (some [.ref, .ref]) :=
      flows_loadReference 0
    have hget : Flows ρ ret [Code.getField (fieldMember owner field t)] (some [.ref, .ref])
        (some (t.kinds ++ [Kind.ref])) := flows_getField owner field hvalued
    have hvalue : Flows ρ ret [appendValue t] (some (t.kinds ++ [Kind.ref])) (some [.ref]) :=
      flows_appendValue (Ty.isValued_iff.mp hvalued).1
    exact ((flows_pushText _).cons (hlabel.cons (hthis.cons (hget.cons hvalue)))).append
      (ih fun u hu => hp u (List.mem_cons_of_mem _ hu))

theorem flows_constructorCode {ρ : Label → List Kind} {ret : List Kind} {frame : Frame}
    {decl : StructDef} (hp : ∀ t ∈ decl.fields.map Prod.snd, t.isValued)
    (hframe : Frame.start .publicFlag Library.constructor decl.constructorDescriptor = .ok frame) :
    Flows ρ ret (decl.constructorCode frame) (some []) (some []) := by
  have hthis : Flows ρ ret [Code.loadThis] (some []) (some [.ref]) := flows_loadReference 0
  have hinit : Flows ρ ret [Code.callSpecial Library.objectInit] (some [.ref]) (some []) :=
    .shaped [.ref] [] rfl rfl
  rw [constructorDescriptor_eq] at hframe
  refine (hthis.cons hinit).append (flows_storeFields (fun i t hi => ?_) hp)
  rw [Nat.zero_add]
  exact hasArg_of_start hframe hp rfl hi

theorem flows_toStringCode {ρ : Label → List Kind} {decl : StructDef}
    (hp : ∀ t ∈ decl.fields.map Prod.snd, t.isValued) : Flows ρ [.ref] decl.toStringCode (some [])
    (some []) := by
  have hreturn : Flows ρ [.ref] [.op .areturn] (some [.ref]) (some []) :=
    flows_returnValue (σ := []) .object
  unfold StructDef.toStringCode
  split
  · exact (flows_pushText _).cons hreturn
  · have hinit : Flows ρ [.ref] [Code.callSpecial Library.builderInitText] (some [.ref, .ref, .ref])
        (some [.ref]) :=
      .shaped [.ref, .ref] [] rfl rfl
    have hclose : Flows ρ [.ref] [appendValue .string] (some [.ref, .ref]) (some [.ref]) :=
      flows_appendValue rfl
    have hend : Flows ρ [.ref] [Code.callVirtual Library.builderToString] (some [.ref])
        (some [.ref]) :=
      .shaped [.ref] [.ref] rfl rfl
    have hopen := (flows_new Library.stringBuilder).append
      ((flows_pushText (decl.name ++ "[")).cons hinit)
    exact (hopen.append (flows_appendFields hp)).append
      ((flows_pushText "]").cons (hclose.cons (hend.cons hreturn)))

theorem struct_safe {scope : ScopeId} {name : String} {span : Span}
    (h : lowerStruct file scope name span s = .ok () t) (hf : struct file scope name = true)
    (hunits : UnitsSafe file declared s) : UnitsSafe file declared t := by
  obtain rfl | ⟨decl, bindings, unit, hlookup, hunit, rfl⟩ := lowerStruct_ok h
  · exact hunits
  · simp only [struct, hlookup, List.all_eq_true] at hf
    refine ⟨hunits.methods, fun u hu m hm => ?_, hunits.generics⟩
    rcases List.mem_append.mp hu with hu | hu
    · exact hunits.structs u hu m hm
    · rw [List.mem_singleton.mp hu] at hm
      simp only [StructDef.unit, bind_ok, startFrame_ok, pure_ok] at hunit
      obtain ⟨init, _, ⟨hinit, rfl⟩, text, _, ⟨htext, rfl⟩, rfl, -⟩ := hunit
      simp only [List.mem_cons, List.not_mem_nil, or_false] at hm
      rcases hm with rfl | rfl
      · obtain ⟨d, hparse, -, hresult, -⟩ := parse_valuedMethod (r := .void) hf rfl
        rw [← constructorDescriptor_eq] at hparse
        exact stackSafe_generated (ρ := fun _ => []) hinit (by decide) hparse hresult
          (flows_constructorCode hf hinit)
      · exact stackSafe_generated (ρ := fun _ => []) htext
          (by decide) rfl rfl (flows_toStringCode hf)

/-! ### All statements -/

/-- A declaration has no code of its own and leaves the body around it alone. -/
theorem settles_declaration {cx : BodyContext} (hbody : t.body = s.body) (hready : Ready cx s)
    (hunits : UnitsSafe cx.file declared t) : Settles declared cx s t [] [] :=
  ⟨.of_forall (Nat.le_of_eq (by rw [hbody])) fun _ => .of_flows .nil,
    ⟨fun entry hentry => hready.locals entry (hbody ▸ hentry), hready.params⟩, hunits⟩

theorem settles_function {decl : FunctionDecl} (ih : StmtsSettle declared decl.body.body) :
    StmtSettles declared (.function decl) := by
  intro cx s t c h hf hsub hfit
  rw [stmt] at hf
  cases stmtRun_of_ok h with
  | function h =>
    exact settles_declaration (lowerFunction_body h) hfit.ready
      (function_safe ih h hf (by simpa [Stmt.functions] using hsub) hfit.units)
  | nothing hn => cases hn

theorem settles_struct (span : Span) (name : String) :
    StmtSettles declared (.struct span name) := by
  intro cx s t c h hf hsub hfit
  rw [stmt] at hf
  cases stmtRun_of_ok h with
  | struct h =>
      exact settles_declaration (lowerStruct_body h) hfit.ready (struct_safe h hf hfit.units)
  | nothing hn => cases hn

/-- A statement without code. -/
theorem settles_inert {st : Stmt} (hst : st.isInert) : StmtSettles declared st := by
  intro cx s t c h hf hsub hfit
  cases st with
  | use | typeAlias | unionType =>
    rw [lowerStmt, pure_ok] at h
    obtain ⟨rfl, rfl⟩ := h
    exact settles_declaration rfl hfit.ready hfit.units
  | _ => cases hst

mutual

theorem stmtSettles : ∀ st : Stmt, StmtSettles declared st
  | .expr value => settles_expr value
  | .var span name init => settles_var span name init
  | .function decl => settles_function (functionSettles decl)
  | .struct span name => settles_struct span name
  | .ret span value => settles_ret span value
  | .ifElse _ _ b none => settles_ifThen (blockSettles b)
  | .ifElse _ _ b (some branch) => settles_ifElse (blockSettles b) (stmtSettles branch)
  | .whileLoop _ _ b => settles_whileLoop (blockSettles b)
  | .forEach _ _ _ b => settles_forEach (blockSettles b)
  | .matchType _ _ branches => settles_matchType (armsSettle branches)
  | .block b => settles_block (blockSettles b)
  | .exported inner => settles_exported (stmtSettles inner)
  | .use _ _ | .typeAlias _ _ | .unionType _ _ => settles_inert rfl
  | .enum _ _ | .parameter _ _ => fun h _ _ _ => by simp only [lowerStmt, throw_ok] at h

theorem blockSettles : ∀ b : Block, BlockSettles declared b
  | ⟨_, statements, _⟩ => blockSettles_of_stmts (stmtsSettle statements)

theorem functionSettles : ∀ decl : FunctionDecl, StmtsSettle declared decl.body.body
  | ⟨_, ⟨_, statements, _⟩, _⟩ => stmtsSettle statements

theorem stmtsSettle : ∀ statements : List Stmt, StmtsSettle declared statements
  | [] => stmtsSettle_nil
  | first :: rest => stmtsSettle_cons (stmtSettles first) (stmtsSettle rest)

theorem armsSettle : ∀ branches : List Arm, ArmsSettle declared branches
  | [] => armsSettle_nil
  | ⟨_, _, b, _⟩ :: rest => armsSettle_cons (blockSettles b) (armsSettle rest)

end

end ClassGen
