import Mathlib.Algebra.GroupWithZero.Nat
import ClassGen.Proofs.Descriptor
import ClassGen.Proofs.Lowering.Labels
import ClassGen.Proofs.Preservation.Stmt

/-! The method of a function ends as a call of the function does. Its arguments stand in the first
slots, one after another, and are the variables that its body begins with; a body that owes a value
and comes to its end instead throws. -/

namespace ClassGen

namespace MethodDescriptor

variable {base i j n m : Nat} {ts : List FieldType} {t : FieldType}

/-- An argument stands after `base`, and its slots are among those of the arguments. -/
theorem offsetsFrom_within (hn : (offsetsFrom base ts)[i]? = some n) (ht : ts[i]? = some t) :
    base ≤ n ∧ n + t.slots ≤ base + ts.foldr (fun t rest => t.slots + rest) 0 := by
  induction ts generalizing base i with
  | nil => cases ht
  | cons u ts ih =>
    cases i with
    | zero =>
      simp only [offsetsFrom, List.getElem?_cons_zero, Option.some.injEq] at hn ht
      simp only [List.foldr_cons]
      subst hn ht
      omega
    | succ i =>
      simp only [offsetsFrom, List.getElem?_cons_succ] at hn ht
      have := ih hn ht
      simp only [List.foldr_cons]
      omega

theorem offsetsFrom_apart (hij : i < j) (hn : (offsetsFrom base ts)[i]? = some n)
    (ht : ts[i]? = some t) (hm : (offsetsFrom base ts)[j]? = some m) (hu : ts[j]?.isSome) :
    n + t.slots ≤ m := by
  induction ts generalizing base i j with
  | nil => cases ht
  | cons u ts ih =>
    cases j with
    | zero => omega
    | succ j =>
      simp only [offsetsFrom, List.getElem?_cons_succ] at hm hu
      obtain ⟨v, hv⟩ := Option.isSome_iff_exists.mp hu
      cases i with
      | zero =>
        simp only [offsetsFrom, List.getElem?_cons_zero, Option.some.injEq] at hn ht
        subst hn ht
        exact (offsetsFrom_within hm hv).1
      | succ i =>
        simp only [offsetsFrom, List.getElem?_cons_succ] at hn ht
        exact ih (by omega) hn ht hm hu

end MethodDescriptor

namespace Preservation

open Machine Reference

/-- The slots from `n` on hold the arguments, one after another. -/
def Receives (locals : Nat → Option Value) : Nat → List Scalar → Prop
  | _, [] => True
  | n, v :: vs => locals n = some v.cell ∧ Receives locals (n + v.kind.slots) vs

theorem Receives.get {locals : Nat → Option Value} {base i n : Nat} {ts : List FieldType}
    {args : List Scalar} {v : Scalar} (h : Receives locals base args)
    (hslots : args.map (fun v => v.kind.slots) = ts.map FieldType.slots)
    (hn : (MethodDescriptor.offsetsFrom base ts)[i]? = some n) (hv : args[i]? = some v) :
    locals n = some v.cell := by
  induction args generalizing base i ts with
  | nil => cases hv
  | cons w args ih =>
    cases ts with
    | nil => cases hslots
    | cons t ts =>
      obtain ⟨hw, hslots⟩ := List.cons.inj hslots
      obtain ⟨hhead, htail⟩ := h
      cases i with
      | zero =>
        simp only [MethodDescriptor.offsetsFrom, List.getElem?_cons_zero,
          Option.some.injEq] at hn hv
        rw [← hn, ← hv, hhead]
      | succ i =>
        simp only [MethodDescriptor.offsetsFrom, List.getElem?_cons_succ] at hn hv
        rw [show w.kind.slots = t.slots from hw] at htail
        exact ih htail hslots hn hv

section Params

variable {name : String} {index i : Nat} {params : List (String × Ty)} {t : Ty}

theorem lastParam?_isSome :
    (BodyContext.lastParam? name index params).isSome ↔ ∃ t, (name, t) ∈ params := by
  induction params generalizing index with
  | nil => simp [BodyContext.lastParam?]
  | cons p params ih =>
    obtain ⟨n, u⟩ := p
    rw [BodyContext.lastParam?_cons, Option.isSome_or, Bool.or_eq_true, ih]
    by_cases hn : n = name
    · subst hn
      simp only [if_true, Option.isSome_some, or_true, true_iff]
      exact ⟨u, List.mem_cons_self⟩
    · simp [hn, Ne.symm hn]

theorem bind_absent {id : ScopeId} {args : List Scalar} {σ : Store}
    (h : BodyContext.lastParam? name index params = none) :
    Store.bind id params args σ id name = σ id name := by
  induction params generalizing index args σ with
  | nil => rfl
  | cons p params ih =>
    obtain ⟨n, u⟩ := p
    rw [BodyContext.lastParam?_cons, Option.or_eq_none_iff] at h
    cases args with
    | nil => rfl
    | cons v args =>
      rw [Store.bind, ih h.1]
      refine set_other v fun heq => ?_
      simp [(Prod.mk.inj heq).2] at h

/-- The last parameter of a name is the one whose argument the name has. -/
theorem lastParam?_bind (h : BodyContext.lastParam? name index params = some (i, t)) :
    ∃ j, i = index + j ∧ params[j]? = some (name, t) ∧ ∀ (id : ScopeId) (args : List Scalar)
      (σ : Store), args.length = params.length → Store.bind id params args σ id name =
        args[j]? := by
  induction params generalizing index with
  | nil => cases h
  | cons p params ih =>
    obtain ⟨n, u⟩ := p
    rw [BodyContext.lastParam?_cons] at h
    cases hr : BodyContext.lastParam? name (index + 1) params with
    | some later =>
      rw [hr, Option.some_or] at h
      obtain ⟨j, hj, hget, hbind⟩ := ih (hr.trans h)
      refine ⟨j + 1, by omega, hget, fun id args σ hlen => ?_⟩
      cases args with
      | nil => cases hlen
      | cons v args => exact hbind id args _ (by simpa using hlen)
    | none =>
      rw [hr, Option.none_or] at h
      split at h
      · next hn =>
        cases h
        refine ⟨0, rfl, by rw [List.getElem?_cons_zero, hn], fun id args σ hlen => ?_⟩
        cases args with
        | nil => cases hlen
        | cons v args => rw [Store.bind, bind_absent hr, hn, set_same, List.getElem?_cons_zero]
      · cases h

end Params

/-! ### The frame of a function over scalars -/

/-- Loads and stores of an argument are those of a variable of its type. -/
theorem fieldType?_scalar {k : Primitive} (hk : k.isScalar) :
    ∃ f, (Ty.primitive k).fieldType? = some f ∧ f.slots = k.slots ∧
      ∀ n, Arg.load ⟨n, f⟩ = .slot k.loadOp n.toUInt16 ∧ Arg.store ⟨n, f⟩ =
        .slot k.storeOp n.toUInt16 := by
  cases k <;> first | exact ⟨_, rfl, rfl, fun _ => ⟨rfl, rfl⟩⟩ | cases hk

/-- Parameters over scalars, declared with their types in the scope of the body. -/
def ScalarParams (scopes : ScopeTree) (id : ScopeId) (params : List (String × Ty)) : Prop :=
  ∀ p ∈ params, ∃ k : Primitive, p.2 = .primitive k ∧ k.isScalar ∧ scopes.own? id p.1 =
    some (.primitive k)

/-- Types of the parameters as descriptors know them. -/
def fieldTypes (params : List (String × Ty)) : List FieldType := params.map fun p =>
    p.2.fieldType?.getD .int

/-- Where the argument of a parameter stands. -/
def paramPlace (params : List (String × Ty)) (key : Key) : Nat :=
  ((BodyContext.lastParam? key.2 0 params).bind fun p =>
    (MethodDescriptor.offsetsFrom 0 (fieldTypes params))[p.1]?).getD 0

section Frame

variable {scopes : ScopeTree} {id : ScopeId} {params : List (String × Ty)} {name : String}

theorem ScalarParams.fieldTypes_eq (h : ScalarParams scopes id params) :
    (params.map Prod.snd).map Ty.fieldType? = (fieldTypes params).map some := by
  rw [fieldTypes, List.map_map, List.map_map]
  refine List.map_congr_left fun p hp => ?_
  obtain ⟨k, hk, hs, -⟩ := h p hp
  obtain ⟨f, hf, -⟩ := fieldType?_scalar hs
  simp [hk, hf]

/-- All about the parameter that a name means. -/
theorem ScalarParams.param (h : ScalarParams scopes id params) (hname : ∃ t, (name, t) ∈ params) :
    ∃ j k f n, BodyContext.lastParam? name 0 params = some (j, .primitive k) ∧
      params[j]? = some (name, .primitive k) ∧
      k.isScalar ∧ scopes.own? id name = some (.primitive k) ∧ f.slots = k.slots ∧
      (fieldTypes params)[j]? = some f ∧
      (MethodDescriptor.offsetsFrom 0 (fieldTypes params))[j]? = some n ∧
      paramPlace params (id, name) = n ∧ Arg.load ⟨n, f⟩ = .slot k.loadOp n.toUInt16 ∧
      Arg.store ⟨n, f⟩ = .slot k.storeOp n.toUInt16 := by
  have hsome : (BodyContext.lastParam? name 0 params).isSome := lastParam?_isSome.mpr hname
  obtain ⟨⟨i, t⟩, hlast⟩ := Option.isSome_iff_exists.mp hsome
  obtain ⟨j, hj, hget, -⟩ := lastParam?_bind hlast
  obtain rfl : i = j := by omega
  obtain ⟨k, hk, hs, ho⟩ := h (name, t) (List.mem_of_getElem? hget)
  obtain rfl : t = .primitive k := hk
  obtain ⟨f, hf, hslots, hops⟩ := fieldType?_scalar hs
  have hfs : (fieldTypes params)[i]? = some f := by simp [fieldTypes, hget, hf]
  obtain ⟨n, hn⟩ : ∃ n, (MethodDescriptor.offsetsFrom 0 (fieldTypes params))[i]? = some n := by
    refine ⟨_, List.getElem?_eq_getElem ?_⟩
    rw [MethodDescriptor.offsetsFrom_length]
    exact (List.getElem?_eq_some_iff.mp hfs).1
  exact ⟨i, k, f, n, hlast, hget, hs, ho, hslots, hfs, hn, by simp [paramPlace, hlast, hn], hops n⟩

/-- Slots of the parameters. -/
def paramSlots (params : List (String × Ty)) : Nat :=
  (params.map fun p => p.2.representation.slots).sum

theorem ScalarParams.slots_eq (h : ScalarParams scopes id params) :
    (fieldTypes params).foldr (fun t rest => t.slots + rest) 0 = paramSlots params := by
  induction params with
  | nil => rfl
  | cons p params ih =>
    obtain ⟨k, hk, hs, -⟩ := h p List.mem_cons_self
    obtain ⟨f, hf, hslots, -⟩ := fieldType?_scalar hs
    have ih := ih fun q hq => h q (List.mem_cons_of_mem _ hq)
    rw [fieldTypes, List.map_cons, List.foldr_cons, ← fieldTypes, ih]
    simp [paramSlots, hk, hf, hslots, representation_scalar hs, Representation.slots]

/-- The frame of a static method with these parameters. -/
theorem ScalarParams.start (h : ScalarParams scopes id params) {ret : Ty} (hret : ret.isNamed)
    (name : String) :
    ∃ frame, Frame.start .publicStatic name (methodDescriptor (params.map Prod.snd) ret) =
      .ok frame ∧
      frame.args = List.zipWith Arg.mk (MethodDescriptor.offsetsFrom 0 (fieldTypes params))
        (fieldTypes params) ∧
      frame.returnsVoid = ret.fieldType?.isNone ∧ frame.nextSlot = paramSlots params ∧
        frame.name = name ∧
      frame.descriptor = methodDescriptor (params.map Prod.snd) ret := by
  have hnamed : ∀ t ∈ params.map Prod.snd, t.isNamed := by
    intro t ht
    obtain ⟨p, hp, rfl⟩ := List.mem_map.mp ht
    obtain ⟨k, hk, hs, -⟩ := h p hp
    rw [hk]
    cases k <;> rfl
  rw [Frame.start, parse_methodDescriptor h.fieldTypes_eq hnamed hret]
  refine ⟨_, rfl, rfl, rfl, ?_, rfl, rfl⟩
  rw [← h.slots_eq]
  exact Nat.zero_add _

variable {file : FileContext} {frame : Frame} {plan : MethodPlan} {s : LowerState}

theorem storageAt_opened (i : ScopeId) (name : String) :
    (plan.context file frame id).storageAt (plan.opened frame s).body.locals i name =
      if i = id then (BodyContext.lastParam? name 0 plan.params).map fun p => .param p.1 p.2
      else none := rfl

/-- Lowering of a body begins with the parameters in the first slots. -/
theorem ScalarParams.placed (h : ScalarParams file.scopes id plan.params)
    (hargs : frame.args = List.zipWith Arg.mk
      (MethodDescriptor.offsetsFrom 0 (fieldTypes plan.params))
      (fieldTypes plan.params)) (hnext : frame.nextSlot = paramSlots plan.params) :
    Placed (plan.context file frame id) [id] (plan.params.map fun p => (id, p.1))
      (paramPlace plan.params)
      (plan.opened frame s) where
  here := rfl
  nested := ⟨List.nodup_singleton id, List.IsChain.singleton id⟩
  known i name hsome := by
    rw [storageAt_opened] at hsome
    split at hsome
    · next hi =>
      rw [Option.isSome_map, lastParam?_isSome] at hsome
      obtain ⟨_, k, _, _, -, -, -, ho, -⟩ := h.param hsome
      simp [MethodPlan.context, ScopeTree.declares, hi, ho]
    · cases hsome
  inPath key hkey := by
    obtain ⟨p, -, rfl⟩ := List.mem_map.mp hkey
    exact List.mem_singleton_self id
  kept key hkey := by
    obtain ⟨p, hp, rfl⟩ := List.mem_map.mp hkey
    obtain ⟨j, k, f, n, hlast, -, hs, ho, -, hfs, hn, hplace, hload, hstore⟩ := h.param ⟨p.2, hp⟩
    have harg : frame.args[j]? = some ⟨n, f⟩ := by rw [hargs, List.getElem?_zipWith, hn, hfs]
    refine ⟨k, .param j (.primitive k), ho,
      hs, by rw [storageAt_opened, if_pos rfl, hlast]; rfl, ?_⟩
    rw [hplace]
    refine ⟨rfl, ?_, ?_⟩
    · show (frame.args[j]?.map Arg.load).toList = _
      rw [harg, Option.map_some, hload]
      rfl
    · show (frame.args[j]?.map Arg.store).toList = _
      rw [harg, Option.map_some, hstore]
      rfl
  below key hkey := by
    obtain ⟨p, hp, rfl⟩ := List.mem_map.mp hkey
    obtain ⟨j, k, f, n, -, -, hs, ho, hslots, hfs, hn, hplace, -⟩ := h.param ⟨p.2, hp⟩
    have hwithin := (MethodDescriptor.offsetsFrom_within hn hfs).2
    rw [h.slots_eq] at hwithin
    rw [hplace]
    show n + width file.scopes (id, p.1) ≤ frame.nextSlot
    rw [width_primitive hs ho, hnext]
    omega
  apart key hkey other hother hne := by
    obtain ⟨p, hp, rfl⟩ := List.mem_map.mp hkey
    obtain ⟨q, hq, rfl⟩ := List.mem_map.mp hother
    obtain ⟨j, k, f, n, -, hget, hs, ho, hslots, hfs, hn, hplace, -⟩ := h.param ⟨p.2, hp⟩
    obtain ⟨j', k', g, n', -, hget', hs', ho', hslots', hgs, hn', hplace', -⟩ := h.param ⟨q.2, hq⟩
    show _ + width file.scopes (id, p.1) ≤ _ ∨ _ + width file.scopes (id, q.1) ≤ _
    rw [hplace, hplace', width_primitive hs ho, width_primitive hs' ho', ← hslots, ← hslots']
    rcases Nat.lt_trichotomy j j' with hlt | rfl | hlt
    · exact .inl (MethodDescriptor.offsetsFrom_apart hlt hn hfs hn' (by rw [hgs]; rfl))
    · obtain ⟨hname, -⟩ := Prod.mk.inj (Option.some.inj (hget.symm.trans hget'))
      exact absurd (by rw [hname]) hne
    · exact .inr (MethodDescriptor.offsetsFrom_apart hlt hn' hgs hn (by rw [hfs]; rfl))

/-- A call begins with the arguments as the values of the parameters. -/
theorem ScalarParams.reflects (h : ScalarParams scopes id params) {args : List Scalar}
    {locals : Nat → Option Value} (hr : Receives locals 0 args)
    (hargs : args.map (fun v => Ty.primitive v.kind) = params.map Prod.snd) :
    Reflects scopes [id] (params.map fun p => (id, p.1)) (paramPlace params)
      (Store.empty.bind id params args) locals where
  held key hkey := by
    obtain ⟨p, hp, rfl⟩ := List.mem_map.mp hkey
    obtain ⟨j, k, f, n, hlast, hget, hs, ho, -, hfs, hn, hplace, -⟩ := h.param ⟨p.2, hp⟩
    obtain ⟨j', hj, -, hbind⟩ := lastParam?_bind hlast
    obtain rfl : j = j' := by omega
    have hkind : (args.map fun v => Ty.primitive v.kind)[j]? = some (.primitive k) := by
      rw [hargs, List.getElem?_map, hget]
      rfl
    obtain ⟨v, hv, hvk⟩ := Option.map_eq_some_iff.mp (List.getElem?_map ▸ hkind)
    cases hvk
    refine ⟨v, ho, ?_, ?_⟩
    · rw [← hv]
      exact hbind id args _ (by simpa using congrArg List.length hargs)
    · rw [hplace]
      refine hr.get ?_ hn hv
      have hslots : args.map (fun v => v.kind.slots) =
          (args.map fun v => Ty.primitive v.kind).map fun t => (t.fieldType?.getD .int).slots := by
        rw [List.map_map]
        exact List.map_congr_left fun v _ => by cases v <;> rfl
      rw [hslots, hargs, fieldTypes, List.map_map, List.map_map]
      rfl
  unset i hi name hname := by
    obtain rfl := List.mem_singleton.mp hi
    have habsent : BodyContext.lastParam? name 0 params = none := by
      rw [← Option.not_isSome_iff_eq_none, lastParam?_isSome]
      rintro ⟨t, ht⟩
      exact hname (List.mem_map.mpr ⟨(name, t), ht, rfl⟩)
    exact bind_absent habsent

end Frame

/-! ### The end of a method -/

section Ending

variable {A : Arith} {P : Code} {m : State} {plan : MethodPlan}

/-- What a method throws that owes a value. -/
def missing (name : String) : Object :=
  ⟨Library.illegalState, some [.text ("missing return in " ++ name)]⟩

theorem ends_missingReturn (hat : P.At m.pc plan.missingReturn) :
    Ends A P m (.thrown (missing plan.name)) := by
  have hparse : MethodDescriptor.parse Library.illegalStateInit.descriptor =
      .ok ⟨[.object Library.string], none⟩ := rfl
  have hheap : (m.heap ++ [Object.mk Library.illegalState none])[m.heap.length]? =
      some ⟨Library.illegalState, none⟩ := List.getElem?_concat_length
  refine Runs.ends (runs_new hat.head) (Runs.ends (runs_op hat.tail.head rfl) ?_)
  refine Runs.ends (runs_push hat.tail.tail.head) ?_
  refine Runs.ends (runs_construct hat.tail.tail.tail.head rfl hparse
    (congrArg (Option.map _) hheap)) ?_
  refine ends_op hat.tail.tail.tail.tail.head ?_
  have hset : ((m.heap ++ [Object.mk Library.illegalState none]).set m.heap.length
      (missing plan.name))[
      m.heap.length]? = some (missing plan.name) := by simp
  exact congrArg (Option.map _) hset

/-- How the method of a function ends when a call of it ended so. -/
def outcome (name : String) (ret : Ty) : Completion → Ending
  | .returned v => .returned (v.map Scalar.cell)
  | .divisionByZero => .divisionByZero
  | .normal _ => if ret.isVoid then .returned none else .thrown (missing name)

/-- The code of a method is its body and something without labels. -/
theorem code_method (plan : MethodPlan) (frame : Frame) (n : Nat) (c : Code) :
    ∃ rest : Code, (plan.method frame n c).code = c ++ rest ∧ rest.marks = [] := by
  obtain ⟨rest, hrest, hmarks⟩ : ∃ rest : Code, plan.closed frame c = c ++ rest ∧
      rest.marks = [] := by
    unfold MethodPlan.closed
    split
    · exact ⟨plan.missingReturn, rfl, rfl⟩
    · exact ⟨[], (List.append_nil c).symm, rfl⟩
  rw [MethodPlan.method, hrest]
  simp only [Frame.finish]
  split
  · exact ⟨rest ++ [Instr.op .vreturn],
      List.append_assoc _ _ _, by rw [Code.marks_append, hmarks]; rfl⟩
  · exact ⟨rest, rfl, hmarks⟩

/-- A body that ended as `e` makes the method end accordingly. -/
theorem ends_method {frame : Frame} {n : Nat} {c : Code} {rel : Store → (Nat → Option Value) → Prop}
    {st : List Value} {x : Option Completion} {e : Completion}
    (hvoid : frame.returnsVoid = plan.ret.isVoid) (hpc : m.pc = 0) (hx : x = some e)
    (h : Simulates A (plan.method frame n c).code m (m.pc + c.length) st
      (Code.fallsThrough c) rel x) :
    Ends A (plan.method frame n c).code m (outcome plan.name plan.ret e) := by
  subst hx
  match e, h with
  | .returned v, h => exact h
  | .divisionByZero, h => exact h
  | .normal σ, ⟨hf, m', hrun, hpc', _⟩ =>
    refine hrun.ends ?_
    rw [hpc, Nat.zero_add] at hpc'
    cases hv : plan.ret.isVoid with
    | true =>
      have hcode : (plan.method frame n c).code = c ++ [Instr.op .vreturn] := by
        simp [MethodPlan.method, MethodPlan.closed, Frame.finish, hf, hv, hvoid]
      rw [hcode, outcome, hv, if_pos rfl]
      have hreturn : (c ++ [Instr.op .vreturn])[m'.pc]? = some (.op .vreturn) := by
        rw [hpc']
        exact List.getElem?_concat_length
      exact ends_op hreturn rfl
    | false =>
      have hcode : (plan.method frame n c).code = c ++ plan.missingReturn := by
        simp [MethodPlan.method, MethodPlan.closed, Frame.finish, hf, hv, hvoid]
      rw [hcode, outcome, hv, if_neg Bool.false_ne_true]
      refine ends_missingReturn ?_
      rw [hpc']
      simpa using (Code.at_self (c ++ plan.missingReturn)).right

end Ending

/-- A planned method over scalars is emitted, and ends as a call does. -/
theorem lowerBody_ends {file : FileContext} {plan : MethodPlan} {b : Block} {s : LowerState}
    {declared' : List Key} (hbind : plan.bindings = [])
    (hdesc : plan.descriptor = methodDescriptor (plan.params.map Prod.snd) plan.ret)
    (hparams : ScalarParams file.scopes b.scope plan.params)
    (hret : ∃ k : Primitive, plan.ret = .primitive k) (hnew : plan.emitted s = false)
    (hbody : TypedStmts file.scopes plan.ret [b.scope] (plan.params.map fun p => (b.scope, p.1))
      b.body declared') (hfit : paramSlots plan.params + blockSlots file.scopes b ≤ 65536) :
    ∃ m t, lowerBody file plan b s = .ok () t ∧ t.file.methods = s.file.methods ++ [m] ∧
      m.name = plan.name ∧
      m.descriptor = plan.descriptor ∧
      ∀ (A : Arith) (args : List Scalar) (fuel : Nat) (completion : Completion) (entry : State),
        args.map (fun v => Ty.primitive v.kind) = plan.params.map Prod.snd → entry.pc = 0 →
        Receives entry.locals 0 args →
        execFunction A file.scopes plan.ret fuel plan.params b args = some completion →
        Ends A m.code entry (outcome plan.name plan.ret completion) := by
  obtain ⟨k, hk⟩ := hret
  have hnamed : plan.ret.isNamed := by
    rw [hk]
    cases k <;> rfl
  obtain ⟨frame, hframe, hargs, hvoid, hnext, hname, hfdesc⟩ := hparams.start hnamed plan.name
  rw [← hdesc] at hframe hfdesc
  have hvoid' : frame.returnsVoid = plan.ret.isVoid := by
    rw [hvoid, hk]
    cases k <;> rfl
  have placed : Placed (plan.context file frame b.scope) [b.scope]
      (plan.params.map fun p => (b.scope, p.1))
      (paramPlace plan.params) (plan.opened frame s) := hparams.placed hargs hnext
  obtain ⟨scope, body, span⟩ := b
  obtain ⟨c, u, place', hlow, grown, sim⟩ := lowerStmts_simulated body hbind placed
    (show frame.nextSlot + _ ≤ _ by rw [hnext]; exact hfit) hbody
  obtain ⟨rest, hcode, hmarks⟩ := code_method plan frame u.body.nextSlot c
  refine ⟨plan.method frame u.body.nextSlot c, plan.added (plan.method frame u.body.nextSlot c) s u,
    (lowerBody_new hnew).mpr ⟨frame, c, u, hframe, hlow, rfl⟩, ?_, hname, hfdesc, ?_⟩
  · show u.file.methods ++ _ = _
    rw [grown.methods]
    rfl
  · intro A args fuel completion entry hkinds hpc hreceives hexec
    have hP : (plan.method frame u.body.nextSlot c).code.marks.Nodup := by
      rw [hcode, Code.marks_append, hmarks, List.append_nil]
      exact (lowerStmts_fresh hlow).nodup
    have hat : (plan.method frame u.body.nextSlot c).code.At entry.pc c := by
      rw [hcode, hpc]
      exact (Code.at_self _).left
    exact ends_method hvoid' hpc hexec
      (sim A _ entry _ fuel hP hat (hparams.reflects hreceives hkinds))

theorem isGeneric_scalar {scopes : ScopeTree} {id : ScopeId} {sig : Signature} {k : Primitive}
    (hparams : ScalarParams scopes id sig.params) (hret : sig.ret = .primitive k) :
    sig.isGeneric = false := by
  rw [Signature.isGeneric, Bool.or_eq_false_iff, hret, Signature.paramTypes, List.any_map,
    List.any_eq_false]
  refine ⟨fun p hp => ?_, rfl⟩
  obtain ⟨j, hj, -⟩ := hparams p hp
  simp [hj, Ty.containsGeneric]

/-- A function over scalars is lowered to a method that ends, for all arguments, in the way in which
the call ends, and in no other: a result is returned, an integer division by zero is the same one,
and a function that comes to its end returns if it owes nothing and throws if it owes a value. -/
theorem lowerFunction_ends_as_call {file : FileContext} {scope : ScopeId} {decl : FunctionDecl}
    {sig : Signature} {s : LowerState} {declared' : List Key} (hname : decl.name ≠ "main")
    (hsig : file.scopes.lookup scope decl.name = some (.function sig))
    (hparams : ScalarParams file.scopes decl.body.scope sig.params)
    (hret : ∃ k : Primitive, sig.ret = .primitive k)
    (hnew : (MethodPlan.declared decl.name sig).emitted s = false)
    (hbody : TypedStmts file.scopes sig.ret [decl.body.scope]
      (sig.params.map fun p => (decl.body.scope, p.1))
      decl.body.body declared')
    (hfit : paramSlots sig.params + blockSlots file.scopes decl.body ≤ 65536) :
    ∃ m t, lowerFunction file scope decl s = .ok () t ∧ t.file.methods = s.file.methods ++ [m] ∧
      m.name = mangle decl.name ∧ m.descriptor = sig.descriptor ∧
      ∀ (A : Arith) (args : List Scalar) (fuel : Nat) (completion : Completion) (entry : State)
        (e : Ending), args.map (fun v => Ty.primitive v.kind) = sig.paramTypes → entry.pc = 0 →
          Receives entry.locals 0 args →
        execFunction A file.scopes sig.ret fuel sig.params decl.body args = some completion →
        (Ends A m.code entry e ↔ e = outcome (mangle decl.name) sig.ret completion) := by
  have hplan : MethodPlan.declared decl.name sig =
      ⟨mangle decl.name, sig.descriptor, [], sig.params, sig.ret⟩ := if_neg hname
  rw [hplan] at hnew
  obtain ⟨m, t, hlow, hmethods, hmname, hmdesc, ends⟩ :=
    lowerBody_ends (b := decl.body) rfl rfl hparams hret hnew
    hbody hfit
  obtain ⟨k, hk⟩ := hret
  refine ⟨m, t, lowerFunction_ok.mpr ⟨sig, hsig, ?_⟩, hmethods, hmname, hmdesc, ?_⟩
  · rw [isGeneric_scalar hparams hk, if_neg Bool.false_ne_true, hplan]
    exact hlow
  · intro A args fuel completion entry e hkinds hpc hreceives hexec
    have hends := ends A args fuel completion entry hkinds hpc hreceives hexec
    exact ⟨hends.unique, fun h => h ▸ hends⟩

/-- `countSteps(n: int): int`, the length of a Collatz sequence. The variable `steps` of the last
block is another one than that of the body. -/
def sampleSignature : Signature := ⟨"countSteps", [("n", .int)], .int, .user none⟩

def sampleFile : FileContext where
  unitName := "sample"
  fileName := "sample.ix"
  scopes := ⟨#[{ parent := none, vars := [("countSteps", .function sampleSignature)] },
    { parent := some 0, vars := [("n", .int), ("steps", .int)] }, { parent := some 1 },
    { parent := some 2 }, { parent := some 2, vars := [("steps", .int)] }]⟩

def sampleFunction : FunctionDecl :=
  let name (x : String) : Expr := .ident ⟨.int, {}⟩ x
  let number (v : Int32) : Expr := .literal ⟨.int, {}⟩ (.int v)
  let compute (op : BinaryOp) (a b : Expr) : Expr := .binary ⟨.int, {}⟩ op a b
  let compare (op : BinaryOp) (a b : Expr) : Expr := .binary ⟨.boolean, {}⟩ op a b
  let assign (x : String) (e : Expr) : Stmt := .expr (.assign ⟨.int, {}⟩ (name x) e)
  let even : Block := ⟨3, [assign "n" (compute .div (name "n") (number 2))], {}⟩
  let odd : Block := ⟨4, [.var {} "steps" (compute .mul (name "n") (number 3)),
    assign "n" (compute .add (name "steps") (number 1))], {}⟩
  let body : Block :=
    ⟨2, [.ifElse {} (compare .eq (compute .mod (name "n") (number 2)) (number 0)) even
    (some (.block odd)), .expr (.step ⟨.int, {}⟩ .increment (name "steps"))], {}⟩
  ⟨"countSteps", ⟨1, [.var {} "steps" (number 0), .whileLoop {}
    (compare .ne (name "n") (number 1)) body, .ret {} (name "steps")], {}⟩, {}⟩

/-- Called with three, the method of the sample returns seven. -/
theorem lowerFunction_ends_as_call_sample :
    ∃ m t, lowerFunction sampleFile 0 sampleFunction {} = .ok () t ∧ t.file.methods = [m] ∧
      ∀ (A : Arith) (entry : State), entry.pc = 0 → entry.locals 0 = some (.int 3) →
        Ends A m.code entry (.returned (some (.int 7))) := by
  have params : ScalarParams sampleFile.scopes 1 sampleSignature.params := by
    intro p hp
    obtain rfl := List.mem_singleton.mp hp
    exact ⟨.int, rfl, rfl, rfl⟩
  have number {Γ : String → Option Primitive} (v : Int32) :
      HasType [] Γ (.literal ⟨.int, {}⟩ (.int v)) .int :=
    .literal (v := .int v) rfl rfl
  have name {Γ : String → Option Primitive} {x : String} (hx : Γ x = some .int) :
      HasType [] Γ (.ident ⟨.int, {}⟩ x) .int := .ident hx rfl
  have body : TypedStmts sampleFile.scopes .int [1]
      [(1, "n")] sampleFunction.body.body [(1, "steps"), (1, "n")] := by
    refine .cons (.var rfl rfl (number 0) (.inl rfl))
      (.cons (.whileLoop ?_ ?_) (.cons (.ret rfl rfl ?_ (.inl rfl)) .nil))
    · exact .compare rfl (name rfl) (number 1) (.inl ⟨rfl, rfl⟩) rfl
    · refine .intro (by decide) rfl (.cons (.ifElse ?_ ?_ (.block ?_)) (.cons (.step rfl rfl) .nil))
      · exact .compare rfl (.arithmetic (x := .rem) rfl (name rfl) (number 2) rfl rfl rfl)
          (number 0) (.inl ⟨rfl, rfl⟩) rfl
      · refine .intro (by decide) rfl (.cons (.assign rfl ?_ (.inl rfl)) .nil)
        exact .arithmetic (x := .div) rfl (name rfl) (number 2) rfl rfl rfl
      · refine .intro (by decide) rfl
          (.cons (.var rfl rfl ?_ (.inl rfl)) (.cons (.assign rfl ?_ (.inl rfl)) .nil))
        · exact .arithmetic (x := .mul) rfl (name rfl) (number 3) rfl rfl rfl
        · exact .arithmetic (x := .add) rfl (name rfl) (number 1) rfl rfl rfl
    · exact name rfl
  have hsig : sampleFile.scopes.lookup 0 sampleFunction.name = some (.function sampleSignature) :=
    rfl
  obtain ⟨m, t, hlow, hmethods, -, -, ends⟩ := lowerFunction_ends_as_call (s := {})
    (by decide) hsig params
    ⟨.int, rfl⟩ rfl body (by decide)
  refine ⟨m, t, hlow, hmethods, fun A entry hpc h₀ => ?_⟩
  exact (ends A [.int 3] 17 (.returned (some (.int 7))) entry _ rfl hpc ⟨h₀, trivial⟩ rfl).mpr rfl

end Preservation

end ClassGen
