import ClassGen.Proofs.Evaluation.Parts
import ClassGen.Proofs.Preservation.Function
import ClassGen.Proofs.Slots.Cells
import ClassGen.Proofs.StackKinds.Body

/-! A parameter is kept where its argument arrives. Its position and its type come from the
signature of the function, its slot and its instructions from the descriptor of the method. The two
agree for every function whose descriptor is written from its signature; that of the entry point is
not. -/

namespace ClassGen

open Run
open Preservation (paramSlots)

/-! ### Arguments -/

/-- An argument stands behind all those before it. -/
theorem MethodDescriptor.offsetsFrom_getElem? {params : List FieldType} {i : Nat} (base : Nat)
    (h : i < params.length) :
    (offsetsFrom base params)[i]? = some (base + ((params.take i).map FieldType.slots).sum) := by
  induction params generalizing base i with
  | nil => cases h
  | cons t params ih =>
    cases i with
    | zero => simp [offsetsFrom]
    | succ i =>
      rw [offsetsFrom, List.getElem?_cons_succ, ih (base + t.slots) (Nat.lt_of_succ_lt_succ h)]
      simp [Nat.add_assoc]

theorem Ty.cell_fieldType {t : Ty} {f : FieldType} (h : t.fieldType? = some f) :
    f.cell = t.representation.cell := by
  cases t with
  | primitive kind => cases kind <;> cases h <;> rfl
  | _ => cases h; rfl

theorem Ty.slots_fieldType (t : Ty) :
    (t.fieldType?.map FieldType.slots).getD 0 = t.representation.slots := by
  cases t with
  | primitive kind => cases kind <;> rfl
  | _ => rfl

namespace Ty

/-- Slots that values of these types take, one after another. -/
def slotsOf (types : List Ty) : Nat := (types.map fun t => t.representation.slots).sum

variable {types : List Ty} {fields : List FieldType}

theorem slots_fieldTypes (h : types.map fieldType? = fields.map some) :
    (fields.map FieldType.slots).sum = slotsOf types := by
  have hslots := congrArg (List.map fun f => (f.map FieldType.slots).getD 0) h
  rw [List.map_map, List.map_map] at hslots
  calc (fields.map FieldType.slots).sum
      = (types.map fun t => (t.fieldType?.map FieldType.slots).getD 0).sum :=
        congrArg List.sum hslots.symm
    _ = slotsOf types := by simp only [slots_fieldType, slotsOf]

theorem argWidth_fieldTypes {d : MethodDescriptor} (h : types.map fieldType? = d.params.map some) :
    d.argWidth = slotsOf types := by
  rw [← slots_fieldTypes h, MethodDescriptor.argWidth_eq, Cell.span, List.map_map]
  exact congrArg List.sum (List.map_congr_left fun t _ => t.slots_eq.symm)

theorem getElem?_fieldTypes {i : Nat} {t : Ty} (h : types.map fieldType? = fields.map some)
    (hi : types[i]? = some t) : ∃ f, fields[i]? = some f ∧ t.fieldType? = some f := by
  have hget : (fields.map some)[i]? =
      some t.fieldType? := by rw [← h, List.getElem?_map, hi, Option.map_some]
  rw [List.getElem?_map] at hget
  obtain ⟨f, hf, hfield⟩ := Option.map_eq_some_iff.mp hget
  exact ⟨f, hf, hfield.symm⟩

end Ty

namespace Frame

variable {frame : Frame} {d : MethodDescriptor} {base i : Nat} {t : Ty}

/-- The arguments are laid out from the first slot that the receiver leaves free. -/
theorem start_args {access : Access} {name descriptor : String}
    (h : Frame.start access name descriptor = .ok frame) :
    ∃ d, MethodDescriptor.parse descriptor = .ok d ∧ frame.descriptor = descriptor ∧
      frame.args = List.zipWith Arg.mk (d.argOffsets (if access.isStatic then 0 else 1))
        d.params := by
  unfold Frame.start at h
  cases hparse : MethodDescriptor.parse descriptor with
  | error e => simp [hparse, Except.map] at h
  | ok d =>
    rw [hparse] at h
    cases h
    exact ⟨d, rfl, rfl, rfl⟩

/-- Argument `i` of the descriptor is loaded by one instruction and stored by one: at its own slot,
as a value of type `t`. The first argument stands at `base`. -/
def Accesses (frame : Frame) (d : MethodDescriptor) (base i : Nat) (t : Ty) : Prop :=
  ∃ slot : UInt16, (d.argOffsets base)[i]? = some slot.toNat ∧
    frame.loadArg i = [.slot t.representation.loadOp slot] ∧ frame.storeArg i =
      [.slot t.representation.storeOp slot]

/-- That is so if the argument has the kind of the type and a slot that an instruction can name. -/
theorem accesses_iff (hargs : frame.args = List.zipWith Arg.mk (d.argOffsets base) d.params) :
    frame.Accesses d base i t ↔ ∃ f, d.params[i]? = some f ∧ f.cell = t.representation.cell ∧
      base + ((d.params.take i).map FieldType.slots).sum < 2 ^ 16 := by
  cases hf : d.params[i]? with
  | none =>
    have hnone : frame.loadArg i = [] := by
      rw [loadArg, hargs, List.getElem?_zipWith, hf]
      cases (d.argOffsets base)[i]? <;> rfl
    simp [Accesses, hnone]
  | some f =>
    have hslot : (d.argOffsets base)[i]? =
        some (base + ((d.params.take i).map FieldType.slots).sum) :=
      MethodDescriptor.offsetsFrom_getElem? base (List.getElem?_eq_some_iff.mp hf).1
    have harg : frame.args[i]? = some ⟨base + ((d.params.take i).map FieldType.slots).sum, f⟩ := by
      rw [hargs, List.getElem?_zipWith, hslot, hf]
    simp only [Accesses, hslot, loadArg, storeArg, harg, Option.map_some, Option.toList_some,
      Arg.load, Arg.store, Arg.loadOp_eq, Arg.storeOp_eq, Representation.loadOp_eq,
      Representation.storeOp_eq, List.cons.injEq, and_true, Instr.slot.injEq, Option.some.injEq,
      exists_eq_left']
    constructor
    · rintro ⟨slot, hnat, ⟨hload, -⟩, -⟩
      exact ⟨Cell.Has.inj (.inl rfl) (.inl hload), hnat ▸ slot.toNat_lt⟩
    · rintro ⟨hcell, hlt⟩
      exact ⟨_, (UInt16.toNat_ofNat_of_lt' hlt).symm, ⟨hcell ▸ rfl, rfl⟩, hcell ▸ rfl, rfl⟩

end Frame

/-! ### Descriptors of functions -/

section Written

variable {frame : Frame} {d : MethodDescriptor} {params : List (String × Ty)} {ret : Ty}
  {i base : Nat} {p : String × Ty}

/-- The descriptor names the types of the parameters. -/
theorem fields_written (hparse :
    MethodDescriptor.parse (methodDescriptor (params.map Prod.snd) ret) = .ok d) (hnamed :
      ∀ p ∈ params, p.2.isNamed) : params.map (fun p => p.2.fieldType?) = d.params.map some := by
  rw [← params_of_parse (List.forall_mem_map.mpr hnamed) hparse, List.map_map]
  rfl

theorem fieldTypes_snd (params : List (String × Ty)) :
    (params.map Prod.snd).map Ty.fieldType? = params.map fun p => p.2.fieldType? := List.map_map

theorem slots_written {fields : List FieldType}
    (h : params.map (fun p => p.2.fieldType?) = fields.map some) :
    (fields.map FieldType.slots).sum = paramSlots params := by
  rw [Ty.slots_fieldTypes ((fieldTypes_snd params).trans h), Ty.slotsOf, List.map_map]
  rfl

theorem getElem?_written {fields : List FieldType}
    (h : params.map (fun p => p.2.fieldType?) = fields.map some) (hi : params[i]? = some p) :
    ∃ f, fields[i]? = some f ∧ p.2.fieldType? = some f :=
  Ty.getElem?_fieldTypes ((fieldTypes_snd params).trans h)
    (by rw [List.getElem?_map, hi, Option.map_some])

/-- Where the descriptor is written from the types of the parameters, a parameter is accessed as
what it is. -/
theorem accesses_written (hargs : frame.args = List.zipWith Arg.mk (d.argOffsets base) d.params)
    (hparse : MethodDescriptor.parse (methodDescriptor (params.map Prod.snd) ret) = .ok d)
    (hnamed : ∀ p ∈ params, p.2.isNamed) (hi : params[i]? = some p) :
    frame.Accesses d base i p.2 ↔ base + paramSlots (params.take i) < 2 ^ 16 := by
  have hfields := fields_written hparse hnamed
  have hslots : ((d.params.take i).map FieldType.slots).sum = paramSlots (params.take i) := by
    refine slots_written ?_
    rw [List.map_take, List.map_take, hfields]
  obtain ⟨f, hf, hfield⟩ := getElem?_written hfields hi
  rw [Frame.accesses_iff hargs, hslots]
  constructor
  · rintro ⟨_, _, _, hlt⟩
    exact hlt
  · intro hlt
    exact ⟨f, hf, Ty.cell_fieldType hfield, hlt⟩

end Written

/-- The one argument of the entry point is a reference. -/
theorem accesses_entry {frame : Frame} {d : MethodDescriptor} {i : Nat} {t : Ty}
    (ht : t.isVoid = false) (hargs : frame.args = List.zipWith Arg.mk (d.argOffsets 0) d.params)
    (hparse : MethodDescriptor.parse MethodPlan.mainDescriptor = .ok d) :
    (frame.Accesses d 0 i t ↔ i = 0 ∧ t.representation = .reference) ∧
      frame.loadArg i = (if i = 0 then [.slot .aload 0] else []) ∧
      frame.storeArg i = (if i = 0 then [.slot .astore 0] else []) := by
  obtain rfl : ⟨[.array (.object Library.string)], none⟩ = d :=
    Except.ok.inj (Eq.trans (by decide) hparse)
  have hcell : Cell.ref = t.representation.cell ↔ t.representation = .reference := by
    cases t with
    | primitive kind => cases kind <;> first | decide | cases ht
    | _ => exact ⟨fun _ => rfl, fun _ => rfl⟩
  have hargs' : frame.args = [⟨0, .array (.object Library.string)⟩] := hargs
  cases i with
  | zero =>
    refine ⟨?_, by rw [Frame.loadArg, hargs']; rfl, by rw [Frame.storeArg, hargs']; rfl⟩
    rw [Frame.accesses_iff hargs]
    simpa [FieldType.cell] using hcell
  | succ i =>
    refine ⟨?_, by rw [Frame.loadArg, hargs']; rfl, by rw [Frame.storeArg, hargs']; rfl⟩
    rw [Frame.accesses_iff hargs]
    simp

/-- A plan for the method of a function: as declared, or of one of its instantiations. -/
inductive MethodPlan.OfFunction : MethodPlan → Prop
  | declared (name : String) (sig : Signature) : OfFunction (.declared name sig)
  | instantiated {name : String} {sig : Signature} {map : Bindings} {plan : MethodPlan}
    (h : MethodPlan.instantiated name sig map = .ok plan) : OfFunction plan

/-- Only the entry point has a descriptor that is not written from its parameters. -/
theorem MethodPlan.OfFunction.descriptor {plan : MethodPlan} (h : plan.OfFunction) :
    if plan.name = "main" then plan.descriptor = mainDescriptor
    else plan.descriptor = methodDescriptor (plan.params.map Prod.snd) plan.ret := by
  cases h with
  | declared name sig =>
    rw [MethodPlan.declared]
    by_cases hmain : name = "main"
    · rw [if_pos hmain, if_pos hmain]
    · rw [if_neg hmain, if_neg (mangle_ne (b := "main") (by decide))]
      rfl
  | instantiated h =>
    obtain ⟨params, ret, hinstance, rfl⟩ := instantiated_ok.mp h
    rw [if_neg (mangle_ne (b := "main") (by decide))]
    rw [List.map_snd_zip (Nat.le_of_eq (by rw [instantiate_length hinstance, List.length_map]))]

/-! ### Parameters -/

/-- In this state, the name is a variable of the type: `load` reads it, `store` ends every write. -/
structure BodyContext.Uses (cx : BodyContext) (s : LowerState) (name : String) (type : Ty)
    (load store : Code) :
    Prop where
  read (note : Note) : lowerExpr cx (.ident note name) s = .ok ⟨type, load⟩ s
  assign {note target : Note} {value : Expr} {v : Lowered} {t : LowerState}
    (h : lowerExpr cx (.assign note (.ident target name) value) s = .ok v t) :
    ∃ w, lowerExpr cx value s = .ok w t ∧ v = ⟨.void, w.code ++ coerce w.type type ++ store⟩
  step {note operand : Note} {op : StepOp} {v : Lowered} {t : LowerState}
    (h : lowerExpr cx (.step note op (.ident operand name)) s = .ok v t) :
    ∃ kind, type.numeric? = some kind ∧ s = t ∧
      v = ⟨.void, load ++ [Code.pushOne kind] ++ arithmeticCode kind op.arithmetic ++ store⟩

/-- The storage of a name is the same wherever it occurs. -/
theorem BodyContext.storageOf_unique {cx : BodyContext} {s t u : LowerState} {name : String}
    {span other : Span} {st st' : Storage} (h : cx.storageOf name span s = .ok st t)
    (h' : cx.storageOf name other s = .ok st' u) : st' = st := by
  obtain ⟨-, hst, -⟩ := storageOf_ok.mp h
  obtain ⟨-, hst', -⟩ := storageOf_ok.mp h'
  exact Option.some.inj (hst'.symm.trans hst)

/-- A name that is kept in a parameter is the name of it. -/
theorem BodyContext.param_of_storage {cx : BodyContext} {s t : LowerState} {name : String}
    {span : Span} {i : Nat} {type : Ty} (h : cx.storageOf name span s = .ok (.param i type) t) :
    cx.params[i]? = some (name, type) := by
  obtain ⟨-, hst, -⟩ := storageOf_ok.mp h
  generalize cx.file.scopes.chain cx.scope = ids at hst
  induction ids with
  | nil => cases hst
  | cons id outer ih =>
    rw [storageIn?] at hst
    split at hst
    · cases hst
    · next p hl hp =>
      cases hst
      split_ifs at hp
      obtain ⟨⟨index, t⟩, hlast, hparam⟩ := Option.map_eq_some_iff.mp hp
      cases hparam
      obtain ⟨j, rfl, hget⟩ := lastParam?_get hlast
      rwa [Nat.zero_add]
    · split_ifs at hst
      exact ih hst

/-- A name is read and written as its storage says, wherever it occurs. -/
theorem BodyContext.uses_of_storage {cx : BodyContext} {s t : LowerState} {name : String}
    {span : Span} {st : Storage} (h : cx.storageOf name span s = .ok st t) :
    cx.Uses s name st.type (st.load cx.frame) (st.store cx.frame) where
  read note := by
    have hst : cx.storageOf name note.span s = .ok st s := by
      obtain ⟨hl, hst, -⟩ := storageOf_ok.mp h
      exact storageOf_ok.mpr ⟨hl, hst, rfl⟩
    rw [lowerExpr, bind_of_ok hst]
    rfl
  assign hrun := by
    cases exprRun_of_ok hrun with
    | assignName hst hv _ =>
      obtain rfl := storageOf_unique hst h
      exact ⟨_, hv, rfl⟩
    | absent hn => cases hn
  step hrun := by
    cases exprRun_of_ok hrun with
    | step hst hk =>
      obtain rfl := storageOf_unique hst h
      exact ⟨_, hk, rfl, rfl⟩
    | absent hn => cases hn

/-- The method of a function, and each parameter in its body. All parts of the body are lowered into
the method; wherever a name is kept in a parameter, reading it gives the load of the argument of the
same position and writing it ends with its store. Unless the function is the entry point, these are
one instruction each, for the slot of the argument and the type of the parameter. The entry point
has one argument, a reference, and loads nothing for any parameter behind the first. -/
theorem lowerBody_params {file : FileContext} {plan : MethodPlan} {body : Block} {s t : LowerState}
    (hplan : plan.OfFunction) (hvalues : ∀ p ∈ plan.params, p.2.isVoid = false)
    (hnew : plan.emitted s = false) (h : lowerBody file plan body s = .ok () t) :
    ∃ frame m d, t.file.methods.getLast? = some m ∧ plan.IsFor m ∧
      MethodDescriptor.parse m.descriptor = .ok d ∧
      AllLowered (plan.context file frame body.scope) m.code body.parts ∧
      ∀ scope u v name span i type,
        { plan.context file frame body.scope with scope }.storageOf name span u =
          .ok (.param i type) v →
        plan.params[i]? = some (name, type) ∧
        { plan.context file frame body.scope with scope }.Uses u name type (frame.loadArg i)
          (frame.storeArg i) ∧
        (plan.name ≠ "main" → (∀ p ∈ plan.params, p.2.isNamed) →
          (frame.Accesses d 0 i type ↔ paramSlots (plan.params.take i) < 2 ^ 16)) ∧
        (plan.name = "main" → (frame.Accesses d 0 i type ↔ i = 0 ∧ type.representation =
          .reference) ∧
          frame.loadArg i = (if i = 0 then [.slot .aload 0] else []) ∧
          frame.storeArg i = (if i = 0 then [.slot .astore 0] else [])) := by
  obtain ⟨frame, code, u, hframe, hcode, rfl⟩ := (lowerBody_new hnew).mp h
  obtain ⟨d, hparse, hdescriptor, hlaid⟩ := Frame.start_args hframe
  have hargs : frame.args = List.zipWith Arg.mk (d.argOffsets 0) d.params := hlaid
  have hwritten := hplan.descriptor
  refine ⟨frame, plan.method frame u.body.nextSlot code, d, List.getLast?_concat, ?_, ?_,
    method_parts _ hcode, ?_⟩
  · exact Frame.start_named hframe
  · exact (congrArg _ hdescriptor).trans hparse
  intro scope u v name span i type hst
  have hget : plan.params[i]? = some (name, type) := BodyContext.param_of_storage hst
  refine ⟨hget, BodyContext.uses_of_storage hst, fun hmain hnamed => ?_, fun hmain => ?_⟩
  · rw [if_neg hmain] at hwritten
    rw [hwritten] at hparse
    simpa using accesses_written hargs hparse hnamed hget
  · rw [if_pos hmain] at hwritten
    exact accesses_entry (hvalues _ (List.mem_of_getElem? hget)) hargs (hwritten ▸ hparse)

/-- The number, a parameter of two slots and a text. -/
def mixedSignature : Signature :=
  ⟨"f", [("n", .int), ("x", .double), ("r", .string)], .void, .user none⟩

/-- Assigns the number to the second parameter, steps it and reads the text. -/
def mixedBody : Block :=
  let read (t : Ty) (name : String) : Expr := .ident ⟨t, {}⟩ name
  ⟨1, [.expr (.assign ⟨.void, {}⟩ (read .double "x") (read .int "n")),
    .expr (.step ⟨.double, {}⟩ .increment (read .double "x")), .expr (read .string "r")], {}⟩

/-- A function with parameters of every width, and an entry point that reads a number. -/
def paramSource : SourceFile where
  path := "m.ix"
  scopes := ⟨#[
    { parent := none
      vars := [("f", .function mixedSignature),
        ("main", .function ⟨"main", [("n", .int)], .void, .user none⟩)] },
    { parent := some 0, vars := mixedSignature.params },
    { parent := some 0, vars := [("n", .int)] }]⟩
  body := [.function ⟨"f", mixedBody, {}⟩,
    .function ⟨"main", ⟨2, [.expr (.ident ⟨.int, {}⟩ "n")], {}⟩, {}⟩]

theorem lowerBody_params_mixed :
    ∃ t m d, ∃ frame : Frame, (MethodPlan.declared "f" mixedSignature).emitted {} = false ∧
      lowerBody (FileContext.ofSource paramSource {})
        (.declared "f" mixedSignature) mixedBody {} = .ok () t ∧
      t.file.methods.getLast? = some m ∧ MethodDescriptor.parse m.descriptor = .ok d ∧
      frame.Accesses d 0 1 .double ∧ frame.Accesses d 0 2 .string := by
  let run := lowerBody (FileContext.ofSource paramSource {})
    (.declared "f" mixedSignature) mixedBody {}
  have hruns : (match run with | .ok _ _ => true | .error _ _ => false) = true := by decide +kernel
  obtain ⟨t, ht⟩ : ∃ t, run = .ok () t := by
    cases hrun : run with
    | ok _ t => exact ⟨t, rfl⟩
    | error e t => simp [hrun] at hruns
  obtain ⟨frame, m, d, hm, -, hparse, -, hparams⟩ :=
    lowerBody_params (.declared "f" mixedSignature) (by decide) (by decide) ht
  have hchain : (FileContext.ofSource paramSource {}).scopes.chain 1 = [1, 0] := by decide +kernel
  have hdeclared : ((FileContext.ofSource paramSource {}).scopes.lookup 1 "r").isSome = true ∧
      ((FileContext.ofSource paramSource {}).scopes.lookup 1 "x").isSome = true := by decide +kernel
  have hr : ((MethodPlan.declared "f" mixedSignature).context (FileContext.ofSource paramSource {})
      frame 1).storageOf
      "r" {} {} = .ok (.param 2 .string) {} :=
    BodyContext.storageOf_ok.mpr ⟨hdeclared.1, (congrArg _ hchain).trans rfl, rfl⟩
  have hx : ((MethodPlan.declared "f" mixedSignature).context (FileContext.ofSource paramSource {})
      frame 1).storageOf
      "x" {} {} = .ok (.param 1 .double) {} :=
    BodyContext.storageOf_ok.mpr ⟨hdeclared.2, (congrArg _ hchain).trans rfl, rfl⟩
  refine ⟨t, m, d, frame, by decide, ht, hm, hparse, ?_, ?_⟩
  · exact ((hparams _ _ _ _ _ _ _ hx).2.2.1 (by decide) (by decide)).mpr (by decide)
  · exact ((hparams _ _ _ _ _ _ _ hr).2.2.1 (by decide) (by decide)).mpr (by decide)

/-- The entry point loads its number as a reference. -/
theorem entry_loads_reference :
    (paramSource.compiled? roundLimit {}).map (fun c => c.fileUnit.methods.filterMap fun m =>
        if m.name = "main" then some (m.descriptor, m.code) else none) =
      some [("([Ljava/lang/String;)V",
        [.slot .aload 0, .op .pop, .op .vreturn])] := by decide +kernel

end ClassGen
