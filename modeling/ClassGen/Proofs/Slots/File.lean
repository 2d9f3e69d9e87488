import ClassGen.Proofs.Linking.Units
import ClassGen.Proofs.Slots.Layout
import ClassGen.Proofs.Slots.Params
import ClassGen.Proofs.StackKinds.File

/-! The slots of a compiled method are those of its receiver, its arguments and its variables, each
accessed by instructions of one kind. -/

namespace ClassGen

variable {file : FileContext} {runs : List BodyRun} {m : Method}
  {vars : List (Option String)} {n : Nat}

/-! ### Arguments that are longs -/

/-- Types with proper class names never read as longs. -/
theorem long_notMem_cells {types : List Ty} {ret : Ty} {d : MethodDescriptor}
    (hp : ∀ t ∈ types, t.isNamed) (h : MethodDescriptor.parse (methodDescriptor types ret) = .ok d)
    (access : Access) : .long ∉ d.cells access := by
  intro hmem
  rcases List.mem_append.mp hmem with hmem | hmem
  · split_ifs at hmem <;> simp at hmem
  · obtain ⟨f, hf, hlong⟩ := List.mem_map.mp hmem
    obtain rfl : f = .long := by cases f <;> first | rfl | cases hlong
    have hwritten : some FieldType.long ∈ types.map Ty.fieldType? :=
      params_of_parse hp h ▸ List.mem_map.mpr ⟨_, hf, rfl⟩
    obtain ⟨t, -, ht⟩ := List.mem_map.mp hwritten
    cases t with
    | primitive kind => cases kind <;> cases ht
    | _ => cases ht

/-- Types of the parameters that the method was made for: those of its function, or those of the
fields that it fills. -/
inductive ParamTypes (runs : List BodyRun) : Method → List Ty → Prop
  | function {r : BodyRun} (hr : r ∈ runs) : ParamTypes runs r.method (r.plan.params.map Prod.snd)
  | constructor {decl : StructDef} {frame : Frame}
    (hframe : Frame.start .publicFlag Library.constructor decl.constructorDescriptor = .ok frame) :
    ParamTypes runs (frame.finish (decl.constructorCode frame)) (decl.fields.map Prod.snd)

/-- Descriptors that are written from no types. -/
def fixedDescriptors : List String :=
  [MethodPlan.mainDescriptor, methodDescriptor [] .void, "()Ljava/lang/String;"]

theorem BodyRun.Origin.ofFunction {d : Declaration} {r : BodyRun} (h : r.Origin file d) :
    r.plan.OfFunction := by
  cases h with
  | declared h =>
    obtain ⟨sig, -, -, hplan, -⟩ := h
    rw [hplan]
    exact .declared _ sig
  | instantiated _ _ hplan _ => exact .instantiated hplan

/-- A descriptor is written from the types of the parameters, or it is fixed. -/
theorem MethodOrigin.described {D : List Declaration} (h : MethodOrigin file D runs m) :
    (∃ types ret, ParamTypes runs m types ∧ m.descriptor = methodDescriptor types ret) ∨
      m.descriptor ∈ fixedDescriptors := by
  cases h with
  | function hr hd ho hs =>
    rename_i r d
    rw [hs.isFor.2]
    have hplan := ho.ofFunction.descriptor
    split_ifs at hplan
    · exact .inr (List.mem_cons.mpr (.inl hplan))
    · exact .inl ⟨_, _, .function hr, hplan⟩
  | generated h hframe =>
    rw [show (Frame.finish _ _).descriptor = _ from (Frame.start_named hframe).2]
    cases h with
    | init | classInit => exact .inr (by decide)
    | constructor decl => exact .inl ⟨_, _, .constructor hframe, constructorDescriptor_eq decl⟩
    | text decl => exact .inr (by decide)

/-- An argument can be a long only if some parameter is of a type that has no proper name. -/
theorem MethodOrigin.long_args {D : List Declaration} (h : MethodOrigin file D runs m)
    {d : MethodDescriptor} (hparse : MethodDescriptor.parse m.descriptor = .ok d)
    (hlong : .long ∈ d.cells m.access) :
    ∃ types ret, ParamTypes runs m types ∧ m.descriptor = methodDescriptor types ret ∧
      ∃ t ∈ types, t.isNamed = false := by
  rcases h.described with ⟨types, ret, hparams, htypes⟩ | hfixed
  · refine ⟨types, ret, hparams, htypes, ?_⟩
    by_contra hnamed
    refine long_notMem_cells (fun t ht => ?_) (htypes ▸ hparse) m.access hlong
    exact Bool.not_eq_false _ ▸ fun h => hnamed ⟨t, ht, h⟩
  · have hnone : ∀ text ∈ fixedDescriptors, (MethodDescriptor.parse text).toOption.all fun read =>
        read.params.all (·.cell ≠ .long) := by decide
    have hread : d.params.all (·.cell ≠ .long) = true := by
      simpa only [hparse, Except.toOption, Option.all_some] using hnone _ hfixed
    rcases List.mem_append.mp hlong with hmem | hmem
    · split_ifs at hmem <;> simp at hmem
    · obtain ⟨f, hf, hcell⟩ := List.mem_map.mp hmem
      simpa [hcell] using List.all_eq_true.mp hread f hf

/-! ### Methods -/

/-- The variables of the method, and where the slot counter stood at its end. -/
inductive SlotCount (file : FileContext) (runs : List BodyRun) :
    Method → List (Option String) → Nat → Prop
  | function {r : BodyRun} {frame : Frame} {s u : LowerState} {code : Code} (hr : r ∈ runs)
    (hframe : Frame.start .publicStatic r.plan.name r.plan.descriptor = .ok frame)
    (hcode : lowerStmts (r.plan.context file frame r.body.scope)
      [] r.body.body (r.plan.opened frame s) = .ok code u)
    (hmethod : r.plan.method frame u.body.nextSlot code = r.method) :
    SlotCount file runs r.method r.body.variables u.body.nextSlot
  | generated {access : Access} {name descriptor : String} {code : Frame → Code} {frame : Frame}
    (h : Generated file access name descriptor code)
    (hframe : Frame.start access name descriptor = .ok frame) :
    SlotCount file runs (frame.finish (code frame)) [] frame.nextSlot

theorem MethodOrigin.slotCount {D : List Declaration} (h : MethodOrigin file D runs m) :
    ∃ vars n, SlotCount file runs m vars n := by
  cases h with
  | function hr hd ho hs =>
    obtain ⟨frame, s, code, u, hframe, hcode, hmethod⟩ := hs.lowers
    exact ⟨_, _, .function hr hframe hcode hmethod⟩
  | generated h hframe => exact ⟨_, _, .generated h hframe⟩

theorem Code.Confined.closed {A : Opcode → UInt16 → Prop} {plan : MethodPlan}
    {frame : Frame} {c : Code} (h : c.Confined A []) : (plan.closed frame c).Confined A [] := by
  unfold MethodPlan.closed
  split_ifs
  · exact h.append (.of_simple rfl)
  · exact h

theorem Code.Confined.finish {A : Opcode → UInt16 → Prop} {frame : Frame} {c : Code}
    (h : c.Confined A []) : (frame.finish c).code.Confined A [] := by
  show Code.Confined A [] (if _ then _ else _)
  split_ifs
  · exact h.append (.of_simple rfl)
  · exact h

namespace SlotCount

/-- The row of cells that the counter went through. -/
theorem cells (h : SlotCount file runs m vars n) :
    ∃ d locals, MethodDescriptor.parse m.descriptor = .ok d ∧ locals.length = vars.length ∧
      .long ∉ locals ∧
      Cell.span (d.cells m.access ++ locals) = n ∧ m.maxLocals = n.toUInt16 ∧
      m.code.Confined (Cell.Accessed (d.cells m.access ++ locals)) [] := by
  cases h with
  | function hr hframe hcode hmethod =>
    rename_i r frame s u code
    obtain ⟨d, hparse, haccess, hdescriptor, hspan, hargs, -⟩ := Frame.start_cells hframe
    have hlaid : Laid (r.plan.context file frame r.body.scope) (d.cells .publicStatic)
        (r.plan.opened frame s) :=
      ⟨hspan.symm, hargs, nofun⟩
    obtain ⟨more, hlength, hlong, hlaid', hconfined⟩ := stmtsLay r.body.body hcode hlaid
    rw [← hmethod]
    have hcells : d.cells (r.plan.method frame u.body.nextSlot code).access =
        d.cells .publicStatic :=
      congrArg d.cells haccess
    refine ⟨d, more, (congrArg _ hdescriptor).trans hparse, ?_, hlong, ?_, rfl, ?_⟩
    · rw [hlength, Block.variables_eq]
    · rw [hcells]
      exact hlaid'.span
    · rw [hcells]
      exact hconfined.closed.finish
  | generated h hframe =>
    rename_i access name descriptor code frame
    obtain ⟨d, hparse, haccess, hdescriptor, hspan, hargs, hthis⟩ := Frame.start_cells hframe
    have hcells : d.cells (frame.finish (code frame)).access ++ [] = d.cells access := by
      rw [List.append_nil]
      exact congrArg d.cells haccess
    have hconfined : (code frame).Confined (Cell.Accessed (d.cells access)) [] :=
      h.confined (fun hstatic => ⟨0, .ref, hthis hstatic, .inl rfl, rfl⟩)
        fun a ha => ⟨a.slot, a.type.cell, hargs a ha, .inl a.loadOp_eq, rfl⟩
    refine ⟨d, [], (congrArg _ hdescriptor).trans hparse, rfl, by simp, ?_, rfl, ?_⟩
    · rw [hcells, hspan]
    · rw [hcells]
      exact hconfined.finish

theorem partition (h : SlotCount file runs m vars n) (hn : n < 2 ^ 16) :
    ∃ d locals, MethodDescriptor.parse m.descriptor = .ok d ∧ locals.length = vars.length ∧
      .long ∉ locals ∧
      m.Partition d locals := by
  obtain ⟨d, locals, hparse, hlength, hlong, hspan, hmax, hconfined⟩ := h.cells
  have hlast : n.toUInt16.toNat = n := UInt16.toNat_ofNat_of_lt' hn
  refine ⟨d, locals, hparse, hlength, hlong, by rw [hspan, hmax, hlast], fun op slot hmem => ?_⟩
  obtain ⟨slot, k, hat, hhas, rfl⟩ := hconfined.slots op slot hmem
  have hslot : slot < 2 ^ 16 := by
    have := Cell.at?_le hat
    omega
  exact ⟨k, by rwa [UInt16.toNat_ofNat_of_lt' hslot], hhas⟩

/-- A method with few arguments and variables takes few slots. -/
theorem lt_of_few (h : SlotCount file runs m vars n)
    (hargs : (MethodDescriptor.parse m.descriptor).toOption.all (·.params.length ≤ 1000) = true)
    (hvars : ∀ r ∈ runs, r.body.variables.length ≤ 1000) : n < 2 ^ 16 := by
  obtain ⟨d, locals, hparse, hlength, -, hspan, -⟩ := h.cells
  have hlocals : locals.length ≤ 1000 := by
    rw [hlength]
    cases h with
    | function hr hframe hcode hmethod => exact hvars _ hr
    | generated h hframe => exact Nat.zero_le _
  have hcells : (d.cells m.access).length ≤ 1001 := by
    have hparams : d.params.length ≤ 1000 := by simpa [hparse, Except.toOption] using hargs
    rw [MethodDescriptor.cells, List.length_append, List.length_map]
    split_ifs <;> simp <;> omega
  have hle := Cell.span_le (d.cells m.access ++ locals)
  rw [hspan, List.length_append] at hle
  omega

end SlotCount

/-- In a compiled file whose slot counters stay within sixteen bits, the slots of every method are
cells: of the receiver, of the arguments, then one for each variable. Every access is to the first
slot of a cell with an instruction of its kind, so that variables do not overlap, none has two kinds
and none lies past the last slot. A cell is a long only for an argument, and only if some parameter
of the method is of a type that has no proper name. -/
theorem compile_slots_partitioned {f : SourceFile} {rounds : Nat} {options : Options}
    {c : CompiledFile} {trace : List Event}
    (h : f.compileWithin rounds options = some ⟨.ok c, trace⟩)
    (hcount : ∀ u ∈ c.units, ∀ m ∈ u.methods, ∀ vars n,
      SlotCount (FileContext.ofSource f options) (f.trail rounds options).runs m vars n →
        n < 2 ^ 16) :
    ∀ u ∈ c.units, ∀ m ∈ u.methods, ∃ vars n d locals,
      SlotCount (FileContext.ofSource f options) (f.trail rounds options).runs m vars n ∧
      MethodDescriptor.parse m.descriptor = .ok d ∧ locals.length = vars.length ∧
        m.Partition d locals ∧
      .long ∉ locals ∧
      (.long ∈ d.cells m.access →
        ∃ types ret, ParamTypes (f.trail rounds options).runs m types ∧
          m.descriptor = methodDescriptor types ret ∧ ∃ t ∈ types, t.isNamed = false) ∧
      ∀ op i op' j, .slot op i ∈ m.code → .slot op' j ∈ m.code → ∃ k k' : Cell, k.Has op ∧
        k'.Has op' ∧
        i.toNat + k.width ≤ m.maxLocals.toNat ∧
        (i = j ∧ k = k' ∨ i.toNat + k.width ≤ j.toNat ∨ j.toNat + k'.width ≤ i.toNat) := by
  intro u hu m hm
  have horigin := SourceFile.methodOrigin (SourceFile.compiled?_eq_some.mpr ⟨trace, h⟩) u hu m hm
  obtain ⟨vars, n, hslots⟩ := horigin.slotCount
  obtain ⟨d, locals, hparse, hlength, hlong, hpartition⟩ :=
    hslots.partition (hcount u hu m hm vars n hslots)
  exact ⟨vars, n, d, locals, hslots, hparse, hlength, hpartition, hlong, horigin.long_args hparse,
    fun op i op' j hi hj => hpartition.apart hi hj⟩

/-- What `lt_of_few` asks of the arguments, for all methods of a file. -/
def CompiledFile.fewArgs (c : CompiledFile) : Bool :=
  c.units.all fun u => u.methods.all fun m =>
    (MethodDescriptor.parse m.descriptor).toOption.all (·.params.length ≤ 1000)

/-- The methods of the sample; the last slots of `main` are those of a loop, its match and the arms
of that. -/
theorem compile_slots_partitioned_sample :
    ∃ c trace, sampleSource.compile {} = some ⟨.ok c, trace⟩ ∧
      c.units.map (fun u => u.methods.map fun m => (m.name, m.maxLocals.toNat)) =
        [[("<init>", 1), ("<clinit>", 0), ("_halves", 3), ("main", 7), ("_id", 2)],
          [("<init>", 4), ("toString", 1)]] ∧
      ∀ u ∈ c.units, ∀ m ∈ u.methods,
        (∀ vars n, SlotCount (FileContext.ofSource sampleSource {})
          (sampleSource.trail roundLimit {}).runs m vars n → n < 2 ^ 16) ∧
        ∃ d locals, MethodDescriptor.parse m.descriptor = .ok d ∧ m.Partition d locals := by
  have hcompiles : (sampleSource.compiled? roundLimit {}).any (fun c => c.fewArgs && decide (
      c.units.map (fun u => u.methods.map fun m => (m.name, m.maxLocals.toNat)) =
        [[("<init>", 1), ("<clinit>", 0), ("_halves", 3), ("main", 7), ("_id", 2)],
          [("<init>", 4), ("toString", 1)]])) = true := by decide +kernel
  have hvars : ∀ r ∈ (sampleSource.trail roundLimit {}).runs,
      r.body.variables.length ≤ 1000 := by decide +kernel
  obtain ⟨c, hc, hfew⟩ := (Option.any_eq_true _ _).mp hcompiles
  obtain ⟨trace, hcompile⟩ := SourceFile.compiled?_eq_some.mp hc
  obtain ⟨hargs, hslots⟩ := Bool.and_eq_true_iff.mp hfew
  have hcount : ∀ u ∈ c.units, ∀ m ∈ u.methods, ∀ vars n,
      SlotCount (FileContext.ofSource sampleSource {})
        (sampleSource.trail roundLimit {}).runs m vars n → n < 2 ^ 16 :=
    fun u hu m hm vars n hn => hn.lt_of_few
      (List.all_eq_true.mp (List.all_eq_true.mp hargs u hu) m hm) hvars
  refine ⟨c, trace, hcompile, of_decide_eq_true hslots, fun u hu m hm => ⟨hcount u hu m hm, ?_⟩⟩
  obtain ⟨_, _, d, locals, -, hparse, -, hpartition, -⟩ :=
    compile_slots_partitioned hcompile hcount u hu m hm
  exact ⟨d, locals, hparse, hpartition⟩

/-- A function whose first argument has a class name with a semicolon in it. -/
def brokenNameSource : SourceFile :=
  let params : List (String × Ty) := [("a", .external "a;JLb"), ("n", .int)]
  { path := "m.ix"
    scopes := ⟨#[{ parent := none, vars := [("f", .function ⟨"f", params, .void, .user none⟩)] },
      { parent := some 0, vars := params }]⟩
    body := [.function ⟨"f", ⟨1, [.expr (.ident ⟨.int, {}⟩ "n")], {}⟩, {}⟩] }

def plainOptions : Options := { emitInstance := false }

/-- Its second argument is read as a long, though it is a number and no slot counter went past
sixteen bits. -/
theorem compile_long_argument :
    ∃ c trace, brokenNameSource.compile plainOptions = some ⟨.ok c, trace⟩ ∧
      (∀ u ∈ c.units, ∀ m ∈ u.methods, ∀ vars n,
        SlotCount (FileContext.ofSource brokenNameSource plainOptions)
        (brokenNameSource.trail roundLimit plainOptions).runs m vars n → n < 2 ^ 16) ∧
      ∃ m ∈ c.fileUnit.methods, m.code = [.slot .lload 1, .op .pop, .op .vreturn] ∧
        ∀ d locals, m.Partition d locals → .long ∈ d.cells m.access ++ locals := by
  let code : Code := [.slot .lload 1, .op .pop, .op .vreturn]
  have hcompiles : (brokenNameSource.compiled? roundLimit plainOptions).any (fun c =>
      c.fewArgs && c.fileUnit.methods.any fun m => decide (m.code = code)) =
        true := by decide +kernel
  have hvars : ∀ r ∈ (brokenNameSource.trail roundLimit plainOptions).runs,
      r.body.variables.length ≤ 1000 := by
    decide +kernel
  obtain ⟨c, hc, hfew⟩ := (Option.any_eq_true _ _).mp hcompiles
  obtain ⟨trace, hcompile⟩ := SourceFile.compiled?_eq_some.mp hc
  obtain ⟨hargs, hmethod⟩ := Bool.and_eq_true_iff.mp hfew
  obtain ⟨m, hm, hcode⟩ := List.any_eq_true.mp hmethod
  have hcode : m.code = code := of_decide_eq_true hcode
  refine ⟨c, trace, hcompile, fun u hu m hm vars n hn => ?_, m, hm, hcode,
    fun d locals hpartition => ?_⟩
  · exact hn.lt_of_few (List.all_eq_true.mp (List.all_eq_true.mp hargs u hu) m hm) hvars
  · obtain ⟨k, hat, hhas⟩ := hpartition.accesses .lload 1 (by simp [hcode, code])
    rw [← Cell.Has.inj hhas (.inl rfl : Cell.long.Has .lload)]
    exact Cell.at?_mem hat

end ClassGen
