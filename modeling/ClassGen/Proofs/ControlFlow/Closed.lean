import ClassGen.Proofs.Assembly.Labels
import ClassGen.Proofs.ControlFlow.Path
import ClassGen.Proofs.Slots.File

/-! Control stays inside compiled methods: their labels are placed once, their jumps go to labels of
the same method, and they end in a terminal instruction. -/

namespace ClassGen

open Run

variable {file : FileContext} {plan : MethodPlan} {frame : Frame} {c : Code} {D : List Declaration}
  {runs : List BodyRun} {m : Method}

/-! ### Labels -/

theorem marks_closed : Code.marks (plan.closed frame c) = c.marks := by
  unfold MethodPlan.closed
  split_ifs
  · simp [MethodPlan.missingReturn, Code.new, Code.pushText, Code.callSpecial, Instr.mark?]
  · rfl

theorem marks_finish : Code.marks (frame.finish c).code = c.marks := by
  show Code.marks (if _ then _ else _) = _
  split_ifs
  · simp [Instr.mark?]
  · rfl

theorem marks_storeFields {owner : StructDef} {index : Nat} {fields : List (String × Ty)} :
    Code.marks (storeFields frame owner index fields) = [] := by
  induction fields generalizing index with
  | nil => rfl
  | cons field rest ih =>
    have harg : Code.marks (frame.loadArg index) = [] := by
      unfold Frame.loadArg
      cases frame.args[index]? <;> rfl
    simp [storeFields, harg, ih, Code.loadThis, Code.loadSlot, Code.putField, Instr.mark?]

theorem marks_appendFields {owner : StructDef} {first : Bool} {fields : List (String × Ty)} :
    Code.marks (appendFields owner first fields) = [] := by
  induction fields generalizing first with
  | nil => rfl
  | cons field rest ih =>
    simp [appendFields, ih, Code.pushText, appendValue, Code.callVirtual, Code.loadThis,
      Code.loadSlot, Code.getField, Instr.mark?]

theorem Generated.marks {access : Access} {name descriptor : String} {code : Frame → Code}
    (h : Generated file access name descriptor code) : Code.marks (code frame) = [] := by
  cases h with
  | init | classInit => rfl
  | constructor decl =>
    rw [StructDef.constructorCode, Code.marks_append, marks_storeFields]
    rfl
  | text decl =>
    show Code.marks decl.toStringCode = []
    unfold StructDef.toStringCode
    split_ifs
    · rfl
    · rw [Code.marks_append, Code.marks_append, marks_appendFields]
      rfl

theorem MethodOrigin.marks_nodup (h : MethodOrigin file D runs m) : m.code.marks.Nodup := by
  cases h with
  | function hr hd ho hs =>
    obtain ⟨frame, s, code, u, -, hcode, hmethod⟩ := hs.lowers
    rw [← hmethod, MethodPlan.method, marks_finish, marks_closed]
    exact (lowerStmts_fresh hcode).nodup
  | generated h hframe =>
    rw [marks_finish, h.marks]
    exact List.nodup_nil

/-! ### The end of a method -/

theorem fallsThrough_finish (h : Code.fallsThrough c = true → frame.returnsVoid = true) :
    Code.fallsThrough (frame.finish c).code = false := by
  show Code.fallsThrough (if _ then _ else _) = false
  split_ifs with hc
  · exact Code.fallsThrough_terminal _ rfl
  · cases hfalls : Code.fallsThrough c with
    | false => rfl
    | true => simp [hfalls, h hfalls] at hc

/-- A frame for a descriptor without a result returns nothing. -/
theorem Frame.start_void {access : Access} {name descriptor : String}
    (h : Frame.start access name descriptor = .ok frame)
    (hlast : descriptor.toList.getLast? = some 'V') : frame.returnsVoid = true := by
  obtain ⟨d, hparse, -, -, hvoid, -⟩ := frame_start h
  rw [hvoid, MethodDescriptor.ret_of_parse hparse hlast]
  rfl

theorem getLast?_methodDescriptor {types : List Ty} {ret : Ty} (h : ret.isVoid = true) :
    (methodDescriptor types ret).toList.getLast? = some 'V' := by
  rw [toList_methodDescriptor, Ty.eq_void h]
  simp [Ty.toList_descriptor, Ty.fieldType?, List.getLast?_cons]

/-- A body that owes no value has a descriptor that names none. -/
theorem BodyRun.Origin.void {r : BodyRun} {d : Declaration} (h : r.Origin file d)
    (hvoid : r.plan.ret.isVoid = true) : r.plan.descriptor.toList.getLast? = some 'V' := by
  cases h with
  | declared h =>
    obtain ⟨sig, -, -, hplan, -⟩ := h
    rw [hplan] at hvoid ⊢
    unfold MethodPlan.declared at hvoid ⊢
    split_ifs at hvoid ⊢
    · show MethodPlan.mainDescriptor.toList.getLast? = some 'V'
      decide
    · exact getLast?_methodDescriptor hvoid
  | instantiated hg hname hplan hbody =>
    obtain ⟨params, ret, -, hplan⟩ := instantiated_ok.mp hplan
    rw [← hplan] at hvoid ⊢
    exact getLast?_methodDescriptor hvoid

/-- A body that comes to its end either owes no value and returns there, or throws. -/
theorem fallsThrough_closed (hvoid : plan.ret.isVoid = true → frame.returnsVoid = true)
    (hfalls : Code.fallsThrough (plan.closed frame c) = true) : frame.returnsVoid = true := by
  unfold MethodPlan.closed at hfalls
  split_ifs at hfalls with hc
  · rw [MethodPlan.missingReturn, List.append_cons, List.append_cons, List.append_cons,
      List.append_cons, Code.fallsThrough_terminal _ rfl] at hfalls
    cases hfalls
  · by_contra hnot
    exact hc (by simp [hfalls, hnot, mt hvoid hnot])

theorem StructDef.fallsThrough_toStringCode (decl : StructDef) :
    Code.fallsThrough decl.toStringCode = false := by
  unfold StructDef.toStringCode
  split_ifs
  · exact Code.fallsThrough_terminal [Code.pushText (decl.name ++ "[]")] rfl
  · rw [List.append_cons, List.append_cons, List.append_cons]
    exact Code.fallsThrough_terminal _ rfl

theorem MethodOrigin.fallsThrough_eq_false (h : MethodOrigin file D runs m) :
    Code.fallsThrough m.code = false := by
  cases h with
  | function hr hd ho hs =>
    obtain ⟨frame, s, code, u, hframe, -, hmethod⟩ := hs.lowers
    rw [← hmethod, MethodPlan.method]
    exact fallsThrough_finish (fallsThrough_closed fun hvoid =>
      Frame.start_void hframe (ho.void hvoid))
  | generated h hframe =>
    refine fallsThrough_finish fun hfalls => ?_
    cases h with
    | init | classInit => exact Frame.start_void hframe rfl
    | constructor decl =>
      rw [constructorDescriptor_eq] at hframe
      exact Frame.start_void hframe (getLast?_methodDescriptor rfl)
    | text decl =>
      rw [decl.fallsThrough_toStringCode] at hfalls
      cases hfalls

/-! ### Compiled files -/

theorem MethodOrigin.closed (h : MethodOrigin file D runs m) : m.code.Closed where
  once := h.marks_nodup
  placed op l hjump := by
    obtain ⟨vars, n, hslots⟩ := h.slotCount
    obtain ⟨d, locals, -, -, -, -, -, hconfined⟩ := hslots.cells
    exact (hconfined.jumps op l hjump).resolve_right List.not_mem_nil
  ends := Code.fallsThrough_eq_false.mp h.fallsThrough_eq_false

/-- In every method of a compiled file each label is placed at most once, the labels that are jumped
to are placed in that method, and the last instruction is terminal. So control never falls off its
end, a jump comes to an instruction, and the method is not refused for a label when it is assembled.
-/
theorem compile_closed {f : SourceFile} {rounds : Nat} {options : Options} {c : CompiledFile}
    {trace : List Event} (h : f.compileWithin rounds options = some ⟨.ok c, trace⟩) : ∀ u ∈ c.units,
    ∀ m ∈ u.methods,
      m.code.marks.Nodup ∧ (∀ op l, .jump op l ∈ m.code → .mark l ∈ m.code) ∧
      (∃ last, m.code.getLast? = some last ∧ last.isTerminal = true) ∧
      (∀ visited n, m.code.Path visited n → n < m.code.length) ∧
      (∀ op l, .jump op l ∈ m.code → m.code.Lands l) ∧
      ∀ p q method, m.assemble p ≠ .error (.unknownLabel method) q := by
  intro u hu m hm
  have hclosed := (SourceFile.methodOrigin (SourceFile.compiled?_eq_some.mpr ⟨trace, h⟩) u hu
    m hm).closed
  exact ⟨hclosed.once, hclosed.placed, hclosed.ends, fun visited n => hclosed.path_lt,
    fun op l hjump => hclosed.lands (hclosed.placed op l hjump),
    Method.assemble_ne_unknownLabel hclosed.placed⟩

/-- The loops, comparisons and the match of the sample place thirteen labels. -/
theorem compile_closed_sample :
    ∃ c trace, sampleSource.compile {} = some ⟨.ok c, trace⟩ ∧
      c.fileUnit.methods.map (fun m => (m.name, m.code.marks.length)) =
        [("<init>", 0), ("<clinit>", 0), ("_halves", 4), ("main", 9), ("_id", 0)] ∧
      ∀ m ∈ c.fileUnit.methods, ∀ op l, .jump op l ∈ m.code → m.code.Lands l := by
  have hmarks : (sampleSource.compiled? roundLimit {}).any (fun c => decide (
      c.fileUnit.methods.map (fun m => (m.name, m.code.marks.length)) =
        [("<init>", 0), ("<clinit>", 0), ("_halves", 4), ("main", 9), ("_id", 0)])) =
          true := by decide +kernel
  obtain ⟨c, hc, hlabels⟩ := (Option.any_eq_true _ _).mp hmarks
  obtain ⟨trace, hcompile⟩ := SourceFile.compiled?_eq_some.mp hc
  refine ⟨c, trace, hcompile, of_decide_eq_true hlabels, fun m hm => ?_⟩
  exact (compile_closed hcompile c.fileUnit List.mem_cons_self m hm).2.2.2.2.1

end ClassGen
