import ClassGen.Proofs.Linking.File

/-! Every call of a generic function of a file finds its method in the unit of the file, those calls
too that are made in instantiations which other instantiations asked for. -/

namespace ClassGen

open SpecializationTable

variable {file : FileContext} {D : List Declaration} {base s : LowerState} {tr : Trail}
  {done : List Instance}

namespace Standing

/-- Where nothing waits, what was recorded is done. -/
theorem mem_done {i : Instance} {name : String} (h : Standing file D base tr done [] s)
    (hpending : s.file.table.pendingFunctions = []) (hi : i ∈ s.file.table.recorded name) :
    i ∈ done := by
  rw [← handed_of_pending hpending, ← h.worklist.given name, List.append_nil] at hi
  exact List.mem_of_mem_filter hi

/-- With one signature for each name, the table has the instantiations that were called. -/
theorem mem_recorded_iff {i : Instance} {name : String} (h : Standing file D base tr done [] s)
    (hsigs : ∀ x ∈ tr.requests, ∀ y ∈ tr.requests, x.sig.name = y.sig.name → x.sig = y.sig) :
    i ∈ s.file.table.recorded name ↔ ∃ x ∈ tr.requests, x.sig.name = name ∧ i = ⟨x.sig, x.map⟩ := by
  have hentry {e : GenericEntry} {x : GenericCall} (he : s.file.table.get? name = some e)
      (hx : x ∈ tr.requests)
      (hname : x.sig.name = name) : e.sig = x.sig := by
    obtain ⟨y, hy, hsig⟩ := (h.worklist.entries name e he).signed
    rw [← hsig]
    refine hsigs y hy x hx ?_
    rw [hsig, get?_name he, hname]
  rw [mem_recorded]
  constructor
  · rintro ⟨e, he, hsig, hmap⟩
    obtain ⟨x, hx, hname, hxmap⟩ := (h.worklist.entries name e he).asked i.map hmap
    refine ⟨x, hx, hname, ?_⟩
    rw [← hentry he hx hname, hsig, hxmap]
  · rintro ⟨x, hx, hname, rfl⟩
    obtain ⟨e, he, hmap⟩ := h.worklist.recorded x hx
    rw [hname] at he
    exact ⟨e, he, hentry he hx hname, hmap⟩

theorem exists_method {x : GenericCall} (h : Standing file D base tr done [] s)
    (hpending : s.file.table.pendingFunctions = [])
    (hsigs : ∀ x ∈ tr.requests, ∀ y ∈ tr.requests, x.sig.name = y.sig.name → x.sig = y.sig)
    (hx : x ∈ tr.requests) :
    ∃ m ∈ s.file.methods, m.name = mangle x.sig.name ∧ m.descriptor = x.descriptor := by
  have hdone : (⟨x.sig, x.map⟩ : Instance) ∈ done :=
    h.mem_done hpending ((h.mem_recorded_iff hsigs).mpr ⟨x, hx, rfl, rfl⟩)
  obtain ⟨plan, hplan, m, hm, hfor⟩ := h.served _ hdone
  obtain ⟨params, ret, hinstance, rfl⟩ := instantiated_ok.mp hplan
  obtain ⟨rfl, rfl⟩ := Prod.mk.inj (Except.ok.inj (x.instantiates.symm.trans hinstance))
  exact ⟨m, hm, hfor⟩

end Standing

/-- In a file that calls generic functions of one name by one signature, the unit has a method for
the instruction of every such call. The calls are those of the bodies that became methods, all
methods but the constructors among them, and the instantiations that were recorded are theirs.
Rounds that end leave none of them waiting. -/
theorem compile_linked {f : SourceFile} {rounds : Nat} {options : Options} {c : CompiledFile}
    {trace : List Event} (h : f.compileWithin rounds options = some ⟨.ok c, trace⟩)
    (hsigs : ∀ x ∈ (f.trail rounds options).requests, ∀ y ∈ (f.trail rounds options).requests,
      x.sig.name = y.sig.name → x.sig = y.sig) :
    (∀ m ∈ c.fileUnit.methods, m.name = Library.constructor ∨ m.name = Library.classInit ∨
        ∃ r ∈ (f.trail rounds options).runs, r.method = m) ∧
      (∀ r ∈ (f.trail rounds options).runs, r.method ∈ c.fileUnit.methods ∧ ∀ x ∈ r.calls,
        Code.callStatic ⟨c.fileUnit.name, mangle x.sig.name, x.descriptor⟩ ∈ r.method.code ∧
          c.fileUnit.hasMethod (mangle x.sig.name) x.descriptor = true) ∧
      (∃ final, f.lowered? rounds options = some final ∧ ∀ name i, i ∈ final.table.recorded name ↔
        ∃ x ∈ (f.trail rounds options).requests, x.sig.name = name ∧ i = ⟨x.sig, x.map⟩) ∧
      ∀ rounds s t, drain (FileContext.ofSource f options) rounds s = .ok true t →
        ∀ name, (t.file.table.takePending name).1 = [] := by
  obtain ⟨final, hlowered, rfl⟩ :=
    Option.map_eq_some_iff.mp (SourceFile.compiled?_eq_some.mpr ⟨trace, h⟩)
  obtain ⟨hpending, base, s, done, rfl, hs⟩ := SourceFile.standing hlowered
  have hmem (m : Method) : m ∈ s.file.methods ↔
      m ∈ base.file.methods ∨ ∃ r ∈ (f.trail rounds options).runs, r.method = m := by
    rw [hs.advances.methods, List.mem_append, List.mem_map]
  refine ⟨fun m hm => ?_, fun r hr => ⟨?_, fun x hx => ⟨(hs.advances.sound r hr).calls x hx, ?_⟩⟩,
    ⟨_, hlowered, fun name i => hs.mem_recorded_iff hsigs⟩,
    fun rounds s t hdrain name => takePending_of_pending (drain_pending hdrain)⟩
  · rcases (hmem m).mp hm with hm | hm
    · exact (hs.scaffolding.methods m hm).imp_right .inl
    · exact .inr (.inr hm)
  · exact (hmem r.method).mpr (.inr ⟨r, hr, rfl⟩)
  · have hcalled : x ∈ (f.trail rounds options).requests :=
      List.mem_append_right _ (List.mem_flatMap.mpr ⟨r, hr, hx⟩)
    obtain ⟨m, hm, hname, hdescriptor⟩ := hs.exists_method hpending hsigs hcalled
    exact List.any_eq_true.mpr ⟨m, hm, by simp [hname, hdescriptor]⟩

/-- A value put into a list, and that list into another, for two types. -/
def nestedSource : SourceFile :=
  let name (t : Ty) (x : String) : Expr := .ident ⟨t, {}⟩ x
  let call (t : Ty) (f : String) (args : List Expr) : Expr := .call ⟨t, {}⟩ (name .void f) args
  let item : Ty := .generic "T"
  { path := "demo/nested.ix"
    scopes := ⟨#[
      { parent := none
        vars := [("wrap", .function ⟨"wrap", [("x", item)], .list item, .user none⟩),
          ("twice", .function ⟨"twice", [("x", item)], .list (.list item), .user none⟩),
          ("main", .function ⟨"main", [], .void, .user none⟩)] },
      { parent := some 0, vars := [("x", item)] }, { parent := some 0, vars := [("x", item)] },
      { parent := some 0 }]⟩
    body := [
      .function ⟨"wrap", ⟨1, [.ret {} (.listOf ⟨.list item, {}⟩ [name item "x"])], {}⟩, {}⟩,
      .function ⟨"twice", ⟨2, [.ret {} (call (.list (.list item)) "wrap"
        [call (.list item) "wrap" [name item "x"]])], {}⟩, {}⟩,
      .function ⟨"main", ⟨3, [
        .expr (call (.list (.list .int)) "twice" [.literal ⟨.int, {}⟩ (.int 1)]),
        .expr (call (.list (.list .string)) "twice" [.literal ⟨.string, {}⟩ (.text "a")])],
        {}⟩, {}⟩] }

/-- The two instantiations of the outer function call four of the inner one. -/
theorem compile_linked_nested :
    ∃ c trace, nestedSource.compile {} = some ⟨.ok c, trace⟩ ∧
      (nestedSource.trail roundLimit {}).runs.map
        (fun r => (r.plan.name, r.calls.map (·.sig.name))) =
        [("main", ["twice", "twice"]), ("_twice", ["wrap", "wrap"]), ("_twice", ["wrap", "wrap"]),
          ("_wrap", []), ("_wrap", []), ("_wrap", [])] ∧
      ∀ r ∈ (nestedSource.trail roundLimit {}).runs, ∀ x ∈ r.calls,
      c.fileUnit.hasMethod (mangle x.sig.name) x.descriptor = true := by
  -- one evaluation of the file for the three facts
  have hfacts : (nestedSource.compiled? roundLimit {}).isSome = true ∧
      (nestedSource.trail roundLimit {}).runs.map
        (fun r => (r.plan.name, r.calls.map (·.sig.name))) =
        [("main", ["twice", "twice"]), ("_twice", ["wrap", "wrap"]), ("_twice", ["wrap", "wrap"]),
          ("_wrap", []), ("_wrap", []), ("_wrap", [])] ∧
      ∀ x ∈ (nestedSource.trail roundLimit {}).requests,
        ∀ y ∈ (nestedSource.trail roundLimit {}).requests, x.sig.name = y.sig.name →
          x.sig = y.sig := by decide +kernel
  obtain ⟨hcompiles, hruns, hsigs⟩ := hfacts
  obtain ⟨c, hc⟩ := Option.isSome_iff_exists.mp hcompiles
  obtain ⟨trace, hcompile⟩ := SourceFile.compiled?_eq_some.mp hc
  exact ⟨c, trace, hcompile, hruns, fun r hr x hx =>
    (((compile_linked hcompile hsigs).2.1 r hr).2 x hx).2⟩

end ClassGen
