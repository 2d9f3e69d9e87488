import ClassGen.Proofs.Lowering.File
import ClassGen.Proofs.StackKinds.Body

/-! Stack safety of whole files: every method of every unit of a file that is compiled by a faithful
run. -/

namespace ClassGen

open Run Faithful LowerState

variable {file : FileContext} {declared : List FunctionDecl} {s t : LowerState}

/-- Actions that each keep the units safe keep them safe one after the other. -/
theorem each_safe {α : Type} {check : α → LowerState → Bool} {act : α → Lower Unit} {list : List α}
    (hact : ∀ a ∈ list, ∀ {s t : LowerState}, act a s = .ok () t → check a s = true →
      UnitsSafe file declared s →
      UnitsSafe file declared t)
    (h : list.forM act s = .ok () t) (hf : each check act list s = true)
    (hunits : UnitsSafe file declared s) : UnitsSafe file declared t := by
  induction list generalizing s with
  | nil =>
    obtain ⟨-, rfl⟩ := pure_ok.mp h
    exact hunits
  | cons a rest ih =>
    obtain ⟨_, s₁, ha, hrest⟩ := bind_ok.mp h
    rw [each, after_ok ha, Bool.and_eq_true] at hf
    exact ih (fun b hb => hact b (List.mem_cons_of_mem _ hb)) hrest hf.2
      (hact a List.mem_cons_self ha hf.1 hunits)

theorem top_safe (st : Stmt) (h : lowerTop file st s = .ok () t) (hf : top file st s = true)
    (hsub : st.functions ⊆ declared) (hunits : UnitsSafe file declared s) :
    UnitsSafe file declared t := by
  fun_induction lowerTop file st with
  | case1 decl =>
      exact function_safe (functionSettles decl) h hf (by simpa [Stmt.functions] using hsub) hunits
  | case2 span name => exact struct_safe h hf hunits
  | case3 inner ih => exact ih h hf (by simpa [Stmt.functions] using hsub)
  | case4 | case5 | case6 =>
    obtain ⟨-, rfl⟩ := pure_ok.mp h
    exact hunits
  | case7 | case8 | case9 => exact (throw_ok.mp h).elim

/-! ### Instantiations -/

theorem instantiation_safe {decl : FunctionDecl} {sig : Signature} {map : Bindings}
    (h : lowerInstance file decl sig map s = .ok () t)
    (hf : instantiation file decl sig map s = true) (hsub : decl.functions ⊆ declared)
    (hunits : UnitsSafe file declared s) : UnitsSafe file declared t := by
  obtain ⟨plan, hplan, h⟩ := lowerInstance_ok.mp h
  simp only [instantiation, hplan] at hf
  exact body_safe (functionSettles decl) (.instantiated hplan)
    (MethodPlan.instantiated_described hplan) h hf hsub
    hunits

theorem pending_safe {name : String} (h : lowerPending file name s = .ok () t)
    (hf : pending file name s = true) (hunits : UnitsSafe file declared s) :
    UnitsSafe file declared t := by
  obtain ⟨decl, hdecl, h⟩ := lowerPending_ok.mp h
  unfold pending at hf
  cases hentry : s.file.table.get? name with
  | none =>
    simp only [hentry] at h
    exact h ▸ hunits
  | some entry =>
    simp only [hdecl, hentry] at h hf
    obtain ⟨before, after, heq, -⟩ := List.lookup_eq_some_iff.mp hdecl
    have hsub : decl.functions ⊆ declared :=
      hunits.generics (name, decl) (heq ▸ List.mem_append_right _ List.mem_cons_self)
    exact each_safe (fun map _ _ _ hrun hcheck => instantiation_safe hrun hcheck hsub) h hf
      ⟨hunits.methods, hunits.structs, hunits.generics⟩

theorem drained_safe {rounds : Nat} {complete : Bool} (h : drain file rounds s = .ok complete t)
    (hf : drained file rounds s = true) (hunits : UnitsSafe file declared s) :
    UnitsSafe file declared t := by
  induction rounds generalizing s with
  | zero =>
    obtain ⟨-, rfl⟩ := drain_zero.mp h
    exact hunits
  | succ rounds ih =>
    have hround := drain_succ.mp h
    rw [drained] at hf
    split_ifs at hround with hnames
    · exact hround.2 ▸ hunits
    · obtain ⟨u, hround, hrest⟩ := hround
      split at hf
      · contradiction
      · rw [after_ok hround, Bool.and_eq_true] at hf
        exact ih hrest hf.2 (each_safe (fun _ _ _ _ hrun hcheck => pending_safe hrun hcheck) hround
          hf.1 hunits)

/-! ### Whole files -/

theorem flows_constructInstance {ρ : Label → List Kind} {ret σ : List Kind} :
    Flows ρ ret [Code.construct file.unitName "()V"] (some (.ref :: σ)) (some σ) := by
  have hparse : MethodDescriptor.parse "()V" = .ok ⟨[], none⟩ := rfl
  refine .shaped [.ref] [] rfl ?_
  simp [Code.construct, Code.callSpecial, Instr.shape?, hparse, Except.toOption]
  rfl

theorem flows_putInstance {ρ : Label → List Kind} {ret σ : List Kind}
    (h : isClassName file.unitName) :
    Flows ρ ret [Code.putStatic file.instanceMember] (some (.ref :: σ)) (some σ) := by
  have hparse : FieldType.parse file.instanceMember.descriptor = .ok (.object file.unitName) :=
    Ty.parse_descriptor (t := .external file.unitName) rfl h
  refine .shaped [.ref] [] rfl ?_
  simp [Code.putStatic, Instr.shape?, hparse, Except.toOption]
  rfl

theorem scaffolding_safe {emitInstance : Bool} (h : file.scaffolding emitInstance {} = .ok () t)
    (hname : isClassName file.unitName) : UnitsSafe file declared t := by
  simp only [FileContext.scaffolding, bind_ok, startFrame_ok, Lower.addMethod, modify_ok] at h
  obtain ⟨init, _, ⟨hinit, rfl⟩, _, _, rfl, h⟩ := h
  have hthis : Flows (fun _ => []) [] [Code.loadThis] (some []) (some [.ref]) :=
    .shaped [] [.ref] rfl rfl
  have hinitSafe : StackSafe file declared
      (init.finish [Code.loadThis, Code.callSpecial Library.objectInit]) :=
    stackSafe_generated hinit (by decide) rfl rfl (hthis.cons (.shaped [.ref] [] rfl rfl))
  cases emitInstance with
  | false =>
    obtain ⟨-, rfl⟩ := pure_ok.mp h
    exact ⟨by simpa using hinitSafe, List.forall_mem_nil _, List.forall_mem_nil _⟩
  | true =>
    simp only [if_true, bind_ok, startFrame_ok, modify_ok] at h
    obtain ⟨clinit, _, ⟨hclinit, rfl⟩, rfl⟩ := h
    have hclinitSafe : StackSafe file declared (clinit.finish [Code.new file.unitName, .op .dup,
        Code.construct file.unitName "()V", Code.putStatic file.instanceMember]) :=
      stackSafe_generated (ρ := fun _ => []) hclinit (by decide) rfl rfl
        ((flows_new file.unitName).append (flows_constructInstance.cons (flows_putInstance hname)))
    exact ⟨by simpa using ⟨hinitSafe, hclinitSafe⟩, List.forall_mem_nil _, List.forall_mem_nil _⟩

theorem functions_subset {st : Stmt} {body : List Stmt} (h : st ∈ body) :
    st.functions ⊆ functionsOf body := by
  induction body with
  | nil => cases h
  | cons first rest ih =>
    rw [functionsOf]
    rcases List.mem_cons.mp h with rfl | h
    · exact List.subset_append_left _ _
    · exact List.Subset.trans (ih h) (List.subset_append_right _ _)

theorem lowerFile_safe {rounds : Nat} {emitInstance complete : Bool} {stmts : List Stmt}
    (h : lowerFile rounds file emitInstance stmts {} = .ok complete t)
    (hf : Faithful.file rounds file emitInstance stmts = true) :
    UnitsSafe file (functionsOf stmts) t := by
  obtain ⟨s₁, s₂, s₃, hscaffolding, htop, hdrain, rfl⟩ := lowerFile_ok.mp h
  rw [Faithful.file, after_ok hscaffolding, after_ok htop] at hf
  simp only [Bool.and_eq_true] at hf
  obtain ⟨hname, hftop, hfdrain⟩ := hf
  have hunits₁ : UnitsSafe file (functionsOf stmts) s₁ := scaffolding_safe hscaffolding hname
  have hunits₂ := each_safe (fun st hst _ _ hrun hcheck =>
    top_safe st hrun hcheck (functions_subset hst))
    htop hftop hunits₁
  have hunits₃ := drained_safe hdrain hfdrain hunits₂
  exact ⟨hunits₃.methods, hunits₃.structs, hunits₃.generics⟩

/-- Every method of every unit of a file compiled by a faithful run is stack safe. -/
theorem compile_stackSafe {f : SourceFile} {rounds : Nat} {options : Options} {c : CompiledFile}
    {trace : List Event} (h : f.compileWithin rounds options = some ⟨.ok c, trace⟩)
    (hf : f.isFaithful rounds options = true) :
    ∀ u ∈ c.units, ∀ m ∈ u.methods, StackSafe (FileContext.ofSource f options)
      (functionsOf f.body) m := by
  unfold SourceFile.compileWithin at h
  cases hrun : lowerFile rounds (FileContext.ofSource f options) options.emitInstance f.body {} with
  | error e s => simp [hrun] at h
  | ok complete s =>
    have hunits := lowerFile_safe hrun hf
    cases complete with
    | false => simp [hrun] at h
    | true =>
      simp only [hrun, Option.some.injEq, Outcome.mk.injEq, Except.ok.injEq] at h
      obtain ⟨rfl, -⟩ := h
      intro u hu
      rcases List.mem_cons.mp hu with rfl | hu
      · exact hunits.methods
      · exact hunits.structs u hu

/-- A loop that adds up halves through a generic function, and a loop over a list of numbers of two
types that are told apart, one of them put into a struct. -/
def sampleSource : SourceFile :=
  let name (t : Ty) (x : String) : Expr := .ident ⟨t, {}⟩ x
  let number (v : Int32) : Expr := .literal ⟨.int, {}⟩ (.int v)
  let half : Expr := .literal ⟨.double, {}⟩ (.double 0x3fe0000000000000)
  let call (t : Ty) (f : String) (args : List Expr) : Expr := .call ⟨t, {}⟩ (name .void f) args
  let either : Ty := .union [.double, .int]
  let point : StructDef := ⟨"Point", "demo/sample$Point", [("x", .double), ("y", .int)]⟩
  let add : Stmt := .expr (.assign ⟨.void, {}⟩ (name .double "total")
    (.binary ⟨.double, {}⟩ .add (name .double "total") (call .double "id" [half])))
  let positive : Expr := .binary ⟨.boolean, {}⟩ .gt
    (.property ⟨.double, {}⟩ (call (.struct point []) "Point" [name .int "i", name .int "i"]) ["x"])
    (number 0)
  let arms : List Arm :=
    [⟨.double, "d", ⟨6, [.expr (call .void "println" [name .double "d"])], {}⟩, {}⟩,
      ⟨.int, "i", ⟨7, [.expr (call .void "println"
      [.binary ⟨.boolean, {}⟩ .and positive (.literal ⟨.boolean, {}⟩ (.bool true))])], {}⟩, {}⟩]
  { path := "demo/sample.ix"
    scopes := ⟨#[
      { parent := none
        vars := [("id", .function ⟨"id", [("x", .generic "T")], .generic "T", .user none⟩),
          ("halves", .function ⟨"halves", [("n", .int)], .double, .user none⟩),
          ("main", .function ⟨"main", [], .void, .user none⟩), ("Point", .struct point [])] },
      { parent := some 0, vars := [("x", .generic "T")] },
      { parent := some 0, vars := [("n", .int), ("total", .double)] }, { parent := some 2 },
      { parent := some 0 }, { parent := some 4, vars := [("v", either)] },
      { parent := some 5, vars := [("d", .double)] }, { parent := some 5, vars := [("i", .int)] }]⟩
    body := [
      .struct {} "Point",
      .function ⟨"id", ⟨1, [.ret {} (name (.generic "T") "x")], {}⟩, {}⟩,
      .function ⟨"halves", ⟨2, [.var {} "total" (number 0),
        .whileLoop {} (.binary ⟨.boolean, {}⟩ .gt (name .int "n") (number 0))
          ⟨3, [add, .expr (.step ⟨.int, {}⟩ .decrement (name .int "n"))], {}⟩,
        .ret {} (name .double "total")], {}⟩, {}⟩,
      .function ⟨"main", ⟨4, [.forEach {} "v"
        (.listOf ⟨.list either, {}⟩ [call .double "halves" [number 3], number 7])
        ⟨5, [.matchType {} (name either "v") arms], {}⟩], {}⟩, {}⟩] }

/-- The seven methods of the sample are stack safe. -/
theorem compile_stackSafe_sample :
    ∃ c trace, sampleSource.compile {} = some ⟨.ok c, trace⟩ ∧
      sampleSource.isFaithful roundLimit {} = true ∧
      c.units.map (fun u => u.methods.map Method.name) =
        [["<init>", "<clinit>", "_halves", "main", "_id"], ["<init>", "toString"]] ∧
      ∀ u ∈ c.units, ∀ m ∈ u.methods,
        StackSafe (FileContext.ofSource sampleSource {}) (functionsOf sampleSource.body) m := by
  have hnames : (sampleSource.compiled? roundLimit {}).map
        (fun c => c.units.map fun u => u.methods.map Method.name) =
      some [["<init>", "<clinit>", "_halves", "main", "_id"],
        ["<init>", "toString"]] := by decide +kernel
  have hfaithful : sampleSource.isFaithful roundLimit {} = true := by decide +kernel
  obtain ⟨c, hc, hmethods⟩ := Option.map_eq_some_iff.mp hnames
  obtain ⟨trace, hcompile⟩ := SourceFile.compiled?_eq_some.mp hc
  exact ⟨c, trace, hcompile, hfaithful, hmethods, compile_stackSafe hcompile hfaithful⟩

end ClassGen
