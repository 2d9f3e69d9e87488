import ClassGen.Proofs.Evaluation.Parts

/-! Calls of the functions that a file declares at its top. The method of a function gets its name
from the declaration, and a call of it from the signature. The two agree but for the entry point,
which keeps its name where calls of it do not. -/

namespace ClassGen

open Run
open Faithful (after after_ok)

/-- The function that the statement declares. -/
def Stmt.function? : Stmt → Option FunctionDecl
  | .function decl => some decl
  | .exported inner => inner.function?
  | _ => none

/-- The functions at the top of the file. -/
def SourceFile.functions (f : SourceFile) : List Declaration :=
  f.body.filterMap fun st => st.function?.map (Declaration.mk ScopeTree.root)

/-! ### Functions at the top are met -/

namespace Trail

theorem mem_function (file : FileContext) (scope : ScopeId) (decl : FunctionDecl) (s : LowerState) :
    ⟨scope, decl⟩ ∈ (function file scope decl s).reached := by
  cases decl
  rw [function]
  exact List.mem_append_left _ (List.mem_singleton_self _)

theorem mem_top {file : FileContext} {decl : FunctionDecl} (s : LowerState) :
    ∀ st : Stmt, st.function? = some decl → ⟨ScopeTree.root, decl⟩ ∈ (top file st s).reached
  | .function _, h => by
    cases h
    exact mem_function file ScopeTree.root decl s
  | .exported inner, h => mem_top s inner h

/-- What one action of a list meets, the list does. -/
theorem reached_each {α : Type} (trail : α → LowerState → Trail) {act : α → Lower Unit}
    {list : List α} {a : α} {s t : LowerState} (h : list.forM act s = .ok () t) (ha : a ∈ list) :
    ∃ s', (trail a s').reached ⊆ (each trail act list s).reached := by
  induction list generalizing s with
  | nil => cases ha
  | cons first rest ih =>
    obtain ⟨_, s₁, hfirst, hrest⟩ := bind_ok.mp h
    rw [each, after_ok hfirst, append_reached]
    rcases List.mem_cons.mp ha with rfl | ha
    · exact ⟨s, List.subset_append_left _ _⟩
    · obtain ⟨s', hs'⟩ := ih hrest ha
      exact ⟨s', List.Subset.trans hs' (List.subset_append_right _ _)⟩

end Trail

theorem SourceFile.functions_reached {f : SourceFile} {rounds : Nat} {options : Options}
    {final : FileState} {d : Declaration} (h : f.lowered? rounds options = some final)
    (hd : d ∈ f.functions) : d ∈ (f.trail rounds options).reached := by
  obtain ⟨s, hrun, rfl⟩ := lowered?_eq_some.mp h
  obtain ⟨s₁, s₂, s₃, hscaffolding, htop, -, rfl⟩ := lowerFile_ok.mp hrun
  obtain ⟨st, hst, hdecl⟩ := List.mem_filterMap.mp hd
  obtain ⟨decl, hfunction, rfl⟩ := Option.map_eq_some_iff.mp hdecl
  obtain ⟨s', hs'⟩ := Trail.reached_each (Trail.top (FileContext.ofSource f options)) htop hst
  rw [trail, Trail.file, after_ok hscaffolding, Trail.append_reached]
  exact List.mem_append_left _ (hs' (Trail.mem_top s' st hfunction))

/-! ### Methods of functions at the top -/

variable {file : FileContext} {D : List Declaration} {base s t : LowerState} {tr : Trail}
  {done : List Instance} {d : Declaration} {sig : Signature}

namespace Standing

/-- No method has the name that calls give to an entry point. -/
theorem mangled_main (h : Standing file D base tr done [] s) (hD : (D.map Declaration.name).Nodup)
    (hd : d ∈ D) (hsig : d.sig? file = some sig) (hg : sig.isGeneric = false)
    (hmain : d.name = "main") : ∀ m ∈ s.file.methods, m.name ≠ mangle "main" := by
  intro m hm hname
  let plan : MethodPlan := ⟨mangle "main", "", [], [], .void⟩
  have hnames : plan.Names "main" := .inl rfl
  obtain ⟨r, hr, rfl⟩ := h.exists_run hm hnames hname
  have hplan : r.plan.name = mangle "main" := (h.advances.sound r hr).isFor.1.symm.trans hname
  obtain ⟨e, he, ho⟩ := h.origin r hr
  cases ho with
  | declared hdeclared =>
    -- only the function `main` could have it, and its method is named otherwise
    have hsame : e.name = "main" := hdeclared.serves.names.inj hnames hplan
    obtain ⟨own, -, -, hown, -⟩ := hdeclared
    rw [hown, hsame, MethodPlan.declared, if_pos rfl] at hplan
    exact mangle_ne (b := "main") (by decide) hplan.symm
  | instantiated hgeneric hname hinstance _ =>
    have hsame : e.name = "main" :=
      hname.symm.trans (mangle_injective ((Instance.plan_name hinstance).symm.trans hplan))
    obtain rfl := declaration_ext hD hd he (hmain.trans hsame.symm)
    obtain ⟨own, hown, hgeneric⟩ := hgeneric
    obtain rfl : sig = own := Option.some.inj (hsig.symm.trans hown)
    simp [hg] at hgeneric

/-- The method that calls name is there unless the function is the entry point. -/
theorem any_mangled_iff (h : Standing file D base tr done [] s)
    (hD : (D.map Declaration.name).Nodup) (hd : d ∈ tr.reached) (hsig : d.sig? file = some sig)
    (hg : sig.isGeneric = false) :
    (s.file.methods.any fun m => m.name == mangle d.name && m.descriptor == sig.descriptor) = true ↔
      d.name ≠ "main" := by
  obtain ⟨hmem, own, hown, hmethod⟩ := h.advances.reached d hd
  obtain rfl : sig = own := Option.some.inj (hsig.symm.trans hown)
  constructor
  · intro hany hmain
    obtain ⟨m, hm, hkey⟩ := List.any_eq_true.mp hany
    simp only [Bool.and_eq_true, beq_iff_eq] at hkey
    exact h.mangled_main hD hmem hsig hg hmain m hm (hkey.1.trans (hmain ▸ rfl))
  · intro hmain
    obtain ⟨m, hm, hname, hdescriptor⟩ := hmethod hg
    rw [MethodPlan.declared, if_neg hmain] at hname hdescriptor
    exact List.any_eq_true.mpr ⟨m, hm, by simp [hname, hdescriptor]⟩

end Standing

/-! ### Calls -/

/-- A call of a function of the file that is not generic ends with the call of the method that its
signature names. -/
theorem lowerExpr_call_declared {cx : BodyContext} {note : Note} {callee : Expr} {args : List Expr}
    {v : Lowered} (hcallee : cx.callee? callee = some (.function sig)) (hg : sig.isGeneric = false)
    (hlink : sig.linkage = .user none) (h : lowerExpr cx (.call note callee args) s = .ok v t) :
    ∃ code, v.code = code ++ [Code.callStatic ⟨cx.file.unitName, mangle sig.name,
      sig.descriptor⟩] := by
  cases exprRun_of_ok h with
  | callExternal hc _ hexternal _ =>
    cases hcallee.symm.trans (BodyContext.callee_ok hc)
    cases hlink.symm.trans hexternal
  | callUser hc _ huser _ hspec _ hunit =>
    cases hcallee.symm.trans (BodyContext.callee_ok hc)
    cases hlink.symm.trans huser
    obtain ⟨hinstance, -⟩ := BodyContext.specialize_ok hspec
    rw [hg, if_neg Bool.false_ne_true] at hinstance
    obtain ⟨rfl, rfl⟩ := hinstance
    simp only [BodyContext.linkedUnit, hg, Bool.false_eq_true, if_false] at hunit
    obtain ⟨rfl, -⟩ := pure_ok.mp hunit
    exact ⟨_, rfl⟩
  | construct hc _ _ _ => cases hcallee.symm.trans (BodyContext.callee_ok hc)
  | absent hn => cases hn

/-- In a file whose functions have different names, a function at its top that is not generic: every
call of it ends with the call of one method of the unit of the file, also where it stands in a body
that became a method. The unit has that method unless the function is the entry point. -/
theorem compile_links_declared {f : SourceFile} {rounds : Nat} {options : Options}
    {c : CompiledFile} {trace : List Event}
    (h : f.compileWithin rounds options = some ⟨.ok c, trace⟩)
    (hnames : (f.declarations.map Declaration.name).Nodup) (hd : d ∈ f.functions)
    (hsig : d.sig? (FileContext.ofSource f options) = some sig) (hg : sig.isGeneric = false)
    (hname : sig.name = d.name) (hlink : sig.linkage = .user none) :
    (∀ cx : BodyContext, cx.file = FileContext.ofSource f options → ∀ note callee args s v t,
      cx.callee? callee = some (.function sig) → lowerExpr cx (.call note callee args) s = .ok v t →
        ∃ code, v.code = code ++ [Code.callStatic ⟨c.fileUnit.name, mangle d.name,
          sig.descriptor⟩]) ∧
      (∀ r ∈ (f.trail rounds options).runs, r.method ∈ c.fileUnit.methods ∧ ∃ cx : BodyContext,
        cx.file = FileContext.ofSource f options ∧ ∀ scope note callee args,
          .expr scope (.call note callee args) ∈ r.body.parts →
          { cx with scope }.callee? callee = some (.function sig) →
            ∃ s v t, lowerExpr { cx with scope } (.call note callee args) s = .ok v t ∧
              v.code <:+: r.method.code ∧
              ∃ code, v.code = code ++ [Code.callStatic ⟨c.fileUnit.name, mangle d.name,
                sig.descriptor⟩]) ∧
      (c.fileUnit.hasMethod (mangle d.name) sig.descriptor = true ↔ d.name ≠ "main") := by
  have hruns := (SourceFile.runs_of_compile h).2
  obtain ⟨final, hlowered, rfl⟩ :=
    Option.map_eq_some_iff.mp (SourceFile.compiled?_eq_some.mpr ⟨trace, h⟩)
  obtain ⟨-, base, s, done, rfl, hs⟩ := SourceFile.standing hlowered
  have hcall : ∀ cx : BodyContext, cx.file = FileContext.ofSource f options →
      ∀ note callee args s v t, cx.callee? callee = some (.function sig) →
        lowerExpr cx (.call note callee args) s = .ok v t →
        ∃ code, v.code = code ++ [Code.callStatic ⟨f.unitName, mangle d.name, sig.descriptor⟩] := by
    intro cx hfile note callee args s v t hcallee hrun
    obtain ⟨code, hcode⟩ := lowerExpr_call_declared hcallee hg hlink hrun
    rw [hfile, hname] at hcode
    exact ⟨code, hcode⟩
  refine ⟨hcall, fun r hr => ?_, ?_⟩
  · obtain ⟨hmem, hsound⟩ := hruns r hr
    obtain ⟨frame, -, hparts⟩ := hsound.parts
    refine ⟨hmem, r.plan.context (FileContext.ofSource f options) frame r.body.scope, rfl,
      fun scope note callee args hpart hcallee => ?_⟩
    obtain ⟨s, v, t, hrun, hstretch⟩ := hparts _ hpart
    exact ⟨s, v, t, hrun, hstretch, hcall _ rfl note callee args s v t hcallee hrun⟩
  · exact hs.any_mangled_iff hnames (SourceFile.functions_reached hlowered hd) hsig hg

/-- An exported function calls itself, in a loop that calls `main`. -/
def recursiveSource : SourceFile :=
  let call (t : Ty) (f : String) (args : List Expr) : Expr :=
    .call ⟨t, {}⟩ (.ident ⟨.void, {}⟩ f) args
  { path := "m.ix"
    scopes := ⟨#[
      { parent := none
        vars := [("f", .function ⟨"f", [("n", .int), ("x", .double)], .int, .user none⟩),
          ("main", .function ⟨"main", [], .void, .user none⟩)] },
      { parent := some 0, vars := [("n", .int), ("x", .double)] }, { parent := some 1 },
      { parent := some 0 }]⟩
    body := [
      .exported (.function ⟨"f", ⟨1, [
        .whileLoop {} (.literal ⟨.boolean, {}⟩ (.bool true)) ⟨2, [.expr (call .void "main" []),
          .ret {} (call .int "f" [.ident ⟨.int, {}⟩ "n", .ident ⟨.double, {}⟩ "x"])], {}⟩,
        .ret {} (.ident ⟨.int, {}⟩ "n")], {}⟩, {}⟩),
      .function ⟨"main", ⟨3, [], {}⟩, {}⟩] }

theorem compile_links_declared_recursive :
    ∃ c trace, recursiveSource.compile {} = some ⟨.ok c, trace⟩ ∧
      (recursiveSource.declarations.map Declaration.name).Nodup ∧
      ∃ d ∈ recursiveSource.functions, ∃ sig, d.name = "f" ∧ sig.descriptor = "(ID)I" ∧
        d.sig? (FileContext.ofSource recursiveSource {}) = some sig ∧
        c.fileUnit.hasMethod (mangle d.name) sig.descriptor = true := by
  have hcompiles : (recursiveSource.compiled? roundLimit {}).isSome = true := by decide +kernel
  have hnames : (recursiveSource.declarations.map Declaration.name).Nodup := by decide +kernel
  have hdeclared : ∃ d ∈ recursiveSource.functions, d.name = "f" ∧
      d.sig? (FileContext.ofSource recursiveSource {}) =
      some ⟨"f", [("n", .int), ("x", .double)], .int, .user none⟩ :=
    ⟨_, List.mem_of_getElem? (i := 0) rfl, rfl, by decide +kernel⟩
  obtain ⟨c, hc⟩ := Option.isSome_iff_exists.mp hcompiles
  obtain ⟨trace, hcompile⟩ := SourceFile.compiled?_eq_some.mp hc
  obtain ⟨d, hd, hname, hsig⟩ := hdeclared
  refine ⟨c, trace, hcompile, hnames, d, hd, _, hname, rfl, hsig, ?_⟩
  exact (compile_links_declared hcompile hnames hd hsig rfl hname.symm rfl).2.2.mpr
    (hname ▸ by decide)

/-- The call of `main` names a method that the unit does not have. -/
theorem compile_leaves_main_unlinked :
    (recursiveSource.compiled? roundLimit {}).map
      (fun c => (c.fileUnit.name, c.fileUnit.methods.map fun m =>
        (m.name, m.descriptor, decide (Code.callStatic ⟨"m", "_main", "()V"⟩ ∈ m.code)))) =
      some ("m", [("<init>", "()V", false), ("<clinit>", "()V", false), ("_f", "(ID)I", true),
        ("main", "([Ljava/lang/String;)V", false)]) := by decide +kernel

end ClassGen
