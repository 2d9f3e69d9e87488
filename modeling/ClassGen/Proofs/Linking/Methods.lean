import Mathlib.Data.List.Forall2
import Mathlib.Data.List.Induction
import Mathlib.Data.List.Pairwise
import ClassGen.Proofs.Linking.Linked

/-! The methods of a file and the functions they are made from. Methods are told apart by name and
descriptor, functions by their place in the source and instantiations by their maps. A generic
function that has its name to itself has a method for the first map of each descriptor; one that is
not generic has its own method if no other function of its name is generic or has its descriptor. -/

namespace ClassGen

open SpecializationTable

namespace Instance

theorem firsts_sublist (list : List Instance) : (firsts list).Sublist list := by
  induction list using List.reverseRecOn with
  | nil => exact List.Sublist.refl _
  | append_singleton list i ih =>
    rw [firsts_concat]
    split_ifs
    · exact ih.trans (List.sublist_append_left _ _)
    · exact ih.append (List.Sublist.refl _)

theorem firsts_distinct (list : List Instance) : ((firsts list).map descriptor?).Nodup := by
  induction list using List.reverseRecOn with
  | nil => exact List.nodup_nil
  | append_singleton list i ih =>
    rw [firsts_concat]
    split_ifs with hany
    · exact ih
    · rw [List.map_append, List.map_singleton]
      refine ih.append (List.nodup_singleton _) fun key hkey hsame => ?_
      obtain ⟨j, hj, rfl⟩ := List.mem_map.mp hkey
      exact hany (List.any_eq_true.mpr ⟨j, hj, beq_iff_eq.mpr (List.mem_singleton.mp hsame).symm⟩)

theorem firsts_eq_self {list : List Instance} (h : (list.map descriptor?).Nodup) :
    firsts list = list := by
  induction list using List.reverseRecOn with
  | nil => rfl
  | append_singleton list i ih =>
    rw [List.map_append, List.map_singleton] at h
    obtain ⟨hlist, -, hnot⟩ := List.nodup_append'.mp h
    rw [firsts_concat, ih hlist, if_neg]
    intro hany
    obtain ⟨j, hj, hsame⟩ := List.any_eq_true.mp hany
    exact hnot (List.mem_map_of_mem hj) (List.mem_singleton.mpr (beq_iff_eq.mp hsame).symm)

/-- All of them are first where the descriptors differ. -/
theorem length_firsts_iff {list : List Instance} :
    (firsts list).length = list.length ↔ (list.map descriptor?).Nodup := by
  constructor
  · intro h
    rw [← (firsts_sublist list).eq_of_length h]
    exact firsts_distinct list
  · intro h
    rw [firsts_eq_self h]

end Instance

/-- Where keys differ, one element has the key. -/
theorem filter_key_eq {α β : Type} [DecidableEq β] {key : α → β} {list : List α} {a : α}
    (h : (list.map key).Nodup) (ha : a ∈ list) : list.filter (fun b => key b = key a) = [a] := by
  induction list with
  | nil => cases ha
  | cons b rest ih =>
    obtain ⟨hb, hrest⟩ := List.nodup_cons.mp h
    rcases List.mem_cons.mp ha with rfl | ha
    · rw [List.filter_cons_of_pos (by simp), List.filter_eq_nil_iff.mpr fun c hc hkey => ?_]
      exact hb (of_decide_eq_true hkey ▸ List.mem_map_of_mem hc)
    · have hne : key b ≠ key a := fun heq => hb (heq ▸ List.mem_map_of_mem ha)
      rw [List.filter_cons_of_neg (by simpa using hne), ih hrest ha]

variable {file : FileContext} {D : List Declaration} {base s : LowerState} {tr : Trail}
  {done : List Instance} {d : Declaration}

namespace Standing

/-- What became methods of a generic function are instantiations of its body. -/
theorem body_of_mem {r : BodyRun} (h : Standing file D base tr done [] s)
    (hD : (D.map Declaration.name).Nodup) (hd : d ∈ D) (hg : d.IsGeneric file)
    (hr : r ∈ tr.runsOf d.name) : r.body = d.decl.body := by
  obtain ⟨hmem, hname⟩ := List.mem_filter.mp hr
  obtain ⟨e, he, ho⟩ := h.origin r hmem
  cases ho with
  | declared hdeclared =>
    have hnone : [r].filter (·.plan.name = mangle d.name) = [] :=
      filter_declared hD hd hg (by simpa using ⟨e, he, hdeclared⟩)
    simp [of_decide_eq_true hname] at hnone
  | instantiated _ hsig hplan hbody =>
    have hnames := (Instance.plan_name hplan).symm.trans (of_decide_eq_true hname)
    obtain rfl := declaration_ext hD hd he ((mangle_injective hnames).symm.trans hsig)
    exact hbody

theorem methods_of_generic (h : Standing file D base tr done [] s) (name : String) :
    s.file.methods.filter (·.name = mangle name) = (tr.runsOf name).map BodyRun.method := by
  have hbase : base.file.methods.filter (·.name = mangle name) = [] := by
    refine List.filter_eq_nil_iff.mpr fun m hm hname => ?_
    rcases h.scaffolding.methods m hm with hinit | hinit
    · exact mangle_ne (by decide) ((of_decide_eq_true hname).symm.trans hinit)
    · exact mangle_ne (by decide) ((of_decide_eq_true hname).symm.trans hinit)
  rw [h.advances.methods, List.filter_append, hbase, List.nil_append, List.filter_map, Trail.runsOf]
  refine congrArg _ (List.filter_congr fun r hr => ?_)
  simp [(h.advances.sound r hr).isFor.1]

theorem filter_done (h : Standing file D base tr done [] s)
    (hpending : s.file.table.pendingFunctions = []) (name : String) :
    done.filter (·.sig.name = name) = s.file.table.recorded name := by
  rw [← handed_of_pending hpending, ← h.worklist.given name, List.append_nil]

/-- The methods of a generic function, in order. -/
theorem instances_of_generic (h : Standing file D base tr done [] s)
    (hpending : s.file.table.pendingFunctions = []) (hD : (D.map Declaration.name).Nodup)
    (hd : d ∈ D) (hg : d.IsGeneric file) :
    List.Forall₂ (fun m i => ∃ plan, i.plan = .ok plan ∧ plan.Lowers file d.decl.body m)
      (s.file.methods.filter (·.name = mangle d.name))
        (Instance.firsts (s.file.table.recorded d.name)) := by
  have hplans := h.firsts hD d hd hg
  rw [h.filter_done hpending] at hplans
  have hpairs : List.Forall₂ (· = ·) ((tr.runsOf d.name).map (Except.ok ·.plan))
      ((Instance.firsts (s.file.table.recorded d.name)).map Instance.plan) :=
    hplans ▸ List.forall₂_refl _
  rw [List.forall₂_map_left_iff, List.forall₂_map_right_iff] at hpairs
  have hruns : ∀ r ∈ tr.runsOf d.name, r.plan.Lowers file d.decl.body r.method := fun r hr => by
    rw [← h.body_of_mem hD hd hg hr]
    exact (h.advances.sound r (List.mem_of_mem_filter hr)).lowers
  rw [h.methods_of_generic, List.forall₂_map_left_iff]
  exact ((List.forall₂_and_left _ _).mpr ⟨hruns, hpairs⟩).imp fun r i hboth =>
    ⟨r.plan, hboth.2.symm, hboth.1⟩

/-- A function that is not generic has a run of its own. -/
theorem run_of_declared {sig : Signature} (h : Standing file D base tr done [] s)
    (hD : D.Pairwise (Declaration.Apart file)) (hd : d ∈ tr.reached) (hsig : d.sig? file = some sig)
    (hg : sig.isGeneric = false) : ∃ r ∈ tr.runs, r.plan = .declared d.name sig ∧
      r.body = d.decl.body := by
  obtain ⟨hmem, own, hown, hmethod⟩ := h.advances.reached d hd
  obtain rfl : sig = own := Option.some.inj (hsig.symm.trans hown)
  obtain ⟨m, hm, hfor⟩ := hmethod hg
  obtain ⟨r, hr, rfl⟩ := h.exists_run hm (MethodPlan.names_declared d.name sig) hfor.1
  have hsound := h.advances.sound r hr
  obtain ⟨e, he, ho⟩ := h.origin r hr
  obtain rfl : e = d := by
    by_contra hne
    exact (hD.forall he hmem hne).descriptor_ne ho.serves hsig hg
      (hsound.isFor.1.symm.trans hfor.1) (hsound.isFor.2.symm.trans hfor.2)
  cases ho with
  | declared hdeclared =>
    obtain ⟨own, hown, -, hplan, hbody⟩ := hdeclared
    obtain rfl : sig = own := Option.some.inj (hsig.symm.trans hown)
    exact ⟨r, hr, hplan, hbody⟩
  | instantiated hgeneric _ _ _ =>
    obtain ⟨own, hown, hgeneric⟩ := hgeneric
    obtain rfl : sig = own := Option.some.inj (hsig.symm.trans hown)
    simp [hg] at hgeneric

/-- The one method of a function that is not generic. -/
theorem method_of_declared {sig : Signature} (h : Standing file D base tr done [] s)
    (hD : D.Pairwise (Declaration.Apart file)) (hd : d ∈ tr.reached) (hsig : d.sig? file = some sig)
    (hg : sig.isGeneric = false) :
    ∃ m, (s.file.methods.filter fun m => (m.name, m.descriptor) =
        ((MethodPlan.declared d.name sig).name,
          (MethodPlan.declared d.name sig).descriptor)) = [m] ∧
      (MethodPlan.declared d.name sig).Lowers file d.decl.body m := by
  obtain ⟨r, hr, hplan, hbody⟩ := h.run_of_declared hD hd hsig hg
  have hsound := h.advances.sound r hr
  have hmem : r.method ∈ s.file.methods :=
    h.advances.methods ▸ List.mem_append_right _ (List.mem_map_of_mem hr)
  rw [← hplan, ← hbody]
  refine ⟨r.method, ?_, hsound.lowers⟩
  rw [← hsound.isFor.1, ← hsound.isFor.2]
  exact filter_key_eq (h.advances.distinct hD h.scaffolding.distinct) hmem

end Standing

variable {f : SourceFile} {rounds : Nat} {options : Options} {c : CompiledFile} {trace : List Event}

/-- In a file whose functions have different names, the methods of a generic function are, in order,
the lowerings of its body under the first recorded map of each descriptor. They are as many as the
recorded maps just where these give different descriptors. -/
theorem compile_first_maps (h : f.compileWithin rounds options = some ⟨.ok c, trace⟩)
    (hnames : (f.declarations.map Declaration.name).Nodup) :
    ∃ final, f.lowered? rounds options = some final ∧
      ∀ d ∈ f.declarations, d.IsGeneric (FileContext.ofSource f options) →
        ((final.table.recorded d.name).map Instance.map).Nodup ∧
        List.Forall₂
          (fun m i => ∃ plan, i.plan = .ok plan ∧ plan.Lowers (FileContext.ofSource f options)
            d.decl.body m)
          (c.fileUnit.methods.filter (·.name = mangle d.name))
            (Instance.firsts (final.table.recorded d.name)) ∧
        ((c.fileUnit.methods.filter (·.name = mangle d.name)).length =
          (final.table.recorded d.name).length ↔
          ((final.table.recorded d.name).map Instance.descriptor?).Nodup) := by
  obtain ⟨final, hlowered, rfl⟩ :=
    Option.map_eq_some_iff.mp (SourceFile.compiled?_eq_some.mpr ⟨trace, h⟩)
  obtain ⟨hpending, base, s, done, rfl, hs⟩ := SourceFile.standing hlowered
  refine ⟨s.file, hlowered, fun d hd hg => ?_⟩
  have hmethods := hs.instances_of_generic hpending hnames hd hg
  refine ⟨hs.worklist.nodup_recorded d.name, hmethods, ?_⟩
  rw [← Instance.length_firsts_iff, ← hmethods.length_eq]
  rfl

/-- Of the four maps of the inner function, two are for lists and share the method of the first. -/
theorem compile_first_maps_nested :
    ∃ c trace final d, nestedSource.compile {} = some ⟨.ok c, trace⟩ ∧
      (nestedSource.declarations.map Declaration.name).Nodup ∧ nestedSource.lowered? roundLimit {} =
        some final ∧
      d ∈ nestedSource.declarations ∧ d.name = "wrap" ∧
        d.IsGeneric (FileContext.ofSource nestedSource {}) ∧
      (final.table.recorded "wrap").length = 4 ∧
        (Instance.firsts (final.table.recorded "wrap")).length = 3 ∧
      List.Forall₂
        (fun m i => ∃ plan, i.plan = .ok plan ∧ plan.Lowers (FileContext.ofSource nestedSource {})
          d.decl.body m)
        (c.fileUnit.methods.filter (·.name = mangle "wrap"))
          (Instance.firsts (final.table.recorded "wrap")) := by
  have hcounts : (nestedSource.lowered? roundLimit {}).map
      (fun final => ((final.table.recorded "wrap").length,
        (Instance.firsts (final.table.recorded "wrap")).length)) = some (4, 3) := by decide +kernel
  have hnames : nestedSource.declarations.map Declaration.name = ["wrap", "twice", "main"] := rfl
  have hnodup : (nestedSource.declarations.map Declaration.name).Nodup := hnames ▸ by decide
  have hgeneric : ∀ d ∈ nestedSource.declarations, d.name = "wrap" →
      d.IsGeneric (FileContext.ofSource nestedSource {}) := by decide +kernel
  obtain ⟨final, hlowered, hcounts⟩ := Option.map_eq_some_iff.mp hcounts
  obtain ⟨hrecorded, hfirsts⟩ := Prod.mk.inj hcounts
  obtain ⟨trace, hcompile⟩ :=
    SourceFile.compiled?_eq_some.mp (Option.map_eq_some_iff.mpr ⟨final, hlowered, rfl⟩)
  obtain ⟨final', hlowered', hmethods⟩ := compile_first_maps hcompile hnodup
  obtain rfl : final' = final := Option.some.inj (hlowered'.symm.trans hlowered)
  obtain ⟨d, hd, hname⟩ := List.mem_map.mp (hnames ▸ List.mem_cons_self :
    "wrap" ∈ nestedSource.declarations.map _)
  have hg := hgeneric d hd hname
  exact ⟨_, trace, final', d, hcompile, hnodup, hlowered, hd, hname, hg, hrecorded, hfirsts,
    hname ▸ (hmethods d hd hg).2.1⟩

/-- Two calls of a function with lists, of numbers and of texts. -/
def listsSource : SourceFile :=
  let name (t : Ty) (x : String) : Expr := .ident ⟨t, {}⟩ x
  let call (t : Ty) : Stmt := .expr (.call ⟨.list t, {}⟩ (name .void "g")
    [.emptyList ⟨.list t, {}⟩])
  let items : Ty := .list (.generic "T")
  { path := "m.ix"
    scopes := ⟨#[
      { parent := none
        vars := [("g", .function ⟨"g", [("xs", items)], items, .user none⟩),
          ("f", .function ⟨"f", [], .void, .user none⟩)] },
      { parent := some 0, vars := [("xs", items)] }, { parent := some 0 }]⟩
    body := [
      .function ⟨"g", ⟨1, [.ret {} (.emptyList ⟨items, {}⟩)], {}⟩, {}⟩,
      .function ⟨"f", ⟨2, [call .int, call .string], {}⟩, {}⟩] }

/-- Both calls run the one method that was made for lists of numbers. -/
theorem compile_shares_method :
    (listsSource.declarations.map Declaration.name).Nodup ∧
      (listsSource.lowered? roundLimit {}).map (fun final =>
        ((final.table.recorded "g").map Instance.map,
          (final.methods.filter (·.name = mangle "g")).map Method.code)) =
      some ([[("T", .int)], [("T", .string)]],
        [[Code.new Library.listWrapper, .op .dup, Code.pushText "int",
          Code.callSpecial Library.wrapperInit, .op .areturn]]) := by
  decide +kernel

/-- In a file whose functions are apart, no two methods have both name and descriptor in common, and
every function met on the way that is not generic has one method, the lowering of its body. -/
theorem compile_own_methods (h : f.compileWithin rounds options = some ⟨.ok c, trace⟩)
    (hapart : f.declarations.Pairwise (Declaration.Apart (FileContext.ofSource f options))) :
    (c.fileUnit.methods.map fun m => (m.name, m.descriptor)).Nodup ∧
      ∀ d ∈ (f.trail rounds options).reached, d ∈ f.declarations ∧
        ∃ sig, d.sig? (FileContext.ofSource f options) = some sig ∧ (sig.isGeneric = false →
          ∃ m, (c.fileUnit.methods.filter fun m => (m.name, m.descriptor) =
              ((MethodPlan.declared d.name sig).name,
                (MethodPlan.declared d.name sig).descriptor)) = [m] ∧
            (MethodPlan.declared d.name sig).Lowers (FileContext.ofSource f options)
              d.decl.body m) := by
  obtain ⟨final, hlowered, rfl⟩ :=
    Option.map_eq_some_iff.mp (SourceFile.compiled?_eq_some.mpr ⟨trace, h⟩)
  obtain ⟨-, base, s, done, rfl, hs⟩ := SourceFile.standing hlowered
  refine ⟨hs.advances.distinct hapart hs.scaffolding.distinct, fun d hd => ?_⟩
  obtain ⟨hmem, sig, hsig, -⟩ := hs.advances.reached d hd
  exact ⟨hmem, sig, hsig, hs.method_of_declared hapart hd hsig⟩

/-- Two functions that each have a function inside and call it: `a` gives one, and `b` a value of
the type. -/
def twinSource (a b : String) (type : Ty) (value : Literal) : SourceFile :=
  let sig (name : String) (t : Ty) : Ty := .function ⟨name, [], t, .user none⟩
  let call (t : Ty) (f : String) : Expr := .call ⟨t, {}⟩ (.ident ⟨.void, {}⟩ f) []
  let function (name : String) (scope : ScopeId) (body : List Stmt) : Stmt :=
    .function ⟨name, ⟨scope, body, {}⟩, {}⟩
  { path := "m.ix"
    scopes := ⟨#[
      { parent := none, vars := [("f", sig "f" .int), ("k", sig "k" type)] },
      { parent := some 0, vars := [(a, sig a .int)] }, { parent := some 1 },
      { parent := some 0, vars := [(b, sig b type)] }, { parent := some 3 }]⟩
    body := [
      function "f" 1 [function a 2 [.ret {} (.literal ⟨.int, {}⟩ (.int 1))], .ret {} (call .int a)],
      function "k" 3 [function b 4 [.ret {} (.literal ⟨type, {}⟩ value)], .ret {} (call type b)]] }

/-- Two functions of one name, with their own methods. -/
theorem compile_own_methods_twins :
    ∃ c trace, (twinSource "h" "h" .string (.text "a")).compile {} = some ⟨.ok c, trace⟩ ∧
      (twinSource "h" "h" .string (.text "a")).declarations.Pairwise
        (Declaration.Apart (FileContext.ofSource (twinSource "h" "h" .string (.text "a")) {})) ∧
      ((twinSource "h" "h" .string (.text "a")).trail roundLimit {}).reached.map Declaration.name =
        ["f", "h", "k", "h"] ∧
      (c.fileUnit.methods.map fun m => (m.name, m.descriptor)).Nodup ∧
      ∀ d ∈ ((twinSource "h" "h" .string (.text "a")).trail roundLimit {}).reached,
        ∃ sig, d.sig? (FileContext.ofSource (twinSource "h" "h" .string (.text "a")) {}) =
          some sig ∧
          (sig.isGeneric = false → ∃ m, (c.fileUnit.methods.filter fun m => (m.name, m.descriptor) =
              ((MethodPlan.declared d.name sig).name,
                (MethodPlan.declared d.name sig).descriptor)) = [m] ∧
            (MethodPlan.declared d.name sig).Lowers
              (FileContext.ofSource (twinSource "h" "h" .string (.text "a")) {})
                d.decl.body m) := by
  have hapart : (twinSource "h" "h" .string (.text "a")).declarations.Pairwise
      (Declaration.Apart (FileContext.ofSource (twinSource "h" "h" .string (.text "a")) {})) := by
    decide +kernel
  have hruns : ((twinSource "h" "h" .string (.text "a")).compiled? roundLimit {}).isSome = true ∧
      ((twinSource "h" "h" .string (.text "a")).trail roundLimit {}).reached.map
        Declaration.name = ["f", "h", "k", "h"] := by
    decide +kernel
  obtain ⟨hcompiles, hreached⟩ := hruns
  obtain ⟨c, hc⟩ := Option.isSome_iff_exists.mp hcompiles
  obtain ⟨trace, hcompile⟩ := SourceFile.compiled?_eq_some.mp hc
  obtain ⟨hdistinct, hown⟩ := compile_own_methods hcompile hapart
  exact ⟨c, trace, hcompile, hapart, hreached, hdistinct, fun d hd => (hown d hd).2⟩

/-- A function inside one of its own name and descriptor gives two methods that nothing tells apart,
and of two functions of one name and descriptor the second is left out: calls of it run the first.
-/
theorem compile_confuses_names :
    ((twinSource "f" "h" .int (.int 2)).compiled? roundLimit {}).map (fun c =>
          c.fileUnit.methods.map fun m => (m.name, m.descriptor)) =
        some [("<init>", "()V"), ("<clinit>", "()V"), ("_f", "()I"), ("_f", "()I"), ("_h", "()I"),
          ("_k", "()I")] ∧
      ((twinSource "h" "h" .int (.int 2)).trail roundLimit {}).reached.map Declaration.name =
        ["f", "h", "k", "h"] ∧
      ((twinSource "h" "h" .int (.int 2)).compiled? roundLimit {}).map (fun c =>
          (c.fileUnit.methods.filter (·.name = mangle "h")).map Method.code) =
        some [[.push (.int 1), .op .ireturn]] :=
  ⟨rfl, rfl, rfl⟩

end ClassGen
