import Mathlib.Data.List.Perm.Subperm
import ClassGen.Proofs.Order.Declarations

/-! Instantiations, whatever the order they are asked for. A file that was lowered to its end leaves
methods and instantiations that are closed under calls. Another order of its declarations stays
within them and so comes to an end as well. -/

namespace ClassGen

open Run SpecializationTable
open Faithful (after after_ok)

/-! ### Calls outside of bodies -/

namespace Trail

variable {file : FileContext}

theorem after_calls {α : Type} {x : Lower α} {s : LowerState} {k : α → LowerState → Trail}
    (h : ∀ a t, (k a t).calls = []) : (after x s {} k).calls = [] := by
  unfold after
  split
  · exact h _ _
  · rfl

theorem body_calls (plan : MethodPlan) (b : Block) (s : LowerState) :
    (body file plan b s).calls = [] := by
  obtain ⟨scope, statements, span⟩ := b
  rw [body]
  split_ifs
  · rfl
  · exact after_calls fun _ _ => after_calls fun _ _ => rfl

theorem function_calls (scope : ScopeId) (decl : FunctionDecl) (s : LowerState) :
    (function file scope decl s).calls = [] := by
  obtain ⟨name, definition, span⟩ := decl
  rw [function, append_calls, List.nil_append]
  refine after_calls fun sig t => ?_
  split_ifs
  · rfl
  · exact body_calls _ _ _

theorem top_calls (st : Stmt) (s : LowerState) : (top file st s).calls = [] := by
  fun_induction top file st s with
  | case1 decl s => exact function_calls _ decl s
  | case2 inner s ih => exact ih
  | case3 => rfl

theorem each_calls {α : Type} {trail : α → LowerState → Trail} (act : α → Lower Unit)
    (h : ∀ a s, (trail a s).calls = []) (list : List α) (s : LowerState) :
    (each trail act list s).calls = [] := by
  induction list generalizing s with
  | nil => rfl
  | cons a rest ih =>
    rw [each, append_calls, h, List.nil_append]
    exact after_calls fun _ t => ih t

theorem pending_calls (name : String) (s : LowerState) : (pending file name s).calls = [] := by
  unfold pending
  split
  · refine each_calls _ (fun map t => ?_) _ _
    unfold instantiation
    split
    · exact body_calls _ _ _
    · rfl
  · rfl

end Trail

/-! ### Solutions -/

/-- Methods and instantiations of the declarations `D` that have what they need among them: a
function that is not generic has its method, so has every instantiation, and a method calls
instantiations that are there. -/
structure Solution (file : FileContext) (D : List Declaration) (runs : List BodyRun)
    (instances : List Instance) :
    Prop where
  names : (D.map Declaration.name).Nodup
  flat : ∀ d ∈ D, d.decl.body.isFlat = true
  made : ∀ r ∈ runs, r.Made file
  declared : ∀ d ∈ D, ∀ sig, d.sig? file = some sig → sig.isGeneric = false →
    ∃ r ∈ runs, r.plan = .declared d.name sig ∧ r.body = d.decl.body
  instantiated : ∀ i ∈ instances, ∃ d ∈ D, d.IsGeneric file ∧ i.sig.name = d.name ∧
    ∃ r ∈ runs, i.plan = .ok r.plan ∧ r.body = d.decl.body
  called : ∀ r ∈ runs, ∀ c ∈ r.calls, ⟨c.sig, c.map⟩ ∈ instances
  signed : ∀ i ∈ instances, ∀ j ∈ instances, i.sig.name = j.sig.name → i.sig = j.sig

variable {file : FileContext} {D E : List Declaration} {base s t : LowerState} {tr : Trail}
  {d : Declaration} {done instances : List Instance} {runs : List BodyRun} {name : String}
  {e : GenericEntry}

theorem Solution.perm (h : Solution file D runs instances) (hperm : D.Perm E) :
    Solution file E runs instances where
  names := (hperm.map _).nodup_iff.mp h.names
  flat d hd := h.flat d (hperm.mem_iff.mpr hd)
  made := h.made
  declared d hd := h.declared d (hperm.mem_iff.mpr hd)
  instantiated i hi :=
    let ⟨d, hd, hrest⟩ := h.instantiated i hi
    ⟨d, hperm.mem_iff.mp hd, hrest⟩
  called := h.called
  signed := h.signed

/-- Functions with names of their own are apart. -/
theorem pairwise_apart (hD : (D.map Declaration.name).Nodup) :
    D.Pairwise (Declaration.Apart file) :=
  (List.pairwise_map.mp hD).imp fun hne heq => absurd heq hne

theorem Standing.mem_done_iff (h : Standing file D base tr done [] s)
    (hpending : s.file.table.pendingFunctions = []) {i : Instance} :
    i ∈ done ↔ i ∈ s.file.table.recorded i.sig.name := by
  rw [← h.filter_done hpending, List.mem_filter, decide_eq_true rfl, and_iff_left rfl]

/-- A file that was lowered to its end is a solution, where calls of one name have one signature and
maps of one function have descriptors of their own. -/
theorem Standing.solution (h : Standing file D base tr done [] s)
    (hpending : s.file.table.pendingFunctions = []) (hnames : (D.map Declaration.name).Nodup)
    (hflat : ∀ d ∈ D, d.decl.body.isFlat = true) (hreached : D ⊆ tr.reached)
    (hsigs : ∀ a ∈ tr.requests, ∀ b ∈ tr.requests, a.sig.name = b.sig.name → a.sig = b.sig)
    (hmaps : ∀ d ∈ D, ((s.file.table.recorded d.name).map Instance.descriptor?).Nodup) :
    Solution file D tr.runs done where
  names := hnames
  flat := hflat
  made r hr := (h.advances.sound r hr).made
  declared d hd sig hsig hg := h.run_of_declared (pairwise_apart hnames) (hreached hd) hsig hg
  instantiated i hi := by
    obtain ⟨d, hd, hg, hname⟩ := h.generic i hi
    have hplans := h.firsts hnames d hd hg
    rw [h.filter_done hpending, Instance.firsts_eq_self (hmaps d hd)] at hplans
    have hrecorded : i ∈ s.file.table.recorded d.name := hname ▸ (h.mem_done_iff hpending).mp hi
    obtain ⟨r, hr, hplan⟩ := List.mem_map.mp (hplans ▸ List.mem_map_of_mem hrecorded)
    exact ⟨d, hd, hg, hname, r, List.mem_of_mem_filter hr, hplan.symm,
      h.body_of_mem hnames hd hg hr⟩
  called r hr c hc := by
    have hrequest : c ∈ tr.requests := List.mem_append_right _ (List.mem_flatMap.mpr ⟨r, hr, hc⟩)
    obtain ⟨e, he, hmap⟩ := h.worklist.recorded c hrequest
    obtain ⟨first, hfirst, hsig⟩ := (h.worklist.entries _ e he).signed
    refine (h.mem_done_iff hpending).mpr (mem_recorded.mpr ⟨e, he, ?_, hmap⟩)
    rw [← hsig]
    exact hsigs first hfirst c hrequest (hsig ▸ get?_name he)
  signed i hi j hj hname := by
    obtain ⟨e, he, hi, -⟩ := mem_recorded.mp ((h.mem_done_iff hpending).mp hi)
    obtain ⟨e', he', hj, -⟩ := mem_recorded.mp ((h.mem_done_iff hpending).mp hj)
    obtain rfl : e = e' := Option.some.inj (he.symm.trans (hname ▸ he'))
    exact hi.symm.trans hj

/-! ### Runs within a solution -/

/-- Lowering stands between two functions, all generic functions wait to be instantiated, and what
was instantiated is among these instantiations. -/
structure Within (file : FileContext) (D : List Declaration) (base : LowerState)
    (instances : List Instance) (tr : Trail) (done : List Instance) (s : LowerState) :
    Prop extends Standing file D base tr done [] s where
  calls : tr.calls = []
  subset : done ⊆ instances
  generics : ∀ d ∈ D, d.IsGeneric file → s.file.generics.lookup d.name = some d.decl

namespace Within

/-- The same, with more than `n` instantiations done. -/
def Past (file : FileContext) (D : List Declaration) (base : LowerState)
    (instances : List Instance) (n : Nat) (s : LowerState) : Prop :=
  ∃ tr done, n < done.length ∧ Within file D base instances tr done s

theorem nodup_done (h : Within file D base instances tr done s) : done.Nodup := by
  refine List.nodup_iff_sublist.mpr fun i htwice => ?_
  have hgiven := h.worklist.given i.sig.name
  rw [List.append_nil] at hgiven
  have hhanded : [i, i].Sublist (s.file.table.recorded i.sig.name) := by
    rw [← handed_append_waiting, ← hgiven]
    have hfilter := htwice.filter (·.sig.name = i.sig.name)
    simp only [decide_true, List.filter_cons_of_pos, List.filter_nil] at hfilter
    exact hfilter.trans (List.sublist_append_left _ _)
  exact List.nodup_iff_sublist.mp (h.worklist.nodup_recorded i.sig.name).of_map i hhanded

theorem length_le (h : Within file D base instances tr done s) : done.length ≤ instances.length :=
  (List.subperm_of_subset h.nodup_done h.subset).length_le

variable (hsol : Solution file D runs instances)
include hsol

/-- Every body that became a method became the one of the solution. -/
theorem runs_subset (h : Within file D base instances tr done s) : tr.runs ⊆ runs := by
  intro r hr
  have hmade := (h.advances.sound r hr).made
  obtain ⟨d, hd, ho⟩ := h.origin r hr
  suffices hfound : ∃ r' ∈ runs, r.plan = r'.plan ∧ r'.body = d.decl.body by
    obtain ⟨r', hr', hplan, hbody'⟩ := hfound
    have hbody : r.body = d.decl.body := by
      cases ho with
      | declared hdeclared =>
        obtain ⟨_, -, -, -, hbody⟩ := hdeclared
        exact hbody
      | instantiated _ _ _ hbody => exact hbody
    have hflat : r.body.isFlat = true := hbody ▸ hsol.flat d hd
    exact hmade.unique (hsol.made r' hr') hplan (hbody.trans hbody'.symm) hflat ▸ hr'
  cases ho with
  | declared hdeclared =>
    obtain ⟨sig, hsig, hg, hplan, -⟩ := hdeclared
    obtain ⟨r', hr', hplan', hbody'⟩ := hsol.declared d hd sig hsig hg
    exact ⟨r', hr', hplan.trans hplan'.symm, hbody'⟩
  | instantiated hg hname hplan _ =>
    have hof : r ∈ tr.runsOf d.name :=
      List.mem_filter.mpr ⟨hr, decide_eq_true (hname ▸ Instance.plan_name hplan)⟩
    obtain ⟨j, hj, hjplan⟩ := List.mem_map.mp
      (h.firsts hsol.names d hd hg ▸ List.mem_map_of_mem hof)
    obtain ⟨hjdone, hjname⟩ := List.mem_filter.mp ((Instance.firsts_sublist _).subset hj)
    obtain ⟨d', hd', -, hname', r', hr', hplan', hbody'⟩ := hsol.instantiated j (h.subset hjdone)
    obtain rfl := declaration_ext hsol.names hd' hd (hname'.symm.trans (of_decide_eq_true hjname))
    exact ⟨r', hr', Except.ok.inj (hjplan.symm.trans hplan'), hbody'⟩

theorem mem_of_request (h : Within file D base instances tr done s) {c : GenericCall}
    (hc : c ∈ tr.requests) : ⟨c.sig, c.map⟩ ∈ instances := by
  rw [Trail.requests, h.calls, List.nil_append] at hc
  obtain ⟨r, hr, hc⟩ := List.mem_flatMap.mp hc
  exact hsol.called r (h.runs_subset hsol hr) c hc

theorem recorded_subset (h : Within file D base instances tr done s) (name : String) :
    s.file.table.recorded name ⊆ instances := by
  intro i hi
  obtain ⟨e, he, hsig, hmap⟩ := mem_recorded.mp hi
  obtain ⟨first, hfirst, hfirstSig⟩ := (h.worklist.entries name e he).signed
  obtain ⟨c, hc, hname, hcmap⟩ := (h.worklist.entries name e he).asked i.map hmap
  have hfirst := h.mem_of_request hsol hfirst
  have hc := h.mem_of_request hsol hc
  have hsame : first.sig = c.sig :=
    hsol.signed _ hfirst _ hc ((congrArg Signature.name hfirstSig).trans
      ((get?_name he).trans hname.symm))
  have hi : i = ⟨c.sig, c.map⟩ := by
    rw [← hsame, hfirstSig, hsig, hcmap]
  exact hi ▸ hc

/-- Only generic functions are asked for. -/
theorem generic_of_entry (h : Within file D base instances tr done s)
    (he : s.file.table.get? name = some e) : ∃ d ∈ D, d.IsGeneric file ∧ d.name = name := by
  obtain ⟨first, hfirst, hsig⟩ := (h.worklist.entries name e he).signed
  obtain ⟨d, hd, hg, hname, -⟩ := hsol.instantiated _ (h.mem_of_request hsol hfirst)
  exact ⟨d, hd, hg, hname.symm.trans ((congrArg Signature.name hsig).trans (get?_name he))⟩

/-- What waits can be instantiated, and that adds methods only. -/
theorem lowerPending_total (h : Within file D base instances tr done s) (hd : d ∈ D)
    (hg : d.IsGeneric file) :
    ∃ t, lowerPending file d.name s = .ok () t ∧ t.file.structs = s.file.structs ∧
      t.file.generics = s.file.generics := by
  simp only [lowerPending_ok, h.generics d hd hg, Option.some.injEq, exists_eq_left']
  cases he : s.file.table.get? d.name with
  | none => exact ⟨s, rfl, rfl, rfl⟩
  | some e =>
    refine forM_total (P := fun u => u.file.structs = s.file.structs ∧ u.file.generics =
      s.file.generics)
      (fun map hmap u hu => ?_) ⟨rfl, rfl⟩
    have hwaits : ⟨e.sig, map⟩ ∈ s.file.table.recorded d.name := by
      rw [takePending_fst, he] at hmap
      exact mem_recorded.mpr ⟨e, he, rfl, List.mem_of_mem_drop hmap⟩
    obtain ⟨d', hd', -, hname, r, hr, hplan, hbody⟩ :=
      hsol.instantiated _ (h.recorded_subset hsol d.name hwaits)
    obtain rfl := declaration_ext hsol.names hd hd' ((get?_name he).symm.trans hname)
    have hplan : MethodPlan.instantiated d.name e.sig map = .ok r.plan := get?_name he ▸ hplan
    have hflat : r.body.isFlat = true := hbody ▸ hsol.flat d hd
    obtain ⟨t, ht⟩ := (hsol.made r hr).lowerBody hflat u
    obtain ⟨hstructs, hgenerics⟩ := lowerBody_keeps hflat ht
    rw [hbody] at ht
    exact ⟨t, lowerInstance_ok.mpr ⟨r.plan, hplan, ht⟩, hstructs.trans hu.1, hgenerics.trans hu.2⟩

theorem pending (h : Within file D base instances tr done s) (hclosed : IsClosed D) (hd : d ∈ D)
    (hg : d.IsGeneric file) :
    ∃ t, lowerPending file d.name s = .ok () t ∧ t.file.structs = s.file.structs ∧
      Within file D base instances (tr ++ Trail.pending file d.name s)
        (done ++ s.file.table.waiting d.name) t := by
  obtain ⟨t, ht, hstructs, hgenerics⟩ := h.lowerPending_total hsol hd hg
  refine ⟨t, ht, hstructs, h.toStanding.pending hclosed ht, ?_, ?_, ?_⟩
  · rw [Trail.append_calls, h.calls, Trail.pending_calls, List.nil_append]
  · have hwaiting : s.file.table.waiting d.name ⊆ s.file.table.recorded d.name := by
      rw [← handed_append_waiting]
      exact List.subset_append_right _ _
    exact List.append_subset.mpr ⟨h.subset,
      List.Subset.trans hwaiting (h.recorded_subset hsol d.name)⟩
  · rw [hgenerics]
    exact h.generics

theorem Past.pending {n : Nat} (h : Past file D base instances n s) (hclosed : IsClosed D)
    (hd : d ∈ D) (hg : d.IsGeneric file) :
    ∃ t, lowerPending file d.name s = .ok () t ∧ t.file.structs = s.file.structs ∧
      Past file D base instances n t := by
  obtain ⟨tr, done, hlt, hwithin⟩ := h
  obtain ⟨t, ht, hstructs, hnext⟩ := hwithin.pending hsol hclosed hd hg
  refine ⟨t, ht, hstructs, _, _, ?_, hnext⟩
  rw [List.length_append]
  omega

/-- A round does something. -/
theorem round (h : Within file D base instances tr done s) (hclosed : IsClosed D)
    (hpending : s.file.table.pendingFunctions ≠ []) :
    ∃ t, s.file.table.pendingFunctions.forM (lowerPending file) s = .ok () t ∧ t.file.structs =
      s.file.structs ∧
      Past file D base instances done.length t := by
  have hgeneric : ∀ name ∈ s.file.table.pendingFunctions, ∃ d ∈ D, d.IsGeneric file ∧
      d.name = name := fun name hname => by
    obtain ⟨e, he, -⟩ := mem_pendingFunctions.mp hname
    exact h.generic_of_entry hsol he
  cases hnames : s.file.table.pendingFunctions with
  | nil => contradiction
  | cons first rest =>
    rw [hnames] at hgeneric
    obtain ⟨e, he, hwaits⟩ := mem_pendingFunctions.mp (hnames ▸ List.mem_cons_self)
    obtain ⟨d, hd, hg, rfl⟩ := hgeneric first List.mem_cons_self
    obtain ⟨u, hu, hstructs, hwithin⟩ := h.pending hsol hclosed hd hg
    have hgrown : done.length < (done ++ s.file.table.waiting d.name).length := by
      rw [waiting_eq he, List.length_append, List.length_map, List.length_drop]
      omega
    have hrest : ∀ name ∈ rest, ∀ v, v.file.structs = s.file.structs ∧
        Past file D base instances done.length v →
        ∃ w, lowerPending file name v = .ok () w ∧
          w.file.structs = s.file.structs ∧ Past file D base instances done.length w := by
      rintro name hname v ⟨hv, hpast⟩
      obtain ⟨d, hd, hg, rfl⟩ := hgeneric name (List.mem_cons_of_mem _ hname)
      obtain ⟨w, hw, hwstructs, hpast⟩ := hpast.pending hsol hclosed hd hg
      exact ⟨w, hw, hwstructs.trans hv, hpast⟩
    obtain ⟨t, ht, hdone⟩ := forM_total hrest ⟨hstructs, _, _, hgrown, hwithin⟩
    exact ⟨t, bind_ok.mpr ⟨(), u, hu, ht⟩, hdone⟩

/-- More rounds than there are instantiations are enough. -/
theorem drain_total {rounds : Nat} (h : Within file D base instances tr done s)
    (hclosed : IsClosed D) (hrounds : instances.length < done.length + rounds) :
    ∃ t, drain file rounds s = .ok true t ∧ t.file.structs = s.file.structs ∧
      ∃ tr' done', Within file D base instances tr' done' t := by
  induction rounds generalizing s tr done with
  | zero =>
    have hle := h.length_le
    omega
  | succ rounds ih =>
    by_cases hpending : s.file.table.pendingFunctions = []
    · exact ⟨s, drain_succ.mpr (by rw [if_pos hpending]; exact ⟨rfl, rfl⟩), rfl, tr, done, h⟩
    · obtain ⟨u, hu, hstructs, tr', done', hlt, hwithin⟩ := h.round hsol hclosed hpending
      obtain ⟨t, ht, htstructs, hrest⟩ := ih hwithin (by omega)
      refine ⟨t, drain_succ.mpr ?_, htstructs.trans hstructs, hrest⟩
      rw [if_neg hpending]
      exact ⟨u, hu, ht⟩

end Within

end ClassGen
