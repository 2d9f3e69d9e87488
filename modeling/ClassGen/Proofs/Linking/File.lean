import ClassGen.Proofs.Linking.Bodies
import ClassGen.Proofs.Linking.Worklist

/-! The trail of a whole file: its declarations, then rounds of instantiations, each of which may
ask for more. What is kept along the way is where lowering stands: the instantiations that are done,
those that were handed out and wait, and how the methods so far come from the declarations and from
the former. -/

namespace ClassGen

open Run
open Faithful (after after_ok)

/-! ### Trails of files -/

namespace Trail

/-- Actions one after the other. -/
def each {α : Type} (trail : α → LowerState → Trail) (act : α → Lower Unit) :
    List α → LowerState → Trail
  | [], _ => {}
  | a :: rest, s => trail a s ++ after (act a) s {} fun _ t => each trail act rest t

def top (file : FileContext) : Stmt → LowerState → Trail
  | .function decl, s => function file ScopeTree.root decl s
  | .exported inner, s => top file inner s
  | _, _ => {}

def instantiation (file : FileContext) (decl : FunctionDecl) (sig : Signature) (map : Bindings)
    (s : LowerState) : Trail :=
  match MethodPlan.instantiated decl.name sig map with
  | .ok plan => body file plan decl.body s
  | .error _ => {}

def pending (file : FileContext) (name : String) (s : LowerState) : Trail :=
  match s.file.generics.lookup name, s.file.table.get? name with
  | some decl, some entry =>
    each (instantiation file decl entry.sig) (lowerInstance file decl entry.sig)
      (s.file.table.takePending name).1 (s.handedOut name)
  | _, _ => {}

def drained (file : FileContext) : Nat → LowerState → Trail
  | 0, _ => {}
  | rounds + 1, s =>
    match s.file.table.pendingFunctions with
    | [] => {}
    | names =>
      each (pending file) (lowerPending file) names s ++
        after (names.forM (lowerPending file)) s {} fun _ t => drained file rounds t

def file (rounds : Nat) (context : FileContext) (emitInstance : Bool) (stmts : List Stmt) : Trail :=
  after (context.scaffolding emitInstance) {} {} fun _ s =>
    each (top context) (lowerTop context) stmts s ++
      after (stmts.forM (lowerTop context)) s {} fun _ t => drained context rounds t

/-- The bodies that became methods of the generic function `name`. -/
def runsOf (tr : Trail) (name : String) : List BodyRun := tr.runs.filter (·.plan.name = mangle name)

theorem append_assoc (a b c : Trail) : a ++ b ++ c = a ++ (b ++ c) := by
  show Trail.mk (a.calls ++ b.calls ++ c.calls) (a.runs ++ b.runs ++ c.runs)
      (a.reached ++ b.reached ++ c.reached) =
    ⟨a.calls ++ (b.calls ++ c.calls), a.runs ++ (b.runs ++ c.runs),
      a.reached ++ (b.reached ++ c.reached)⟩
  simp only [List.append_assoc]

/-- What every action of a list keeps, with its trail, the list keeps. -/
theorem each_keeps {α : Type} {trail : α → LowerState → Trail} {act : α → Lower Unit}
    {list : List α} {P : Trail → LowerState → Prop} {tr : Trail} {s t : LowerState}
    (hact : ∀ a ∈ list, ∀ {tr : Trail} {s t : LowerState}, act a s = .ok () t → P tr s →
      P (tr ++ trail a s) t)
    (h : list.forM act s = .ok () t) (hs : P tr s) : P (tr ++ each trail act list s) t := by
  induction list generalizing s tr with
  | nil =>
    obtain ⟨-, rfl⟩ := pure_ok.mp h
    rwa [each, append_nil]
  | cons a rest ih =>
    obtain ⟨_, s₁, ha, hrest⟩ := bind_ok.mp h
    rw [each, after_ok ha, ← append_assoc]
    exact ih (fun b hb => hact b (List.mem_cons_of_mem _ hb)) hrest
      (hact a List.mem_cons_self ha hs)

end Trail

namespace SourceFile

/-- All functions of the file, nested ones too. -/
def declarations (f : SourceFile) : List Declaration := declarationsOf ScopeTree.root f.body

/-- The trail of its compilation in so many rounds. -/
def trail (rounds : Nat) (f : SourceFile) (options : Options) : Trail :=
  Trail.file rounds (FileContext.ofSource f options) options.emitInstance f.body

end SourceFile

/-! ### Declarations inside declarations -/

theorem declarations_sublist {scope : ScopeId} {st : Stmt} {stmts : List Stmt} (h : st ∈ stmts) :
    (st.declarations scope).Sublist (declarationsOf scope stmts) := by
  induction stmts with
  | nil => cases h
  | cons first rest ih =>
    rw [declarationsOf]
    rcases List.mem_cons.mp h with rfl | h
    · exact List.sublist_append_left _ _
    · exact (ih h).trans (List.sublist_append_right _ _)

/-- With a declaration the list has those inside it. -/
def IsClosed (D : List Declaration) : Prop := ∀ d ∈ D, d.all.Sublist D

namespace IsClosed

theorem nil : IsClosed [] := nofun

theorem append {D E : List Declaration} (hD : IsClosed D) (hE : IsClosed E) :
    IsClosed (D ++ E) := by
  intro d hd
  rcases List.mem_append.mp hd with hd | hd
  · exact (hD d hd).trans (List.sublist_append_left _ _)
  · exact (hE d hd).trans (List.sublist_append_right _ _)

theorem all {d : Declaration} (h : IsClosed d.decl.body.declarations) : IsClosed d.all := by
  intro e he
  rcases List.mem_cons.mp he with rfl | he
  · exact List.Sublist.refl _
  · exact (h e he).cons d

end IsClosed

mutual

theorem Stmt.isClosed (scope : ScopeId) : ∀ st : Stmt, IsClosed (st.declarations scope)
  | .function ⟨name, body, span⟩ => IsClosed.all (d := ⟨scope, ⟨name, body, span⟩⟩) body.isClosed
  | .ifElse _ _ body none => by
    rw [Stmt.declarations]
    exact body.isClosed
  | .ifElse _ _ body (some branch) => by
    rw [Stmt.declarations]
    exact body.isClosed.append (branch.isClosed scope)
  | .whileLoop _ _ body | .forEach _ _ _ body | .block body => by
    rw [Stmt.declarations]
    exact body.isClosed
  | .matchType _ _ arms => by
    rw [Stmt.declarations]
    exact isClosed_arms arms
  | .exported inner => by
    rw [Stmt.declarations]
    exact inner.isClosed scope
  | .expr _ | .var _ _ _ | .struct _ _ | .ret _ _ | .use _ _ | .typeAlias _ _
  | .unionType _ _ | .enum _ _
  | .parameter _ _ => .nil

theorem Block.isClosed : ∀ b : Block, IsClosed b.declarations
  | ⟨scope, body, _⟩ => by
    rw [Block.declarations]
    exact isClosed_stmts scope body

theorem isClosed_stmts (scope : ScopeId) : ∀ stmts :
    List Stmt, IsClosed (declarationsOf scope stmts)
  | [] => .nil
  | first :: rest => by
    rw [declarationsOf]
    exact (first.isClosed scope).append (isClosed_stmts scope rest)

theorem isClosed_arms : ∀ arms : List Arm, IsClosed (declarationsOfArms arms)
  | [] => .nil
  | ⟨_, _, body, _⟩ :: rest => by
    rw [declarationsOfArms]
    exact body.isClosed.append (isClosed_arms rest)

end

/-! ### Instantiations -/

namespace Instance

/-- The method of the instantiation. -/
def plan (i : Instance) : Except SpecializeError MethodPlan :=
  MethodPlan.instantiated i.sig.name i.sig i.map

def descriptor? (i : Instance) : Option String := i.plan.toOption.map MethodPlan.descriptor

theorem descriptor?_eq {i : Instance} {plan : MethodPlan} (h : i.plan = .ok plan) :
    i.descriptor? = some plan.descriptor := by
  rw [descriptor?, h]
  rfl

theorem plan_name {i : Instance} {plan : MethodPlan} (h : i.plan = .ok plan) :
    plan.name = mangle i.sig.name := by
  obtain ⟨_, _, -, rfl⟩ := instantiated_ok.mp h
  rfl

/-- The first one for each descriptor. -/
def firsts (list : List Instance) : List Instance :=
  list.eraseDupsBy (·.descriptor? == ·.descriptor?)

theorem loop_concat {α : Type} (r : α → α → Bool) (a : α) (list acc : List α) :
    List.eraseDupsBy.loop r (list ++ [a]) acc =
      if (List.eraseDupsBy.loop r list acc).any (r a) then List.eraseDupsBy.loop r list acc
      else List.eraseDupsBy.loop r list acc ++ [a] := by
  induction list generalizing acc with
  | nil =>
    simp only [List.nil_append, List.eraseDupsBy.loop, List.any_reverse]
    cases acc.any (r a) <;> simp
  | cons b rest ih =>
    simp only [List.cons_append, List.eraseDupsBy.loop]
    by_cases hb : acc.any (r b)
    · simp only [hb, ih]
    · simp only [Bool.eq_false_iff.mpr hb, ih]

theorem firsts_concat (list : List Instance) (i : Instance) : firsts (list ++ [i]) =
    if (firsts list).any (i.descriptor? == ·.descriptor?) then firsts list
    else firsts list ++ [i] :=
  loop_concat _ _ _ _

end Instance

/-- Where a body comes from: a declaration, or one instantiation of a generic one. -/
inductive BodyRun.Origin (file : FileContext) (d : Declaration) (r : BodyRun) : Prop
  | declared (h : r.Declared file d)
  | instantiated {i : Instance} (hg : d.IsGeneric file) (hname : i.sig.name = d.name)
      (hplan : i.plan = .ok r.plan)
    (hbody : r.body = d.decl.body)

theorem BodyRun.Origin.serves {file : FileContext} {d : Declaration} {r : BodyRun}
    (h : r.Origin file d) : r.plan.Serves file d := by
  cases h with
  | declared h => exact h.serves
  | instantiated hg hname hplan _ => exact hg.serves (.inl (hname ▸ Instance.plan_name hplan))

/-- Before the first declaration. -/
structure LowerState.IsScaffolding (s : LowerState) : Prop where
  table : s.file.table = {}
  generics : s.file.generics = []
  structs : s.file.structs = []
  methods : ∀ m ∈ s.file.methods, m.name = Library.constructor ∨ m.name = Library.classInit
  distinct : s.Distinct

/-- Where lowering of a file with the declarations `D` stands: it began in `base` and has left this
trail; the instantiations `done` were lowered, and `waiting` were handed out for it. -/
structure Standing (file : FileContext) (D : List Declaration) (base : LowerState) (tr : Trail)
    (done waiting : List Instance) (s : LowerState) : Prop where
  scaffolding : base.IsScaffolding
  advances : Advances file D base s tr
  origin : ∀ r ∈ tr.runs, ∃ d ∈ D, r.Origin file d
  worklist : Worklist tr.requests (done ++ waiting) s.file.table
  generic : ∀ i ∈ done, ∃ d ∈ D, d.IsGeneric file ∧ i.sig.name = d.name
  served : ∀ i ∈ done, ∃ plan, i.plan = .ok plan ∧ ∃ m ∈ s.file.methods, plan.IsFor m
  firsts : (D.map Declaration.name).Nodup → ∀ d ∈ D, d.IsGeneric file →
    (Instance.firsts (done.filter (·.sig.name = d.name))).map Instance.plan =
      (tr.runsOf d.name).map (Except.ok ·.plan)

variable {file : FileContext} {D : List Declaration} {base s t : LowerState} {tr tr' : Trail}
  {done waiting : List Instance} {d : Declaration} {c : Code}

theorem declaration_ext (hD : (D.map Declaration.name).Nodup) {e : Declaration} (hd : d ∈ D)
    (he : e ∈ D) (h : d.name = e.name) : d = e :=
  List.inj_on_of_nodup_map hD hd he h

/-- No declared body becomes a method of a generic function. -/
theorem filter_declared {runs : List BodyRun} (hD : (D.map Declaration.name).Nodup) (hd : d ∈ D)
    (hg : d.IsGeneric file) (hruns : ∀ r ∈ runs, ∃ e ∈ D, r.Declared file e) :
    runs.filter (·.plan.name = mangle d.name) = [] := by
  refine List.filter_eq_nil_iff.mpr fun r hr hname => ?_
  obtain ⟨e, he, hdeclared⟩ := hruns r hr
  have hnames : r.plan.Names d.name := .inl (of_decide_eq_true hname)
  obtain rfl := declaration_ext hD hd he (hnames.inj hdeclared.serves.names rfl)
  obtain ⟨sig, hsig, hgeneric⟩ := hg
  obtain ⟨sig', hsig', hconcrete, -⟩ := hdeclared
  obtain rfl : sig = sig' := Option.some.inj (hsig.symm.trans hsig')
  simp [hgeneric] at hconcrete

namespace Standing

theorem start (h : s.IsScaffolding) : Standing file D s {} [] [] s where
  scaffolding := h
  advances := .quiet rfl rfl
  origin := nofun
  worklist := h.table ▸ .empty
  generic := nofun
  served := nofun
  firsts _ _ _ _ := rfl

theorem served_mono {more : List Method} (h : Standing file D base tr done waiting s)
    (hm : t.file.methods = s.file.methods ++ more) :
    ∀ i ∈ done, ∃ plan, i.plan = .ok plan ∧ ∃ m ∈ t.file.methods, plan.IsFor m := by
  intro i hi
  obtain ⟨plan, hplan, m, hmem, hfor⟩ := h.served i hi
  exact ⟨plan, hplan, m, hm ▸ List.mem_append_left _ hmem, hfor⟩

theorem worklist_of_table (h : Standing file D base tr done waiting s)
    (ht : ∃ l, l.Perm tr'.requests ∧ t.file.table = s.file.table.recordAll l) :
    Worklist (tr ++ tr').requests (done ++ waiting) t.file.table := by
  obtain ⟨l, hl, ht⟩ := ht
  rw [ht]
  exact (h.worklist.recordAll l).perm ((hl.append_left _).trans (Trail.requests_append tr tr'))

/-- Statements add no instantiation. -/
theorem traced (h : Standing file D base tr done waiting s) (k : Traced file D s c t tr') :
    Standing file D base (tr ++ tr') done waiting t where
  scaffolding := h.scaffolding
  advances := h.advances.andThen k.toAdvances
  origin r hr := by
    rcases List.mem_append.mp hr with hr | hr
    · exact h.origin r hr
    · obtain ⟨d, hd, hdeclared⟩ := k.declared r hr
      exact ⟨d, hd, .declared hdeclared⟩
  worklist := h.worklist_of_table k.table
  generic := h.generic
  served := h.served_mono k.methods
  firsts hD d hd hg := by
    rw [h.firsts hD d hd hg, Trail.runsOf, Trail.runsOf, Trail.append_runs, List.filter_append,
      filter_declared hD hd hg k.declared, List.append_nil]

theorem handOut {name : String} {e : GenericEntry} (h : Standing file D base tr done [] s)
    (he : s.file.table.get? name = some e) :
    Standing file D base tr done ((s.file.table.takePending name).1.map (Instance.mk e.sig))
      (s.handedOut name) where
  scaffolding := h.scaffolding
  advances := by
    have : Advances file D s (s.handedOut name) {} := .quiet rfl rfl
    simpa using h.advances.andThen this
  origin := h.origin
  worklist := by
    have := h.worklist.handOut he
    rwa [List.append_nil] at this
  generic := h.generic
  served := h.served
  firsts := h.firsts

/-- A method with the name of a function was made by a run. -/
theorem exists_run {m : Method} {plan : MethodPlan} {name : String}
    (h : Standing file D base tr done waiting s) (hm : m ∈ s.file.methods)
    (hnames : plan.Names name) (hfor : m.name = plan.name) : ∃ r ∈ tr.runs, r.method = m := by
  rw [h.advances.methods] at hm
  rcases List.mem_append.mp hm with hm | hm
  · rcases h.scaffolding.methods m hm with hinit | hinit
    · exact (hnames.ne.1 (hfor.symm.trans hinit)).elim
    · exact (hnames.ne.2 (hfor.symm.trans hinit)).elim
  · exact List.mem_map.mp hm

/-- An instantiation finds its method if one before it has the descriptor. -/
theorem emitted_eq {i : Instance} {plan : MethodPlan} (h : Standing file D base tr done waiting s)
    (hD : (D.map Declaration.name).Nodup) (hd : d ∈ D) (hg : d.IsGeneric file)
    (hname : i.sig.name = d.name) (hplan : i.plan = .ok plan) : plan.emitted s =
      (Instance.firsts (done.filter (·.sig.name = d.name))).any
        (i.descriptor? == ·.descriptor?) := by
  have hfirsts := h.firsts hD d hd hg
  have hplanName : plan.name = mangle d.name := hname ▸ Instance.plan_name hplan
  rw [Bool.eq_iff_iff, MethodPlan.emitted_iff, List.any_eq_true, Instance.descriptor?_eq hplan]
  constructor
  · rintro ⟨m, hm, hfor⟩
    obtain ⟨r, hr, rfl⟩ := h.exists_run hm (.inl hplanName) hfor.1
    have hrun := (h.advances.sound r hr).isFor
    have hof : r ∈ tr.runsOf d.name :=
      List.mem_filter.mpr ⟨hr, decide_eq_true (hrun.1.symm.trans (hfor.1.trans hplanName))⟩
    obtain ⟨j, hj, hjplan⟩ := List.mem_map.mp (hfirsts ▸ List.mem_map_of_mem hof)
    refine ⟨j, hj, ?_⟩
    rw [Instance.descriptor?_eq hjplan, ← hrun.2, hfor.2]
    exact beq_self_eq_true _
  · rintro ⟨j, hj, hsame⟩
    obtain ⟨r, hof, hjplan⟩ := List.mem_map.mp (hfirsts ▸ List.mem_map_of_mem hj)
    obtain ⟨hr, hrname⟩ := List.mem_filter.mp hof
    have hrun := (h.advances.sound r hr).isFor
    rw [Instance.descriptor?_eq hjplan.symm, beq_iff_eq, Option.some.injEq] at hsame
    refine ⟨r.method, ?_, hrun.1.trans ((of_decide_eq_true hrname).trans hplanName.symm),
      hrun.2.trans hsame.symm⟩
    rw [h.advances.methods]
    exact List.mem_append_right _ (List.mem_map_of_mem hr)

/-- The next instantiation is the first for its descriptor if its method is new. -/
theorem firsts_next {i : Instance} {plan : MethodPlan} (h : Standing file D base tr done waiting s)
    (hD : (D.map Declaration.name).Nodup) (hd : d ∈ D) (hg : d.IsGeneric file)
    (hplan : i.plan = .ok plan) :
    (Instance.firsts ((done ++ [i]).filter (·.sig.name = d.name))).map Instance.plan =
      (tr.runsOf d.name).map (Except.ok ·.plan) ++
        if i.sig.name = d.name ∧ plan.emitted s = false then [Except.ok plan] else [] := by
  rw [← h.firsts hD d hd hg, List.filter_append, List.filter_singleton]
  by_cases hname : i.sig.name = d.name
  · rw [decide_eq_true hname, cond_true, Instance.firsts_concat,
      ← h.emitted_eq hD hd hg hname hplan]
    cases plan.emitted s <;> simp [hname, hplan]
  · simp [hname]

theorem generic_next {i : Instance} (h : Standing file D base tr done waiting s) (hd : d ∈ D)
    (hg : d.IsGeneric file) (hname : i.sig.name = d.name) : ∀ j ∈ done ++ [i], ∃ d ∈ D,
    d.IsGeneric file ∧ j.sig.name = d.name := by
  intro j hj
  rcases List.mem_append.mp hj with hj | hj
  · exact h.generic j hj
  · exact List.mem_singleton.mp hj ▸ ⟨d, hd, hg, hname⟩

/-- An instantiation whose method is there. -/
theorem reuse {i : Instance} {plan : MethodPlan} (h : Standing file D base tr done (i :: waiting) s)
    (hd : d ∈ D) (hg : d.IsGeneric file) (hname : i.sig.name = d.name) (hplan : i.plan = .ok plan)
    (hold : plan.emitted s = true) (htable : t.file.table = s.file.table)
    (hmethods : t.file.methods = s.file.methods) (hgenerics : t.file.generics = s.file.generics) :
    Standing file D base tr (done ++ [i]) waiting t where
  scaffolding := h.scaffolding
  advances := by
    have : Advances file D s t {} := .quiet hmethods hgenerics
    simpa using h.advances.andThen this
  origin := h.origin
  worklist := by
    rw [htable, List.append_assoc]
    exact h.worklist
  generic := h.generic_next hd hg hname
  served j hj := by
    rw [hmethods]
    rcases List.mem_append.mp hj with hj | hj
    · exact h.served j hj
    · rw [List.mem_singleton.mp hj]
      exact ⟨plan, hplan, MethodPlan.emitted_iff.mp hold⟩
  firsts hD d hd hg := by
    rw [h.firsts_next hD hd hg hplan, if_neg (by simp [hold]), List.append_nil]

/-- An instantiation whose method is new. -/
theorem add {u : LowerState} {i : Instance} {inner : Trail} {run : BodyRun}
    (h : Standing file D base tr done (i :: waiting) s) (hclosed : IsClosed D) (hd : d ∈ D)
    (hg : d.IsGeneric file) (hname : i.sig.name = d.name) (hplan : i.plan = .ok run.plan)
    (hbody : run.body = d.decl.body) (hnew : run.plan.emitted s = false)
    (hinner : Traced file d.decl.body.declarations s c u inner) (hcalls : run.calls = inner.calls)
    (hrun : run.Sound file) :
    Standing file D base (tr ++ inner.closed run)
      (done ++ [i]) waiting (run.plan.added run.method s u) := by
  have hall := hclosed d hd
  have hnames : run.plan.Names d.name := .inl (hname ▸ Instance.plan_name hplan)
  have hadded := (Advances.added hinner hrun (hg.serves hnames) hnew).widen hall
  have hdeclared : ∀ r ∈ inner.runs, ∃ e ∈ D, r.Declared file e := fun r hr => by
    obtain ⟨e, he, hdecl⟩ := hinner.declared r hr
    exact ⟨e, hall.subset (List.mem_cons_of_mem _ he), hdecl⟩
  refine ⟨h.scaffolding, h.advances.andThen hadded, fun r hr => ?_, ?_, h.generic_next hd hg hname,
    fun j hj => ?_, fun hD e he hge => ?_⟩
  · rcases List.mem_append.mp hr with hr | hr
    · exact h.origin r hr
    rcases List.mem_append.mp hr with hr | hr
    · obtain ⟨e, he, hdecl⟩ := hdeclared r hr
      exact ⟨e, he, .declared hdecl⟩
    · rw [List.mem_singleton.mp hr]
      exact ⟨d, hd, .instantiated hg hname hplan hbody⟩
  · rw [List.append_assoc]
    obtain ⟨l, hl, ht⟩ := hinner.table
    exact h.worklist_of_table ⟨l, hl.trans (Trail.requests_closed hcalls), ht⟩
  · rcases List.mem_append.mp hj with hj | hj
    · exact h.served_mono hadded.methods j hj
    · rw [List.mem_singleton.mp hj]
      exact ⟨run.plan, hplan, run.method, List.mem_append_right _ (List.mem_singleton_self _),
        hrun.isFor⟩
  · have hrunName : run.plan.name = mangle e.name ↔ i.sig.name = e.name := by
      rw [Instance.plan_name hplan]
      exact ⟨mangle_injective, congrArg mangle⟩
    rw [h.firsts_next hD he hge hplan, Trail.runsOf, Trail.runsOf, Trail.append_runs, Trail.closed,
      List.filter_append, List.filter_append, filter_declared hD he hge hdeclared, List.nil_append,
      List.map_append, List.filter_singleton]
    simp only [hrunName, hnew, and_true]
    by_cases hsame : i.sig.name = e.name <;> simp [hsame]

theorem instantiated {i : Instance} (h : Standing file D base tr done (i :: waiting) s)
    (hclosed : IsClosed D) (hd : d ∈ D) (hg : d.IsGeneric file) (hname : i.sig.name = d.name)
    (hrun : lowerInstance file d.decl i.sig i.map s = .ok () t) :
    Standing file D base (tr ++ Trail.instantiation file d.decl i.sig i.map s)
      (done ++ [i]) waiting t := by
  obtain ⟨plan, hplan, hbody⟩ := lowerInstance_ok.mp hrun
  have htrail : Trail.instantiation file d.decl i.sig i.map s =
      Trail.body file plan d.decl.body s := by
    simp only [Trail.instantiation, hplan]
  have hiplan : i.plan = .ok plan := by
    rw [Instance.plan, hname]
    exact hplan
  rw [htrail]
  cases hemitted : plan.emitted s with
  | true =>
    obtain ⟨_, _, rfl⟩ := lowerBody_emitted hemitted hbody
    rw [Trail.body_emitted hemitted, Trail.append_nil]
    exact h.reuse hd hg hname hiplan hemitted rfl rfl rfl
  | false =>
    obtain ⟨u, code, inner, run, hinner, rfl, hrunBody, hcalls, hsound, rfl, hbodyTrail⟩ :=
      body_new (functionTraces d.decl) hemitted hbody
    rw [hbodyTrail]
    exact h.add hclosed hd hg hname hiplan hrunBody hemitted hinner hcalls hsound

/-- The instantiations that wait, one after the other. -/
theorem instances {sig : Signature} {maps : List Bindings}
    (h : Standing file D base tr done (maps.map (Instance.mk sig)) s) (hclosed : IsClosed D)
    (hd : d ∈ D) (hg : d.IsGeneric file) (hname : sig.name = d.name)
    (hrun : maps.forM (lowerInstance file d.decl sig) s = .ok () t) :
    Standing file D base
      (tr ++ Trail.each (Trail.instantiation file d.decl sig)
        (lowerInstance file d.decl sig) maps s)
      (done ++ maps.map (Instance.mk sig)) [] t := by
  induction maps generalizing s tr done with
  | nil =>
    obtain ⟨-, rfl⟩ := pure_ok.mp hrun
    simpa [Trail.each] using h
  | cons map rest ih =>
    obtain ⟨_, s₁, hfirst, hrest⟩ := bind_ok.mp hrun
    have hstep := ih (h.instantiated hclosed hd hg hname hfirst) hrest
    rw [Trail.each, after_ok hfirst, ← Trail.append_assoc]
    rwa [List.append_assoc] at hstep

/-- What waits is a generic function. -/
theorem generic_of_lookup {name : String} {decl : FunctionDecl}
    (h : Standing file D base tr done waiting s) (hdecl : s.file.generics.lookup name = some decl) :
    ∃ d ∈ D, d.IsGeneric file ∧ d.name = name ∧ d.decl = decl := by
  obtain ⟨before, after, hgenerics, -⟩ := List.lookup_eq_some_iff.mp hdecl
  have hwaits := h.advances.generics (name, decl)
    (hgenerics ▸ List.mem_append_right _ List.mem_cons_self)
  rw [h.scaffolding.generics] at hwaits
  obtain ⟨d, hd, heq, hg⟩ := hwaits.resolve_left nofun
  obtain ⟨rfl, rfl⟩ := Prod.mk.inj heq
  exact ⟨d, hd, hg, rfl, rfl⟩

theorem pending {name : String} (h : Standing file D base tr done [] s) (hclosed : IsClosed D)
    (hrun : lowerPending file name s = .ok () t) :
    Standing file D base (tr ++ Trail.pending file name s) (done ++ s.file.table.waiting name)
      [] t := by
  obtain ⟨decl, hdecl, hmatch⟩ := lowerPending_ok.mp hrun
  obtain ⟨d, hd, hg, rfl, rfl⟩ := h.generic_of_lookup hdecl
  cases hentry : s.file.table.get? d.name with
  | none =>
    simp only [hentry] at hmatch
    simpa only [Trail.pending, hdecl, hentry, Trail.append_nil, ← hmatch,
      SpecializationTable.waiting, Option.map_none, Option.getD_none, List.append_nil] using h
  | some e =>
    simp only [hentry] at hmatch
    have hmaps : (s.file.table.takePending d.name).1.map (Instance.mk e.sig) =
        s.file.table.waiting d.name := by
      rw [SpecializationTable.waiting_eq hentry, SpecializationTable.takePending_fst, hentry]
      rfl
    simp only [Trail.pending, hdecl, hentry, ← hmaps]
    exact (h.handOut hentry).instances hclosed hd hg (SpecializationTable.get?_name hentry) hmatch

end Standing

/-- Lowering stands between two functions. -/
def Between (file : FileContext) (D : List Declaration) (base : LowerState) (tr : Trail)
    (s : LowerState) : Prop :=
  ∃ done, Standing file D base tr done [] s

namespace Between

theorem pending {name : String} (h : Between file D base tr s) (hclosed : IsClosed D)
    (hrun : lowerPending file name s = .ok () t) :
    Between file D base (tr ++ Trail.pending file name s) t := by
  obtain ⟨done, h⟩ := h
  exact ⟨_, h.pending hclosed hrun⟩

theorem drained {rounds : Nat} {complete : Bool} (h : Between file D base tr s)
    (hclosed : IsClosed D) (hrun : drain file rounds s = .ok complete t) :
    Between file D base (tr ++ Trail.drained file rounds s) t := by
  induction rounds generalizing s tr with
  | zero =>
    obtain ⟨-, rfl⟩ := drain_zero.mp hrun
    rwa [Trail.drained, Trail.append_nil]
  | succ rounds ih =>
    have hround := drain_succ.mp hrun
    rw [Trail.drained]
    split_ifs at hround with hnames
    · rwa [hnames, Trail.append_nil, ← hround.2]
    · obtain ⟨u, hround, hrest⟩ := hround
      split
      · contradiction
      · rw [after_ok hround, ← Trail.append_assoc]
        have hkept := Trail.each_keeps (fun name _ _ _ _ hact h => h.pending hclosed hact) hround h
        exact ih hkept hrest

end Between

/-! ### Whole files -/

theorem top_traced : ∀ {st : Stmt}, lowerTop file st s = .ok () t →
    Traced file (st.declarations ScopeTree.root) s c t (Trail.top file st s)
  | .function decl, h => by
    rw [Stmt.declarations_function, Trail.top]
    exact function_traced (functionTraces decl) h
  | .struct _ _, h => by
    obtain rfl | ⟨_, _, _, -, -, rfl⟩ := lowerStruct_ok h <;> exact .quiet rfl rfl rfl
  | .exported inner, h => by
    have hinner : lowerTop file inner s = .ok () t := h
    rw [Stmt.declarations, Trail.top]
    exact top_traced hinner
  | .use _ _, h | .typeAlias _ _, h | .unionType _ _, h => by
    obtain ⟨-, rfl⟩ := pure_ok.mp h
    exact .quiet rfl rfl rfl
  | .expr _, h | .var _ _ _, h | .ret _ _, h | .ifElse _ _ _ _, h
  | .whileLoop _ _ _, h | .forEach _ _ _ _, h
  | .matchType _ _ _, h | .block _, h | .enum _ _, h | .parameter _ _, h => (throw_ok.mp h).elim

theorem scaffolding_isScaffolding {emitInstance : Bool}
    (h : file.scaffolding emitInstance {} = .ok () t) : t.IsScaffolding := by
  simp only [FileContext.scaffolding, bind_ok, startFrame_ok, Lower.addMethod, modify_ok] at h
  obtain ⟨init, _, ⟨hinit, rfl⟩, _, _, rfl, h⟩ := h
  have hinitName := (Frame.start_named hinit).1
  cases emitInstance with
  | false =>
    obtain ⟨-, rfl⟩ := pure_ok.mp h
    refine ⟨rfl, rfl, rfl, fun m hm => .inl ?_, List.nodup_singleton _⟩
    rw [List.mem_singleton.mp hm]
    exact hinitName
  | true =>
    simp only [if_true, bind_ok, startFrame_ok, modify_ok] at h
    obtain ⟨clinit, _, ⟨hclinit, rfl⟩, rfl⟩ := h
    have hclinitName := (Frame.start_named hclinit).1
    refine ⟨rfl, rfl, rfl, fun m hm => ?_, ?_⟩
    · rcases List.mem_pair.mp hm with rfl | rfl
      · exact .inl hinitName
      · exact .inr hclinitName
    · refine List.nodup_cons.mpr ⟨fun hm => ?_, List.nodup_singleton _⟩
      have hsame := (Prod.mk.inj (List.mem_singleton.mp hm)).1
      exact absurd (hinitName.symm.trans (hsame.trans hclinitName)) (by decide)

/-- After the declarations nothing was handed out. -/
theorem declarations_standing {stmts : List Stmt} (hs : s.IsScaffolding)
    (h : stmts.forM (lowerTop file) s = .ok () t) :
    Standing file (declarationsOf ScopeTree.root stmts) s (Trail.each (Trail.top file)
      (lowerTop file) stmts s) [] [] t :=
  Trail.each_keeps (P := fun tr t => Standing file (declarationsOf ScopeTree.root stmts) s tr []
    [] t) (fun _ hst _ _ _ hact hs =>
      hs.traced ((top_traced (c := []) hact).widen (declarations_sublist hst))) h (.start hs)

theorem lowerFile_between {rounds : Nat} {emitInstance complete : Bool} {stmts : List Stmt}
    (h : lowerFile rounds file emitInstance stmts {} = .ok complete t) :
    ∃ base, file.scaffolding emitInstance {} = .ok () base ∧
      Between file (declarationsOf ScopeTree.root stmts) base
        (Trail.file rounds file emitInstance stmts) t ∧
      (complete = true → t.file.table.pendingFunctions = []) := by
  obtain ⟨s₁, s₂, s₃, hscaffolding, htop, hdrain, rfl⟩ := lowerFile_ok.mp h
  have hclosed := isClosed_stmts ScopeTree.root stmts
  have hdeclared : Between file (declarationsOf ScopeTree.root stmts) s₁
      (Trail.each (Trail.top file) (lowerTop file) stmts s₁) s₂ :=
    ⟨[], declarations_standing (scaffolding_isScaffolding hscaffolding) htop⟩
  obtain ⟨done, hdrained⟩ := hdeclared.drained hclosed hdrain
  refine ⟨s₁, hscaffolding, ⟨done, ?_⟩, fun hcomplete => drain_pending (t := s₃)
    (hcomplete ▸ hdrain)⟩
  rw [Trail.file, after_ok hscaffolding, after_ok htop]
  have hlogged : Traced file (declarationsOf ScopeTree.root stmts) s₃ []
      (s₃.logged (.finished file.unitName s₃.file.methods.length s₃.file.structs.length)) {} :=
        .quiet rfl rfl rfl
  simpa only [Trail.append_nil, Trail.nil_append] using hdrained.traced hlogged

/-- Where a file stands that was lowered to its end. -/
theorem SourceFile.standing {f : SourceFile} {rounds : Nat} {options : Options} {final : FileState}
    (h : f.lowered? rounds options = some final) :
    final.table.pendingFunctions = [] ∧ ∃ base s done, s.file = final ∧
      Standing (FileContext.ofSource f options) f.declarations base (f.trail rounds options)
        done [] s := by
  obtain ⟨s, hrun, rfl⟩ := lowered?_eq_some.mp h
  obtain ⟨base, -, ⟨done, hstanding⟩, hpending⟩ := lowerFile_between hrun
  exact ⟨hpending rfl, base, s, done, rfl, hstanding⟩

end ClassGen
