import ClassGen.Proofs.Linking.Trail
import ClassGen.Proofs.StackKinds.Stmt
import ClassGen.Proofs.Lowering.File

/-! Lowering leaves its trail: what one statement, block or function adds to a file. -/

namespace ClassGen

open Run
open Faithful (after after_ok)

variable {file : FileContext} {cx : BodyContext} {s t : LowerState} {c : Code}

/-! ### Names of methods -/

theorem mangle_injective {a b : String} (h : mangle a = mangle b) : a = b := by
  have := congrArg String.toList h
  exact String.toList_injective (by simpa [mangle, String.toList_append] using this)

theorem mangle_ne {a b : String} (hb : b.toList.head? ≠ some '_') : mangle a ≠ b := by
  rintro rfl
  exact hb (by simp [mangle, String.toList_append])

/-- The name of a method of the function `name`. -/
def MethodPlan.Names (plan : MethodPlan) (name : String) : Prop :=
  plan.name = mangle name ∨ name = "main" ∧ plan.name = "main"

theorem MethodPlan.Names.inj {p q : MethodPlan} {a b : String} (hp : p.Names a) (hq : q.Names b)
    (h : p.name = q.name) : a = b := by
  rcases hp with hp | ⟨rfl, hp⟩ <;> rcases hq with hq | ⟨rfl, hq⟩
  · exact mangle_injective (hp.symm.trans (h.trans hq))
  · exact (mangle_ne (by decide) (hp.symm.trans (h.trans hq))).elim
  · exact (mangle_ne (by decide) (hq.symm.trans (h.symm.trans hp))).elim
  · rfl

/-- Constructors and initializers are no methods of functions. -/
theorem MethodPlan.Names.ne {p : MethodPlan} {a : String} (h : p.Names a) :
    p.name ≠ Library.constructor ∧ p.name ≠ Library.classInit := by
  rcases h with h | ⟨-, h⟩
  · exact ⟨h ▸ mangle_ne (by decide), h ▸ mangle_ne (by decide)⟩
  · exact ⟨h ▸ by decide, h ▸ by decide⟩

theorem MethodPlan.names_declared (name : String) (sig : Signature) :
    (MethodPlan.declared name sig).Names name := by
  unfold declared
  split_ifs with h
  · exact .inr ⟨h, h⟩
  · exact .inl rfl

/-- The plan makes a method of the declaration, which is the only one if that is not generic. -/
structure MethodPlan.Serves (file : FileContext) (d : Declaration) (plan : MethodPlan) : Prop where
  names : plan.Names d.name
  own : ∃ sig, d.sig? file = some sig ∧ (sig.isGeneric = false → plan = .declared d.name sig)

theorem BodyRun.Declared.serves {d : Declaration} {r : BodyRun} (h : r.Declared file d) :
    r.plan.Serves file d := by
  obtain ⟨sig, hsig, -, hplan, -⟩ := h
  exact ⟨hplan ▸ MethodPlan.names_declared _ _, sig, hsig, fun _ => hplan⟩

theorem Declaration.IsGeneric.serves {d : Declaration} {plan : MethodPlan} (h : d.IsGeneric file)
    (hnames : plan.Names d.name) : plan.Serves file d := by
  obtain ⟨sig, hsig, hg⟩ := h
  exact ⟨hnames, sig, hsig, fun hconcrete => by simp [hg] at hconcrete⟩

instance : Std.Symm (Declaration.Apart file) where
  symm d e h hname b hb a ha := by
    obtain ⟨hg, hdescriptor⟩ := h hname.symm a ha b hb
    exact ⟨hg.symm, fun hconcrete => (hdescriptor (hg.trans hconcrete)).symm⟩

/-- No method of one function is taken for that of the other. -/
theorem Declaration.Apart.descriptor_ne {d e : Declaration} {plan : MethodPlan} {sig : Signature}
    (h : d.Apart file e) (hplan : plan.Serves file d) (hsig : e.sig? file = some sig)
    (hg : sig.isGeneric = false) (hname : plan.name = (MethodPlan.declared e.name sig).name) :
    plan.descriptor ≠ (MethodPlan.declared e.name sig).descriptor := by
  have hnames : d.name = e.name := hplan.names.inj (MethodPlan.names_declared e.name sig) hname
  obtain ⟨own, hown, heq⟩ := hplan.own
  obtain ⟨hsame, hdescriptor⟩ := h hnames own hown sig hsig
  have hconcrete : own.isGeneric = false := hsame.trans hg
  rw [heq hconcrete]
  exact hdescriptor hconcrete

/-! ### Bodies -/

theorem subset_closed (plan : MethodPlan) (frame : Frame) (code : Code) :
    code ⊆ plan.closed frame code :=
  (prefix_closed plan frame code).subset

theorem subset_finish (frame : Frame) (code : Code) : code ⊆ (frame.finish code).code :=
  (prefix_finish frame code).subset

theorem Frame.start_named {access : Access} {name descriptor : String} {frame : Frame}
    (h : Frame.start access name descriptor = .ok frame) :
    frame.name = name ∧ frame.descriptor = descriptor := by
  unfold Frame.start at h
  cases hparse : MethodDescriptor.parse descriptor with
  | error e => simp [hparse, Except.map] at h
  | ok d =>
    rw [hparse] at h
    cases h
    exact ⟨rfl, rfl⟩

def StmtTraces (st : Stmt) : Prop :=
  ∀ {cx : BodyContext} {s t : LowerState} {c : Code}, lowerStmt cx st s = .ok c t →
    Traced cx.file (st.declarations cx.scope) s c t (Trail.stmt cx st s)

def BlockTraces (b : Block) : Prop :=
  ∀ {cx : BodyContext} {s t : LowerState} {c : Code}, lowerBlock cx b s = .ok c t →
    Traced cx.file b.declarations s c t (Trail.block cx b s)

def StmtsTrace (body : List Stmt) : Prop :=
  ∀ {cx : BodyContext} {s t : LowerState} {c : Code}, lowerStmts cx [] body s = .ok c t →
    Traced cx.file (declarationsOf cx.scope body) s c t (Trail.stmts cx body s)

def ArmsTrace (arms : List Arm) : Prop :=
  ∀ {cx : BodyContext} {subject : Nat} {done : Label} {s t : LowerState} {c : Code},
    lowerArms cx subject done arms s = .ok c t →
      Traced cx.file (declarationsOfArms arms) s c t (Trail.arms cx subject arms s)

/-- A new body: its statements leave their trail, and its method comes after theirs. -/
theorem body_new {plan : MethodPlan} {b : Block} (ih : StmtsTrace b.body)
    (hnew : plan.emitted s = false) (h : lowerBody file plan b s = .ok () t) :
    ∃ u code inner run, Traced file b.declarations s code u inner ∧ run.plan = plan ∧ run.body = b ∧
      run.calls = inner.calls ∧ run.Sound file ∧ plan.added run.method s u = t ∧
      Trail.body file plan b s = inner.closed run := by
  obtain ⟨scope, statements, span⟩ := b
  obtain ⟨frame, code, u, hframe, hcode, rfl⟩ := (lowerBody_new hnew).mp h
  have hinner := ih hcode
  have hsound : BodyRun.Sound file ⟨plan, ⟨scope, statements, span⟩,
      plan.method frame u.body.nextSlot code,
      (Trail.stmts (plan.context file frame scope) statements (plan.opened frame s)).calls⟩ := by
    refine ⟨⟨frame, s, code, u, hframe, hcode, rfl, rfl⟩, Frame.start_named hframe, fun x hx => ?_⟩
    exact subset_finish _ _ (subset_closed _ _ _ (hinner.code x hx))
  refine ⟨u, code, _, _, hinner.of_file ⟨rfl, rfl, rfl⟩ ⟨rfl, rfl, rfl⟩, rfl, rfl, rfl,
    hsound, rfl, ?_⟩
  rw [Trail.body, if_neg (by simp [hnew]), after_ok (startFrame_ok.mpr ⟨hframe, rfl⟩),
    after_ok hcode]

/-- The method of a body is told from those of the functions inside, as these are apart from it, and
from older ones by the check before it. -/
theorem distinct_added {u : LowerState} {d : Declaration} {D : List Declaration} {inner : Trail}
    {run : BodyRun} {code : Code} (h : Traced file D s code u inner) (hrun : run.Sound file)
    (hserves : run.plan.Serves file d) (hnew : run.plan.emitted s = false)
    (hother : ∀ e ∈ D, d.Apart file e) (hu : u.Distinct) :
    (run.plan.added run.method s u).Distinct := by
  unfold LowerState.Distinct at hu ⊢
  rw [MethodPlan.added, List.map_append, List.map_cons, List.map_nil]
  refine hu.append (List.nodup_singleton _) fun key hkey hsame => ?_
  rw [List.mem_singleton] at hsame
  obtain ⟨m, hm, rfl⟩ := List.mem_map.mp hkey
  obtain ⟨hname, hdescriptor⟩ := Prod.mk.inj hsame
  rw [h.methods] at hm
  rcases List.mem_append.mp hm with hm | hm
  · have hemitted : run.plan.emitted s = true :=
      MethodPlan.emitted_iff.mpr ⟨m, hm, hname.trans hrun.isFor.1, hdescriptor.trans hrun.isFor.2⟩
    simp [hnew] at hemitted
  · obtain ⟨r, hr, rfl⟩ := List.mem_map.mp hm
    obtain ⟨e, he, sig, hsig, hg, hplan, -⟩ := h.declared r hr
    have hfor := hplan ▸ (h.sound r hr).isFor
    exact (hother e he).descriptor_ne hserves hsig hg
      (hrun.isFor.1.symm.trans (hname.symm.trans hfor.1))
      (hrun.isFor.2.symm.trans (hdescriptor.symm.trans hfor.2))

theorem Advances.added {u : LowerState} {d : Declaration} {D : List Declaration} {inner : Trail}
    {run : BodyRun} {code : Code} (h : Traced file D s code u inner) (hrun : run.Sound file)
    (hserves : run.plan.Serves file d) (hnew : run.plan.emitted s = false) :
    Advances file (d :: D) s (run.plan.added run.method s u) (inner.closed run) where
  methods := by
    show u.file.methods ++ [run.method] = s.file.methods ++ (inner.runs ++ [run]).map BodyRun.method
    rw [h.methods, List.map_append, List.append_assoc]
    rfl
  generics p hp := (h.generics p hp).imp_right fun ⟨e, he, hrest⟩ =>
    ⟨e, List.mem_cons_of_mem _ he, hrest⟩
  sound r hr := by
    rcases List.mem_append.mp hr with hr | hr
    · exact h.sound r hr
    · exact List.mem_singleton.mp hr ▸ hrun
  reached e he := ⟨List.mem_cons_of_mem _ (h.reached e he).1, (h.reached e he).2.mono rfl⟩
  distinct hD hs := by
    obtain ⟨hother, hinside⟩ := List.pairwise_cons.mp hD
    exact distinct_added h hrun hserves hnew hother (h.distinct hinside hs)

theorem Trail.body_emitted {plan : MethodPlan} {b : Block} (h : plan.emitted s = true) :
    Trail.body file plan b s = {} := by
  cases b
  rw [Trail.body, if_pos h]

/-- The body of a function that is not generic. -/
theorem body_traced {d : Declaration} {sig : Signature} (ih : StmtsTrace d.decl.body.body)
    (hsig : d.sig? file = some sig) (hg : sig.isGeneric = false)
    (h : lowerBody file (.declared d.name sig) d.decl.body s = .ok () t) :
    Traced file d.all s c t (Trail.body file (.declared d.name sig) d.decl.body s) ∧
      d.Settled file t := by
  cases hemitted : (MethodPlan.declared d.name sig).emitted s with
  | true =>
    obtain ⟨_, _, rfl⟩ := lowerBody_emitted hemitted h
    rw [Trail.body_emitted hemitted]
    exact ⟨.quiet rfl rfl rfl, sig, hsig, fun _ => MethodPlan.emitted_iff.mp hemitted⟩
  | false =>
    obtain ⟨u, code, inner, run, hinner, hplan, hbody, hcalls, hrun, rfl, htrail⟩ :=
      body_new ih hemitted h
    have hdeclared : run.Declared file d := ⟨sig, hsig, hg, hplan, hbody⟩
    rw [htrail]
    rw [← hplan] at hemitted ⊢
    refine ⟨⟨.added hinner hrun hdeclared.serves hemitted, ?_, fun r hr => ?_, nofun⟩, sig, hsig,
      fun _ => ?_⟩
    · obtain ⟨l, hl, ht⟩ := hinner.table
      exact ⟨l, hl.trans (Trail.requests_closed hcalls), ht⟩
    · rcases List.mem_append.mp hr with hr | hr
      · obtain ⟨e, he, hrest⟩ := hinner.declared r hr
        exact ⟨e, List.mem_cons_of_mem _ he, hrest⟩
      · exact ⟨d, List.mem_cons_self, List.mem_singleton.mp hr ▸ hdeclared⟩
    · exact ⟨run.method, List.mem_append_right _ (List.mem_singleton_self _), hplan ▸ hrun.isFor⟩

/-- A declaration is met; it waits if it is generic, and else becomes a method. -/
theorem function_traced {scope : ScopeId} {decl : FunctionDecl} (ih : StmtsTrace decl.body.body)
    (h : lowerFunction file scope decl s = .ok () t) :
    Traced file (Declaration.all ⟨scope, decl⟩) s c t (Trail.function file scope decl s) := by
  obtain ⟨sig, hlookup, h⟩ := lowerFunction_ok.mp h
  have hsig : Declaration.sig? file ⟨scope, decl⟩ = some sig := by
    simp only [Declaration.sig?, Declaration.name, hlookup]
  have hnamed : functionNamed file scope decl.name decl.span s = .ok sig s := by
    simp only [functionNamed, hlookup, pure_ok, and_self]
  have htrail : Trail.function file scope decl s = { reached := [⟨scope, decl⟩] } ++
      if sig.isGeneric then {} else Trail.body file (.declared decl.name sig) decl.body s := by
    cases decl
    rw [Trail.function, after_ok hnamed]
  have hmet {t : LowerState} (hsettled : Declaration.Settled file ⟨scope, decl⟩ t) :
      ∀ e ∈ [(⟨scope, decl⟩ : Declaration)], e ∈ Declaration.all ⟨scope, decl⟩ ∧
        e.Settled file t := by
    intro e he
    rw [List.mem_singleton.mp he]
    exact ⟨List.mem_cons_self, hsettled⟩
  rw [htrail]
  split_ifs at h ⊢ with hg
  · simp only [defer, bind_ok, Lower.log_ok, modify_ok] at h
    obtain ⟨_, _, rfl, rfl⟩ := h
    rw [Trail.append_nil]
    refine ⟨⟨by simp [LowerState.logged], fun p hp => ?_, nofun, hmet ⟨sig,
      hsig, by simp [hg]⟩, fun _ hs => hs⟩, ⟨[], .refl _, rfl⟩, nofun, nofun⟩
    rcases Dict.mem_insert hp with rfl | hp
    · exact .inr ⟨⟨scope, decl⟩, List.mem_cons_self, rfl, sig, hsig, hg⟩
    · exact .inl hp
  · obtain ⟨hbody, hsettled⟩ := body_traced (d := ⟨scope, decl⟩)
      (c := c) ih hsig (Bool.eq_false_iff.mpr hg) h
    refine ⟨⟨hbody.methods, hbody.generics, hbody.sound, fun e he => ?_, hbody.distinct⟩,
      hbody.table, hbody.declared, hbody.code⟩
    exact (List.mem_append.mp he).elim (hmet hsettled e) (hbody.reached e)

/-! ### Statements -/

theorem traces_quiet {st : Stmt}
    (htrail : ∀ {cx : BodyContext} {s : LowerState}, Trail.stmt cx st s = {})
    (h : ∀ {cx : BodyContext} {s t : LowerState} {c : Code}, lowerStmt cx st s = .ok c t →
      t.file.table = s.file.table ∧ t.file.methods = s.file.methods ∧ t.file.generics =
        s.file.generics) :
    StmtTraces st := by
  intro cx s t c hst
  obtain ⟨htable, hmethods, hgenerics⟩ := h hst
  rw [htrail]
  exact .quiet htable hmethods hgenerics

theorem traces_expr (value : Expr) : StmtTraces (.expr value) := by
  intro cx s t c h
  cases stmtRun_of_ok h with
  | expr hv =>
    rw [Trail.stmt]
    exact (Traced.expr hv (List.subset_append_left _ _)).widen (List.nil_sublist _)
  | nothing hn => cases hn

theorem traces_var (span : Span) (name : String) (init : Expr) :
    StmtTraces (.var span name init) := by
  intro cx s t c h
  cases stmtRun_of_ok h with
  | var ht hvoid hv hvv =>
    rw [Trail.stmt]
    refine Traced.widen ?_ (List.nil_sublist _)
    refine (Traced.expr hv fun i hi => ?_).of_file ⟨rfl, rfl, rfl⟩ ⟨rfl, rfl, rfl⟩
    simp [hi]
  | nothing hn => cases hn

theorem traces_ret (span : Span) (value : Expr) : StmtTraces (.ret span value) := by
  intro cx s t c h
  cases stmtRun_of_ok h with
  | leave hret he =>
    cases value <;> cases he
    rw [Trail.stmt]
    exact .quiet rfl rfl rfl
  | discard hret he hv =>
    rw [Trail.stmt]
    exact (Traced.expr hv fun i hi => by simp [Lowered.dropped, hi]).widen (List.nil_sublist _)
  | ret hret he hv hvv =>
    rw [Trail.stmt]
    exact (Traced.expr hv fun i hi => by simp [hi]).widen (List.nil_sublist _)
  | nothing hn => cases hn

theorem traces_function {decl : FunctionDecl} (ih : StmtsTrace decl.body.body) :
    StmtTraces (.function decl) := by
  intro cx s t c h
  cases stmtRun_of_ok h with
  | function h =>
    rw [Stmt.declarations_function, Trail.stmt]
    exact function_traced ih h
  | nothing hn => cases hn

/-- Labels leave no trail. -/
theorem Traced.unskip {D : List Declaration} {tr : Trail} {n : Nat}
    (h : Traced file D (s.skip n) c t tr) : Traced file D s c t tr :=
  h.of_file ⟨rfl, rfl, rfl⟩ ⟨rfl, rfl, rfl⟩

theorem traced_test {e : Expr} {v : Lowered} {n : Nat} (h : lowerExpr cx e (s.skip n) = .ok v t) :
    Traced cx.file [] s v.code t (Trail.ofExpr cx e s) :=
  (Traced.expr h (List.Subset.refl _)).unskip

theorem traces_ifThen {span : Span} {test : Expr} {body : Block} (ih : BlockTraces body) :
    StmtTraces (.ifElse span test body none) := by
  intro cx s t c h
  cases stmtRun_of_ok h with
  | ifThen hv hvv hb =>
    rw [Stmt.declarations, Trail.stmt, after_ok hv]
    exact (traced_test hv).andThen (ih hb) (fun i hi => by simp [hi]) (fun i hi => by simp [hi])
  | nothing hn => cases hn

theorem subset_thenGoto (b : Code) (l : Label) : b ⊆ thenGoto b l := (prefix_thenGoto b l).subset

theorem traces_ifElse {span : Span} {test : Expr} {body : Block} {branch : Stmt}
    (ih : BlockTraces body) (ihb : StmtTraces branch) :
    StmtTraces (.ifElse span test body (some branch)) := by
  intro cx s t c h
  cases stmtRun_of_ok h with
  | ifElse hv hvv hb he =>
    rw [Stmt.declarations, Trail.stmt, after_ok hv, after_ok hb]
    have hbranches := (ih hb).andThen (ihb he).unskip (List.subset_append_left _ _)
      (List.subset_append_right _ _)
    refine (traced_test hv).andThen hbranches (fun i hi => by simp [hi]) (fun i hi => ?_)
    rcases List.mem_append.mp hi with hi | hi
    · simp [subset_thenGoto _ _ hi]
    · simp [hi]
  | nothing hn => cases hn

theorem traces_whileLoop {span : Span} {test : Expr} {body : Block} (ih : BlockTraces body) :
    StmtTraces (.whileLoop span test body) := by
  intro cx s t c h
  cases stmtRun_of_ok h with
  | whileLoop hv hvv hb =>
    rw [Stmt.declarations, Trail.stmt, after_ok hv]
    exact (traced_test hv).andThen (ih hb) (fun i hi => by simp [hi]) (fun i hi => by simp [hi])
  | nothing hn => cases hn

theorem traces_forEach {span : Span} {binding : String} {iterable : Expr} {body : Block}
    (ih : BlockTraces body) : StmtTraces (.forEach span binding iterable body) := by
  intro cx s t c h
  simp only [lowerStmt, bind_ok, pure_ok, Lower.newLabel_ok] at h
  obtain ⟨⟨setup, iterator, element⟩, _, hopen, _, _, ⟨rfl, rfl⟩, _, _, ⟨rfl, rfl⟩, b, _, hb,
      rfl, rfl⟩ := h
  rw [Stmt.declarations, Trail.stmt, after_ok hopen]
  obtain ⟨source, s₁, code, type, hv, hit, htype, rfl, rfl, rfl, rfl⟩ := openLoop_ok hopen
  have hsource := (Traced.expr hv (List.Subset.refl _)).of_file ⟨rfl, rfl, rfl⟩
    (t := ((s₁.withSlot .reference).withLocal body.scope binding type).skip 2) ⟨rfl, rfl, rfl⟩
  rw [LowerState.skip_skip] at hb
  exact hsource.andThen (ih hb) (fun i hi => by simp [hi]) (fun i hi => by simp [hi])

theorem traces_matchType {span : Span} {subject : Expr} {branches : List Arm}
    (ih : ArmsTrace branches) : StmtTraces (.matchType span subject branches) := by
  intro cx s t c h
  rw [lowerStmt, bind_ok] at h
  obtain ⟨⟨setup, slot⟩, s₂, hopen, h⟩ := h
  simp only [bind_ok, pure_ok, Lower.newLabel_ok] at h
  obtain ⟨_, _, ⟨rfl, rfl⟩, a, _, ha, rfl, rfl⟩ := h
  rw [Stmt.declarations, Trail.stmt, after_ok hopen]
  obtain ⟨v, s₁, hv, hvv, rfl, rfl, rfl⟩ := openMatch_ok hopen
  have hsubject := (Traced.expr hv (List.Subset.refl _)).of_file ⟨rfl, rfl, rfl⟩
    (t := (s₁.withSlot .reference).skip 1) ⟨rfl, rfl, rfl⟩
  exact hsubject.andThen (ih ha) (fun i hi => by simp [hi]) (fun i hi => by simp [hi])

theorem armsTrace_nil : ArmsTrace [] := by
  intro cx subject done s t c h
  obtain ⟨-, rfl⟩ := pure_ok.mp h
  exact .quiet rfl rfl rfl

theorem bindSubject_file {subject : Nat} {pattern : Ty} {scope : ScopeId} {binding : String}
    (h : bindSubject subject pattern scope binding s = .ok c t) : t.file = s.file := by
  have hbound := bindSubject_ok.mp h
  split_ifs at hbound
  · rw [hbound.2]
  · rw [← hbound.2]
    rfl

theorem armsTrace_cons {arm : Arm} {rest : List Arm} (ih : BlockTraces arm.body)
    (ihr : ArmsTrace rest) : ArmsTrace (arm :: rest) := by
  intro cx subject done s t c h
  obtain ⟨pattern, bound, s₁, b, s₂, a, hp, hbound, hb, ha, rfl⟩ := lowerArms_cons h
  obtain ⟨declared, binding, body, span⟩ := arm
  have hpattern : cx.resolveType declared span (s.skip 1) = .ok pattern (s.skip 1) :=
    BodyContext.resolveType_ok.mpr ⟨hp, rfl⟩
  rw [declarationsOfArms, Trail.arms, after_ok hpattern, after_ok hbound, after_ok hb]
  have hfile := bindSubject_file hbound
  have hbody : Traced cx.file body.declarations s b s₂ (Trail.block cx body s₁) :=
    (ih hb).of_file ⟨by rw [hfile]; rfl, by rw [hfile]; rfl, by rw [hfile]; rfl⟩ ⟨rfl, rfl, rfl⟩
  refine hbody.andThen (ihr ha) (fun i hi => ?_) (fun i hi => by simp [hi])
  simp [subset_thenGoto _ _ hi]

theorem stmtsTrace_nil : StmtsTrace [] := by
  intro cx s t c h
  obtain ⟨-, rfl⟩ := lowerStmts_nil.mp h
  exact .quiet rfl rfl rfl

theorem stmtsTrace_cons {first : Stmt} {rest : List Stmt} (ih : StmtTraces first)
    (ihr : StmtsTrace rest) : StmtsTrace (first :: rest) := by
  intro cx s t c h
  obtain ⟨c₁, s₁, c₂, h₁, h₂, rfl⟩ := lowerStmts_cons.mp h
  rw [declarationsOf, Trail.stmts, after_ok h₁]
  have hfirst : Traced cx.file _ s c₁ s₁ _ := (ih h₁).of_file ⟨rfl, rfl, rfl⟩ ⟨rfl, rfl, rfl⟩
  exact hfirst.andThen (ihr h₂) (List.subset_append_left _ _) (List.subset_append_right _ _)

theorem blockTraces_of_stmts {scope : ScopeId} {body : List Stmt} {span : Span}
    (ih : StmtsTrace body) : BlockTraces ⟨scope, body, span⟩ := by
  intro cx s t c h
  rw [lowerBlock] at h
  rw [Block.declarations, Trail.block]
  exact ih h

mutual

theorem stmtTraces : ∀ st : Stmt, StmtTraces st
  | .expr value => traces_expr value
  | .var span name init => traces_var span name init
  | .function decl => traces_function (functionTraces decl)
  | .struct span name => traces_quiet rfl fun h => by
    simp only [lowerStmt, bind_ok, pure_ok] at h
    obtain ⟨_, _, hstruct, -, rfl⟩ := h
    obtain rfl | ⟨_, _, _, -, -, rfl⟩ := lowerStruct_ok hstruct <;> exact ⟨rfl, rfl, rfl⟩
  | .ret span value => traces_ret span value
  | .ifElse _ _ b none => traces_ifThen (blockTraces b)
  | .ifElse _ _ b (some branch) => traces_ifElse (blockTraces b) (stmtTraces branch)
  | .whileLoop _ _ b => traces_whileLoop (blockTraces b)
  | .forEach _ _ _ b => traces_forEach (blockTraces b)
  | .matchType _ _ branches => traces_matchType (armsTrace branches)
  | .block b => fun h => by
    rw [lowerStmt] at h
    rw [Stmt.declarations, Trail.stmt]
    exact blockTraces b h
  | .exported inner => fun h => by
    rw [lowerStmt] at h
    rw [Stmt.declarations, Trail.stmt_exported]
    exact stmtTraces inner h
  | .use _ _ | .typeAlias _ _ | .unionType _ _ => traces_quiet rfl fun h => by
    rw [lowerStmt, pure_ok] at h
    obtain ⟨-, rfl⟩ := h
    exact ⟨rfl, rfl, rfl⟩
  | .enum _ _ | .parameter _ _ => fun h => by simp only [lowerStmt, throw_ok] at h

theorem blockTraces : ∀ b : Block, BlockTraces b
  | ⟨_, statements, _⟩ => blockTraces_of_stmts (stmtsTrace statements)

theorem functionTraces : ∀ decl : FunctionDecl, StmtsTrace decl.body.body
  | ⟨_, ⟨_, statements, _⟩, _⟩ => stmtsTrace statements

theorem stmtsTrace : ∀ statements : List Stmt, StmtsTrace statements
  | [] => stmtsTrace_nil
  | first :: rest => stmtsTrace_cons (stmtTraces first) (stmtsTrace rest)

theorem armsTrace : ∀ branches : List Arm, ArmsTrace branches
  | [] => armsTrace_nil
  | ⟨_, _, b, _⟩ :: rest => armsTrace_cons (blockTraces b) (armsTrace rest)

end

end ClassGen
