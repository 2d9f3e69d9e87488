import ClassGen.Proofs.Order.Instantiations

/-! Whole files in which the order of the declarations does not matter. -/

namespace ClassGen

open Run
open Faithful (after after_ok)

/-! ### Enough rounds -/

variable {file : FileContext} {s t : LowerState} {rounds : Nat}

/-- Rounds that nothing is left for do nothing. -/
theorem drain_done (file : FileContext) (h : s.file.table.pendingFunctions = []) (rounds : Nat) :
    drain file rounds s = .ok true s ∧ Trail.drained file rounds s = {} := by
  cases rounds with
  | zero => exact ⟨drain_zero.mpr ⟨List.isEmpty_iff.mpr h, rfl⟩, rfl⟩
  | succ rounds =>
    refine ⟨drain_succ.mpr ?_, ?_⟩
    · rw [if_pos h]
      exact ⟨rfl, rfl⟩
    · rw [Trail.drained, h]

theorem drain_more (h : drain file rounds s = .ok true t) (more : Nat) :
    drain file (rounds + more) s = .ok true t ∧ Trail.drained file (rounds + more) s =
      Trail.drained file rounds s := by
  induction rounds generalizing s with
  | zero =>
    obtain ⟨hempty, rfl⟩ := drain_zero.mp h
    exact drain_done file (List.isEmpty_iff.mp hempty) (0 + more)
  | succ rounds ih =>
    have hround := drain_succ.mp h
    by_cases hpending : s.file.table.pendingFunctions = []
    · rw [if_pos hpending] at hround
      obtain ⟨-, rfl⟩ := hround
      have hdone := drain_done file hpending (rounds + 1 + more)
      exact ⟨hdone.1, hdone.2.trans (drain_done file hpending (rounds + 1)).2.symm⟩
    · rw [if_neg hpending] at hround
      obtain ⟨u, hu, hrest⟩ := hround
      obtain ⟨hdrain, htrail⟩ := ih hrest
      rw [Nat.add_right_comm]
      refine ⟨drain_succ.mpr ?_, ?_⟩
      · rw [if_neg hpending]
        exact ⟨u, hu, hdrain⟩
      · rw [Trail.drained, Trail.drained]
        split
        · rfl
        · rw [after_ok hu, after_ok hu, htrail]

theorem lowerFile_more {emitInstance : Bool} {stmts : List Stmt}
    (h : lowerFile rounds file emitInstance stmts {} = .ok true t) (more : Nat) :
    lowerFile (rounds + more) file emitInstance stmts {} = .ok true t ∧
      Trail.file (rounds + more) file emitInstance stmts =
        Trail.file rounds file emitInstance stmts := by
  obtain ⟨s₁, s₂, s₃, hscaffolding, htop, hdrain, hlogged⟩ := lowerFile_ok.mp h
  obtain ⟨hmore, htrail⟩ := drain_more hdrain more
  refine ⟨lowerFile_ok.mpr ⟨s₁, s₂, s₃, hscaffolding, htop, hmore, hlogged⟩, ?_⟩
  simp only [Trail.file, after_ok hscaffolding, after_ok htop, htrail]

namespace SourceFile

variable {f : SourceFile} {options : Options} {tr tr' : Trail} {final final' : FileState}
  {c : CompiledFile}

/-- With enough rounds of instantiation the file is lowered to its end. -/
def Finishes (f : SourceFile) (options : Options) (tr : Trail) (final : FileState) : Prop :=
  ∃ rounds s, lowerFile rounds (FileContext.ofSource f options) options.emitInstance f.body {} =
    .ok true s ∧
    s.file = final ∧ Trail.file rounds (FileContext.ofSource f options)
      options.emitInstance f.body = tr

/-- With enough rounds of instantiation the file compiles. -/
def Compiles (f : SourceFile) (options : Options) (c : CompiledFile) : Prop :=
  ∃ rounds trace, f.compileWithin rounds options = some ⟨.ok c, trace⟩

theorem Finishes.unique (h : f.Finishes options tr final) (h' : f.Finishes options tr' final') :
    tr = tr' ∧ final = final' := by
  obtain ⟨rounds, s, hrun, rfl, rfl⟩ := h
  obtain ⟨rounds', s', hrun', rfl, rfl⟩ := h'
  obtain ⟨hmore, htrail⟩ := lowerFile_more hrun rounds'
  obtain ⟨hmore', htrail'⟩ := lowerFile_more hrun' rounds
  rw [Nat.add_comm] at hmore' htrail'
  obtain ⟨-, rfl⟩ := EStateM.Result.ok.inj (hmore.symm.trans hmore')
  exact ⟨htrail.symm.trans htrail', rfl⟩

theorem finishes_of_lowered? (h : f.lowered? rounds options = some final) :
    f.Finishes options (f.trail rounds options) final := by
  obtain ⟨s, hrun, rfl⟩ := lowered?_eq_some.mp h
  exact ⟨rounds, s, hrun, rfl, rfl⟩

theorem compiles_iff : f.Compiles options c ↔
    ∃ tr final, f.Finishes options tr final ∧
      final.compiled (FileContext.ofSource f options) options.emitInstance = c := by
  constructor
  · rintro ⟨rounds, trace, h⟩
    unfold compileWithin at h
    cases hrun : lowerFile rounds (FileContext.ofSource f options) options.emitInstance
        f.body {} with
    | error e s => simp [hrun] at h
    | ok complete s =>
      cases complete with
      | false => simp [hrun] at h
      | true =>
        simp only [hrun, Option.some.injEq, Outcome.mk.injEq, Except.ok.injEq] at h
        exact ⟨_, s.file, ⟨rounds, s, hrun, rfl, rfl⟩, h.1⟩
  · rintro ⟨_, _, ⟨rounds, s, hrun, rfl, rfl⟩, rfl⟩
    exact ⟨rounds, if options.trace then s.file.log.reverse else [], by simp [compileWithin, hrun]⟩

/-! ### Orders of declarations -/

/-- Functions have names of their own, and structs qualified names. Nothing is declared inside of a
function. If the file can be lowered to its end, the generic functions called by one name have one
signature there, and the maps recorded for a function give different descriptors. -/
structure Orderly (f : SourceFile) (options : Options) : Prop where
  names : (f.declarations.map Declaration.name).Nodup
  structs : ((f.body.filterMap (Stmt.struct? (FileContext.ofSource f options))).map
    StructDef.qualifiedName).Nodup
  flat : ∀ d ∈ f.declarations, d.decl.body.isFlat = true
  signatures : ∀ {tr final}, f.Finishes options tr final →
    ∀ a ∈ tr.requests, ∀ b ∈ tr.requests, a.sig.name = b.sig.name → a.sig = b.sig
  descriptors : ∀ {tr final}, f.Finishes options tr final →
    ∀ d ∈ f.declarations, ((final.table.recorded d.name).map Instance.descriptor?).Nodup

/-- A file that is lowered to its end in so many rounds can be looked at there. -/
theorem Orderly.of_lowered? (rounds : Nat) (hend : (f.lowered? rounds options).isSome = true)
    (hnames : (f.declarations.map Declaration.name).Nodup)
    (hstructs : ((f.body.filterMap (Stmt.struct? (FileContext.ofSource f options))).map
      StructDef.qualifiedName).Nodup)
    (hflat : ∀ d ∈ f.declarations, d.decl.body.isFlat = true)
    (hsignatures : ∀ a ∈ (f.trail rounds options).requests, ∀ b ∈ (f.trail rounds options).requests,
      a.sig.name = b.sig.name → a.sig = b.sig)
    (hdescriptors : ∀ final ∈ f.lowered? rounds options, ∀ d ∈ f.declarations,
      ((final.table.recorded d.name).map Instance.descriptor?).Nodup) : f.Orderly options := by
  obtain ⟨final, hfinal⟩ := Option.isSome_iff_exists.mp hend
  have hfinishes := finishes_of_lowered? hfinal
  refine ⟨hnames, hstructs, hflat, fun h => ?_, fun h => ?_⟩
  · rw [(h.unique hfinishes).1]
    exact hsignatures
  · rw [(h.unique hfinishes).2]
    exact hdescriptors final hfinal

theorem Finishes.nodup_methods (h : f.Finishes options tr final)
    (hnames : (f.declarations.map Declaration.name).Nodup) : final.methods.Nodup := by
  obtain ⟨rounds, s, hrun, rfl, rfl⟩ := h
  obtain ⟨base, -, ⟨done, hstanding⟩, -⟩ := lowerFile_between hrun
  exact (hstanding.advances.distinct (pairwise_apart hnames) hstanding.scaffolding.distinct).of_map

/-- The first order of a file that was lowered to its end: what it leaves is a solution. -/
theorem Finishes.solution (h : f.Finishes options tr final) (hf : f.Orderly options) :
    ∃ base s done, (FileContext.ofSource f options).scaffolding options.emitInstance {} =
      .ok () base ∧
      f.body.forM (lowerTop (FileContext.ofSource f options)) base = .ok () s ∧
      Declared (FileContext.ofSource f options) f.body base s
        (Trail.each (Trail.top (FileContext.ofSource f options))
          (lowerTop (FileContext.ofSource f options)) f.body base) ∧
      Solution (FileContext.ofSource f options) f.declarations tr.runs done ∧
      final.methods = base.file.methods ++ tr.runs.map BodyRun.method := by
  have hsignatures := hf.signatures h
  have hdescriptors := hf.descriptors h
  obtain ⟨rounds, t, hrun, rfl, rfl⟩ := h
  obtain ⟨base, hscaffolding, ⟨done, hstanding⟩, hpending⟩ := lowerFile_between hrun
  obtain ⟨base', s, u, hscaffolding', htop, -, -⟩ := lowerFile_ok.mp hrun
  obtain ⟨-, rfl⟩ := EStateM.Result.ok.inj (hscaffolding.symm.trans hscaffolding')
  have hdeclared := declared_of_ok htop hf.flat hf.names
    (by rw [hstanding.scaffolding.structs]; exact hf.structs)
  refine ⟨base, s, done, hscaffolding, htop, hdeclared, ?_, hstanding.advances.methods⟩
  refine hstanding.solution (hpending rfl) hf.names hf.flat (List.Subset.trans hdeclared.reached ?_)
    hsignatures hdescriptors
  rw [Trail.file, after_ok hscaffolding, Trail.append_reached]
  exact List.subset_append_left _ _

theorem declarations_perm {body : List Stmt} (h : f.body.Perm body) :
    f.declarations.Perm (declarations { f with body := body }) := by
  rw [declarations, declarations, declarationsOf_eq, declarationsOf_eq]
  exact h.flatMap_right _

/-- A file that was lowered to its end is so in any order of its declarations. -/
theorem Finishes.reorder {body : List Stmt} (h : f.Finishes options tr final)
    (hf : f.Orderly options) (hperm : f.body.Perm body) :
    ∃ tr' final', Finishes { f with body := body } options tr' final' ∧
      final'.methods ⊆ final.methods ∧
      final'.structs = body.filterMap (Stmt.structUnit? (FileContext.ofSource f options)) := by
  obtain ⟨base, s, done, hscaffolding, htop, hdeclared, hsol, hmethods⟩ := h.solution hf
  have hsol := hsol.perm (declarations_perm hperm)
  have hbase := scaffolding_isScaffolding hscaffolding
  -- Every declaration of the new order was lowered in the old one.
  have hstep : ∀ st ∈ body, ∀ s, True → ∃ t, lowerTop (FileContext.ofSource f options) st s =
      .ok () t ∧ True := by
    intro st hst s _
    have hmem := hperm.mem_iff.mpr hst
    obtain ⟨s₀, t₀, h₀⟩ := exists_of_forM htop st hmem
    refine Exists.imp (fun _ ht => ⟨ht, trivial⟩)
      (top_total (topRun_of_ok h₀) ?_ (hdeclared.units st hmem) s)
    intro d hd sig hsig hconcrete s
    have hd := (declarations_sublist hst).subset hd
    obtain ⟨r, hr, hplan, hbody⟩ := hsol.declared d hd sig hsig hconcrete
    rw [← hplan, ← hbody]
    exact (hsol.made r hr).lowerBody (hbody ▸ hsol.flat d hd) s
  obtain ⟨s', htop', -⟩ := forM_total hstep (s := base) trivial
  have hdeclared' := declared_of_ok htop' hsol.flat hsol.names (by
    rw [hbase.structs]
    exact ((hperm.filterMap _).map _).nodup_iff.mp hf.structs)
  have hwithin : Within (FileContext.ofSource f options) (declarations { f with body := body }) base
    done _ [] s' :=
    ⟨declarations_standing hbase htop', Trail.each_calls _ Trail.top_calls _ _, List.nil_subset _,
      hdeclared'.generics.added⟩
  have hrounds : done.length < ([] : List Instance).length + (done.length + 1) := by
    rw [List.length_nil]
    omega
  obtain ⟨t', hdrain', hstructs, tr', done', hend⟩ :=
    hwithin.drain_total hsol (isClosed_stmts _ body) hrounds
  refine ⟨_, _, ⟨done.length + 1, _, lowerFile_ok.mpr ⟨base, s', t', hscaffolding, htop', hdrain',
    rfl⟩, rfl, rfl⟩, ?_, ?_⟩
  · rw [hmethods]
    show t'.file.methods ⊆ _
    rw [hend.advances.methods]
    exact List.append_subset.mpr ⟨List.subset_append_left _ _,
      List.subset_append_of_subset_right _ (List.map_subset _ (hend.runs_subset hsol))⟩
  · show t'.file.structs = _
    rw [hstructs, hdeclared'.structs, hbase.structs, List.nil_append]

end SourceFile

variable {f : SourceFile} {options : Options} {body : List Stmt}

/-- The order of the declarations does not matter. If a file compiles it does so in every order, and
the methods of its unit and the units of its structs are the same but for their order. -/
theorem compile_any_order (hperm : f.body.Perm body) (hf : f.Orderly options)
    (hg : SourceFile.Orderly { f with body := body } options) :
    ((∃ c, f.Compiles options c) ↔ ∃ c, SourceFile.Compiles { f with body := body } options c) ∧
      ∀ c c', f.Compiles options c → SourceFile.Compiles { f with body := body } options c' →
        c'.fileUnit.methods.Perm c.fileUnit.methods ∧ c'.structUnits.Perm c.structUnits := by
  simp only [SourceFile.compiles_iff]
  constructor
  · constructor
    · rintro ⟨_, tr, final, h, -⟩
      obtain ⟨tr', final', h', -⟩ := h.reorder hf hperm
      exact ⟨_, tr', final', h', rfl⟩
    · rintro ⟨_, tr, final, h, -⟩
      obtain ⟨tr', final', h', -⟩ := h.reorder hg hperm.symm
      exact ⟨_, tr', final', h', rfl⟩
  · rintro _ _ ⟨tr, final, h, rfl⟩ ⟨tr', final', h', rfl⟩
    obtain ⟨_, _, h'', hmethods, hstructs⟩ := h.reorder hf hperm
    obtain ⟨-, rfl⟩ := h'.unique h''
    obtain ⟨_, _, h'', hmethods', hstructs'⟩ := h'.reorder hg hperm.symm
    obtain ⟨-, rfl⟩ := h.unique h''
    constructor
    · have hnodup' := h'.nodup_methods hg.names
      exact (List.perm_ext_iff_of_nodup hnodup' (h.nodup_methods hf.names)).mpr fun m =>
        ⟨fun hm => hmethods hm, fun hm => hmethods' hm⟩
    · show final'.structs.Perm final.structs
      rw [hstructs, hstructs']
      exact hperm.symm.filterMap _

/-- Two generic functions, one of which calls the other, their callers, and two structs. -/
def relaySource : SourceFile :=
  let name (t : Ty) (x : String) : Expr := .ident ⟨t, {}⟩ x
  let call (t : Ty) (f : String) (arg : Expr) : Expr := .call ⟨t, {}⟩ (name .void f) [arg]
  let item : Ty := .generic "T"
  let sig (f : String) (params : List (String × Ty)) (t : Ty) : String × Ty :=
    (f, .function ⟨f, params, t, .user none⟩)
  let function (f : String) (scope : ScopeId) (value : Expr) : Stmt :=
    .function ⟨f, ⟨scope, [.ret {} value], {}⟩, {}⟩
  let struct (x : String) (t : Ty) : String × Ty :=
    (x, .struct ⟨x, "demo/relay$" ++ x, [("value", t)]⟩ [])
  { path := "demo/relay.ix"
    scopes := ⟨#[
      { parent := none
        vars := [sig "pass" [("x", item)] item, sig "relay" [("x", item)] item,
          sig "number" [] .int, sig "text" [] .string, struct "Number" .int,
          struct "Text" .string] },
      { parent := some 0, vars := [("x", item)] }, { parent := some 0, vars := [("x", item)] },
      { parent := some 0 }, { parent := some 0 }]⟩
    body := [.struct {} "Number", function "pass" 1 (name item "x"),
      function "relay" 2 (call item "pass" (name item "x")),
      function "number" 3 (call .int "relay" (.literal ⟨.int, {}⟩ (.int 1))),
      function "text" 4 (call .string "pass" (.literal ⟨.string, {}⟩ (.text "a"))),
      .struct {} "Text"] }

/-- From the last declaration to the first, one round more is needed and the methods come in another
order. -/
theorem compile_any_order_relay :
    relaySource.Orderly {} ∧ SourceFile.Orderly
      { relaySource with body := relaySource.body.reverse } {} ∧
      ∃ c c', relaySource.Compiles {} c ∧
        SourceFile.Compiles { relaySource with body := relaySource.body.reverse } {} c' ∧
        c.fileUnit.methods.map Method.name = ["<init>", "<clinit>", "_number", "_text", "_relay",
          "_pass", "_pass"] ∧
        c'.fileUnit.methods.map Method.name = ["<init>", "<clinit>", "_text", "_number", "_pass",
          "_relay", "_pass"] ∧
        c'.fileUnit.methods.Perm c.fileUnit.methods ∧ c'.structUnits.Perm c.structUnits := by
  have hnames : (relaySource.compiled? roundLimit {}).map
      (fun c => c.fileUnit.methods.map Method.name) =
      some ["<init>", "<clinit>", "_number", "_text", "_relay", "_pass",
        "_pass"] := by decide +kernel
  have hnames' :
      (SourceFile.compiled? roundLimit { relaySource with body := relaySource.body.reverse } {}).map
      (fun c => c.fileUnit.methods.map Method.name) =
      some ["<init>", "<clinit>", "_text", "_number", "_pass", "_relay",
        "_pass"] := by decide +kernel
  have horderly : relaySource.Orderly {} := by
    apply SourceFile.Orderly.of_lowered? roundLimit <;> decide +kernel
  have horderly' : SourceFile.Orderly { relaySource with body := relaySource.body.reverse } {} := by
    apply SourceFile.Orderly.of_lowered? roundLimit <;> decide +kernel
  obtain ⟨c, hc, hmethods⟩ := Option.map_eq_some_iff.mp hnames
  obtain ⟨c', hc', hmethods'⟩ := Option.map_eq_some_iff.mp hnames'
  have hcompiles : relaySource.Compiles {} c := ⟨roundLimit, SourceFile.compiled?_eq_some.mp hc⟩
  have hcompiles' :
      SourceFile.Compiles { relaySource with body := relaySource.body.reverse } {} c' :=
    ⟨roundLimit, SourceFile.compiled?_eq_some.mp hc'⟩
  exact ⟨horderly, horderly', c, c', hcompiles, hcompiles', hmethods, hmethods',
    (compile_any_order (List.reverse_perm _).symm horderly horderly').2 c c' hcompiles hcompiles'⟩

end ClassGen
