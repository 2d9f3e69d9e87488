import ClassGen.Lower.File
import ClassGen.Proofs.Lowering.Stmt

/-! What a successful compilation of a whole file consists of: its declarations one after the other,
then rounds of instantiations until none waits. -/

namespace ClassGen

open Run

variable {file : FileContext} {s t : LowerState}

namespace SourceFile

/-- What lowering leaves of the file, if it comes to an end in so many rounds. -/
def lowered? (rounds : Nat) (f : SourceFile) (options : Options) : Option FileState :=
  match lowerFile rounds (FileContext.ofSource f options) options.emitInstance f.body {} with
  | .ok true s => some s.file
  | _ => none

/-- The units of the file, if it compiles in so many rounds. -/
def compiled? (rounds : Nat) (f : SourceFile) (options : Options) : Option CompiledFile :=
  (f.lowered? rounds options).map (·.compiled (FileContext.ofSource f options) options.emitInstance)

theorem lowered?_eq_some {rounds : Nat} {f : SourceFile} {options : Options} {final : FileState} :
    f.lowered? rounds options = some final ↔
      ∃ s, lowerFile rounds (FileContext.ofSource f options) options.emitInstance f.body {} =
        .ok true s ∧
        s.file = final := by
  unfold lowered?
  cases lowerFile rounds (FileContext.ofSource f options) options.emitInstance f.body {} with
  | error e s => simp
  | ok complete s => cases complete <;> simp

theorem compiled?_eq_some {rounds : Nat} {f : SourceFile} {options : Options} {c : CompiledFile} :
    f.compiled? rounds options = some c ↔ ∃ trace, f.compileWithin rounds options =
      some ⟨.ok c, trace⟩ := by
  cases h : lowerFile rounds (FileContext.ofSource f options) options.emitInstance f.body {} with
  | error e s => simp [compiled?, lowered?, compileWithin, h]
  | ok complete s => cases complete <;> simp [compiled?, lowered?, compileWithin, h]

end SourceFile

/-! ### Declarations -/

/-- What a statement at the top of a file does if it stands there rightly. -/
inductive TopRun (file : FileContext) (s : LowerState) : Stmt → LowerState → Prop
  | function {decl : FunctionDecl} {t : LowerState}
      (h : lowerFunction file ScopeTree.root decl s = .ok () t) :
    TopRun file s (.function decl) t
  | struct {span : Span} {name : String} {t : LowerState}
      (h : lowerStruct file ScopeTree.root name span s = .ok () t) :
    TopRun file s (.struct span name) t
  | exported {inner : Stmt} {t : LowerState} (h : TopRun file s inner t) :
      TopRun file s (.exported inner) t
  | use (span : Span) (path : String) : TopRun file s (.use span path) s
  | typeAlias (span : Span) (name : String) : TopRun file s (.typeAlias span name) s
  | unionType (span : Span) (name : String) : TopRun file s (.unionType span name) s

theorem topRun_of_ok : ∀ {st : Stmt}, lowerTop file st s = .ok () t → TopRun file s st t
  | .function _, h => .function h
  | .struct _ _, h => .struct h
  | .exported inner, h => .exported (@topRun_of_ok inner h)
  | .use _ _, h => (pure_ok.mp h).2 ▸ .use _ _
  | .typeAlias _ _, h => (pure_ok.mp h).2 ▸ .typeAlias _ _
  | .unionType _ _, h => (pure_ok.mp h).2 ▸ .unionType _ _
  | .expr _, h | .var _ _ _, h | .ret _ _, h | .ifElse _ _ _ _, h
  | .whileLoop _ _ _, h | .forEach _ _ _ _, h
  | .matchType _ _ _, h | .block _, h | .enum _ _, h | .parameter _ _, h => (throw_ok.mp h).elim

/-! ### Instantiations -/

theorem instantiated_ok {name : String} {sig : Signature} {map : Bindings} {plan : MethodPlan} :
    MethodPlan.instantiated name sig map = .ok plan ↔
      ∃ params ret, sig.instantiate map = .ok (params, ret) ∧
        ⟨mangle name, methodDescriptor params ret, map, List.zip (sig.params.map Prod.fst) params,
          ret⟩ = plan := by
  unfold MethodPlan.instantiated
  cases sig.instantiate map with
  | error e => simp [bind, Except.bind]
  | ok found =>
    simp only [bind, Except.bind, pure, Except.pure, Except.ok.injEq]
    constructor
    · rintro rfl
      exact ⟨_, _, rfl, rfl⟩
    · rintro ⟨_, _, rfl, rfl⟩
      rfl

theorem lowerInstance_ok {decl : FunctionDecl} {sig : Signature} {map : Bindings} :
    lowerInstance file decl sig map s = .ok () t ↔
      ∃ plan, MethodPlan.instantiated decl.name sig map = .ok plan ∧
        lowerBody file plan decl.body s = .ok () t := by
  unfold lowerInstance
  cases MethodPlan.instantiated decl.name sig map <;> simp [throw_ok]

/-- The state after the waiting instantiations of `name` were handed out. -/
def LowerState.handedOut (s : LowerState) (name : String) : LowerState :=
  { s with file.table := (s.file.table.takePending name).2 }

theorem lowerPending_ok {name : String} : lowerPending file name s = .ok () t ↔
    ∃ decl, s.file.generics.lookup name = some decl ∧
      match s.file.table.get? name with
      | none => s = t
      | some entry =>
        (s.file.table.takePending name).1.forM (lowerInstance file decl entry.sig)
          (s.handedOut name) = .ok () t := by
  simp only [lowerPending, bind_ok, get_ok]
  cases hdecl : s.file.generics.lookup name with
  | none =>
    constructor
    · rintro ⟨_, _, ⟨rfl, rfl⟩, h⟩
      simp only [hdecl, throw_ok] at h
    · rintro ⟨_, ⟨⟩, -⟩
  | some decl =>
    cases hentry : s.file.table.get? name with
    | none =>
      constructor
      · rintro ⟨_, _, ⟨rfl, rfl⟩, h⟩
        simp only [hdecl, hentry, pure_ok] at h
        exact ⟨decl, rfl, h.2⟩
      · rintro ⟨_, -, rfl⟩
        exact ⟨s, s, ⟨rfl, rfl⟩, by simp only [hdecl, hentry, pure_ok, and_self]⟩
    | some entry =>
      constructor
      · rintro ⟨_, _, ⟨rfl, rfl⟩, h⟩
        simp only [hdecl, hentry, bind_ok, set_ok] at h
        obtain ⟨_, _, rfl, h⟩ := h
        exact ⟨decl, rfl, h⟩
      · rintro ⟨_, ⟨⟩, h⟩
        refine ⟨s, s, ⟨rfl, rfl⟩, ?_⟩
        simp only [hdecl, hentry, bind_ok, set_ok]
        exact ⟨(), _, rfl, h⟩

/-! ### Runs -/

theorem drain_zero {complete : Bool} : drain file 0 s = .ok complete t ↔
    s.file.table.pendingFunctions.isEmpty = complete ∧ s = t := by
  simp only [drain, bind_ok, get_ok, pure_ok]
  constructor
  · rintro ⟨_, _, ⟨rfl, rfl⟩, h⟩
    exact h
  · exact fun h => ⟨s, s, ⟨rfl, rfl⟩, h⟩

/-- One more round, if there is anything left for it. -/
theorem drain_succ {rounds : Nat} {complete : Bool} : drain file (rounds + 1) s = .ok complete t ↔
    if s.file.table.pendingFunctions = [] then true = complete ∧ s = t
    else ∃ u, s.file.table.pendingFunctions.forM (lowerPending file) s = .ok () u ∧
      drain file rounds u = .ok complete t := by
  simp only [drain, bind_ok, get_ok]
  constructor
  · rintro ⟨_, _, ⟨rfl, rfl⟩, h⟩
    cases hnames : s.file.table.pendingFunctions with
    | nil => simpa only [hnames, pure_ok, if_true] using h
    | cons name names =>
      simp only [hnames] at h
      obtain ⟨_, u, hround, h⟩ := bind_ok.mp h
      exact ⟨u, hround, h⟩
  · intro h
    refine ⟨s, s, ⟨rfl, rfl⟩, ?_⟩
    cases hnames : s.file.table.pendingFunctions with
    | nil => simpa only [hnames, pure_ok, if_true] using h
    | cons name names =>
      simp only [hnames, reduceCtorEq, if_false] at h
      obtain ⟨u, hround, h⟩ := h
      exact bind_ok.mpr ⟨(), u, hround, h⟩

/-- Rounds that came to an end left nothing waiting. -/
theorem drain_pending {rounds : Nat} (h : drain file rounds s = .ok true t) :
    t.file.table.pendingFunctions = [] := by
  induction rounds generalizing s with
  | zero =>
    obtain ⟨hempty, rfl⟩ := drain_zero.mp h
    exact List.isEmpty_iff.mp hempty
  | succ rounds ih =>
    have hround := drain_succ.mp h
    split_ifs at hround with hnames
    · exact hround.2 ▸ hnames
    · obtain ⟨u, -, hrest⟩ := hround
      exact ih hrest

theorem lowerFile_ok {rounds : Nat} {emitInstance complete : Bool} {stmts : List Stmt} :
    lowerFile rounds file emitInstance stmts s = .ok complete t ↔
      ∃ s₁ s₂ s₃, file.scaffolding emitInstance s = .ok () s₁ ∧
        stmts.forM (lowerTop file) s₁ = .ok () s₂ ∧
        drain file rounds s₂ = .ok complete s₃ ∧
        s₃.logged (.finished file.unitName s₃.file.methods.length s₃.file.structs.length) = t := by
  simp only [lowerFile, bind_ok, get_ok, Lower.log_ok, pure_ok]
  constructor
  · rintro ⟨_, s₁, hscaffolding, _, s₂, htop, _, s₃, hdrain, _, _, ⟨rfl, rfl⟩, _, _, rfl, rfl, rfl⟩
    exact ⟨s₁, s₂, s₃, hscaffolding, htop, hdrain, rfl⟩
  · rintro ⟨s₁, s₂, s₃, hscaffolding, htop, hdrain, rfl⟩
    exact ⟨(), s₁, hscaffolding, (), s₂, htop, complete, s₃, hdrain, s₃, s₃, ⟨rfl, rfl⟩, (), _,
      rfl, rfl, rfl⟩

end ClassGen
