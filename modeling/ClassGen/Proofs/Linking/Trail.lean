import ClassGen.Proofs.Lowering.Stmt
import ClassGen.Proofs.Linking.Calls

/-! The trail of a run of lowering: the bodies that became methods, in the order of their
completion, each with the calls of generic functions in it, and the function declarations that were
met. What lowering does to the methods, to the table of instantiations and to the generic functions
that wait can be read off its trail. -/

namespace ClassGen

open Run
open Faithful (after after_ok)

/-! ### Declarations -/

/-- A function and the scope it is declared in. -/
structure Declaration where
  scope : ScopeId
  decl : FunctionDecl

mutual

/-- The functions declared in a statement of `scope`, each before those declared inside it. -/
@[simp] def Stmt.declarations (scope : ScopeId) : Stmt → List Declaration
  | .function ⟨name, body, span⟩ => ⟨scope, ⟨name, body, span⟩⟩ :: body.declarations
  | .ifElse _ _ body none => body.declarations
  | .ifElse _ _ body (some branch) => body.declarations ++ branch.declarations scope
  | .whileLoop _ _ body | .forEach _ _ _ body | .block body => body.declarations
  | .matchType _ _ arms => declarationsOfArms arms
  | .exported inner => inner.declarations scope
  | _ => []

@[simp] def Block.declarations : Block → List Declaration
  | ⟨scope, body, _⟩ => declarationsOf scope body

@[simp] def declarationsOf (scope : ScopeId) : List Stmt → List Declaration
  | [] => []
  | first :: rest => first.declarations scope ++ declarationsOf scope rest

@[simp] def declarationsOfArms : List Arm → List Declaration
  | [] => []
  | ⟨_, _, body, _⟩ :: rest => body.declarations ++ declarationsOfArms rest

end

namespace Declaration

def name (d : Declaration) : String := d.decl.name

/-- The signature that its scope gives to the function. -/
def sig? (file : FileContext) (d : Declaration) : Option Signature :=
  match file.scopes.lookup d.scope d.name with
  | some (.function sig) => some sig
  | _ => none

/-- The declaration and those inside it. -/
def all (d : Declaration) : List Declaration := d :: d.decl.body.declarations

end Declaration

theorem Stmt.declarations_function (scope : ScopeId) (decl : FunctionDecl) :
    (Stmt.function decl).declarations scope = Declaration.all ⟨scope, decl⟩ := by
  cases decl
  rw [Stmt.declarations]
  rfl

/-! ### Trails -/

/-- A body that became a method. -/
structure BodyRun where
  plan : MethodPlan
  body : Block
  method : Method
  /-- In the body itself, functions inside it apart. -/
  calls : List GenericCall

structure Trail where
  /-- In the body that is being lowered. -/
  calls : List GenericCall := []
  runs : List BodyRun := []
  /-- Declarations met, in their order. -/
  reached : List Declaration := []

namespace Trail

instance : Append Trail := ⟨fun a b =>
    ⟨a.calls ++ b.calls, a.runs ++ b.runs, a.reached ++ b.reached⟩⟩

@[simp] theorem append_calls (a b : Trail) : (a ++ b).calls = a.calls ++ b.calls := rfl

@[simp] theorem append_runs (a b : Trail) : (a ++ b).runs = a.runs ++ b.runs := rfl

@[simp] theorem append_reached (a b : Trail) : (a ++ b).reached = a.reached ++ b.reached := rfl

@[simp] theorem nil_append (a : Trail) : ({} : Trail) ++ a = a := rfl

@[simp] theorem append_nil (a : Trail) : a ++ ({} : Trail) = a := by
  show Trail.mk (a.calls ++ []) (a.runs ++ []) (a.reached ++ []) = a
  simp only [List.append_nil]

/-- All calls, of the body that is being lowered first. -/
def requests (tr : Trail) : List GenericCall := tr.calls ++ tr.runs.flatMap BodyRun.calls

/-- The trail of a body that became a method, with the one of its statements. -/
def closed (inner : Trail) (run : BodyRun) : Trail where
  runs := inner.runs ++ [run]
  reached := inner.reached

theorem requests_append (a b : Trail) : (a.requests ++ b.requests).Perm (a ++ b).requests := by
  simp only [requests, append_calls, append_runs, List.flatMap_append, List.append_assoc]
  exact (List.perm_append_comm_assoc _ _ _).append_left _

theorem requests_closed {inner : Trail} {run : BodyRun} (h : run.calls = inner.calls) :
    inner.requests.Perm (inner.closed run).requests := by
  simp only [requests, closed, List.nil_append, List.flatMap_append, List.flatMap_cons,
    List.flatMap_nil, List.append_nil, h]
  exact List.perm_append_comm

/-- The calls of an expression that is lowered in the state. -/
def ofExpr (cx : BodyContext) (e : Expr) (s : LowerState) : Trail where
  calls := cx.calls s.body.locals e

mutual

def stmt (cx : BodyContext) : Stmt → LowerState → Trail
  | .expr value, s | .var _ _ value, s | .ret _ value, s => ofExpr cx value s
  | .function decl, s => function cx.file cx.scope decl s
  | .ifElse _ test body none, s =>
    ofExpr cx test s ++ after (lowerExpr cx test) (s.skip 1) {} fun _ t => block cx body t
  | .ifElse _ test body (some branch), s =>
    ofExpr cx test s ++ after (lowerExpr cx test) (s.skip 1) {} fun _ t =>
      block cx body t ++ after (lowerBlock cx body) t {} fun _ t => stmt cx branch (t.skip 1)
  | .whileLoop _ test body, s =>
    ofExpr cx test s ++ after (lowerExpr cx test) (s.skip 2) {} fun _ t => block cx body t
  | .forEach span binding iterable body, s =>
    ofExpr cx iterable s ++ after (openLoop cx binding iterable body.scope span) s {} fun _ t =>
      block cx body (t.skip 2)
  | .matchType _ subject branches, s =>
    ofExpr cx subject s ++ after (openMatch cx subject) s {} fun opened t =>
      arms cx opened.2 branches (t.skip 1)
  | .block body, s => block cx body s
  | .exported inner, s => stmt cx inner s
  | _, _ => {}

def block (cx : BodyContext) : Block → LowerState → Trail
  | ⟨scope, body, _⟩, s => stmts { cx with scope := scope } body s

def stmts (cx : BodyContext) : List Stmt → LowerState → Trail
  | [], _ => {}
  | first :: rest, s =>
    stmt cx first (s.logged (.statement first.kind cx.frame.name)) ++
      after (lowerStmt cx first) (s.logged (.statement first.kind cx.frame.name)) {} fun _ t =>
        stmts cx rest t

def arms (cx : BodyContext) (subject : Nat) : List Arm → LowerState → Trail
  | [], _ => {}
  | ⟨pattern, binding, body, span⟩ :: rest, s =>
    after (cx.resolveType pattern span) (s.skip 1) {} fun pattern t =>
      after (bindSubject subject pattern body.scope binding) t {} fun _ t =>
        block cx body t ++ after (lowerBlock cx body) t {} fun _ t => arms cx subject rest t

def function (file : FileContext) (scope : ScopeId) : FunctionDecl → LowerState → Trail
  | ⟨name, definition, span⟩, s =>
    { reached := [⟨scope, ⟨name, definition, span⟩⟩] } ++
      after (functionNamed file scope name span) s {} fun sig s =>
        if sig.isGeneric then {} else body file (.declared name sig) definition s

/-- A method that is there already leaves no trail. -/
def body (file : FileContext) (plan : MethodPlan) : Block → LowerState → Trail
  | ⟨scope, statements, span⟩, s =>
    if plan.emitted s then {}
    else
      after (Lower.startFrame file .publicStatic plan.name plan.descriptor) s {} fun frame s =>
        let inner := stmts (plan.context file frame scope) statements (plan.opened frame s)
        after (lowerStmts (plan.context file frame scope) [] statements) (plan.opened frame s)
          {} fun code u =>
          inner.closed ⟨plan, ⟨scope, statements, span⟩, plan.method frame u.body.nextSlot code,
            inner.calls⟩

end

theorem stmt_exported (cx : BodyContext) (inner : Stmt) (s : LowerState) :
    stmt cx (.exported inner) s = stmt cx inner s := by
  rw [stmt]

end Trail

/-! ### What a trail says of a run -/

/-- The method is the body, lowered as the plan says. -/
def MethodPlan.Lowers (plan : MethodPlan) (file : FileContext) (body : Block) (m : Method) : Prop :=
  ∃ frame s code u, Frame.start .publicStatic plan.name plan.descriptor = .ok frame ∧
    lowerStmts (plan.context file frame body.scope) [] body.body (plan.opened frame s) =
      .ok code u ∧
    plan.method frame u.body.nextSlot code = m

/-- The method has the name and the descriptor of the plan. -/
def MethodPlan.IsFor (plan : MethodPlan) (m : Method) : Prop :=
  m.name = plan.name ∧ m.descriptor = plan.descriptor

theorem MethodPlan.emitted_iff {plan : MethodPlan} {s : LowerState} :
    plan.emitted s = true ↔ ∃ m ∈ s.file.methods, plan.IsFor m := by
  simp [emitted, IsFor]

/-- The body is the one of a declaration that is not generic. -/
def BodyRun.Declared (file : FileContext) (d : Declaration) (r : BodyRun) : Prop :=
  ∃ sig, d.sig? file = some sig ∧ sig.isGeneric = false ∧ r.plan = .declared d.name sig ∧
    r.body = d.decl.body

/-- The method is the body, lowered as the plan says, and the calls are those in the body. -/
def BodyRun.Made (file : FileContext) (r : BodyRun) : Prop :=
  ∃ frame s code u, Frame.start .publicStatic r.plan.name r.plan.descriptor = .ok frame ∧
    lowerStmts (r.plan.context file frame r.body.scope) [] r.body.body (r.plan.opened frame s) =
      .ok code u ∧
    r.plan.method frame u.body.nextSlot code = r.method ∧
    (Trail.stmts (r.plan.context file frame r.body.scope) r.body.body
      (r.plan.opened frame s)).calls = r.calls

/-- The run made its method, and the calls in its body are there. -/
structure BodyRun.Sound (file : FileContext) (r : BodyRun) : Prop where
  made : r.Made file
  isFor : r.plan.IsFor r.method
  calls : ∀ c ∈ r.calls, c.instr file.unitName ∈ r.method.code

theorem BodyRun.Sound.lowers {file : FileContext} {r : BodyRun} (h : r.Sound file) :
    r.plan.Lowers file r.body r.method := by
  obtain ⟨frame, s, code, u, hframe, hcode, hmethod, -⟩ := h.made
  exact ⟨frame, s, code, u, hframe, hcode, hmethod⟩

/-- No two methods have both name and descriptor in common. -/
def LowerState.Distinct (s : LowerState) : Prop :=
  (s.file.methods.map fun m => (m.name, m.descriptor)).Nodup

def Declaration.IsGeneric (file : FileContext) (d : Declaration) : Prop :=
  ∃ sig, d.sig? file = some sig ∧ sig.isGeneric

instance (file : FileContext) (d : Declaration) : Decidable (d.IsGeneric file) :=
  decidable_of_iff ((d.sig? file).any Signature.isGeneric = true) (Option.any_eq_true _ _)

/-- A function has its name to itself, but generic functions may share one, and functions that are
not generic may if their descriptors differ. -/
def Declaration.Apart (file : FileContext) (d e : Declaration) : Prop :=
  d.name = e.name → ∀ a ∈ d.sig? file, ∀ b ∈ e.sig? file, a.isGeneric = b.isGeneric ∧
    (a.isGeneric = false → (MethodPlan.declared d.name a).descriptor ≠
      (MethodPlan.declared e.name b).descriptor)

instance (file : FileContext) (d e : Declaration) : Decidable (d.Apart file e) :=
  inferInstanceAs (Decidable (d.name = e.name → ∀ a ∈ d.sig? file, ∀ b ∈ e.sig? file, _ ∧ (_ → _)))

/-- A function that is not generic has its method. -/
def Declaration.Settled (file : FileContext) (d : Declaration) (t : LowerState) : Prop :=
  ∃ sig, d.sig? file = some sig ∧
    (sig.isGeneric = false → ∃ m ∈ t.file.methods, (MethodPlan.declared d.name sig).IsFor m)

/-- From `s` to `t` lowering added what the trail says, within the declarations `D`. -/
structure Advances (file : FileContext) (D : List Declaration) (s t : LowerState)
    (tr : Trail) : Prop where
  methods : t.file.methods = s.file.methods ++ tr.runs.map BodyRun.method
  generics : ∀ p ∈ t.file.generics, p ∈ s.file.generics ∨ ∃ d ∈ D, p = (d.name, d.decl) ∧
    d.IsGeneric file
  sound : ∀ r ∈ tr.runs, r.Sound file
  reached : ∀ d ∈ tr.reached, d ∈ D ∧ d.Settled file t
  distinct : D.Pairwise (Declaration.Apart file) → s.Distinct → t.Distinct

/-- The same for statements: they record the calls, which are in their code, and instantiate
nothing. -/
structure Traced (file : FileContext) (D : List Declaration) (s : LowerState) (code : Code)
    (t : LowerState) (tr : Trail) : Prop extends Advances file D s t tr where
  table : ∃ l, l.Perm tr.requests ∧ t.file.table = s.file.table.recordAll l
  declared : ∀ r ∈ tr.runs, ∃ d ∈ D, r.Declared file d
  code : ∀ c ∈ tr.calls, c.instr file.unitName ∈ code

variable {file : FileContext} {D E : List Declaration} {s t u : LowerState} {tr tr' : Trail}
  {c d : Code}

theorem Declaration.Settled.mono {dec : Declaration} {more : List Method} (h : dec.Settled file s)
    (hm : t.file.methods = s.file.methods ++ more) : dec.Settled file t := by
  obtain ⟨sig, hsig, hmethod⟩ := h
  refine ⟨sig, hsig, fun hg => ?_⟩
  obtain ⟨m, hmem, hfor⟩ := hmethod hg
  exact ⟨m, hm ▸ List.mem_append_left _ hmem, hfor⟩

namespace Advances

/-- Nothing happened that leaves a trail. -/
theorem quiet (hmethods : t.file.methods = s.file.methods)
    (hgenerics : t.file.generics = s.file.generics) :
    Advances file D s t {} where
  methods := by simp [hmethods]
  generics p hp := .inl (hgenerics ▸ hp)
  sound := nofun
  reached := nofun
  distinct _ hs := by rwa [LowerState.Distinct, hmethods]

theorem widen (h : Advances file D s t tr) (hsub : D.Sublist E) : Advances file E s t tr where
  methods := h.methods
  generics p hp := (h.generics p hp).imp_right fun ⟨d, hd, hrest⟩ => ⟨d, hsub.subset hd, hrest⟩
  sound := h.sound
  reached d hd := ⟨hsub.subset (h.reached d hd).1, (h.reached d hd).2⟩
  distinct hE := h.distinct (hE.sublist hsub)

theorem andThen (h : Advances file D s t tr) (k : Advances file D t u tr') :
    Advances file D s u (tr ++ tr') where
  methods := by rw [k.methods, h.methods, Trail.append_runs, List.map_append, List.append_assoc]
  generics p hp := (k.generics p hp).elim (h.generics p) .inr
  sound r hr := (List.mem_append.mp hr).elim (h.sound r) (k.sound r)
  reached d hd := by
    rcases List.mem_append.mp hd with hd | hd
    · exact ⟨(h.reached d hd).1, (h.reached d hd).2.mono k.methods⟩
    · exact k.reached d hd
  distinct hD hs := k.distinct hD (h.distinct hD hs)

end Advances

namespace Traced

theorem quiet (htable : t.file.table = s.file.table) (hmethods : t.file.methods = s.file.methods)
    (hgenerics : t.file.generics = s.file.generics) : Traced file D s c t {} where
  toAdvances := .quiet hmethods hgenerics
  table := ⟨[], .refl _, htable⟩
  declared := nofun
  code := nofun

theorem widen (h : Traced file D s c t tr) (hsub : D.Sublist E) : Traced file E s c t tr where
  toAdvances := h.toAdvances.widen hsub
  table := h.table
  declared r hr := let ⟨d, hd, ho⟩ := h.declared r hr; ⟨d, hsub.subset hd, ho⟩
  code := h.code

/-- One after the other, in code that has the code of both. -/
theorem andThen {e : Code} (h : Traced file D s c t tr) (k : Traced file E t d u tr') (hc : c ⊆ e)
    (hd : d ⊆ e) : Traced file (D ++ E) s e u (tr ++ tr') := by
  have h' := h.widen (List.sublist_append_left D E)
  have k' := k.widen (List.sublist_append_right D E)
  refine ⟨h'.toAdvances.andThen k'.toAdvances, ?_, fun r hr => ?_, fun x hx => ?_⟩
  · obtain ⟨l, hl, ht⟩ := h.table
    obtain ⟨l', hl', hu⟩ := k.table
    refine ⟨l ++ l', (hl.append hl').trans (Trail.requests_append tr tr'), ?_⟩
    rw [hu, ht, SpecializationTable.recordAll_append]
  · exact (List.mem_append.mp hr).elim (h'.declared r) (k'.declared r)
  · exact (List.mem_append.mp hx).elim (fun hx => hc (h.code x hx)) (fun hx => hd (k.code x hx))

theorem expr {cx : BodyContext} {e : Expr} {v : Lowered} (h : lowerExpr cx e s = .ok v t)
    (hc : v.code ⊆ c) : Traced cx.file [] s c t (Trail.ofExpr cx e s) := by
  have hcalls := lowerExpr_calls h
  have hkept := lowerExpr_kept h
  refine ⟨⟨by simp [Trail.ofExpr,
    hkept.methods], fun p hp => .inl (hkept.generics ▸ hp), nofun, nofun, fun _ hs => ?_⟩, ⟨_, ?_,
    hcalls.table⟩, nofun, fun x hx => hc (hcalls.code x hx)⟩
  · rwa [LowerState.Distinct, hkept.methods]
  · simp [Trail.requests, Trail.ofExpr]

/-- Only what a trail is about matters of the states. -/
theorem of_file {s' t' : LowerState} (h : Traced file D s' c t' tr)
    (hs : s'.file.table = s.file.table ∧ s'.file.methods = s.file.methods ∧ s'.file.generics =
      s.file.generics)
    (ht : t'.file.table = t.file.table ∧ t'.file.methods = t.file.methods ∧ t'.file.generics =
      t.file.generics) :
    Traced file D s c t tr := by
  have before : Traced file [] s [] s' {} := .quiet hs.1 hs.2.1 hs.2.2
  have after : Traced file [] t' [] t {} := .quiet ht.1.symm ht.2.1.symm ht.2.2.symm
  simpa using (before.andThen h (List.nil_subset _) (List.Subset.refl c)).andThen after
    (List.Subset.refl _) (List.nil_subset _)

end Traced

end ClassGen
