import ClassGen.Proofs.Slots.Layout
import ClassGen.Proofs.Scoping.Lookups

/-! The trace of a run of lowering: the names it looked up and the variables it declared, in order.
A run is aligned with a walk through the text if every lookup found what the walk says that the name
means, where the walk speaks of variables by number and the trace has their slots. -/

namespace ClassGen.Scoping

open Run
open Faithful (after after_ok varType)

/-- A variable that was declared, and where it is kept. -/
structure DeclaredVar where
  scope : ScopeId
  name : String
  var : LocalVar

def DeclaredVar.key (v : DeclaredVar) : ScopeId × String := (v.scope, v.name)

structure Trace where
  lookups : List Lookup := []
  vars : List DeclaredVar := []

namespace Trace

instance : Append Trace := ⟨fun a b => ⟨a.lookups ++ b.lookups, a.vars ++ b.vars⟩⟩

@[simp] theorem append_lookups (a b : Trace) : (a ++ b).lookups = a.lookups ++ b.lookups := rfl

@[simp] theorem append_vars (a b : Trace) : (a ++ b).vars = a.vars ++ b.vars := rfl

theorem append_assoc (a b c : Trace) : a ++ b ++ c = a ++ (b ++ c) := by
  show Trace.mk _ _ = Trace.mk _ _
  simp

@[simp] theorem append_nil (a : Trace) : a ++ ({} : Trace) = a := by
  show Trace.mk (a.lookups ++ []) (a.vars ++ []) = a
  simp only [List.append_nil]

def ofExpr (cx : BodyContext) (e : Expr) (s : LowerState) : Trace where
  lookups := Scoping.lookups cx e s

/-- The variable that is kept under this scope and name. -/
def ofVar (scope : ScopeId) (name : String) (s : LowerState) : Trace where
  vars := (s.body.locals.lookup (scope, name)).toList.map fun var => ⟨scope, name, var⟩

mutual

/-- Functions inside the body have traces of their own. -/
def stmt (cx : BodyContext) : Stmt → LowerState → Trace
  | .expr value, s | .ret _ value, s => ofExpr cx value s
  | .var span name init, s =>
    after (varType cx name init span) s {} fun type s =>
      if type.isVoid then {}
      else
        ofExpr cx init s ++ after (lowerAs cx init type) s {} fun _ s =>
          after (Lower.declareLocal cx.scope name type) s {} fun _ s => ofVar cx.scope name s
  | .ifElse _ test body none, s =>
    ofExpr cx test (s.skip 1) ++ after (lowerAs cx test .boolean) (s.skip 1) {} fun _ s =>
      block cx body s
  | .ifElse _ test body (some branch), s =>
    ofExpr cx test (s.skip 1) ++ after (lowerAs cx test .boolean) (s.skip 1) {} fun _ s =>
      block cx body s ++ after (lowerBlock cx body) s {} fun _ s => stmt cx branch (s.skip 1)
  | .whileLoop _ test body, s =>
    ofExpr cx test (s.skip 2) ++ after (lowerAs cx test .boolean) (s.skip 2) {} fun _ s =>
      block cx body s
  | .forEach span binding iterable body, s =>
    ofExpr cx iterable s ++ after (openLoop cx binding iterable body.scope span) s {} fun _ s =>
      ofVar body.scope binding s ++ block cx body (s.skip 2)
  | .matchType _ subject branches, s =>
    ofExpr cx subject s ++ after (openMatch cx subject) s {} fun opened s =>
      arms cx opened.2 branches (s.skip 1)
  | .block body, s => block cx body s
  | .exported inner, s => stmt cx inner s
  | _, _ => {}

def block (cx : BodyContext) : Block → LowerState → Trace
  | ⟨scope, body, _⟩, s => stmts { cx with scope := scope } body s

def stmts (cx : BodyContext) : List Stmt → LowerState → Trace
  | [], _ => {}
  | first :: rest, s =>
    stmt cx first (s.logged (.statement first.kind cx.frame.name)) ++
      after (lowerStmt cx first) (s.logged (.statement first.kind cx.frame.name)) {} fun _ s =>
        stmts cx rest s

def arms (cx : BodyContext) (subject : Nat) : List Arm → LowerState → Trace
  | [], _ => {}
  | ⟨pattern, binding, body, span⟩ :: rest, s =>
    after (cx.resolveType pattern span) (s.skip 1) {} fun pattern s =>
      after (bindSubject subject pattern body.scope binding) s {} fun _ s =>
        (if binding.isEmpty then {} else ofVar body.scope binding s) ++
          (block cx body s ++ after (lowerBlock cx body) s {} fun _ s => arms cx subject rest s)

end

theorem stmt_exported (cx : BodyContext) (inner : Stmt) (s : LowerState) :
    stmt cx (.exported inner) s = stmt cx inner s := by
  rw [stmt]

end Trace

/-! ### What names mean and what is found -/

/-- The storage of what a name means, where `vars` were declared. A variable has the name, and is
one of a block around the use. -/
inductive Means (vars : List DeclaredVar) (name : String) (around : List ScopeId) :
    Option Target → Option Storage → Prop
  | var {number : Nat} {v : DeclaredVar} (hv : vars[number]? = some v) (hname : v.name = name)
    (haround : v.scope ∈ around) : Means vars name around (some (.var number))
    (some (.slot v.var.slot v.var.type))
  | param (index : Nat) (type : Ty) : Means vars name around (some (.param index type))
      (some (.param index type))
  | nothing : Means vars name around none none

/-- The lookup is the one of this use, and finds what the name means there. -/
structure Finds (vars : List DeclaredVar) (u : ResolvedUse) (l : Lookup) : Prop where
  use : l.toNameUse = u.toNameUse
  means : Means vars u.name u.around u.target l.found

/-- The locals have the variables of the block and no others under its scope. -/
structure Holds (locals : List ((ScopeId × String) × LocalVar)) (vars : List DeclaredVar)
    (b : OpenBlock) : Prop where
  declared : ∀ name number, b.vars.lookup name = some number →
    ∃ v, vars[number]? = some v ∧ v.scope = b.scope ∧ v.name = name ∧
      locals.lookup (b.scope, name) = some v.var
  other : ∀ name, b.vars.lookup name = none → locals.lookup (b.scope, name) = none

/-- Along the chain stand the open blocks, from the innermost to the body, and then scopes without
locals. -/
inductive Tracks (bodyScope : ScopeId) (locals : List ((ScopeId × String) × LocalVar))
    (vars : List DeclaredVar) :
    List OpenBlock → List ScopeId → Prop
  | body {b : OpenBlock} {outer : List ScopeId} (hscope : b.scope = bodyScope)
      (hb : Holds locals vars b)
    (hnew : b.scope ∉ outer) (houter : ∀ id ∈ outer, ∀ name, locals.lookup (id, name) = none) :
    Tracks bodyScope locals vars [b] (b.scope :: outer)
  | inner {b : OpenBlock} {blocks : List OpenBlock} {ids : List ScopeId} (hb : Holds locals vars b)
    (hnew : b.scope ∉ ids) (h : Tracks bodyScope locals vars blocks ids) :
    Tracks bodyScope locals vars (b :: blocks) (b.scope :: ids)

section Tracks

variable {cx : BodyContext} {bodyScope : ScopeId}
  {locals locals' : List ((ScopeId × String) × LocalVar)} {vars more : List DeclaredVar}
  {b : OpenBlock} {blocks : List OpenBlock} {ids : List ScopeId} {name : String}
  {around : List ScopeId} {target : Option Target} {found : Option Storage}

theorem Means.append (h : Means vars name around target found) (more : List DeclaredVar) :
    Means (vars ++ more) name around target found := by
  cases h with
  | @var number v hv hname haround =>
    refine .var ?_ hname haround
    rw [List.getElem?_append_left (List.getElem?_eq_some_iff.mp hv).1, hv]
  | param index type => exact .param index type
  | nothing => exact .nothing

theorem Means.further (h : Means vars name around target found) (id : ScopeId) :
    Means vars name (id :: around) target found := by
  cases h with
  | var hv hname haround => exact .var hv hname (List.mem_cons_of_mem _ haround)
  | param index type => exact .param index type
  | nothing => exact .nothing

theorem Finds.append {u : ResolvedUse} {l : Lookup} (h : Finds vars u l) (more : List DeclaredVar) :
    Finds (vars ++ more) u l := ⟨h.use, h.means.append more⟩

theorem Holds.append (h : Holds locals vars b) (more : List DeclaredVar) :
    Holds locals (vars ++ more) b where
  declared name number hnumber := by
    obtain ⟨v, hv, hkey⟩ := h.declared name number hnumber
    refine ⟨v, ?_, hkey⟩
    rw [List.getElem?_append_left (List.getElem?_eq_some_iff.mp hv).1, hv]
  other := h.other

theorem Holds.congr (h : Holds locals vars b)
    (heq : ∀ name, locals'.lookup (b.scope, name) = locals.lookup (b.scope, name)) :
    Holds locals' vars b where
  declared name number hnumber := by
    rw [heq]
    exact h.declared name number hnumber
  other name hname := by
    rw [heq]
    exact h.other name hname

/-- A variable more in the block, whatever had its name there before. -/
theorem Holds.declare (h : Holds locals vars b) (name : String) (var : LocalVar) :
    Holds (Dict.insert (b.scope, name) var locals) (vars ++ [⟨b.scope, name, var⟩])
      { b with vars := (name, vars.length) :: b.vars } where
  declared name' number hnumber := by
    rw [Dict.lookup_cons_if] at hnumber
    rw [Dict.lookup_insert]
    split at hnumber
    · next heq =>
      cases hnumber
      subst heq
      exact ⟨⟨b.scope, name', var⟩, List.getElem?_concat_length, rfl, rfl, if_pos rfl⟩
    · next hne =>
      rw [if_neg (fun heq => hne (Prod.mk.inj heq).2)]
      exact (h.append _).declared name' number hnumber
  other name' hname := by
    rw [Dict.lookup_cons_if] at hname
    rw [Dict.lookup_insert]
    split at hname
    · cases hname
    · next hne =>
      rw [if_neg (fun heq => hne (Prod.mk.inj heq).2)]
      exact h.other name' hname

theorem Holds.empty {scope : ScopeId} (h : ∀ name, locals.lookup (scope, name) = none) :
    Holds locals vars ⟨scope, []⟩ where
  declared _ _ hnumber := by cases hnumber
  other name _ := h name

namespace Tracks

theorem append (h : Tracks bodyScope locals vars blocks ids) (more : List DeclaredVar) :
    Tracks bodyScope locals (vars ++ more) blocks ids := by
  induction h with
  | body hscope hb hnew houter => exact .body hscope (hb.append more) hnew houter
  | inner hb hnew _ ih => exact .inner (hb.append more) hnew ih

theorem congr (h : Tracks bodyScope locals vars blocks ids)
    (heq : ∀ id ∈ ids, ∀ name, locals'.lookup (id, name) = locals.lookup (id, name)) :
    Tracks bodyScope locals' vars blocks ids := by
  induction h with
  | body hscope hb hnew houter =>
    refine .body hscope (hb.congr (heq _ List.mem_cons_self)) hnew fun id hid name => ?_
    rw [heq id (List.mem_cons_of_mem _ hid)]
    exact houter id hid name
  | inner hb hnew _ ih =>
    exact .inner (hb.congr (heq _ List.mem_cons_self)) hnew (ih fun id hid =>
      heq id (List.mem_cons_of_mem _ hid))

theorem declare (h : Tracks bodyScope locals vars (b :: blocks) ids) (name : String)
    (var : LocalVar) :
    Tracks bodyScope (Dict.insert (b.scope, name) var locals) (vars ++ [⟨b.scope, name, var⟩])
      ({ b with vars := (name, vars.length) :: b.vars } :: blocks) ids := by
  have hother {id : ScopeId} {outer : List ScopeId} (hnew : b.scope ∉ outer) (hid : id ∈ outer)
      (name' : String) :
      (Dict.insert (b.scope, name) var locals).lookup (id, name') = locals.lookup (id, name') := by
    rw [Dict.lookup_insert, if_neg]
    intro heq
    exact hnew ((Prod.mk.inj heq).1 ▸ hid)
  cases h with
  | body hscope hb hnew houter =>
    refine .body hscope (hb.declare name var) hnew fun id hid name' => ?_
    rw [hother hnew hid]
    exact houter id hid name'
  | inner hb hnew h =>
      exact .inner (hb.declare name var) hnew ((h.append _).congr fun id hid => hother hnew hid)

theorem bodyScope_mem (h : Tracks bodyScope locals vars blocks ids) : bodyScope ∈ ids := by
  induction h with
  | body hscope => exact hscope ▸ List.mem_cons_self
  | inner _ _ _ ih => exact List.mem_cons_of_mem _ ih

theorem blocks_eq (h : Tracks bodyScope locals vars blocks ids) :
    ∃ b outer rest, blocks = b :: outer ∧ ids = b.scope :: rest := by
  cases h with
  | body => exact ⟨_, _, _, rfl, rfl⟩
  | inner => exact ⟨_, _, _, rfl, rfl⟩

/-- Outside the body nothing is stored. -/
theorem storageIn?_outer {outer : List ScopeId} (hnew : cx.bodyScope ∉ outer)
    (houter : ∀ id ∈ outer, ∀ name, locals.lookup (id, name) = none) :
    cx.storageIn? locals name outer = none := by
  induction outer with
  | nil => rfl
  | cons id outer ih =>
    have hid : id ≠ cx.bodyScope := fun heq => hnew (heq ▸ List.mem_cons_self)
    rw [BodyContext.storageIn?, houter id List.mem_cons_self, if_neg hid]
    have hrest := ih (fun hmem => hnew (List.mem_cons_of_mem _ hmem)) fun id hid =>
      houter id (List.mem_cons_of_mem _ hid)
    dsimp only
    rw [hrest, ite_self]

/-- The chain leads to the storage of what the name means in the open blocks. -/
theorem storageIn?_means (h : Tracks cx.bodyScope locals vars blocks ids) :
    Means vars name (blocks.map OpenBlock.scope) (find cx.file.scopes cx.params name blocks)
      (cx.storageIn? locals name ids) := by
  induction h with
  | @body b outer hscope hb hnew houter =>
    rw [find, BodyContext.storageIn?, if_pos hscope, List.isEmpty_nil, if_pos rfl,
      BodyContext.param?]
    cases hvar : b.vars.lookup name with
    | some number =>
      obtain ⟨v, hv, hscope, hname, hlocal⟩ := hb.declared name number hvar
      rw [hlocal]
      exact .var hv hname (List.mem_cons.mpr (.inl hscope))
    | none =>
      rw [hb.other name hvar]
      cases BodyContext.lastParam? name 0 cx.params with
      | some p => exact .param p.1 p.2
      | none =>
        simp only [Option.map_none, find]
        rw [storageIn?_outer (hscope ▸ hnew) houter, ite_self, ite_self]
        exact .nothing
  | @inner b blocks ids hb hnew h ih =>
    have hbody : b.scope ≠ cx.bodyScope := fun heq => hnew (heq ▸ h.bodyScope_mem)
    have hblocks : blocks.isEmpty = false := by
      obtain ⟨_, _, _, rfl, -⟩ := h.blocks_eq
      rfl
    rw [find, BodyContext.storageIn?, if_neg hbody, hblocks, if_neg Bool.false_ne_true]
    cases hvar : b.vars.lookup name with
    | some number =>
      obtain ⟨v, hv, hscope, hname, hlocal⟩ := hb.declared name number hvar
      rw [hlocal]
      exact .var hv hname (List.mem_cons.mpr (.inl hscope))
    | none =>
      rw [hb.other name hvar]
      dsimp only
      split
      · exact .nothing
      · exact ih.further b.scope

end Tracks

end Tracks

/-! ### Aligned runs -/

/-- The trace has all variables and uses of the walk, and everything was found. -/
structure Complete (w : Walk) (tr : Trace) : Prop where
  declared : tr.vars.map DeclaredVar.key = w.declared
  uses : List.Forall₂ (Finds tr.vars) w.uses tr.lookups
  found : ∀ l ∈ tr.lookups, l.found.isSome = true

/-- The trace has the first variables and uses of the walk, up to the failure `e`. -/
structure Cut (w : Walk) (tr : Trace) (e : CodegenError) : Prop where
  declared : tr.vars.map DeclaredVar.key <+: w.declared
  uses : ∃ first, first <+: w.uses ∧ List.Forall₂ (Finds tr.vars) first tr.lookups
  stops : Stops tr.lookups e

/-- A run that is in the state `s` after this trace. -/
structure Aligned (cx : BodyContext) (w : Walk) (tr : Trace) (s : LowerState) :
    Prop extends Complete w tr where
  tracks : Tracks cx.bodyScope s.body.locals tr.vars w.blocks (cx.file.scopes.chain cx.scope)

/-- A run that began before this trace, and how it ended. -/
def Reached (cx : BodyContext) (w : Walk) (tr : Trace) {α : Type} :
    EStateM.Result CodegenError LowerState α → Prop
  | .ok _ t => Aligned cx w tr t
  | .error e _ => Cut w tr e

section Aligned

variable {cx : BodyContext} {w v : Walk} {tr : Trace} {s t : LowerState} {e : CodegenError}
  {α β : Type} {x : Lower α} {f : α → Lower β} {next : α → LowerState → Trace}

theorem Complete.cut (h : Complete w tr) (e : CodegenError) : Cut w tr e :=
  ⟨h.declared ▸ List.prefix_refl _, ⟨w.uses, List.prefix_refl _, h.uses⟩, .of_found h.found⟩

theorem Cut.extend (h : Cut w tr e) (hext : w.Extends v) : Cut v tr e := by
  obtain ⟨first, hfirst, huses⟩ := h.uses
  exact ⟨h.declared.trans hext.declared, ⟨first, hfirst.trans hext.uses, huses⟩, h.stops⟩

namespace Aligned

theorem congr (h : Aligned cx w tr s) (heq : t.body.locals = s.body.locals) : Aligned cx w tr t :=
  ⟨h.toComplete, heq ▸ h.tracks⟩

theorem hide (h : Aligned cx w tr s) : Aligned cx w.hide tr s :=
  ⟨⟨h.declared, h.uses, h.found⟩, h.tracks⟩

theorem quiet (h : Aligned cx w tr s) (hx : Quiet x s) : Reached cx w tr (x s) := by
  cases hrun : x s with
  | ok a t => exact h.congr (hx a t hrun)
  | error e t => exact h.cut e

/-- The innermost block is that of the current scope. -/
theorem blocks_eq (h : Aligned cx w tr s) :
    ∃ b outer, w.blocks = b :: outer ∧ b.scope = cx.scope := by
  obtain ⟨outer, hchain⟩ := cx.file.scopes.chain_eq_cons cx.scope
  obtain ⟨b, blocks, ids, hblocks, hids⟩ := h.tracks.blocks_eq
  exact ⟨b, blocks, hblocks, (List.cons.inj (hids.symm.trans hchain)).1⟩

/-- What is looked up now is found where the name means it. -/
theorem finds (h : Aligned cx w tr s) (u : NameUse) :
    Finds tr.vars ⟨u, resolve cx.file.scopes cx.params u.name w.blocks,
      w.blocks.map OpenBlock.scope⟩ (lookup cx s u) := by
  obtain ⟨b, outer, hblocks, hscope⟩ := h.blocks_eq
  rw [lookup_eq]
  refine ⟨rfl, ?_⟩
  have hmeans : Means tr.vars u.name _ _ _ := h.tracks.storageIn?_means
  rw [hblocks] at hmeans ⊢
  simp only [resolve, stored?, hscope]
  split
  · exact hmeans
  · exact .nothing

/-- The lookups of an expression continue the trace. -/
theorem eval {expr : Expr} {ls : List Lookup} {r : EStateM.Result CodegenError LowerState α}
    (h : Aligned cx w tr s) (hr : Reads cx expr.uses s ls r) :
    Reached cx (w.eval cx.file.scopes cx.params expr) (tr ++ ⟨ls, []⟩) r := by
  have hfinds (us : List NameUse) : List.Forall₂ (Finds tr.vars)
      (us.map fun u => ⟨u, resolve cx.file.scopes cx.params u.name w.blocks,
        w.blocks.map OpenBlock.scope⟩)
      (us.map (lookup cx s)) := by
    rw [List.forall₂_map_left_iff, List.forall₂_map_right_iff]
    exact List.forall₂_same.mpr fun u _ => h.finds u
  cases r with
  | ok a t =>
    obtain ⟨hlocals, rfl, hfound⟩ := hr
    refine ⟨⟨?_, ?_, fun l hl => ?_⟩, ?_⟩
    · rw [Trace.append_vars, List.append_nil]
      exact h.declared
    · rw [Trace.append_vars, List.append_nil]
      exact List.rel_append h.uses (hfinds _)
    · exact (List.mem_append.mp hl).elim (h.found l) (hfound l)
    · rw [Trace.append_vars, List.append_nil, hlocals]
      exact h.tracks
  | error e t =>
    obtain ⟨hfirst, hstops⟩ := hr
    rw [List.prefix_iff_eq_take.mp hfirst, ← List.map_take] at hstops ⊢
    refine ⟨?_, ⟨_, (List.prefix_append_right_inj _).mpr
      ((List.take_prefix ls.length expr.uses).map _), ?_⟩, hstops.append h.found⟩
    · rw [Trace.append_vars, List.append_nil, h.declared]
      exact List.prefix_refl _
    · rw [Trace.append_vars, List.append_nil]
      exact List.rel_append h.uses (hfinds _)

theorem lowerExpr (h : Aligned cx w tr s) (expr : Expr) :
    Reached cx (w.eval cx.file.scopes cx.params expr) (tr ++ Trace.ofExpr cx expr s)
      (lowerExpr cx expr s) :=
  h.eval (lowerExpr_reads expr s)

end Aligned

namespace Reached

/-- A first computation and, if it succeeds, the next. -/
theorem bind (hx : Reached cx w tr (x s)) (hext : w.Extends v)
    (hf : ∀ a t, x s = .ok a t → Aligned cx w tr t → Reached cx v (tr ++ next a t) (f a t)) :
    Reached cx v (tr ++ after x s {} next) ((x >>= f) s) := by
  cases hrun : x s with
  | error e t =>
    rw [hrun] at hx
    rw [bind_of_error hrun, after, hrun, Trace.append_nil]
    exact Cut.extend hx hext
  | ok a t =>
    rw [hrun] at hx
    rw [bind_of_ok hrun, after_ok hrun]
    exact hf a t hrun hx

theorem then_quiet (hx : Reached cx w tr (x s)) (hf : ∀ a t, x s = .ok a t → Quiet (f a) t) :
    Reached cx w tr ((x >>= f) s) := by
  cases hrun : x s with
  | error e t =>
    rw [hrun] at hx
    rwa [bind_of_error hrun]
  | ok a t =>
    rw [hrun] at hx
    rw [bind_of_ok hrun]
    exact Aligned.quiet hx (hf a t hrun)

/-- Wherever it failed, what comes after the first computation looks up nothing. -/
theorem failed (hx : Reached cx w tr (x s)) (h : (x >>= f) s = .error e t) : Cut w tr e := by
  cases hrun : x s with
  | error e' t' =>
    rw [bind_of_error hrun] at h
    cases h
    rwa [hrun] at hx
  | ok a t' =>
    rw [hrun] at hx
    exact Complete.cut hx.toComplete e

end Reached

theorem Aligned.lowerAs (h : Aligned cx w tr s) (expr : Expr) (target : Ty) :
    Reached cx (w.eval cx.file.scopes cx.params expr) (tr ++ Trace.ofExpr cx expr s)
      (lowerAs cx expr target s) :=
  (h.lowerExpr expr).then_quiet fun _ _ _ => quiet_into _ _ _

/-- A variable more in the current scope. -/
theorem Aligned.declare {name : String} {var : LocalVar} (h : Aligned cx w tr s)
    (ht : t.body.locals = Dict.insert (cx.scope, name) var s.body.locals) :
    Aligned cx (w.declare name) (tr ++ Trace.ofVar cx.scope name t) t := by
  obtain ⟨b, outer, hblocks, hscope⟩ := h.blocks_eq
  have hvar : Trace.ofVar cx.scope name t = ⟨[], [⟨cx.scope, name, var⟩]⟩ := by
    unfold Trace.ofVar
    rw [ht, Dict.lookup_insert, if_pos rfl]
    rfl
  have hlength : w.declared.length = tr.vars.length := by rw [← h.declared, List.length_map]
  have htracks := h.tracks
  rw [hblocks] at htracks
  have hdeclare := htracks.declare name var
  rw [hscope] at hdeclare
  rw [hvar]
  refine ⟨⟨?_, ?_, ?_⟩, ?_⟩
  · simp only [Walk.declare, hblocks, Trace.append_vars, List.map_append, h.declared, hscope]
    rfl
  · simp only [Walk.declare, hblocks, Trace.append_vars, Trace.append_lookups, List.append_nil]
    exact h.uses.imp fun u l hul => hul.append _
  · rw [Trace.append_lookups, List.append_nil]
    exact h.found
  · simp only [Walk.declare, hblocks, Trace.append_vars, ht, hlength, hscope]
    exact hdeclare

end Aligned

end ClassGen.Scoping
