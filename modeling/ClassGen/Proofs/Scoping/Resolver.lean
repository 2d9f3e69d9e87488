import ClassGen.Proofs.Assignment.Scopes
import ClassGen.Proofs.Preservation.Variables

/-! Names resolved by the text of a body alone. A walk through the body keeps the blocks that are
open, with the variables declared in each so far. A name means the latest variable of the innermost
open block that has one, or a parameter if no block has; a block whose scope declares the name in
the context, without a variable of it so far, hides what is outside. What was declared in a block is
forgotten at its end. The walk also lists which variables the code of the body accesses, in the
order of the code. -/

namespace ClassGen

/-- A place where the value of a name is read or written. -/
structure NameUse where
  name : String
  span : Span

mutual

/-- Names that are evaluated, assigned or stepped in an expression, in the order this is done.
Callees are no values, and nothing is evaluated in an expression of a kind that is never lowered. -/
def Expr.uses : Expr → List NameUse
  | .ident note name => [⟨name, note.span⟩]
  | .binary _ _ left right => left.uses ++ right.uses
  | .assign _ (.ident note name) value => ⟨name, note.span⟩ :: value.uses
  | .assign _ (.property _ receiver _) value => receiver.uses ++ value.uses
  | .call _ _ args => usesOf args
  | .property _ receiver _ => receiver.uses
  | .step _ _ (.ident note name) => [⟨name, note.span⟩]
  | .negate _ operand | .not _ operand | .group _ operand => operand.uses
  | .listOf _ entries => usesOf entries
  | _ => []

def usesOf : List Expr → List NameUse
  | [] => []
  | e :: rest => e.uses ++ usesOf rest

end

theorem Expr.uses_group (note : Note) (inner : Expr) :
    (Expr.group note inner).uses = inner.uses := by
  rw [Expr.uses]

/-- What code does with slots. -/
inductive SlotUse (α : Type) where
  | load (of : α)
  | store (of : α)
  /-- Anything, with a slot that no name stands for: that of an iterator or a subject. -/
  | hidden
  deriving DecidableEq

def SlotUse.map {α β : Type} (f : α → β) : SlotUse α → SlotUse β
  | load of => load (f of)
  | store of => store (f of)
  | hidden => hidden

mutual

/-- What the code of an expression accesses. It stores in a name after the value was computed, and
loads a name that is stepped before. -/
def Expr.slotUses : Expr → List (SlotUse String)
  | .ident _ name => [.load name]
  | .binary _ _ left right => left.slotUses ++ right.slotUses
  | .assign _ (.ident _ name) value => value.slotUses ++ [.store name]
  | .assign _ (.property _ receiver _) value => receiver.slotUses ++ value.slotUses
  | .call _ _ args => slotUsesOf args
  | .property _ receiver _ => receiver.slotUses
  | .step _ _ (.ident _ name) => [.load name, .store name]
  | .negate _ operand | .not _ operand | .group _ operand => operand.slotUses
  | .listOf _ entries => slotUsesOf entries
  | _ => []

def slotUsesOf : List Expr → List (SlotUse String)
  | [] => []
  | e :: rest => e.slotUses ++ slotUsesOf rest

end

namespace Scoping

/-- A block that is not closed yet. -/
structure OpenBlock where
  scope : ScopeId
  /-- Declared in it so far, latest first, by their numbers in the body. -/
  vars : List (String × Nat) := []

/-- What a name means. -/
inductive Target where
  | var (number : Nat)
  | param (index : Nat) (type : Ty)
  deriving DecidableEq

structure ResolvedUse extends NameUse where
  /-- None if the name cannot be used here. -/
  target : Option Target
  /-- Scopes of the blocks it stands in, innermost first. -/
  around : List ScopeId

/-- Where a walk through a body is, and what it has met. -/
structure Walk where
  /-- Innermost first; the last is the body. -/
  blocks : List OpenBlock
  /-- Variables, in the order of their declarations; the position is the number. -/
  declared : List (ScopeId × String) := []
  uses : List ResolvedUse := []
  slotUses : List (SlotUse (Option Target)) := []

section Resolve

variable (scopes : ScopeTree) (params : List (String × Ty)) (name : String)

/-- Parameters are bound in the body, behind its variables. -/
def find : List OpenBlock → Option Target
  | [] => none
  | b :: outer =>
    match b.vars.lookup name, if outer.isEmpty then BodyContext.lastParam? name 0 params
      else none with
    | some number, _ => some (.var number)
    | none, some (index, type) => some (.param index type)
    | none, none => if scopes.declares b.scope name then none else find outer

/-- What `name` means where these blocks are open; a name that is not visible in the context means
nothing. -/
def resolve : List OpenBlock → Option Target
  | [] => none
  | b :: outer => if (scopes.lookup b.scope name).isSome then find scopes params name (b :: outer)
      else none

end Resolve

namespace Walk

/-- A variable in the innermost block, which gets its first value. -/
def declare (name : String) (w : Walk) : Walk :=
  match w.blocks with
  | [] => w
  | b :: outer => { w with
      blocks := { b with vars := (name, w.declared.length) :: b.vars } :: outer
      declared := w.declared ++ [(b.scope, name)]
      slotUses := w.slotUses ++ [.store (some (.var w.declared.length))] }

def hide (w : Walk) : Walk := { w with slotUses := w.slotUses ++ [.hidden] }

/-- The variable, if there is one, is that of a loop or an arm. -/
def enter (scope : ScopeId) (bound : Option String) (w : Walk) : Walk :=
  match bound with
  | none => { w with blocks := ⟨scope, []⟩ :: w.blocks }
  | some name => declare name { w with blocks := ⟨scope, []⟩ :: w.blocks }

/-- Back in the blocks that were open in `outer`. -/
def leave (w outer : Walk) : Walk := { w with blocks := outer.blocks }

def eval (scopes : ScopeTree) (params : List (String × Ty)) (e : Expr) (w : Walk) : Walk :=
  { w with
    uses := w.uses ++ e.uses.map fun u =>
      ⟨u, resolve scopes params u.name w.blocks, w.blocks.map OpenBlock.scope⟩
    slotUses := w.slotUses ++ e.slotUses.map (SlotUse.map fun name =>
      resolve scopes params name w.blocks) }

end Walk

end Scoping

open Scoping

section Walks

variable (scopes : ScopeTree) (params : List (String × Ty))

/-- The name that an arm binds, if it binds one. -/
def Arm.bound? (arm : Arm) : Option String := if arm.binding.isEmpty then none else some arm.binding

mutual

/-- Through a statement. An else branch and an exported statement have no block of their own. -/
def Stmt.walk : Stmt → Walk → Walk
  | .expr value, w | .ret _ value, w => w.eval scopes params value
  | .var _ name init, w => (w.eval scopes params init).declare name
  | .ifElse _ test body none, w | .whileLoop _ test body, w =>
      body.walk none (w.eval scopes params test)
  | .ifElse _ test body (some branch), w => branch.walk (body.walk none (w.eval scopes params test))
  | .forEach _ binding iterable body, w => body.walk (some binding)
      (w.eval scopes params iterable).hide
  | .matchType _ subject arms, w => walkArms arms (w.eval scopes params subject).hide
  | .block body, w => body.walk none w
  | .exported inner, w => inner.walk w
  | _, w => w

def Block.walk : Block → Option String → Walk → Walk
  | ⟨scope, body, _⟩, bound, w => (walkStmts body (w.enter scope bound)).leave w

def walkStmts : List Stmt → Walk → Walk
  | [], w => w
  | first :: rest, w => walkStmts rest (first.walk w)

def walkArms : List Arm → Walk → Walk
  | [], w => w
  | ⟨pattern, binding, body, span⟩ :: rest, w =>
    walkArms rest (body.walk (Arm.bound? ⟨pattern, binding, body, span⟩) w.hide)

end

theorem Stmt.walk_exported (inner : Stmt) (w : Walk) :
    (Stmt.exported inner).walk scopes params w = inner.walk scopes params w := by
  rw [Stmt.walk]

/-- Through a function body. -/
def Block.resolved (b : Block) : Walk :=
  walkStmts scopes params b.body { blocks := [⟨b.scope, []⟩] }

end Walks

/-! ### What a walk adds -/

namespace Scoping.Walk

variable {w v u : Walk}

/-- All that `w` has met comes first in what `v` has. -/
structure Extends (w v : Walk) : Prop where
  declared : w.declared <+: v.declared
  uses : w.uses <+: v.uses

namespace Extends

theorem refl (w : Walk) : w.Extends w := ⟨List.prefix_refl _, List.prefix_refl _⟩

theorem trans (h : w.Extends v) (h' : v.Extends u) : w.Extends u :=
  ⟨h.declared.trans h'.declared, h.uses.trans h'.uses⟩

theorem leave (h : w.Extends v) (outer : Walk) : w.Extends (v.leave outer) := ⟨h.declared, h.uses⟩

theorem of_hide (h : w.hide.Extends v) : w.Extends v := ⟨h.declared, h.uses⟩

end Extends

theorem extends_declare (name : String) (w : Walk) : w.Extends (w.declare name) := by
  unfold declare
  split
  · exact .refl w
  · exact ⟨List.prefix_append _ _, List.prefix_refl _⟩

theorem extends_enter (scope : ScopeId) (bound : Option String) (w : Walk) :
    w.Extends (w.enter scope bound) := by
  cases bound with
  | none => exact ⟨List.prefix_refl _, List.prefix_refl _⟩
  | some name =>
    have h := extends_declare name { w with blocks := ⟨scope, []⟩ :: w.blocks }
    exact ⟨h.declared, h.uses⟩

theorem extends_eval (scopes : ScopeTree) (params : List (String × Ty)) (e : Expr) (w : Walk) :
    w.Extends (w.eval scopes params e) := ⟨List.prefix_refl _, List.prefix_append _ _⟩

end Scoping.Walk

section Extends

open Walk

variable (scopes : ScopeTree) (params : List (String × Ty))

mutual

theorem Stmt.extends_walk : ∀ (st : Stmt) (w : Walk), w.Extends (st.walk scopes params w)
  | .expr value, w | .ret _ value, w => by
    rw [Stmt.walk]
    exact extends_eval scopes params value w
  | .var _ name init, w => by
    rw [Stmt.walk]
    exact (extends_eval scopes params init w).trans (extends_declare name _)
  | .ifElse _ test body none, w | .whileLoop _ test body, w => by
    rw [Stmt.walk]
    exact (extends_eval scopes params test w).trans (body.extends_walk none _)
  | .ifElse _ test body (some branch), w => by
    rw [Stmt.walk]
    exact ((extends_eval scopes params test w).trans (body.extends_walk none _)).trans
      (Stmt.extends_walk branch _)
  | .forEach _ binding iterable body, w => by
    rw [Stmt.walk]
    exact (extends_eval scopes params iterable w).trans (body.extends_walk (some binding) _).of_hide
  | .matchType _ subject arms, w => by
    rw [Stmt.walk]
    exact (extends_eval scopes params subject w).trans (extends_walkArms arms _).of_hide
  | .block body, w => by
    rw [Stmt.walk]
    exact body.extends_walk none w
  | .exported inner, w => by
    rw [Stmt.walk]
    exact Stmt.extends_walk inner w
  | .function _, w | .struct _ _, w | .use _ _, w | .typeAlias _ _, w
  | .unionType _ _, w | .enum _ _, w
  | .parameter _ _, w => .refl w

theorem Block.extends_walk : ∀ (b : Block) (bound : Option String) (w : Walk),
    w.Extends (b.walk scopes params bound w)
  | ⟨scope, body, _⟩, bound, w => by
    rw [Block.walk]
    exact ((extends_enter scope bound w).trans (extends_walkStmts body _)).leave w

theorem extends_walkStmts : ∀ (body : List Stmt) (w : Walk),
    w.Extends (walkStmts scopes params body w)
  | [], w => by
    rw [walkStmts]
    exact .refl w
  | first :: rest, w => by
    rw [walkStmts]
    exact (Stmt.extends_walk first w).trans (extends_walkStmts rest _)

theorem extends_walkArms : ∀ (arms : List Arm) (w : Walk), w.Extends (walkArms scopes params arms w)
  | [], w => by
    rw [walkArms]
    exact .refl w
  | ⟨pattern, binding, body, span⟩ :: rest, w => by
    rw [walkArms]
    exact (body.extends_walk (Arm.bound? ⟨pattern, binding, body, span⟩) w.hide).of_hide.trans
      (extends_walkArms rest _)

end

end Extends

/-! ### Blocks and scopes -/

namespace ScopeTree

variable {t : ScopeTree} {id p : ScopeId} {n : Nat}

/-- More fuel than the way to the root is long changes nothing. -/
theorem Depth.chainWithin_eq {fuel : Nat} (h : t.Depth id n) (hfuel : n ≤ fuel) :
    t.chainWithin fuel id = t.chainWithin n id := by
  induction h generalizing fuel with
  | root hroot =>
    cases fuel with
    | zero => rfl
    | succ fuel => rw [chainWithin, chainWithin, hroot]
  | child hp _ ih =>
    cases fuel with
    | zero => omega
    | succ fuel => simp only [chainWithin, hp, ih (Nat.le_of_succ_le_succ hfuel)]

theorem Depth.nodup_chainWithin (h : t.Depth id n) : (t.chainWithin n id).Nodup := by
  induction h with
  | root => exact List.nodup_singleton _
  | @child id p n hp h ih =>
    rw [chainWithin, hp]
    refine List.nodup_cons.mpr ⟨fun hmem => ?_, ih⟩
    obtain ⟨m, hm, hdepth⟩ := h.of_mem_chainWithin hmem
    have := hdepth.unique (.child hp h)
    omega

theorem Depth.length_chainWithin (h : t.Depth id n) : (t.chainWithin n id).length = n + 1 := by
  induction h with
  | root => rfl
  | child hp _ ih => rw [chainWithin, hp, List.length_cons, ih]

/-- All but the last have a parent. -/
theorem Depth.lt_size_of_mem (h : t.Depth id n) : ∀ other ∈ (t.chainWithin n id).dropLast,
    other < t.size := by
  induction h with
  | root => exact nofun
  | @child id p n hp h ih =>
    intro other hother
    have hne : t.chainWithin n p ≠ [] :=
      List.length_pos_iff.mp (h.length_chainWithin ▸ Nat.succ_pos n)
    rw [chainWithin, hp, List.dropLast_cons_of_ne_nil hne] at hother
    rcases List.mem_cons.mp hother with rfl | hother
    · exact Preservation.lt_size_of_parent hp
    · exact ih other hother

/-- The way outward from a scope has room in the tree. -/
theorem Depth.le_size (h : t.Depth id n) : n ≤ t.size := by
  have hsub : (t.chainWithin n id).dropLast ⊆ List.range t.size := fun other hother =>
    List.mem_range.mpr (h.lt_size_of_mem other hother)
  have hnodup := h.nodup_chainWithin.sublist (List.dropLast_sublist _)
  have hle := (List.subperm_of_subset hnodup hsub).length_le
  rw [List.length_dropLast, h.length_chainWithin, List.length_range] at hle
  exact hle

/-- Around a child are the child and what is around its parent. -/
theorem Depth.chain_child (h : t.Depth p n) (hp : t.parent? id = some p) :
    t.chain id = id :: t.chain p := by
  calc t.chain id
    _ = t.chainWithin (n + 1) id := (Depth.child hp h).chainWithin_eq (Depth.child hp h).le_size
    _ = id :: t.chainWithin n p := by simp only [chainWithin, hp]
    _ = id :: t.chain p := by rw [chain, h.chainWithin_eq h.le_size]

/-- No scope is around itself. -/
theorem Depth.chain_eq_cons (h : t.Depth id n) :
    ∃ outer, t.chain id = id :: outer ∧ id ∉ outer := by
  cases h with
  | root hroot => exact ⟨[], (Depth.root hroot).chainWithin_eq (Nat.zero_le _), List.not_mem_nil⟩
  | child hp h => exact ⟨_, h.chain_child hp, h.notMem_chain (.child hp h) (Nat.lt_succ_self _)⟩

theorem chain_eq_cons (t : ScopeTree) (id : ScopeId) : ∃ outer, t.chain id = id :: outer := by
  unfold chain
  cases t.size with
  | zero => exact ⟨[], rfl⟩
  | succ fuel =>
    rw [chainWithin]
    split
    · exact ⟨_, rfl⟩
    · exact ⟨[], rfl⟩

end ScopeTree

end ClassGen
