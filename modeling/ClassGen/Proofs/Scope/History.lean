import ClassGen.Proofs.Scope.Lookup

/-! Trees of scopes over their whole life: the new tree, and then any scopes, declarations and
bindings in any order. What a scope is under and what it calls a name are told by the changes alone,
latest first, and a name means in a scope what the changes say of the nearest scope that has it. -/

namespace ClassGen.ScopeTree

/-- How a tree of so many scopes was made, change by change. A scope is made under one that exists.
Names may be declared, and signatures bound as those of the prelude are, in any, to no effect in one
that does not exist by then. -/
inductive History : Nat → Type
  | new : History 1
  | child {n : Nat} (before : History n) (parent : Fin n) : History (n + 1)
  | define {n : Nat} (before : History n) (scope : ScopeId) (name : String) (type : Ty) : History n
  | bind {n : Nat} (before : History n) (sigs : List Signature) (scope : ScopeId) : History n

namespace History

variable {n : Nat}

def tree : {n : Nat} → History n → ScopeTree
  | _, .new => {}
  | _, .child before parent => (before.tree.child parent).2
  | _, .define before scope name type => before.tree.define scope name type
  | _, .bind before sigs scope => Prelude.bindAll sigs before.tree scope

/-- The scope that `id` was made under. -/
def outer? : {n : Nat} → History n → ScopeId → Option ScopeId
  | _, .new, _ => none
  | _, @child n before parent, id => if id = n then some parent else before.outer? id
  | _, .define before _ _ _, id | _, .bind before _ _, id => before.outer? id

/-- The type that the latest change of it gave to `name` in `id`. A binding changes only names that
have no type yet, and takes the first of its signatures. -/
def latest? : {n : Nat} → History n → ScopeId → String → Option Ty
  | _, .new, _, _ => none
  | _, .child before _, id, name => before.latest? id name
  | n, .define before scope key type, id, name =>
    if id = scope ∧ name = key ∧ scope < n then some type else before.latest? id name
  | n, .bind before sigs scope, id, name =>
    (before.latest? id name).or
      (if id = scope ∧ scope < n then (sigs.find? (·.name = name)).map .function else none)

@[simp] theorem size_tree (h : History n) : h.tree.size = n := by
  induction h with
  | new => rfl
  | child before parent ih => rw [tree, size_child, ih]
  | define before scope name type ih => rw [tree, size_define, ih]
  | bind before sigs scope ih => rw [tree, size_bindAll, ih]

theorem parent?_tree (h : History n) (id : ScopeId) : h.tree.parent? id = h.outer? id := by
  induction h with
  | new => cases id <;> rfl
  | child before parent ih => rw [tree, parent?_child, size_tree, ih, outer?]
  | define before scope name type ih => rw [tree, parent?_define, ih, outer?]
  | bind before sigs scope ih => rw [tree, parent?_bindAll, ih, outer?]

theorem own?_tree (h : History n) (id : ScopeId) (name : String) :
    h.tree.own? id name = h.latest? id name := by
  induction h with
  | new => cases id <;> rfl
  | child before parent ih => rw [tree, own?_child, ih, latest?]
  | define before scope key type ih => rw [tree, own?_define, size_tree, ih, latest?]
  | bind before sigs scope ih => rw [tree, own?_bindAll, size_tree, ih, latest?]

theorem outer?_lt (h : History n) {id p : ScopeId} (hp : h.outer? id = some p) : p < id := by
  induction h with
  | new => cases hp
  | child before parent ih =>
    rw [outer?] at hp
    split_ifs at hp with hid
    · cases hp
      exact hid ▸ parent.isLt
    · exact ih hp
  | define before scope name type ih => exact ih hp
  | bind before sigs scope ih => exact ih hp

theorem ordered (h : History n) : h.tree.Ordered := fun id _ hp =>
    h.outer?_lt (parent?_tree h id ▸ hp)

/-- Of every tree that was made from the new one by scopes under existing scopes, declarations and
bindings: a scope is under the one it was made under, which has a smaller number, so that a search
ends from any scope, whether it exists or not, and ends with what is looked up. That is the latest
type of the name in the nearest scope that has it, or nothing if no scope on the way outward has it.
A declaration changes what is looked up for its own name only, and only from scopes that come to its
scope before any other with the name; there it is what is found. A binding changes nothing that is
looked up for a name which its scope or a nearer one has. -/
theorem lookup_lexical (h : History n) :
    (∀ id, h.tree.parent? id = h.outer? id ∧ (∀ p, h.tree.parent? id = some p → p < id) ∧
      ∀ name, h.tree.own? id name = h.latest? id name) ∧
    (∀ id name, (Search.turn h.tree name)^[id + 1] (.standing id) =
      .ended (h.tree.lookup id name)) ∧
    (∀ id name,
      (∀ type, h.tree.lookup id name = some type ↔ ∃ d, h.tree.Sees name d id ∧ h.latest? d name =
        some type) ∧
      (h.tree.lookup id name = none ↔ ∀ d, h.tree.Reaches id d → h.latest? d name = none)) ∧
    (∀ scope key type id name,
      ((h.tree.define scope key type).lookup id name ≠ h.tree.lookup id name →
        name = key ∧ scope < n ∧ h.tree.Sees key scope id) ∧
      (scope < n → h.tree.Sees key scope id → (h.tree.define scope key type).lookup id key =
        some type)) ∧
    ∀ sigs scope id name,
      (h.latest? scope name ≠ none ∨
        ∃ x, h.tree.Reaches id x ∧ h.tree.Reaches x scope ∧ h.latest? x name ≠ none) →
      (Prelude.bindAll sigs h.tree scope).lookup id name = h.tree.lookup id name := by
  have hordered := h.ordered
  refine ⟨fun id => ⟨h.parent?_tree id, fun p hp => hordered hp, h.own?_tree id⟩,
    fun id name => hordered.turns name (Nat.le_refl id), fun id name => ⟨fun type => ?_, ?_⟩,
    fun scope key type id name => ⟨fun hne => ?_, fun hlt hs => ?_⟩,
    fun sigs scope id name hknown => ?_⟩
  · simp only [← h.own?_tree]
    exact hordered.lookup_eq_some_iff
  · simp only [← h.own?_tree]
    exact hordered.lookup_eq_none_iff
  · obtain ⟨hname, hlt, hs⟩ := hordered.sees_of_lookup_define_ne hne
    exact ⟨hname, h.size_tree ▸ hlt, hs⟩
  · exact hordered.lookup_define_of_sees (h.size_tree.symm ▸ hlt) hs
  · simp only [← h.own?_tree] at hknown
    exact hordered.lookup_bindAll sigs hknown

/-- Scope two is in scope one, and that in the root, where `x` is declared twice. -/
def nestedHistory : History 3 :=
  let root := (new.define 0 "x" .int).define 0 "print" .int
  (((root.child 0).child 1).define 2 "x" .double).define 0 "x" .boolean

/-- From scope one the `x` of the root is seen; from scope two `x` is its own, and `print` is no
function. -/
theorem lookup_lexical_nested :
    nestedHistory.tree.lookup 2 "x" = some .double ∧ nestedHistory.tree.lookup 1 "x" =
      some .boolean ∧
    nestedHistory.tree.lookup 7 "x" = none ∧
    (nestedHistory.tree.Sees "x" 0 1 ∧ (nestedHistory.tree.define 0 "x" .string).lookup 1 "x" =
      some .string) ∧
    nestedHistory.latest? 0 "print" ≠ none ∧
    (Prelude.bindInto Prelude.defaultOwner nestedHistory.tree 0).lookup 2 "print" = some .int := by
  obtain ⟨-, -, hlookup, hdefine, hbind⟩ := lookup_lexical nestedHistory
  have hx : nestedHistory.tree.Sees "x" 0 1 := .outward rfl rfl .here
  have hprint : nestedHistory.tree.Sees "print" 0 2 := .outward rfl rfl (.outward rfl rfl .here)
  have hknown : nestedHistory.latest? 0 "print" = some .int := rfl
  have hchanged : (nestedHistory.tree.define 0 "x" .string).lookup 1 "x" ≠
      nestedHistory.tree.lookup 1 "x" := by
    decide +kernel
  refine ⟨((hlookup 2 "x").1 _).mpr ⟨2, .here, rfl⟩, ((hlookup 1 "x").1 _).mpr ⟨0, hx, rfl⟩,
    (hlookup 7 "x").2.mpr fun d hd => ?_,
    ⟨((hdefine 0 "x" .string 1 "x").1 hchanged).2.2, ?_⟩, by simp [hknown], ?_⟩
  · obtain rfl | ⟨p, hp, -⟩ := reaches_iff.mp hd
    · rfl
    · cases hp
  · exact (hdefine 0 "x" .string 1 "x").2 (by decide) hx
  · rw [Prelude.bindInto, hbind _ 0 2 "print" (.inl (by simp [hknown]))]
    exact ((hlookup 2 "print").1 _).mpr ⟨0, hprint, hknown⟩

end History

end ClassGen.ScopeTree
