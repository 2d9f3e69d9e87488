import Mathlib.Logic.Function.Iterate
import Mathlib.Logic.Relation
import ClassGen.Proofs.Scoping.Resolver

/-! Looking a name up in a tree whose scopes are numbered from the outside in. A search goes from
scope to parent until a scope has the name or there is no parent. It ends, since the numbers on its
way fall. What it finds depends on no scope behind the first one that has the name, so that a
declaration is seen from a scope exactly if no scope on the way to it has the name. -/

namespace ClassGen.ScopeTree

variable {t u : ScopeTree} {id p target other : ScopeId} {name : String} {type : Ty}

/-! ### Trees after a change -/

theorem own?_of_size_le (h : t.size ≤ id) (name : String) : t.own? id name = none := by
  rw [own?, Array.getElem?_eq_none h, Option.bind_none]

@[simp] theorem size_child (t : ScopeTree) (parent : ScopeId) :
    (t.child parent).2.size = t.size + 1 :=
  Array.size_push _

theorem scope_child (t : ScopeTree) (parent id : ScopeId) :
    (t.child parent).2.scopes[id]? = if id = t.size then some { parent := some parent }
      else t.scopes[id]? :=
  Array.getElem?_push

theorem parent?_child (t : ScopeTree) (parent id : ScopeId) :
    (t.child parent).2.parent? id = if id = t.size then some parent else t.parent? id := by
  unfold parent?
  rw [scope_child]
  split_ifs <;> rfl

theorem own?_child (t : ScopeTree) (parent id : ScopeId) (name : String) :
    (t.child parent).2.own? id name = t.own? id name := by
  unfold own?
  rw [scope_child]
  split_ifs with hid
  · rw [Array.getElem?_eq_none (Nat.le_of_eq hid.symm), Option.bind_some, List.lookup_nil,
      Option.bind_none]
  · rfl

@[simp] theorem size_define (t : ScopeTree) (scope : ScopeId) (name : String) (type : Ty) :
    (t.define scope name type).size = t.size := Array.size_modify

theorem own?_define (t : ScopeTree) (scope : ScopeId) (name : String) (type : Ty) (id : ScopeId)
    (other : String) :
    (t.define scope name type).own? id other =
      if id = scope ∧ other = name ∧ scope < t.size then some type else t.own? id other := by
  by_cases hid : id = scope
  · subst hid
    by_cases hlt : id < t.size
    · obtain ⟨s, hs⟩ : ∃ s, t.scopes[id]? = some s := ⟨_, Array.getElem?_eq_getElem hlt⟩
      simp only [define, own?, Array.getElem?_modify, hs, Option.map_some,
        Option.bind_some, if_true, Dict.lookup_insert, true_and, and_iff_left hlt]
    · rw [own?_of_size_le
        (by simpa using hlt), if_neg (fun h => hlt h.2.2), own?_of_size_le (Nat.le_of_not_lt hlt)]
  · unfold define own?
    rw [Array.getElem?_modify, if_neg (Ne.symm hid), if_neg (fun h => hid h.1)]

theorem own?_define_of_ne {scope : ScopeId} {key : String} (hid : id ≠ scope) :
    (t.define scope key type).own? id name = t.own? id name := by
  rw [own?_define, if_neg (fun h => hid h.1)]

theorem bindAll_cons (sig : Signature) (sigs : List Signature) (t : ScopeTree) (scope : ScopeId) :
    Prelude.bindAll (sig :: sigs) t scope = Prelude.bindAll sigs (Prelude.bindAll [sig] t scope)
      scope := rfl

theorem bindAll_singleton (sig : Signature) (t : ScopeTree) (scope : ScopeId) :
    Prelude.bindAll [sig] t scope =
      if t.declares scope sig.name then t else t.define scope sig.name (.function sig) := rfl

@[simp] theorem size_bindAll (sigs : List Signature) (t : ScopeTree) (scope : ScopeId) :
    (Prelude.bindAll sigs t scope).size = t.size := by
  induction sigs generalizing t with
  | nil => rfl
  | cons sig sigs ih =>
    rw [bindAll_cons, ih, bindAll_singleton]
    split_ifs
    · rfl
    · exact size_define ..

theorem own?_bindAll_singleton (sig : Signature) (t : ScopeTree) (scope id : ScopeId)
    (name : String) :
    (Prelude.bindAll [sig] t scope).own? id name = (t.own? id name).or
      (if id = scope ∧ scope < t.size ∧ sig.name = name then some (.function sig) else none) := by
  rw [bindAll_singleton]
  by_cases hhere : id = scope ∧ scope < t.size ∧ sig.name = name
  · obtain ⟨rfl, hlt, rfl⟩ := hhere
    cases hown : t.own? id sig.name <;> simp [declares, hown, own?_define, hlt]
  · rw [if_neg hhere, Option.or_none]
    split_ifs
    · rfl
    · rw [own?_define, if_neg (fun h => hhere ⟨h.1, h.2.2, h.2.1.symm⟩)]

/-- The first signature of the name is declared, if the scope gives the name no other type. -/
theorem own?_bindAll (sigs : List Signature) (t : ScopeTree) (scope id : ScopeId) (name : String) :
    (Prelude.bindAll sigs t scope).own? id name = (t.own? id name).or
      (if id = scope ∧ scope < t.size then (sigs.find? (·.name = name)).map .function
        else none) := by
  induction sigs generalizing t with
  | nil => simp [Prelude.bindAll]
  | cons sig sigs ih =>
    rw [bindAll_cons, ih, own?_bindAll_singleton, size_bindAll, Option.or_assoc, List.find?_cons]
    by_cases hhere : id = scope ∧ scope < t.size
    · by_cases hname : sig.name = name <;> simp [hhere, hname]
    · rw [if_neg hhere, if_neg hhere, if_neg (fun h => hhere ⟨h.1, h.2.1⟩), Option.or_none]

/-! ### Scopes numbered from the outside in -/

/-- Every scope has a larger number than the one around it. -/
def Ordered (t : ScopeTree) : Prop := ∀ ⦃id p : ScopeId⦄, t.parent? id = some p → p < id

namespace Ordered

/-- What passes from the scope around to a scope holds of all. -/
theorem outward (h : t.Ordered) {motive : ScopeId → Prop}
    (step : ∀ id, (∀ p, t.parent? id = some p → motive p) → motive id) (id : ScopeId) :
    motive id := by
  induction id using Nat.strongRecOn with
  | ind id ih => exact step id fun p hp => ih p (h hp)

theorem depth (h : t.Ordered) (id : ScopeId) : ∃ n, t.Depth id n := by
  induction id using h.outward with
  | step id ih =>
    cases hp : t.parent? id with
    | none => exact ⟨0, .root hp⟩
    | some p =>
      obtain ⟨n, hn⟩ := ih p hp
      exact ⟨n + 1, .child hp hn⟩

/-- A scope answers for itself, and for what it does not have its parent does. -/
theorem lookup_eq (h : t.Ordered) (id : ScopeId) (name : String) :
    t.lookup id name = (t.own? id name).or ((t.parent? id).bind fun p => t.lookup p name) := by
  cases hp : t.parent? id with
  | none =>
    have hchain : t.chain id = [id] := (Depth.root hp).chainWithin_eq (Nat.zero_le _)
    rw [lookup, hchain, List.findSome?_singleton, Option.bind_none, Option.or_none]
  | some p =>
    obtain ⟨n, hn⟩ := h.depth p
    rw [lookup, hn.chain_child hp, List.findSome?_cons, Option.bind_some, lookup]
    cases t.own? id name <;> rfl

end Ordered

/-! ### Searches -/

/-- A search for a name: on its way, at a scope, or ended with an answer. -/
inductive Search where
  | standing (id : ScopeId)
  | ended (answer : Option Ty)

/-- One turn of a search: it ends at a scope that has the name or has no parent, and goes on to the
parent otherwise. -/
def Search.turn (t : ScopeTree) (name : String) : Search → Search
  | .standing id =>
    match t.own? id name, t.parent? id with
    | some type, _ => .ended (some type)
    | none, some p => .standing p
    | none, none => .ended none
  | .ended answer => .ended answer

/-- From a scope on, a search ends within as many turns as there are numbers up to that of the
scope. -/
theorem Ordered.turns (h : t.Ordered) (name : String) {k : Nat} (hk : id ≤ k) :
    (Search.turn t name)^[k + 1] (.standing id) = .ended (t.lookup id name) := by
  have hended (answer : Option Ty) (k : Nat) : (Search.turn t name)^[k] (.ended answer) =
      .ended answer :=
    Function.iterate_fixed rfl k
  induction id using h.outward generalizing k with
  | step id ih =>
    rw [Function.iterate_succ_apply, h.lookup_eq]
    cases hown : t.own? id name with
    | some type => simp only [Search.turn, hown, hended, Option.some_or]
    | none =>
      cases hp : t.parent? id with
      | none => simp only [Search.turn, hown, hp, hended, Option.bind_none, Option.or_none]
      | some p =>
        -- The number falls with each turn on the way, and one turn is left for the end.
        have hlt : p < k := Nat.lt_of_lt_of_le (h hp) hk
        obtain ⟨k, rfl⟩ := Nat.exists_eq_succ_of_ne_zero (Nat.ne_zero_of_lt hlt)
        have hrest := ih p hp (Nat.le_of_lt_succ hlt)
        simpa only [Search.turn, hown, hp, Option.bind_some, Option.none_or] using hrest

/-! ### The way outward -/

/-- `outer` is `id` or on the way outward from it. -/
def Reaches (t : ScopeTree) (id outer : ScopeId) : Prop :=
  Relation.ReflTransGen (fun inner outer => t.parent? inner = some outer) id outer

/-- The way outward from a scope comes to `target` before any other scope that has the name. -/
inductive Sees (t : ScopeTree) (name : String) (target : ScopeId) : ScopeId → Prop
  | here : Sees t name target target
  | outward {id p : ScopeId} (hown : t.own? id name = none) (hp : t.parent? id = some p)
      (h : Sees t name target p) : Sees t name target id

theorem reaches_iff : t.Reaches id other ↔ other = id ∨ ∃ p,
    t.parent? id = some p ∧ t.Reaches p other := by
  rw [Reaches, Relation.ReflTransGen.cases_head_iff, eq_comm]
  rfl

theorem Sees.reaches (hs : t.Sees name target id) : t.Reaches id target := by
  induction hs with
  | here => exact .refl
  | outward _ hp _ ih => exact .head hp ih

namespace Ordered

theorem le_of_reaches (h : t.Ordered) (hr : t.Reaches id other) : other ≤ id := by
  induction hr with
  | refl => exact Nat.le_refl _
  | tail _ hp ih => exact Nat.le_of_lt (Nat.lt_of_lt_of_le (h hp) ih)

theorem lookup_of_sees (h : t.Ordered) (hs : t.Sees name target id) :
    t.lookup id name = t.lookup target name := by
  induction hs with
  | here => rfl
  | outward hown hp _ ih => rw [h.lookup_eq, hown, hp, Option.none_or, Option.bind_some, ih]

/-- The type is the one that the nearest scope with the name gives it. -/
theorem lookup_eq_some_iff (h : t.Ordered) :
    t.lookup id name = some type ↔ ∃ d, t.Sees name d id ∧ t.own? d name = some type := by
  constructor
  · intro hlookup
    induction id using h.outward with
    | step id ih =>
      rw [h.lookup_eq] at hlookup
      cases hown : t.own? id name with
      | some found =>
        rw [hown, Option.some_or] at hlookup
        exact ⟨id, .here, hown.trans hlookup⟩
      | none =>
        rw [hown, Option.none_or] at hlookup
        obtain ⟨p, hp, hlookup⟩ := Option.bind_eq_some_iff.mp hlookup
        obtain ⟨d, hs, hd⟩ := ih p hp hlookup
        exact ⟨d, .outward hown hp hs, hd⟩
  · rintro ⟨d, hs, hown⟩
    rw [h.lookup_of_sees hs, h.lookup_eq, hown, Option.some_or]

theorem lookup_eq_none_iff (h : t.Ordered) :
    t.lookup id name = none ↔ ∀ d, t.Reaches id d → t.own? d name = none := by
  induction id using h.outward with
  | step id ih =>
    rw [h.lookup_eq, Option.or_eq_none_iff, Option.bind_eq_none_iff]
    constructor
    · rintro ⟨hown, hparent⟩ d hd
      obtain rfl | ⟨p, hp, hd⟩ := reaches_iff.mp hd
      · exact hown
      · exact (ih p hp).mp (hparent p hp) d hd
    · intro hnone
      refine ⟨hnone id .refl, fun p hp => (ih p hp).mpr fun d hd => ?_⟩
      exact hnone d (.head hp hd)

/-- Between a scope and one that it sees, no scope has the name. -/
theorem own?_of_sees (h : t.Ordered) (hs : t.Sees name target id) (hid : t.Reaches id other)
    (hother : t.Reaches other target) (hne : other ≠ target) : t.own? other name = none := by
  induction hs with
  | here => exact absurd (Nat.le_antisymm (h.le_of_reaches hid) (h.le_of_reaches hother)) hne
  | outward hown hp _ ih =>
    obtain rfl | ⟨p, hp', hid⟩ := reaches_iff.mp hid
    · exact hown
    · cases hp.symm.trans hp'
      exact ih hid

/-! ### Trees that differ in one scope -/

theorem of_parents (h : t.Ordered) (hparent : ∀ id, u.parent? id = t.parent? id) : u.Ordered :=
  fun id _ hp => h (hparent id ▸ hp)

/-- A change in one scope leaves alone what is found without it. -/
theorem lookup_congr (h : t.Ordered) (hparent : ∀ id, u.parent? id = t.parent? id)
    (hown : ∀ id, id ≠ target → u.own? id name = t.own? id name)
    (htarget : t.Sees name target id → u.own? target name = t.own? target name) :
    u.lookup id name = t.lookup id name := by
  have hu := h.of_parents hparent
  induction id using h.outward with
  | step id ih =>
    have hid : u.own? id name = t.own? id name := by
      by_cases hid : id = target
      · subst hid
        exact htarget .here
      · exact hown id hid
    rw [h.lookup_eq, hu.lookup_eq, hid, hparent]
    cases hnone : t.own? id name with
    | some type => rfl
    | none =>
      cases hp : t.parent? id with
      | none => rfl
      | some p => exact ih p hp fun hs => htarget (.outward hnone hp hs)

/-- A scope is seen after a change in it from where it was seen before. -/
theorem sees_congr (h : t.Ordered) (hparent : ∀ id, u.parent? id = t.parent? id)
    (hown : ∀ id, id ≠ target → u.own? id name = t.own? id name) (hs : t.Sees name target id) :
    u.Sees name target id := by
  induction hs with
  | here => exact .here
  | @outward id p hnone hp hs ih =>
    have hne : id ≠ target := Nat.ne_of_gt (Nat.lt_of_le_of_lt (h.le_of_reaches hs.reaches) (h hp))
    exact .outward ((hown id hne).trans hnone) (hparent id ▸ hp) ih

variable {scope : ScopeId} {key : String}

/-- A declaration changes no other name, and its own only where its scope is seen. -/
theorem sees_of_lookup_define_ne (h : t.Ordered)
    (hne : (t.define scope key type).lookup id name ≠ t.lookup id name) :
    name = key ∧ scope < t.size ∧ t.Sees key scope id := by
  have hchanged : ¬(t.Sees name scope id → (t.define scope key type).own? scope name =
      t.own? scope name) := by
    intro htarget
    exact hne (h.lookup_congr (parent?_define t scope key type)
      (fun id => own?_define_of_ne) htarget)
  obtain ⟨hs, hown⟩ := Classical.not_imp.mp hchanged
  rw [own?_define, ite_eq_right_iff, Classical.not_imp] at hown
  obtain ⟨⟨-, rfl, hlt⟩, -⟩ := hown
  exact ⟨rfl, hlt, hs⟩

theorem lookup_define_of_sees (h : t.Ordered) (hlt : scope < t.size) (hs : t.Sees name scope id) :
    (t.define scope name type).lookup id name = some type := by
  have hparent := parent?_define t scope name type
  have hsees : (t.define scope name type).Sees name scope id :=
    h.sees_congr hparent (fun id => own?_define_of_ne) hs
  refine (h.of_parents hparent).lookup_eq_some_iff.mpr ⟨scope, hsees, ?_⟩
  rw [own?_define, if_pos ⟨rfl, rfl, hlt⟩]

/-- Signatures bound in a scope are not found before a meaning that the name has there or nearer. -/
theorem lookup_bindAll (h : t.Ordered) (sigs : List Signature)
    (hknown : t.own? scope name ≠ none ∨ ∃ x, t.Reaches id x ∧ t.Reaches x scope ∧
      t.own? x name ≠ none) :
    (Prelude.bindAll sigs t scope).lookup id name = t.lookup id name := by
  refine h.lookup_congr (parent?_bindAll sigs t scope)
    (fun id (hid : id ≠ scope) => ?_) fun hs => ?_
  · rw [own?_bindAll, if_neg (fun hat => hid hat.1), Option.or_none]
  · have hscope : t.own? scope name ≠ none := by
      rcases hknown with hknown | ⟨x, hid, hx, hknown⟩
      · exact hknown
      · obtain rfl : x = scope := by
          by_contra hne
          exact hknown (h.own?_of_sees hs hid hx hne)
        exact hknown
    obtain ⟨found, hfound⟩ := Option.ne_none_iff_exists'.mp hscope
    rw [own?_bindAll, hfound, Option.some_or]

end Ordered

end ClassGen.ScopeTree
