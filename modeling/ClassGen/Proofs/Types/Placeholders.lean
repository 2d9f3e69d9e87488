import ClassGen.Ty.Basic

/-! The placeholders of a type, and what substitution does to them. Substitution reaches every
placeholder, those in the bindings of struct types too; the test for placeholders looks at fewer
places. -/

namespace ClassGen

namespace Ty

mutual

/-- The placeholders that substitution can reach: alone, and inside unions, lists and the bindings
of struct types. -/
def placeholders : Ty → List String
  | generic key => [key]
  | union members => placeholdersOfAll members
  | list element => element.placeholders
  | struct _ bindings => placeholdersOfBound bindings
  | _ => []

def placeholdersOfAll : List Ty → List String
  | [] => []
  | t :: ts => t.placeholders ++ placeholdersOfAll ts

def placeholdersOfBound : Bindings → List String
  | [] => []
  | (_, t) :: rest => t.placeholders ++ placeholdersOfBound rest

end

mutual

/-- Where every placeholder is bound to itself or to nothing, substitution changes nothing. -/
theorem substitute_eq_self {map : Bindings} : ∀ t : Ty,
    (∀ key ∈ t.placeholders, (map.lookup key).getD (generic key) = generic key) →
      t.substitute map = t
  | generic key, h => h key (List.mem_singleton_self key)
  | union members, h => by
    rw [substitute, substituteAll_eq_self members h]
  | list element, h => by
    rw [substitute, substitute_eq_self element h]
  | struct decl bindings, h => by
    rw [substitute, substituteBound_eq_self bindings h]
  | primitive _, _ => rfl
  | external _, _ => rfl
  | function _, _ => rfl

theorem substituteAll_eq_self {map : Bindings} : ∀ ts : List Ty,
    (∀ key ∈ placeholdersOfAll ts, (map.lookup key).getD (generic key) = generic key) →
      substituteAll map ts = ts
  | [], _ => rfl
  | t :: ts, h => by
    rw [substituteAll, substitute_eq_self t fun key hkey => h key (List.mem_append_left _ hkey),
      substituteAll_eq_self ts fun key hkey => h key (List.mem_append_right _ hkey)]

theorem substituteBound_eq_self {map : Bindings} : ∀ bound : Bindings,
    (∀ key ∈ placeholdersOfBound bound, (map.lookup key).getD (generic key) = generic key) →
      substituteBound map bound = bound
  | [], _ => rfl
  | (_, t) :: rest, h => by
    rw [substituteBound, substitute_eq_self t fun key hkey => h key (List.mem_append_left _ hkey),
      substituteBound_eq_self rest fun key hkey => h key (List.mem_append_right _ hkey)]

end

mutual

/-- The placeholders after a substitution are those of what the placeholders before were replaced
by. -/
theorem mem_placeholders_substitute {map : Bindings} {k : String} : ∀ t : Ty,
    k ∈ (t.substitute map).placeholders ↔
      ∃ key ∈ t.placeholders, k ∈ ((map.lookup key).getD (generic key)).placeholders
  | generic key => by simp [substitute, placeholders]
  | union members => mem_placeholders_substituteAll members
  | list element => mem_placeholders_substitute element
  | struct _ bindings => mem_placeholders_substituteBound bindings
  | primitive _ => by simp [substitute, placeholders]
  | external _ => by simp [substitute, placeholders]
  | function _ => by simp [substitute, placeholders]

theorem mem_placeholders_substituteAll {map : Bindings} {k : String} : ∀ ts : List Ty,
    k ∈ placeholdersOfAll (substituteAll map ts) ↔
      ∃ key ∈ placeholdersOfAll ts, k ∈ ((map.lookup key).getD (generic key)).placeholders
  | [] => by simp [substituteAll, placeholdersOfAll]
  | t :: ts => by
    simp only [substituteAll, placeholdersOfAll, List.mem_append, mem_placeholders_substitute t,
      mem_placeholders_substituteAll ts, or_and_right, exists_or]

theorem mem_placeholders_substituteBound {map : Bindings} {k : String} : ∀ bound : Bindings,
    k ∈ placeholdersOfBound (substituteBound map bound) ↔
      ∃ key ∈ placeholdersOfBound bound, k ∈ ((map.lookup key).getD (generic key)).placeholders
  | [] => by simp [substituteBound, placeholdersOfBound]
  | (_, t) :: rest => by
    simp only [substituteBound, placeholdersOfBound, List.mem_append, mem_placeholders_substitute t,
      mem_placeholders_substituteBound rest, or_and_right, exists_or]

end

mutual

/-- A placeholder that the test finds is there. -/
theorem containsGeneric_eq_false : ∀ t : Ty, t.placeholders = [] → t.containsGeneric = false
  | union members, h => anyGeneric_eq_false members h
  | list element, h => containsGeneric_eq_false element h
  | primitive _, _ => rfl
  | struct _ _, _ => rfl
  | external _, _ => rfl
  | function _, _ => rfl

theorem anyGeneric_eq_false : ∀ ts : List Ty, placeholdersOfAll ts = [] → anyGeneric ts = false
  | [], _ => rfl
  | t :: ts, h => by
    obtain ⟨ht, hts⟩ := List.append_eq_nil_iff.mp h
    rw [anyGeneric, containsGeneric_eq_false t ht, anyGeneric_eq_false ts hts]
    rfl

end

variable {t : Ty} {map : Bindings}

theorem substitute_of_placeholders_eq_nil (h : t.placeholders = []) (map : Bindings) :
    t.substitute map = t :=
  substitute_eq_self t fun key hkey => by simp [h] at hkey

@[simp] theorem substitute_nil (t : Ty) : t.substitute [] = t := substitute_eq_self t fun _ _ => rfl

/-- No placeholder is left if each is bound, and to types without placeholders. -/
theorem placeholders_substitute_eq_nil (hbound : ∀ key ∈ t.placeholders, (map.lookup key).isSome)
    (hmap : ∀ b ∈ map, b.2.placeholders = []) : (t.substitute map).placeholders = [] := by
  rw [List.eq_nil_iff_forall_not_mem]
  intro k hk
  obtain ⟨key, hkey, hk⟩ := (mem_placeholders_substitute t).mp hk
  obtain ⟨u, hu⟩ := Option.isSome_iff_exists.mp (hbound key hkey)
  obtain ⟨before, after, heq, -⟩ := List.lookup_eq_some_iff.mp hu
  have hnone : u.placeholders = [] :=
    hmap (key, u) (heq ▸ List.mem_append_right _ List.mem_cons_self)
  rw [hu, Option.getD_some, hnone] at hk
  cases hk

/-- Then only a type without placeholders stays as it is. -/
theorem substitute_eq_self_iff (hbound : ∀ key ∈ t.placeholders, (map.lookup key).isSome)
    (hmap : ∀ b ∈ map, b.2.placeholders = []) : t.substitute map = t ↔ t.placeholders = [] := by
  constructor
  · intro h
    rw [← h]
    exact placeholders_substitute_eq_nil hbound hmap
  · intro h
    exact substitute_of_placeholders_eq_nil h map

/-- Some bindings leave no placeholder. -/
theorem exists_closing (t : Ty) : ∃ map : Bindings, (t.substitute map).placeholders = [] := by
  refine ⟨t.placeholders.map fun key => (key, .int),
    placeholders_substitute_eq_nil (fun key hkey => ?_) ?_⟩
  · generalize t.placeholders = keys at hkey ⊢
    induction keys with
    | nil => cases hkey
    | cons first rest ih =>
      rw [List.map_cons, List.lookup_cons]
      split
      · rfl
      · next hne =>
        rcases List.mem_cons.mp hkey with rfl | hkey
        · simp at hne
        · exact ih hkey
  · intro b hb
    obtain ⟨key, -, rfl⟩ := List.mem_map.mp hb
    rfl

end Ty

/-- `struct Box { value: T }` -/
def sampleBox : StructDef := ⟨"Box", "sample$Box", [("value", .generic "T")]⟩

end ClassGen
