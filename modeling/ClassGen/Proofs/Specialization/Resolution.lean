import ClassGen.Proofs.Types.Placeholders
import ClassGen.Specialization.Call

/-! Types under the bindings of an instantiation. Resolution looks for left-over placeholders inside
unions and lists, and none is left there. Those inside the bindings of struct types it passes over,
so a resolved type is closed exactly if nothing is buried there. -/

namespace ClassGen

namespace Ty

mutual

/-- The placeholders inside unions and lists, from left to right. -/
def exposed : Ty → List String
  | generic key => [key]
  | union members => exposedOfAll members
  | list element => element.exposed
  | _ => []

def exposedOfAll : List Ty → List String
  | [] => []
  | t :: ts => t.exposed ++ exposedOfAll ts

end

mutual

/-- The placeholders inside the bindings of struct types, where only substitution comes. -/
def buried : Ty → List String
  | union members => buriedOfAll members
  | list element => element.buried
  | struct _ bindings => placeholdersOfBound bindings
  | _ => []

def buriedOfAll : List Ty → List String
  | [] => []
  | t :: ts => t.buried ++ buriedOfAll ts

end

mutual

/-- Every placeholder is exposed or buried. -/
theorem mem_placeholders {k : String} : ∀ t : Ty, k ∈ t.placeholders ↔ k ∈ t.exposed ∨ k ∈ t.buried
  | generic key => by simp [placeholders, exposed, buried]
  | union members => mem_placeholdersOfAll members
  | list element => mem_placeholders element
  | struct _ _ => by simp [placeholders, exposed, buried]
  | primitive _ => by simp [placeholders, exposed, buried]
  | external _ => by simp [placeholders, exposed, buried]
  | function _ => by simp [placeholders, exposed, buried]

theorem mem_placeholdersOfAll {k : String} : ∀ ts : List Ty,
    k ∈ placeholdersOfAll ts ↔ k ∈ exposedOfAll ts ∨ k ∈ buriedOfAll ts
  | [] => by simp [placeholdersOfAll, exposedOfAll, buriedOfAll]
  | t :: ts => by
    simp only [placeholdersOfAll, exposedOfAll, buriedOfAll, List.mem_append, mem_placeholders t,
      mem_placeholdersOfAll ts]
    exact or_or_or_comm

end

mutual

/-- The search finds the first exposed placeholder. -/
theorem placeholder?_eq : ∀ t : Ty, t.placeholder? = t.exposed.head?
  | generic _ => rfl
  | union members => firstPlaceholder?_eq members
  | list element => placeholder?_eq element
  | struct _ _ => rfl
  | primitive _ => rfl
  | external _ => rfl
  | function _ => rfl

theorem firstPlaceholder?_eq : ∀ ts : List Ty, firstPlaceholder? ts = (exposedOfAll ts).head?
  | [] => rfl
  | t :: ts => by
    rw [firstPlaceholder?, exposedOfAll, List.head?_append, placeholder?_eq t,
      firstPlaceholder?_eq ts]

end

variable {map : Bindings}

mutual

/-- Exposed after a substitution is what was exposed in the types put in. -/
theorem exposed_substitute : ∀ t : Ty,
    (t.substitute map).exposed = t.exposed.flatMap fun key =>
      ((map.lookup key).getD (generic key)).exposed
  | generic key => by simp [substitute, exposed]
  | union members => exposedOfAll_substituteAll members
  | list element => exposed_substitute element
  | struct _ _ => rfl
  | primitive _ => rfl
  | external _ => rfl
  | function _ => rfl

theorem exposedOfAll_substituteAll : ∀ ts : List Ty, exposedOfAll (substituteAll map ts) =
    (exposedOfAll ts).flatMap fun key => ((map.lookup key).getD (generic key)).exposed
  | [] => rfl
  | t :: ts => by
    simp only [substituteAll, exposedOfAll, List.flatMap_append, exposed_substitute t,
      exposedOfAll_substituteAll ts]

end

mutual

/-- Buried after a substitution is what was buried in a type put in where a placeholder was exposed,
and all placeholders of a type put in where one was buried. -/
theorem mem_buried_substitute {k : String} : ∀ t : Ty, k ∈ (t.substitute map).buried ↔
    (∃ key ∈ t.exposed, k ∈ ((map.lookup key).getD (generic key)).buried) ∨
      ∃ key ∈ t.buried, k ∈ ((map.lookup key).getD (generic key)).placeholders
  | generic key => by simp [substitute, exposed, buried]
  | union members => mem_buriedOfAll_substituteAll members
  | list element => mem_buried_substitute element
  | struct _ bindings => by
    simpa [substitute, exposed, buried] using mem_placeholders_substituteBound bindings
  | primitive _ => by simp [substitute, exposed, buried]
  | external _ => by simp [substitute, exposed, buried]
  | function _ => by simp [substitute, exposed, buried]

theorem mem_buriedOfAll_substituteAll {k : String} : ∀ ts :
    List Ty, k ∈ buriedOfAll (substituteAll map ts) ↔
    (∃ key ∈ exposedOfAll ts, k ∈ ((map.lookup key).getD (generic key)).buried) ∨
      ∃ key ∈ buriedOfAll ts, k ∈ ((map.lookup key).getD (generic key)).placeholders
  | [] => by simp [substituteAll, exposedOfAll, buriedOfAll]
  | t :: ts => by
    simp only [substituteAll, exposedOfAll, buriedOfAll, List.mem_append, mem_buried_substitute t,
      mem_buriedOfAll_substituteAll ts, or_and_right, exists_or]
    exact or_or_or_comm

end

/-- A type is closed if it has no placeholder that a substitution could reach. -/
theorem substitute_eq_self_forall_iff {t : Ty} : (∀ m : Bindings, t.substitute m = t) ↔
    t.placeholders = [] := by
  constructor
  · intro h
    obtain ⟨m, hclosed⟩ := t.exists_closing
    rwa [h m] at hclosed
  · exact substitute_of_placeholders_eq_nil

theorem placeholders_eq_nil_iff {t : Ty} :
    t.placeholders = [] ↔ t.exposed = [] ∧ t.buried = [] := by
  simp only [List.eq_nil_iff_forall_not_mem, mem_placeholders, not_or, forall_and]

end Ty

namespace Specialization

variable {map : Bindings} {t : Ty}

theorem resolve_eq_ok {u : Ty} : resolve map t = .ok u ↔ t.substitute map = u ∧ u.exposed = [] := by
  unfold resolve
  simp only [Ty.placeholder?_eq]
  cases hexposed : (t.substitute map).exposed with
  | nil =>
    simp only [List.head?_nil, Except.ok.injEq]
    exact ⟨fun h => ⟨h, h ▸ hexposed⟩, And.left⟩
  | cons key rest =>
    simp only [List.head?_cons, reduceCtorEq, false_iff]
    rintro ⟨rfl, hnil⟩
    rw [hexposed] at hnil
    cases hnil

/-- No placeholder is left exposed if each one is bound, to a type in which none is exposed. -/
theorem exposed_substitute_eq_nil : (t.substitute map).exposed = [] ↔
    ∀ key ∈ t.exposed, ∃ u, map.lookup key = some u ∧ u.exposed = [] := by
  rw [Ty.exposed_substitute, List.flatMap_eq_nil_iff]
  refine forall₂_congr fun key _ => ?_
  cases map.lookup key with
  | none => simp [Ty.exposed]
  | some u => simp

/-- Nothing is left buried if nothing is buried in the types that exposed placeholders are bound to,
and if those that are buried are bound to closed types. -/
theorem buried_substitute_eq_nil : (t.substitute map).buried = [] ↔
    (∀ key ∈ t.exposed, ∀ u, map.lookup key = some u → u.buried = []) ∧
      ∀ key ∈ t.buried, ∃ u, map.lookup key = some u ∧ u.placeholders = [] := by
  simp only [List.eq_nil_iff_forall_not_mem, Ty.mem_buried_substitute, not_or, not_exists,
    not_and, forall_and]
  refine and_congr ⟨fun h key hkey u hu k hk =>
    h k key hkey (by rwa [hu]), fun h k key hkey hk => ?_⟩
    ⟨fun h key hkey => ?_, fun h k key hkey hk => ?_⟩
  · cases hu : map.lookup key with
    | none => simp [hu, Ty.buried] at hk
    | some u =>
      rw [hu] at hk
      exact h key hkey u hu k hk
  · cases hu : map.lookup key with
    | none => exact absurd (by simp [hu, Ty.placeholders]) (h key key hkey)
    | some u => exact ⟨u, rfl, fun k hk => h k key hkey (by rwa [hu])⟩
  · obtain ⟨u, hu, hclosed⟩ := h key hkey
    rw [hu] at hk
    exact hclosed k hk

/-- A type is resolved exactly if every exposed placeholder is bound, to a type in which none is
exposed, and then to what substitution makes of it. The result is closed, that is no substitution
changes it any more, exactly if also nothing is buried in the types that exposed placeholders are
bound to, and every buried placeholder is bound to a closed type. -/
theorem resolve_closed_iff (map : Bindings) (t : Ty) :
    (∀ u, resolve map t = .ok u ↔
      t.substitute map = u ∧ ∀ key ∈ t.exposed, ∃ bound, map.lookup key = some bound ∧
        bound.exposed = []) ∧
    ∀ u, resolve map t = .ok u →
      ((∀ m : Bindings, u.substitute m = u) ↔
        (∀ key ∈ t.exposed, ∀ bound, map.lookup key = some bound → bound.buried = []) ∧
          ∀ key ∈ t.buried, ∃ bound, map.lookup key = some bound ∧ bound.placeholders = []) := by
  refine ⟨fun u => ?_, fun u h => ?_⟩
  · rw [resolve_eq_ok]
    refine and_congr_right fun hu => ?_
    rw [← hu, exposed_substitute_eq_nil]
  · obtain ⟨rfl, hexposed⟩ := resolve_eq_ok.mp h
    rw [Ty.substitute_eq_self_forall_iff, Ty.placeholders_eq_nil_iff, ← buried_substitute_eq_nil]
    exact and_iff_right hexposed

/-- `T` or a list of boxes of `T`, for integers. -/
theorem resolve_closed_iff_shelf :
    resolve [("T", .int)] (.union [.generic "T", .list (.struct sampleBox [("T", .generic "T")])]) =
        .ok (.union [.int, .list (.struct sampleBox [("T", .int)])]) ∧
      ∀ m : Bindings, (Ty.union [.int, .list (.struct sampleBox [("T", .int)])]).substitute m =
        .union [.int, .list (.struct sampleBox [("T", .int)])] := by
  have hresolve : resolve [("T", .int)]
      (.union [.generic "T", .list (.struct sampleBox [("T", .generic "T")])]) =
      .ok (.union [.int, .list (.struct sampleBox [("T", .int)])]) := rfl
  refine ⟨hresolve, ((resolve_closed_iff _ _).2 _ hresolve).mpr ⟨?_, ?_⟩⟩
  · refine List.forall_mem_singleton.mpr fun bound hbound => ?_
    cases hbound
    rfl
  · exact List.forall_mem_singleton.mpr ⟨.int, rfl, rfl⟩

/-- A box of `T` passes for resolved although nothing is bound, and a later substitution changes it.
-/
theorem resolve_leaves_buried :
    resolve [] (.struct sampleBox [("T", .generic "T")]) =
      .ok (.struct sampleBox [("T", .generic "T")]) ∧
      (Ty.struct sampleBox [("T", .generic "T")]).substitute [("T", .int)] =
        .struct sampleBox [("T", .int)] ∧
      (Ty.struct sampleBox [("T", .generic "T")]).substitute [("T", .int)] ≠ .struct sampleBox
        [("T", .generic "T")] := by
  refine ⟨rfl, rfl, fun h => ?_⟩
  cases h

end Specialization

end ClassGen
