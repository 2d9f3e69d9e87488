import Mathlib.Data.List.Induction
import Mathlib.Data.String.Basic
import ClassGen.Proofs.Dict
import ClassGen.Proofs.Specialization.Resolution

/-! What a call binds. The parameters and the arguments are walked in parallel, and where a
parameter has a placeholder the argument gives it a type. The bindings of a call are all these
pairs, if no two of them disagree, and with them the parameters that gave the pairs become the types
of the arguments. -/

namespace ClassGen

/-! ### Bindings by ascending key -/

namespace Bindings

/-- By ascending key, each key once. -/
def Ascending (map : Bindings) : Prop := map.Pairwise fun a b => a.1 < b.1

variable {map : Bindings} {key : String} {t : Ty}

theorem Ascending.lookup_iff (h : map.Ascending) : map.lookup key = some t ↔ (key, t) ∈ map := by
  induction map with
  | nil => simp
  | cons first rest ih =>
    obtain ⟨k, u⟩ := first
    obtain ⟨hfirst, hrest⟩ := List.pairwise_cons.mp h
    rw [Dict.lookup_cons_if, List.mem_cons, Prod.mk.injEq]
    split_ifs with hk
    · subst hk
      have hout : (key, t) ∉ rest := fun hmem => lt_irrefl key (hfirst (key, t) hmem)
      simp [hout, eq_comm]
    · simp [hk, ih hrest]

theorem Ascending.lookup_eq_none (h : map.Ascending) : map.lookup key = none ↔ ∀ u,
    (key, u) ∉ map := by
  rw [Option.eq_none_iff_forall_ne_some]
  exact forall_congr' fun u => not_congr h.lookup_iff

/-- A pair with a new key comes to those that are there. -/
theorem mem_insert {p : String × Ty} (hnew : ∀ u, (key, u) ∉ map) :
    p ∈ insert key t map ↔ p = (key, t) ∨ p ∈ map := by
  induction map with
  | nil => simp [insert]
  | cons first rest ih =>
    obtain ⟨k, u⟩ := first
    have hk : key ≠ k := fun heq => hnew u (heq ▸ List.mem_cons_self)
    rw [insert]
    split_ifs
    · rw [List.mem_cons]
    · rw [List.mem_cons, ih fun v hv => hnew v (List.mem_cons_of_mem _ hv), List.mem_cons]
      exact or_left_comm

theorem Ascending.insert (h : map.Ascending) (hnew : ∀ u, (key, u) ∉ map) :
    (insert key t map).Ascending := by
  induction map with
  | nil => exact List.pairwise_singleton _ _
  | cons first rest ih =>
    obtain ⟨k, u⟩ := first
    obtain ⟨hfirst, hrest⟩ := List.pairwise_cons.mp h
    have hk : key ≠ k := fun heq => hnew u (heq ▸ List.mem_cons_self)
    have hnew' : ∀ v, (key, v) ∉ rest := fun v hv => hnew v (List.mem_cons_of_mem _ hv)
    rw [Bindings.insert]
    split_ifs with hlt
    · refine List.pairwise_cons.mpr ⟨List.forall_mem_cons.mpr ⟨hlt, fun p hp => ?_⟩, h⟩
      exact hlt.trans (hfirst p hp)
    · refine List.pairwise_cons.mpr ⟨fun p hp => ?_, ih hrest hnew'⟩
      rcases (mem_insert hnew').mp hp with rfl | hp
      · exact lt_of_le_of_ne (not_lt.mp hlt) hk.symm
      · exact hfirst p hp

/-- These bindings are the pairs, no more and no less. -/
structure Holds (map : Bindings) (pairs : List (String × Ty)) : Prop where
  ascending : map.Ascending
  mem_iff : ∀ p, p ∈ map ↔ p ∈ pairs

theorem Holds.lookup_iff {pairs : List (String × Ty)} (h : map.Holds pairs) :
    map.lookup key = some t ↔ (key, t) ∈ pairs := h.ascending.lookup_iff.trans (h.mem_iff _)

theorem Holds.isNone_lookup {pairs : List (String × Ty)} (h : map.Holds pairs) (key : String) :
    (map.lookup key).isNone = decide (key ∉ pairs.map Prod.fst) := by
  rw [Bool.eq_iff_iff, Option.isNone_iff_eq_none, h.ascending.lookup_eq_none, decide_eq_true_iff]
  simp [h.mem_iff]

end Bindings

/-! ### Pairs that agree -/

namespace Specialization

/-- No key has two types. -/
def Agree (pairs : List (String × Ty)) : Prop :=
  ∀ key t u, (key, t) ∈ pairs → (key, u) ∈ pairs → t = u

/-- The pairs before this one agree, and they give its key another type. -/
def FirstConflict (pairs : List (String × Ty)) (key : String) (first second : Ty) : Prop :=
  ∃ before after, pairs = before ++ (key, second) :: after ∧ Agree before ∧ (key, first) ∈ before ∧
    first ≠ second

variable {pairs more : List (String × Ty)} {key : String} {first second : Ty}

theorem Agree.of_append (h : Agree (pairs ++ more)) : Agree pairs :=
  fun key t u ht hu => h key t u (List.mem_append_left _ ht) (List.mem_append_left _ hu)

theorem FirstConflict.not_agree (h : FirstConflict pairs key first second) : ¬ Agree pairs := by
  obtain ⟨before, after, rfl, -, hfirst, hne⟩ := h
  exact fun hagree => hne (hagree key first second (List.mem_append_left _ hfirst)
    (List.mem_append_right _ List.mem_cons_self))

/-- Pairs that do not agree have a first one that disagrees with those before it. -/
theorem exists_firstConflict (h : ¬ Agree pairs) : ∃ key first second,
    FirstConflict pairs key first second := by
  induction pairs using List.reverseRecOn with
  | nil => exact absurd (fun _ _ _ ht _ => absurd ht List.not_mem_nil) h
  | append_singleton before last ih =>
    obtain ⟨key, second⟩ := last
    by_cases hbefore : Agree before
    · by_cases hsame : ∀ first, (key, first) ∈ before → first = second
      · refine absurd (fun k t u ht hu => ?_) h
        simp only [List.mem_append, List.mem_singleton, Prod.mk.injEq] at ht hu
        rcases ht with ht | ⟨rfl, rfl⟩
        · rcases hu with hu | ⟨rfl, rfl⟩
          · exact hbefore k t u ht hu
          · exact hsame t ht
        · rcases hu with hu | ⟨-, rfl⟩
          · exact (hsame u hu).symm
          · rfl
      · push Not at hsame
        obtain ⟨first, hfirst, hne⟩ := hsame
        exact ⟨key, first, second, before, [], rfl, hbefore, hfirst, hne⟩
    · obtain ⟨k, first, other, earlier, after, rfl, hconflict⟩ := ih hbefore
      exact ⟨k, first, other, earlier, after ++ [(key, second)], by simp, hconflict⟩

end Specialization

/-! ### Positions -/

namespace Ty

/-- `n` list layers over a type. -/
def layered : Nat → Ty → Ty
  | 0, t => t
  | n + 1, t => .list (layered n t)

/-- The key and the type that meet when the declared type is walked down to a placeholder, in
parallel with the actual one, through list layers of both. -/
def position? : Ty → Ty → Option (String × Ty)
  | .generic key, actual => some (key, actual)
  | .list declared, .list actual => position? declared actual
  | _, _ => none

variable {declared actual t : Ty} {key : String}

theorem position?_eq_some_iff : declared.position? actual = some (key, t) ↔
    ∃ n, declared = layered n (.generic key) ∧ actual = layered n t := by
  constructor
  · intro h
    fun_induction position? declared actual with
    | case1 k actual =>
      cases h
      exact ⟨0, rfl, rfl⟩
    | case2 declared actual ih =>
      obtain ⟨n, rfl, rfl⟩ := ih h
      exact ⟨n + 1, rfl, rfl⟩
    | case3 => cases h
  · rintro ⟨n, rfl, rfl⟩
    induction n with
    | zero => rfl
    | succ n ih => exact ih

theorem exposed_layered (n : Nat) (t : Ty) : (layered n t).exposed = t.exposed := by
  induction n with
  | zero => rfl
  | succ n ih => exact ih

theorem substitute_layered (map : Bindings) (n : Nat) (t : Ty) :
    (layered n t).substitute map = layered n (t.substitute map) := by
  induction n with
  | zero => rfl
  | succ n ih =>
    rw [layered, substitute, ih]
    rfl

end Ty

namespace Signature

/-- The pairs that a call with these argument types gives, from left to right. -/
def positions (s : Signature) (args : List Ty) : List (String × Ty) :=
  (s.paramTypes.zip args).filterMap fun pair => pair.1.position? pair.2

theorem mem_positions {s : Signature} {args : List Ty} {key : String} {t : Ty} :
    (key, t) ∈ s.positions args ↔
    ∃ (i n : Nat), s.paramTypes[i]? = some (Ty.layered n (.generic key)) ∧
      args[i]? = some (Ty.layered n t) := by
  rw [positions, List.mem_filterMap]
  simp only [Prod.exists, Ty.position?_eq_some_iff, List.mem_iff_getElem?,
    List.getElem?_zip_eq_some]
  constructor
  · rintro ⟨_, _, ⟨i, hparam, harg⟩, n, rfl, rfl⟩
    exact ⟨i, n, hparam, harg⟩
  · rintro ⟨i, n, hparam, harg⟩
    exact ⟨_, _, ⟨i, hparam, harg⟩, n, rfl, rfl⟩

end Signature

/-! ### Entering the pairs -/

namespace Specialization

/-- Binds the key of the pair, or compares the type that it has with the one of the pair. -/
def enter (map : Bindings) (p : String × Ty) : Except SpecializeError Bindings :=
  match map.lookup p.1 with
  | some first => if first = p.2 then .ok map else .error (.conflict p.1 first p.2)
  | none => .ok (Bindings.insert p.1 p.2 map)

theorem bind_eq (declared actual : Ty) (map : Bindings) :
    bind declared actual map = (declared.position? actual).elim (.ok map) (enter map) := by
  fun_induction Ty.position? declared actual with
  | case1 key actual =>
    rw [bind]
    rfl
  | case2 declared actual ih => rw [bind, ih]
  | case3 declared actual hgeneric hlist => rw [bind, Option.elim_none] <;> assumption

/-- Binding all parameters is entering the pairs one after the other. -/
theorem bindAll_eq (declared actual : List Ty) (map : Bindings) : bindAll declared actual map =
    ((declared.zip actual).filterMap fun pair => pair.1.position? pair.2).foldlM enter map := by
  induction declared generalizing actual map with
  | nil => cases actual <;> rfl
  | cons d declared ih =>
    cases actual with
    | nil => rfl
    | cons a actual =>
      rw [bindAll, bind_eq, List.zip_cons_cons, List.filterMap_cons]
      cases d.position? a with
      | none => exact ih actual map
      | some p =>
        simp only [List.foldlM_cons, Option.elim_some]
        cases enter map p with
        | error e => rfl
        | ok next => exact ih actual next

variable {map : Bindings} {pairs : List (String × Ty)} {key : String} {first second : Ty}

/-- A pair that agrees with those before it is entered. -/
theorem enter_holds (hmap : map.Holds pairs) (h : Agree (pairs ++ [(key, second)])) :
    ∃ next, enter map (key, second) = .ok next ∧ next.Holds (pairs ++ [(key, second)]) := by
  unfold enter
  cases hfound : map.lookup key with
  | some first =>
    have hmem := hmap.lookup_iff.mp hfound
    have hsame : first = second := h key first second (List.mem_append_left _ hmem) (by simp)
    refine ⟨map, if_pos hsame, hmap.ascending, fun p => ?_⟩
    rw [hmap.mem_iff, List.mem_append, List.mem_singleton]
    exact ⟨.inl, fun hp => hp.elim id fun hp => hp ▸ hsame ▸ hmem⟩
  | none =>
    have hnew := hmap.ascending.lookup_eq_none.mp hfound
    refine ⟨_, rfl, hmap.ascending.insert hnew, fun p => ?_⟩
    rw [Bindings.mem_insert hnew, hmap.mem_iff, List.mem_append, List.mem_singleton, or_comm]

theorem enter_conflict (hmap : map.Holds pairs) (hfirst : (key, first) ∈ pairs)
    (hne : first ≠ second) : enter map (key, second) = .error (.conflict key first second) := by
  simp only [enter, hmap.lookup_iff.mpr hfirst, if_neg hne]

theorem foldlM_enter_agree (h : Agree pairs) :
    ∃ map, pairs.foldlM enter [] = .ok map ∧ map.Holds pairs := by
  induction pairs using List.reverseRecOn with
  | nil => exact ⟨[], rfl, List.Pairwise.nil, fun _ => Iff.rfl⟩
  | append_singleton before last ih =>
    obtain ⟨map, hrun, hmap⟩ := ih h.of_append
    obtain ⟨next, hnext, hholds⟩ := enter_holds hmap h
    refine ⟨next, ?_, hholds⟩
    rw [List.foldlM_append, hrun]
    simp [hnext, Bind.bind, Except.bind, Pure.pure, Except.pure]

theorem foldlM_enter_conflict (h : FirstConflict pairs key first second) :
    pairs.foldlM enter [] = .error (.conflict key first second) := by
  obtain ⟨before, after, rfl, hagree, hfirst, hne⟩ := h
  obtain ⟨map, hrun, hmap⟩ := foldlM_enter_agree hagree
  rw [List.foldlM_append, hrun]
  simp [enter_conflict hmap hfirst hne, Bind.bind, Except.bind]

/-! ### Types under bindings in which nothing is exposed -/

/-- The first key, of those given, that the bindings leave out. -/
def missing? (map : Bindings) (keys : List String) : Option String := keys.find? fun key =>
    (map.lookup key).isNone

theorem missing?_append (a b : List String) :
    missing? map (a ++ b) = (missing? map a).or (missing? map b) :=
  List.find?_append

variable (hmap : ∀ p ∈ map, p.2.exposed = [])

include hmap

theorem head?_exposed_substitute (t : Ty) :
    (t.substitute map).exposed.head? = missing? map t.exposed := by
  rw [Ty.exposed_substitute, missing?]
  induction t.exposed with
  | nil => rfl
  | cons key keys ih =>
    rw [List.flatMap_cons, List.head?_append, ih, List.find?_cons]
    cases hkey : map.lookup key with
    | none => simp [Ty.exposed]
    | some u =>
      obtain ⟨before, after, heq, -⟩ := List.lookup_eq_some_iff.mp hkey
      have hclosed : u.exposed = [] :=
        hmap (key, u) (heq ▸ List.mem_append_right _ List.mem_cons_self)
      simp [hclosed]

theorem resolve_eq (t : Ty) : resolve map t =
    (missing? map t.exposed).elim (.ok (t.substitute map)) fun key => .error (.unbound key) := by
  unfold resolve
  simp only [Ty.placeholder?_eq, head?_exposed_substitute hmap]
  cases missing? map t.exposed <;> rfl

theorem mapM_resolve_eq (ts : List Ty) : ts.mapM (resolve map) =
    (missing? map (ts.flatMap Ty.exposed)).elim (.ok (ts.map (Ty.substitute map))) fun key =>
      .error (.unbound key) := by
  induction ts with
  | nil => rfl
  | cons t ts ih =>
    rw [List.mapM_cons, List.flatMap_cons, missing?_append, resolve_eq hmap, ih]
    cases missing? map t.exposed with
    | some key => rfl
    | none => cases missing? map (ts.flatMap Ty.exposed) <;> rfl

end Specialization

namespace Signature

open ClassGen.Specialization

/-- The placeholders inside unions and lists of the parameters, from left to right, and then of the
result. -/
def exposed (s : Signature) : List String := s.paramTypes.flatMap Ty.exposed ++ s.ret.exposed

variable {s : Signature} {args : List Ty} {map : Bindings} {key : String} {first second : Ty}

theorem instantiate_eq (hmap : ∀ p ∈ map, p.2.exposed = []) : s.instantiate map =
    (missing? map s.exposed).elim (.ok (s.paramTypes.map (Ty.substitute map), s.ret.substitute map))
      fun key =>
      .error (.unbound key) := by
  rw [instantiate, mapM_resolve_eq hmap, resolve_eq hmap, exposed, missing?_append]
  cases missing? map (s.paramTypes.flatMap Ty.exposed) with
  | some key => rfl
  | none => cases missing? map s.ret.exposed <;> rfl

theorem specialize_eq (h : s.params.length = args.length) :
    s.specialize args = (s.positions args).foldlM enter [] := by
  rw [specialize, if_pos h, bindAll_eq]
  rfl

theorem specialize_arity (h : s.params.length ≠ args.length) :
    s.specialize args = .error (.arity s.params.length args.length) := by
  rw [specialize, if_neg h]

/-- A call has one of three outcomes. -/
theorem specialize_cases (s : Signature) (args : List Ty) :
    (s.params.length ≠ args.length ∧ s.specialize args =
      .error (.arity s.params.length args.length)) ∨
    (s.params.length = args.length ∧ ∃ key first second,
      FirstConflict (s.positions args) key first second ∧
      s.specialize args = .error (.conflict key first second)) ∨
    (s.params.length = args.length ∧ Agree (s.positions args) ∧ ∃ map,
      map.Holds (s.positions args) ∧
      s.specialize args = .ok map) := by
  by_cases hlen : s.params.length = args.length
  · rw [specialize_eq hlen]
    by_cases hagree : Agree (s.positions args)
    · obtain ⟨map, hrun, hmap⟩ := foldlM_enter_agree hagree
      exact .inr (.inr ⟨hlen, hagree, map, hmap, hrun⟩)
    · obtain ⟨key, first, second, hconflict⟩ := exists_firstConflict hagree
      exact .inr (.inl ⟨hlen, key, first, second, hconflict, foldlM_enter_conflict hconflict⟩)
  · exact .inl ⟨hlen, specialize_arity hlen⟩

theorem specialize_arity_iff {expected found : Nat} :
    s.specialize args = .error (.arity expected found) ↔
    s.params.length ≠ args.length ∧ expected = s.params.length ∧ found = args.length := by
  rcases specialize_cases s args with ⟨hlen, hrun⟩ | ⟨hlen, _, _, _, -, hrun⟩
    | ⟨hlen, -, _, -, hrun⟩
  · simp [hrun, hlen, eq_comm]
  · simp [hrun, hlen]
  · simp [hrun, hlen]

theorem specialize_conflict_iff : s.specialize args = .error (.conflict key first second) ↔
    s.params.length = args.length ∧ FirstConflict (s.positions args) key first second := by
  constructor
  · intro h
    rcases specialize_cases s args with ⟨-, hrun⟩ | ⟨hlen, k, t, u, hconflict, hrun⟩
      | ⟨-, -, _, -, hrun⟩
    · cases hrun.symm.trans h
    · cases hrun.symm.trans h
      exact ⟨hlen, hconflict⟩
    · cases hrun.symm.trans h
  · rintro ⟨hlen, hconflict⟩
    exact (specialize_eq hlen).trans (foldlM_enter_conflict hconflict)

theorem specialize_ok (h : s.specialize args = .ok map) :
    s.params.length = args.length ∧ Agree (s.positions args) ∧ map.Holds (s.positions args) := by
  rcases specialize_cases s args with ⟨-, hrun⟩ | ⟨-, _, _, _, -, hrun⟩
    | ⟨hlen, hagree, m, hm, hrun⟩
  · cases hrun.symm.trans h
  · cases hrun.symm.trans h
  · cases hrun.symm.trans h
    exact ⟨hlen, hagree, hm⟩

/-- If nothing is exposed in the arguments, nothing is in the bindings. -/
theorem exposed_of_holds (hmap : map.Holds (s.positions args))
    (hargs : ∀ a ∈ args, a.exposed = []) : ∀ p ∈ map, p.2.exposed = [] := by
  rintro ⟨key, t⟩ hp
  obtain ⟨i, n, -, harg⟩ := mem_positions.mp ((hmap.mem_iff _).mp hp)
  exact (Ty.exposed_layered n t).symm.trans (hargs _ (List.mem_of_getElem? harg))

/-- A parameter that gave a pair becomes the type of its argument. -/
theorem substitute_param (hmap : map.Holds (s.positions args)) {i n : Nat} {t : Ty}
    (hparam : s.paramTypes[i]? = some (Ty.layered n (.generic key)))
    (harg : args[i]? = some (Ty.layered n t)) :
    (s.paramTypes.map (Ty.substitute map))[i]? = args[i]? := by
  have hlookup : map.lookup key = some t :=
    hmap.lookup_iff.mpr (mem_positions.mpr ⟨i, n, hparam, harg⟩)
  rw [List.getElem?_map, hparam, harg, Option.map_some, Ty.substitute_layered, Ty.substitute,
    hlookup, Option.getD_some]

/-- Under the bindings of a call, the first exposed placeholder without a position is reported. -/
theorem instantiate_error_iff (hmap : map.Holds (s.positions args))
    (hargs : ∀ a ∈ args, a.exposed = []) {e : SpecializeError} : s.instantiate map = .error e ↔
      ∃ key, e = .unbound key ∧
      s.exposed.find? (fun k => k ∉ (s.positions args).map Prod.fst) = some key := by
  rw [instantiate_eq (exposed_of_holds hmap hargs), missing?, funext hmap.isNone_lookup]
  cases s.exposed.find? fun k => decide (k ∉ (s.positions args).map Prod.fst) with
  | none => simp
  | some key => simp [eq_comm]

theorem instantiate_of_bound (hmap : map.Holds (s.positions args))
    (hargs : ∀ a ∈ args, a.exposed = [])
    (hbound : ∀ key ∈ s.exposed, key ∈ (s.positions args).map Prod.fst) :
    s.instantiate map = .ok (s.paramTypes.map (Ty.substitute map), s.ret.substitute map) := by
  have hnone : s.exposed.find? (fun k => decide (k ∉ (s.positions args).map Prod.fst)) = none :=
    List.find?_eq_none.mpr fun key hkey => by simpa using hbound key hkey
  rw [instantiate_eq (exposed_of_holds hmap hargs), missing?, funext hmap.isNone_lookup, hnone,
    Option.elim_none]

/-- What a call binds, and what becomes of the signature. A call fails by arity exactly if the
numbers of parameters and arguments differ, else by a conflict exactly if two positions give a key
different types, the first position that disagrees with those before it, and else its bindings are
the pairs of all positions. If nothing is exposed in the arguments, these bindings leave a
placeholder over exactly if some exposed one of the signature has no position, and the first such is
reported; otherwise each parameter that is list layers over a placeholder, with as many layers in
its argument, becomes the type of the argument. -/
theorem specialize_binds_exactly (s : Signature) (args : List Ty) :
    (∀ expected found, s.specialize args = .error (.arity expected found) ↔
      s.params.length ≠ args.length ∧ expected = s.params.length ∧ found = args.length) ∧
    (∀ key first second, s.specialize args = .error (.conflict key first second) ↔
      s.params.length = args.length ∧ FirstConflict (s.positions args) key first second) ∧
    ((∃ key first second, s.specialize args = .error (.conflict key first second)) ↔
      s.params.length = args.length ∧ ¬ Agree (s.positions args)) ∧
    ((∃ map, s.specialize args = .ok map) ↔ s.params.length = args.length ∧
      Agree (s.positions args)) ∧
    ∀ map, s.specialize args = .ok map → map.Holds (s.positions args) ∧
      ((∀ a ∈ args, a.exposed = []) →
        (∀ e, s.instantiate map = .error e ↔ ∃ key, e = .unbound key ∧
          s.exposed.find? (fun k => k ∉ (s.positions args).map Prod.fst) = some key) ∧
        ((∀ key ∈ s.exposed, key ∈ (s.positions args).map Prod.fst) → ∃ params ret,
          s.instantiate map = .ok (params, ret) ∧ params.length = args.length ∧
            ∀ (i n : Nat) (key : String) (t : Ty), s.paramTypes[i]? =
              some (Ty.layered n (.generic key)) →
              args[i]? = some (Ty.layered n t) → params[i]? = args[i]?)) := by
  refine ⟨fun _ _ => specialize_arity_iff, fun _ _ _ => specialize_conflict_iff, ?_, ?_,
    fun map hrun => ?_⟩
  · simp only [specialize_conflict_iff, exists_and_left]
    refine and_congr_right fun _ => ⟨?_, exists_firstConflict⟩
    rintro ⟨key, first, second, hconflict⟩
    exact hconflict.not_agree
  · constructor
    · rintro ⟨map, hrun⟩
      obtain ⟨hlen, hagree, -⟩ := specialize_ok hrun
      exact ⟨hlen, hagree⟩
    · rintro ⟨hlen, hagree⟩
      obtain ⟨map, hrun, -⟩ := foldlM_enter_agree hagree
      exact ⟨map, (specialize_eq hlen).trans hrun⟩
  · obtain ⟨hlen, -, hmap⟩ := specialize_ok hrun
    refine ⟨hmap, fun hargs => ⟨fun e => instantiate_error_iff hmap hargs, fun hbound => ?_⟩⟩
    refine ⟨_, _, instantiate_of_bound hmap hargs hbound, ?_, fun i n key t =>
      substitute_param hmap⟩
    rw [List.length_map, paramTypes, List.length_map, hlen]

/-- `index(rows: [[K]], value: V, other: K | [V]): K`, for values in rows of keys. -/
def indexSig : Signature where
  name := "index"
  params := [("rows", .list (.list (.generic "K"))), ("value", .generic "V"),
    ("other", .union [.generic "K", .list (.generic "V")])]
  ret := .generic "K"
  linkage := .user none

/-- Called with rows of integers and a text: the parameter that is no list layers over a placeholder
binds nothing. -/
theorem specialize_binds_exactly_index :
    indexSig.specialize [.list (.list .int), .string, .object] = .ok [("K", .int), ("V", .string)] ∧
      (∀ a ∈ [Ty.list (.list .int), .string, .object], a.exposed = []) ∧
      ∃ params ret, indexSig.instantiate [("K", .int), ("V", .string)] = .ok (params, ret) ∧
        params.length = 3 ∧
        params[0]? = some (.list (.list .int)) ∧ params[1]? = some .string := by
  have hrun : indexSig.specialize [.list (.list .int), .string, .object] =
      .ok [("K", .int), ("V", .string)] := by
    rfl
  have hargs : ∀ a ∈ [Ty.list (.list .int), .string, .object],
      a.exposed = [] := by simp [Ty.exposed, Ty.object]
  obtain ⟨-, hmap⟩ := (specialize_binds_exactly indexSig _).2.2.2.2 _ hrun
  obtain ⟨params, ret, hok, hlen, hsame⟩ := (hmap hargs).2 (by decide)
  exact ⟨hrun, hargs, params, ret, hok, hlen, hsame 0 2 "K" .int rfl rfl,
    hsame 1 0 "V" .string rfl rfl⟩

end Signature

end ClassGen
