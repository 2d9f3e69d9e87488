import Mathlib.Data.Finset.Card
import Mathlib.Data.List.Induction
import ClassGen.Proofs.Linking.Table

/-! A table of instantiations over its whole life: a new one, and then any requests and takes in any
order. What it holds is told by the requests alone. Each map is recorded at its first request, and
the takes of a function hand out its maps in that order, each once. -/

namespace ClassGen

/-! ### Members in the order of their first occurrences -/

section Firsts

variable {α : Type} [DecidableEq α]

/-- Each member once, where it occurs first. -/
def firsts (l : List α) : List α := l.reverse.dedup.reverse

theorem firsts_concat (l : List α) (a : α) : firsts (l ++ [a]) = if a ∈ l then firsts l
    else firsts l ++ [a] := by
  unfold firsts
  rw [List.reverse_append, List.reverse_singleton, List.singleton_append]
  split_ifs with h
  · rw [List.dedup_cons_of_mem (List.mem_reverse.mpr h)]
  · rw [List.dedup_cons_of_notMem (mt List.mem_reverse.mp h), List.reverse_cons]

@[simp] theorem mem_firsts {l : List α} {a : α} : a ∈ firsts l ↔ a ∈ l := by simp [firsts]

theorem nodup_firsts (l : List α) : (firsts l).Nodup := List.nodup_reverse.mpr (List.nodup_dedup _)

theorem length_firsts (l : List α) : (firsts l).length = l.toFinset.card := by
  rw [firsts, List.length_reverse, ← List.card_toFinset, List.toFinset_reverse]

theorem firsts_prefix (l more : List α) : firsts l <+: firsts (l ++ more) := by
  induction more using List.reverseRecOn with
  | nil => simp
  | append_singleton more a ih =>
    rw [← List.append_assoc, firsts_concat]
    split_ifs
    · exact ih
    · exact ih.trans (List.prefix_append _ _)

end Firsts

namespace SpecializationTable

/-! ### Calls of a table -/

inductive Request where
  | require (sig : Signature) (map : Bindings)
  | take (name : String)

inductive Answer where
  | required (index : Nat) (fresh : Bool)
  | taken (maps : List Bindings)

/-- A table with the requests that it served and its answers. -/
structure Session where
  table : SpecializationTable := {}
  log : List (Request × Answer) := []

namespace Session

def serve (s : Session) : Request → Session
  | .require sig map =>
    let ((index, fresh), table) := s.table.require sig map
    ⟨table, s.log ++ [(.require sig map, .required index fresh)]⟩
  | .take name =>
    let (maps, table) := s.table.takePending name
    ⟨table, s.log ++ [(.take name, .taken maps)]⟩

/-- Requests one after the other, on a new table. -/
def after (rs : List Request) : Session := rs.foldl serve {}

/-- All that the takes of `name` gave, in their order. -/
def handedOut (s : Session) (name : String) : List Bindings :=
  s.log.flatMap fun
    | (.take n, .taken maps) => if n = name then maps else []
    | _ => []

end Session

/-- The functions and maps that were required, in order. -/
def requiredPairs (rs : List Request) : List (String × Bindings) :=
  rs.filterMap fun
    | .require sig map => some (sig.name, map)
    | .take _ => none

/-- The maps that were required for `name`, in order. -/
def requiredFor (name : String) (rs : List Request) : List Bindings :=
  (requiredPairs rs).filterMap fun pair => if pair.1 = name then some pair.2 else none

theorem mem_requiredFor {name : String} {map : Bindings} {rs : List Request} :
    map ∈ requiredFor name rs ↔ (name, map) ∈ requiredPairs rs := by
  simp [requiredFor]

/-! ### One call -/

variable {t : SpecializationTable} {sig : Signature} {map : Bindings} {name : String}

/-- How many instances of `name` were handed out. -/
def taken (t : SpecializationTable) (name : String) : Nat :=
  ((t.get? name).map GenericEntry.taken).getD 0

theorem instances_record (t : SpecializationTable) (sig : Signature) (map : Bindings)
    (name : String) :
    (t.record sig map).instances name =
      if sig.name = name ∧ map ∉ t.instances name then t.instances name ++ [map]
      else t.instances name := by
  simp only [instances, get?_record]
  by_cases hname : sig.name = name
  · obtain hget | ⟨e, hget⟩ := (t.get? name).eq_none_or_eq_some
    · simp [hname, hget, GenericEntry.requested_eq]
    · by_cases hmem : map ∈ e.instances <;> simp [hname, hget, hmem, GenericEntry.requested_eq]
  · simp [hname]

theorem taken_record (t : SpecializationTable) (sig : Signature) (map : Bindings) (name : String) :
    (t.record sig map).taken name = t.taken name := by
  simp only [taken, get?_record]
  split_ifs
  · cases t.get? name <;> simp
  · rfl

theorem instances_takePending (t : SpecializationTable) (name other : String) :
    (t.takePending name).2.instances other = t.instances other := by
  simp only [instances, get?_takePending]
  split_ifs
  · cases t.get? other <;> rfl
  · rfl

theorem taken_takePending (t : SpecializationTable) (name other : String) :
    (t.takePending name).2.taken other =
    if other = name then (t.instances other).length else t.taken other := by
  simp only [taken, instances, get?_takePending]
  split_ifs
  · cases t.get? other <;> rfl
  · rfl

theorem takePending_eq_drop (t : SpecializationTable) (name : String) :
    (t.takePending name).1 = (t.instances name).drop (t.taken name) := by
  rw [takePending_fst, instances, taken]
  cases t.get? name <;> simp

/-- A map that is recorded is found at its index, and any other comes after those that are. -/
theorem require_fst (t : SpecializationTable) (sig : Signature) (map : Bindings) :
    (t.require sig map).1 =
    ((t.instances sig.name).findIdx? (· = map)).elim ((t.instances sig.name).length, true)
      fun i => (i, false) := by
  show (((t.get? sig.name).getD { sig }).require map).1 = _
  rw [instances]
  cases t.get? sig.name with
  | none => rfl
  | some e =>
    simp only [Option.getD_some, Option.map_some, GenericEntry.require]
    cases e.instances.findIdx? (· = map) <;> rfl

/-- Number of instances in these entries. -/
def total (entries : List (String × GenericEntry)) : Nat :=
  entries.foldr (fun entry rest => entry.2.instances.length + rest) 0

/-- An entry counts in place of the one that was there under its name. -/
theorem total_insert (name : String) (e : GenericEntry) (entries : List (String × GenericEntry)) :
    total (Dict.insert name e entries) + (((entries.lookup name).map GenericEntry.instances).getD
      []).length =
      total entries + e.instances.length := by
  induction entries with
  | nil => simp [Dict.insert, total]
  | cons entry entries ih =>
    obtain ⟨key, old⟩ := entry
    have hcons (k : String) (e : GenericEntry) (es : List (String × GenericEntry)) :
        total ((k, e) :: es) = e.instances.length + total es := rfl
    rw [Dict.insert, Dict.lookup_cons_if]
    by_cases hkey : key = name
    · simp only [hkey, if_true, hcons, Option.map_some, Option.getD_some]
      omega
    · simp only [hkey, Ne.symm hkey, if_false, hcons]
      omega

theorem size_record (t : SpecializationTable) (sig : Signature) (map : Bindings) :
    (t.record sig map).size = if map ∈ t.instances sig.name then t.size else t.size + 1 := by
  have htotal := total_insert sig.name (((t.get? sig.name).getD { sig }).requested map) t.entries
  have hsize : (t.record sig map).size + (t.instances sig.name).length =
      t.size + ((((t.get? sig.name).getD { sig }).requested map).instances).length := htotal
  have hentry : ((t.get? sig.name).getD { sig }).instances = t.instances sig.name := by
    rw [instances]
    cases t.get? sig.name <;> rfl
  rw [GenericEntry.requested_eq, hentry] at hsize
  split_ifs at hsize ⊢
  · rw [hentry] at hsize
    omega
  · simp only [List.length_append, List.length_singleton] at hsize
    omega

theorem size_takePending (t : SpecializationTable) (name : String) :
    (t.takePending name).2.size = t.size := by
  cases h : t.get? name with
  | none => rw [takePending_none h]
  | some e =>
    have htotal := total_insert name e.handedOut t.entries
    rw [← (takePending_some h).2.1, show t.entries.lookup name = some e from h] at htotal
    exact Nat.add_right_cancel htotal

/-- A function waits if not all of its instances were handed out. -/
theorem pendingFunctions_eq (t : SpecializationTable) :
    t.pendingFunctions = t.order.filter fun name => t.taken name < (t.instances name).length := by
  refine List.filter_congr fun name _ => ?_
  rw [taken, instances]
  cases t.get? name <;> rfl

/-! ### All calls -/

namespace Session

/-- What a session has come to, told by its requests. -/
structure Standing (rs : List Request) (s : Session) : Prop where
  order : s.table.order = firsts ((requiredPairs rs).map Prod.fst)
  instances : ∀ name, s.table.instances name = firsts (requiredFor name rs)
  taken : ∀ name, s.table.taken name ≤ (s.table.instances name).length
  handedOut : ∀ name, s.handedOut name = (s.table.instances name).take (s.table.taken name)
  size : s.table.size = (requiredPairs rs).toFinset.card

variable {rs : List Request} {s : Session}

theorem handedOut_require (s : Session) (sig : Signature) (map : Bindings) (name : String) :
    (s.serve (.require sig map)).handedOut name = s.handedOut name := by
  simp [serve, handedOut]

theorem handedOut_take (s : Session) (name other : String) :
    (s.serve (.take name)).handedOut other =
    s.handedOut other ++ if name = other then (s.table.instances name).drop (s.table.taken name)
      else [] := by
  simp [serve, handedOut, takePending_eq_drop]

theorem Standing.new : Standing [] {} where
  order := rfl
  instances _ := rfl
  taken _ := Nat.le_refl 0
  handedOut _ := rfl
  size := rfl

theorem Standing.require (h : Standing rs s) (sig : Signature) (map : Bindings) :
    Standing (rs ++ [Request.require sig map]) (s.serve (.require sig map)) := by
  have hpairs : requiredPairs (rs ++ [Request.require sig map]) = requiredPairs rs ++
      [(sig.name, map)] := by
    simp [requiredPairs]
  have hfor (name : String) : requiredFor name (rs ++ [Request.require sig map]) =
      if sig.name = name then requiredFor name rs ++ [map] else requiredFor name rs := by
    rw [requiredFor, hpairs, List.filterMap_append]
    split_ifs with hname <;> simp [hname, requiredFor]
  have htable : (s.serve (.require sig map)).table = s.table.record sig map := rfl
  have hmem (name : String) : map ∈ s.table.instances name ↔ (name, map) ∈ requiredPairs rs := by
    rw [h.instances, mem_firsts, mem_requiredFor]
  refine ⟨?_, fun name => ?_, fun name => ?_, fun name => ?_, ?_⟩
  · rw [htable, order_record, h.order, hpairs, List.map_append, List.map_singleton, firsts_concat]
    simp only [mem_firsts]
  · rw [htable, instances_record, hfor, h.instances]
    by_cases hname : sig.name = name
    · by_cases hold : map ∈ requiredFor name rs <;> simp [hname, hold, firsts_concat]
    · simp [hname]
  · rw [htable, taken_record, instances_record]
    split_ifs
    · exact (h.taken name).trans (by simp)
    · exact h.taken name
  · rw [handedOut_require, h.handedOut, htable, taken_record, instances_record]
    split_ifs
    · rw [List.take_append_of_le_length (h.taken name)]
    · rfl
  · rw [htable, size_record, hpairs, List.toFinset_append, h.size]
    simp only [hmem]
    split_ifs with hold
    · congr 1
      simp [hold]
    · rw [Finset.card_union_of_disjoint (by simpa using hold)]
      rfl

theorem Standing.take (h : Standing rs s) (name : String) :
    Standing (rs ++ [Request.take name]) (s.serve (.take name)) := by
  have hpairs : requiredPairs (rs ++ [Request.take name]) =
      requiredPairs rs := by simp [requiredPairs]
  have hfor (other : String) : requiredFor other (rs ++ [Request.take name]) =
      requiredFor other rs := by
    rw [requiredFor, hpairs, requiredFor]
  have htable : (s.serve (.take name)).table = (s.table.takePending name).2 := rfl
  refine ⟨?_, fun other => ?_, fun other => ?_, fun other => ?_, ?_⟩
  · rw [htable, order_takePending, hpairs, h.order]
  · rw [htable, instances_takePending, hfor, h.instances]
  · rw [htable, taken_takePending, instances_takePending]
    split_ifs
    · exact Nat.le_refl _
    · exact h.taken other
  · rw [handedOut_take, htable, taken_takePending, instances_takePending, h.handedOut]
    by_cases hname : name = other
    · simp [hname]
    · simp [hname, Ne.symm hname]
  · rw [htable, size_takePending, hpairs, h.size]

theorem after_concat (rs : List Request) (r : Request) :
    after (rs ++ [r]) = (after rs).serve r := by
  simp [after]

theorem after_standing (rs : List Request) : Standing rs (after rs) := by
  induction rs using List.reverseRecOn with
  | nil => exact .new
  | append_singleton rs r ih =>
    rw [after_concat]
    cases r with
    | require sig map => exact ih.require sig map
    | take name => exact ih.take name

theorem Standing.nodup (h : Standing rs s) (name : String) : (s.table.instances name).Nodup :=
  h.instances name ▸ nodup_firsts _

/-- A request is new, and comes after all distinct ones before it, or it finds its map. -/
theorem Standing.answers (h : Standing rs s) (sig : Signature) (map : Bindings) :
    (map ∉ requiredFor sig.name rs → (s.table.require sig map).1 =
      ((requiredFor sig.name rs).toFinset.card, true)) ∧
      (map ∈ requiredFor sig.name rs →
        ∃ i, (s.table.require sig map).1 = (i, false) ∧ (s.table.instances sig.name)[i]? =
          some map) := by
  have hmem : map ∈ s.table.instances sig.name ↔
      map ∈ requiredFor sig.name rs := by rw [h.instances, mem_firsts]
  rw [require_fst]
  refine ⟨fun hnew => ?_, fun hold => ?_⟩
  · have hnone : (s.table.instances sig.name).findIdx? (· = map) = none := by
      refine List.findIdx?_eq_none_iff.mpr fun m hm => decide_eq_false ?_
      rintro rfl
      exact hnew (hmem.mp hm)
    rw [hnone, h.instances, length_firsts, Option.elim_none]
  · cases hfound : (s.table.instances sig.name).findIdx? (· = map) with
    | none => simpa using List.findIdx?_eq_none_iff.mp hfound map (hmem.mpr hold)
    | some i =>
      obtain ⟨hi, heq, -⟩ := List.findIdx?_eq_some_iff_getElem.mp hfound
      exact ⟨i, rfl, List.getElem?_eq_some_iff.mpr ⟨hi, of_decide_eq_true heq⟩⟩

/-- Some instance was not handed out exactly if the mark is before the end. -/
theorem Standing.waits_iff (h : Standing rs s) (name : String) :
    (∃ map ∈ s.table.instances name, map ∉ s.handedOut name) ↔ s.table.taken name <
      (s.table.instances name).length := by
  rw [h.handedOut]
  constructor
  · rintro ⟨map, hmem, hout⟩
    refine Nat.lt_of_not_le fun hle => hout ?_
    rwa [List.take_of_length_le hle]
  · intro hlt
    have hdrop := List.drop_eq_getElem_cons hlt
    refine ⟨_, List.getElem_mem hlt, fun hmem => ?_⟩
    exact List.disjoint_take_drop (h.nodup name) (Nat.le_refl _) hmem (hdrop ▸ List.mem_cons_self)

theorem Standing.mem_pending (h : Standing rs s) (name : String) :
    name ∈ s.table.pendingFunctions ↔ ∃ map ∈ s.table.instances name, map ∉ s.handedOut name := by
  rw [pendingFunctions_eq, List.mem_filter, decide_eq_true_iff, ← h.waits_iff]
  refine and_iff_right_of_imp ?_
  rintro ⟨map, hmem, -⟩
  rw [h.instances, mem_firsts, mem_requiredFor] at hmem
  rw [h.order, mem_firsts]
  exact List.mem_map_of_mem hmem

/-- After any requests and takes on a new table, and for any function: the names in the order list
are those that have an entry, each once, where it was required first. The recorded maps are the
required ones, each once, in the order of their first requests, and later ones only come behind
them. A request is answered as new exactly if its map was not required before for that name, with
the number of distinct maps before it as its index; otherwise it is answered with the index at which
its map is recorded. What the takes handed out is a beginning of the recorded maps, and all of them
right after a take. The functions that wait are, each once and in the order of their first requests,
those with a recorded map that was not handed out. The size is the number of distinct functions with
maps. -/
theorem after_hands_out_once (rs : List Request) :
    let s := after rs
    (s.table.order = firsts ((requiredPairs rs).map Prod.fst) ∧
      ∀ name, (s.table.get? name).isSome ↔ name ∈ s.table.order) ∧
    (∀ name, s.table.instances name = firsts (requiredFor name rs) ∧
      (s.table.instances name).Nodup ∧
      ∀ more, s.table.instances name <+: (after (rs ++ more)).table.instances name) ∧
    (∀ sig map,
      (map ∉ requiredFor sig.name rs →
        (s.table.require sig map).1 = ((requiredFor sig.name rs).toFinset.card, true)) ∧
      (map ∈ requiredFor sig.name rs →
        ∃ i, (s.table.require sig map).1 = (i, false) ∧ (s.table.instances sig.name)[i]? =
          some map)) ∧
    (∀ name, s.handedOut name <+: s.table.instances name ∧
      (after (rs ++ [.take name])).handedOut name =
        (after (rs ++ [.take name])).table.instances name) ∧
    (s.table.pendingFunctions.Nodup ∧
      s.table.pendingFunctions.Sublist (firsts ((requiredPairs rs).map Prod.fst)) ∧
      ∀ name, name ∈ s.table.pendingFunctions ↔ ∃ map ∈ s.table.instances name,
      map ∉ s.handedOut name) ∧
    s.table.size = (requiredPairs rs).toFinset.card := by
  have h := after_standing rs
  have hpending : (after rs).table.pendingFunctions.Sublist
      (firsts ((requiredPairs rs).map Prod.fst)) := by
    rw [pendingFunctions_eq, h.order]
    exact List.filter_sublist
  refine ⟨⟨h.order, fun name => mem_order.symm⟩, fun name =>
    ⟨h.instances name, h.nodup name, fun more => ?_⟩, h.answers, fun name => ⟨?_, ?_⟩,
    ⟨hpending.nodup (nodup_firsts _), hpending, h.mem_pending⟩, h.size⟩
  · rw [h.instances, (after_standing (rs ++ more)).instances, requiredFor, requiredFor,
      requiredPairs, requiredPairs, List.filterMap_append, List.filterMap_append]
    exact firsts_prefix _ _
  · rw [h.handedOut]
    exact List.take_prefix _ _
  · rw [(after_standing _).handedOut, after_concat]
    refine List.take_of_length_le (le_of_eq ?_)
    show (((after rs).table.takePending name).2.instances name).length =
        ((after rs).table.takePending name).2.taken name
    rw [instances_takePending, taken_takePending, if_pos rfl]

end Session

end SpecializationTable

end ClassGen
