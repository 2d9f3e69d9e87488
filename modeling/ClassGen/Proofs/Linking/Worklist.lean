import ClassGen.Proofs.Linking.Calls

/-! The table of instantiations as a worklist: calls put instantiations in, and each is handed out
once. -/

namespace ClassGen

/-- An instantiation of a generic function. -/
structure Instance where
  sig : Signature
  map : Bindings

namespace GenericEntry

variable (e : GenericEntry) (map : Bindings)

theorem subset_requested : e.instances ⊆ (e.requested map).instances := by
  rcases e.requested_instances map with h | h
  · exact h ▸ List.Subset.refl _
  · exact h ▸ List.subset_append_left _ _

variable {e map} in
theorem mem_of_requested {other : Bindings} (h : other ∈ (e.requested map).instances) :
    other ∈ e.instances ∨ other = map := by
  rcases e.requested_instances map with heq | heq <;> simp_all

theorem length_le_requested : e.instances.length ≤ (e.requested map).instances.length := by
  rcases e.requested_instances map with h | h <;> simp [h]

variable {e}

theorem nodup_requested (h : e.instances.Nodup) : (e.requested map).instances.Nodup := by
  rw [requested_eq]
  split_ifs with hmem
  · exact h
  · exact h.append (List.nodup_singleton map) (by simpa using hmem)

/-- A request leaves alone what was handed out. -/
theorem take_requested (h : e.taken ≤ e.instances.length) :
    (e.requested map).instances.take e.taken = e.instances.take e.taken := by
  rcases e.requested_instances map with heq | heq
  · rw [heq]
  · rw [heq, List.take_append_of_le_length h]

end GenericEntry

namespace SpecializationTable

/-- The instantiations of `name`, in the order they were asked for. -/
def recorded (t : SpecializationTable) (name : String) : List Instance :=
  ((t.get? name).map fun e => e.instances.map (Instance.mk e.sig)).getD []

/-- Those of them that were handed out. -/
def handed (t : SpecializationTable) (name : String) : List Instance :=
  ((t.get? name).map fun e => (e.instances.take e.taken).map (Instance.mk e.sig)).getD []

/-- Those that were not. -/
def waiting (t : SpecializationTable) (name : String) : List Instance :=
  ((t.get? name).map fun e => (e.instances.drop e.taken).map (Instance.mk e.sig)).getD []

variable {t : SpecializationTable} {name : String} {e : GenericEntry}

theorem waiting_eq (h : t.get? name = some e) :
    t.waiting name = (e.instances.drop e.taken).map (Instance.mk e.sig) := by
  rw [waiting, h]
  rfl

theorem handed_append_waiting (t : SpecializationTable) (name : String) :
    t.handed name ++ t.waiting name = t.recorded name := by
  unfold handed waiting recorded
  cases t.get? name with
  | none => rfl
  | some e => simp

theorem handed_eq (h : t.get? name = some e) :
    t.handed name = (e.instances.take e.taken).map (Instance.mk e.sig) := by
  rw [handed, h]
  rfl

theorem handed_congr {t' : SpecializationTable} (h : t'.get? name = t.get? name) :
    t'.handed name = t.handed name := by
  rw [handed, handed, h]

theorem recorded_eq (h : t.get? name = some e) :
    t.recorded name = e.instances.map (Instance.mk e.sig) := by
  rw [recorded, h]
  rfl

theorem mem_recorded {i : Instance} :
    i ∈ t.recorded name ↔ ∃ e, t.get? name = some e ∧ e.sig = i.sig ∧ i.map ∈ e.instances := by
  cases he : t.get? name with
  | none => simp [recorded, he]
  | some e =>
    rw [recorded_eq he]
    constructor
    · intro hi
      obtain ⟨map, hmap, rfl⟩ := List.mem_map.mp hi
      exact ⟨e, rfl, rfl, hmap⟩
    · rintro ⟨_, ⟨⟩, hsig, hmap⟩
      exact List.mem_map.mpr ⟨i.map, hmap, by rw [hsig]⟩

theorem takePending_of_pending (h : t.pendingFunctions = []) : (t.takePending name).1 = [] := by
  rw [takePending_fst]
  cases he : t.get? name with
  | none => rfl
  | some e => exact List.drop_of_length_le (taken_of_pending h he)

/-- Where nothing waits, everything was handed out. -/
theorem handed_of_pending (h : t.pendingFunctions = []) : t.handed name = t.recorded name := by
  cases he : t.get? name with
  | none => rw [handed, recorded, he, Option.map_none, Option.map_none]
  | some e => rw [handed_eq he, recorded_eq he, List.take_of_length_le (taken_of_pending h he)]

end SpecializationTable

/-- What these calls make of the entry for `name`. -/
structure GenericEntry.AskedBy (calls : List GenericCall) (name : String) (e : GenericEntry) :
    Prop where
  signed : ∃ c ∈ calls, c.sig = e.sig
  asked : ∀ map ∈ e.instances, ∃ c ∈ calls, c.sig.name = name ∧ c.map = map
  distinct : e.instances.Nodup
  bounded : e.taken ≤ e.instances.length

namespace GenericEntry.AskedBy

variable {calls : List GenericCall} {name : String} {e : GenericEntry}

theorem mono {others : List GenericCall} (h : e.AskedBy calls name) (hsub : calls ⊆ others) :
    e.AskedBy others name where
  signed := let ⟨c, hc, hsig⟩ := h.signed; ⟨c, hsub hc, hsig⟩
  asked map hm := let ⟨c, hc, hmap⟩ := h.asked map hm; ⟨c, hsub hc, hmap⟩
  distinct := h.distinct
  bounded := h.bounded

theorem first {c : GenericCall} (hc : c ∈ calls) :
    GenericEntry.AskedBy calls name { sig := c.sig } where
  signed := ⟨c, hc, rfl⟩
  asked := nofun
  distinct := List.nodup_nil
  bounded := Nat.le_refl _

theorem requested {c : GenericCall} (h : e.AskedBy calls name) (hc : c ∈ calls)
    (hname : c.sig.name = name) :
    (e.requested c.map).AskedBy calls name where
  signed := by
    rw [requested_sig]
    exact h.signed
  asked map hm := by
    rcases mem_of_requested hm with hm | rfl
    · exact h.asked map hm
    · exact ⟨c, hc, hname, rfl⟩
  distinct := nodup_requested c.map h.distinct
  bounded := by
    rw [requested_taken]
    exact Nat.le_trans h.bounded (length_le_requested e c.map)

theorem handedOut (h : e.AskedBy calls name) : e.handedOut.AskedBy calls name :=
  ⟨h.signed, h.asked, h.distinct, Nat.le_refl _⟩

end GenericEntry.AskedBy

/-- The table after these calls, where these instantiations were handed out. -/
structure Worklist (calls : List GenericCall) (given : List Instance) (t : SpecializationTable) :
    Prop where
  recorded : ∀ c ∈ calls, ∃ e, t.get? c.sig.name = some e ∧ c.map ∈ e.instances
  entries : ∀ name e, t.get? name = some e → e.AskedBy calls name
  given : ∀ name, given.filter (·.sig.name = name) = t.handed name

namespace Worklist

open SpecializationTable

variable {calls : List GenericCall} {given : List Instance} {t : SpecializationTable}

theorem empty : Worklist [] [] {} where
  recorded := nofun
  entries := nofun
  given _ := rfl

/-- The order of the calls does not matter. -/
theorem perm {others : List GenericCall} (h : Worklist calls given t) (hperm : calls.Perm others) :
    Worklist others given t where
  recorded c hc := h.recorded c (hperm.mem_iff.mpr hc)
  entries name e he := (h.entries name e he).mono hperm.subset
  given := h.given

theorem record (h : Worklist calls given t) (c : GenericCall) :
    Worklist (calls ++ [c]) given (t.record c.sig c.map) where
  recorded d hd := by
    rw [get?_record]
    split_ifs with hname
    · refine ⟨_, rfl, ?_⟩
      rcases List.mem_append.mp hd with hd | hd
      · obtain ⟨e, he, hmem⟩ := h.recorded d hd
        rw [he]
        exact GenericEntry.subset_requested _ _ hmem
      · rw [List.mem_singleton.mp hd]
        exact GenericEntry.mem_requested _ _
    · rcases List.mem_append.mp hd with hd | hd
      · exact h.recorded d hd
      · exact (hname (by rw [List.mem_singleton.mp hd])).elim
  entries name e he := by
    have hc : c ∈ calls ++ [c] := List.mem_append_right _ (List.mem_singleton_self c)
    have hkept {old : GenericEntry} (hold : t.get? name = some old) :
        old.AskedBy (calls ++ [c]) name :=
      (h.entries name old hold).mono (List.subset_append_left _ _)
    rw [get?_record] at he
    split_ifs at he with hname
    · obtain rfl := Option.some.inj he
      cases hold : t.get? name with
      | none => exact (GenericEntry.AskedBy.first hc).requested hc hname
      | some old => exact (hkept hold).requested hc hname
    · exact hkept he
  given name := by
    rw [h.given]
    by_cases hname : c.sig.name = name
    · have hget : (t.record c.sig c.map).get? name =
          some (((t.get? name).getD { sig := c.sig }).requested c.map) := by rw [get?_record,
            if_pos hname]
      rw [handed_eq hget, GenericEntry.requested_taken, GenericEntry.requested_sig]
      cases hold : t.get? name with
      | none => rw [handed, hold]; rfl
      | some old =>
        rw [handed_eq hold, Option.getD_some,
          GenericEntry.take_requested _ (h.entries name old hold).bounded]
    · exact (handed_congr (by rw [get?_record, if_neg hname])).symm

theorem recordAll (h : Worklist calls given t) (more : List GenericCall) :
    Worklist (calls ++ more) given (t.recordAll more) := by
  induction more generalizing calls t with
  | nil => rwa [List.append_nil]
  | cons c more ih =>
    have := ih (h.record c)
    rwa [List.append_assoc, List.singleton_append] at this

theorem handOut {name : String} {e : GenericEntry} (h : Worklist calls given t)
    (he : t.get? name = some e) :
    Worklist calls (given ++ (t.takePending name).1.map (Instance.mk e.sig))
      (t.takePending name).2 where
  recorded c hc := by
    obtain ⟨old, hold, hmem⟩ := h.recorded c hc
    rw [get?_takePending, hold]
    split_ifs
    · exact ⟨_, rfl, hmem⟩
    · exact ⟨_, rfl, hmem⟩
  entries other old hold := by
    rw [get?_takePending] at hold
    split_ifs at hold
    · obtain ⟨found, hfound, rfl⟩ := Option.map_eq_some_iff.mp hold
      exact (h.entries other found hfound).handedOut
    · exact h.entries other old hold
  given other := by
    have hsig : e.sig.name = name := get?_name he
    rw [List.filter_append, h.given]
    by_cases hother : other = name
    · subst hother
      have hget : (t.takePending other).2.get? other = some e.handedOut := by
        rw [get?_takePending, if_pos rfl, he]
        rfl
      have hall (maps : List Bindings) :
          (maps.map (Instance.mk e.sig)).filter (·.sig.name = other) =
            maps.map (Instance.mk e.sig) :=
        List.filter_eq_self.mpr fun i hi => by
          obtain ⟨_, -, rfl⟩ := List.mem_map.mp hi
          simpa using hsig
      rw [handed_eq hget, handed_eq he, takePending_fst, he, hall, Option.map_some,
        Option.getD_some, ← List.map_append, List.take_append_drop]
      simp [GenericEntry.handedOut]
    · have hnone :
          ((t.takePending name).1.map (Instance.mk e.sig)).filter (·.sig.name = other) = [] :=
        List.filter_eq_nil_iff.mpr fun i hi => by
          obtain ⟨_, -, rfl⟩ := List.mem_map.mp hi
          simpa [hsig] using fun h => hother h.symm
      rw [hnone, List.append_nil]
      exact (handed_congr (by rw [get?_takePending, if_neg hother])).symm

theorem nodup_recorded (h : Worklist calls given t) (name : String) :
    ((t.recorded name).map Instance.map).Nodup := by
  cases he : t.get? name with
  | none =>
    rw [SpecializationTable.recorded, he]
    exact List.nodup_nil
  | some e =>
    rw [recorded_eq he, List.map_map]
    exact (List.map_id e.instances).symm ▸ (h.entries name e he).distinct

end Worklist

end ClassGen
