import Mathlib.Data.List.Nodup
import Mathlib.Tactic.SplitIfs
import ClassGen.Specialization.Table

/-! The table of instantiations, seen through look-ups. A request adds to the instances of one
function at most, and handing out only moves the mark behind them. -/

namespace ClassGen

namespace GenericEntry

/-- After a request for `map`. -/
def requested (e : GenericEntry) (map : Bindings) : GenericEntry := (e.require map).2

/-- After all instances were handed out. -/
def handedOut (e : GenericEntry) : GenericEntry := { e with taken := e.instances.length }

variable (e : GenericEntry) (map : Bindings)

theorem requested_eq : e.requested map =
    if map ∈ e.instances then e else { e with instances := e.instances ++ [map] } := by
  unfold requested require
  cases h : e.instances.findIdx? (· = map) with
  | none =>
    have hmem : map ∉ e.instances := fun hm => by
      simpa using List.findIdx?_eq_none_iff.mp h map hm
    rw [if_neg hmem]
  | some i =>
    have hmem : map ∈ e.instances := by
      obtain ⟨hi, heq, -⟩ := List.findIdx?_eq_some_iff_getElem.mp h
      exact of_decide_eq_true heq ▸ List.getElem_mem hi
    rw [if_pos hmem]

@[simp] theorem requested_sig : (e.requested map).sig = e.sig := by
  rw [requested_eq]
  split_ifs <;> rfl

@[simp] theorem requested_taken : (e.requested map).taken = e.taken := by
  rw [requested_eq]
  split_ifs <;> rfl

theorem requested_instances : (e.requested map).instances = e.instances ∨
    (e.requested map).instances = e.instances ++ [map] := by
  rw [requested_eq]
  split_ifs
  · exact .inl rfl
  · exact .inr rfl

theorem mem_requested : map ∈ (e.requested map).instances := by
  rw [requested_eq]
  split_ifs with h
  · exact h
  · simp

end GenericEntry

namespace SpecializationTable

variable {t : SpecializationTable} {sig : Signature} {map : Bindings} {name : String}
  {e : GenericEntry}

/-- After a request for an instantiation. -/
def record (t : SpecializationTable) (sig : Signature) (map : Bindings) : SpecializationTable :=
  (t.require sig map).2

theorem get?_name (h : t.get? name = some e) : e.sig.name = name := t.inStep.keyed name e h

theorem mem_order : name ∈ t.order ↔ (t.get? name).isSome := t.inStep.mem_iff name

theorem record_entries : (t.record sig map).entries =
    Dict.insert sig.name (((t.get? sig.name).getD { sig := sig }).requested map) t.entries := rfl

theorem get?_record : (t.record sig map).get? name =
    if sig.name = name then some (((t.get? name).getD { sig := sig }).requested map)
    else t.get? name := by
  rw [get?, record_entries, Dict.lookup_insert]
  by_cases h : sig.name = name
  · subst h
    simp
  · simp [h, Ne.symm h, get?]

theorem order_record : (t.record sig map).order =
    if sig.name ∈ t.order then t.order else t.order ++ [sig.name] := by
  simp only [mem_order]
  rfl

theorem takePending_none (h : t.get? name = none) : t.takePending name = ([], t) := by
  unfold takePending
  split
  · rfl
  · next he => rw [h] at he; cases he

theorem takePending_some (h : t.get? name = some e) :
    (t.takePending name).1 = e.instances.drop e.taken ∧
      (t.takePending name).2.entries = Dict.insert name e.handedOut t.entries ∧
      (t.takePending name).2.order = t.order := by
  unfold takePending
  split
  · next he => rw [h] at he; cases he
  · next he =>
    obtain rfl := Option.some.inj (h.symm.trans he)
    exact ⟨rfl, rfl, rfl⟩

theorem takePending_fst :
    (t.takePending name).1 = ((t.get? name).map fun e => e.instances.drop e.taken).getD [] := by
  cases h : t.get? name with
  | none => rw [takePending_none h]; rfl
  | some e => rw [(takePending_some h).1]; rfl

theorem get?_takePending {other : String} : (t.takePending name).2.get? other =
    if other = name then (t.get? other).map GenericEntry.handedOut else t.get? other := by
  cases h : t.get? name with
  | none =>
    rw [takePending_none h]
    split_ifs with ho
    · rw [ho, h]; rfl
    · rfl
  | some e =>
    rw [get?, (takePending_some h).2.1, Dict.lookup_insert]
    split_ifs with ho
    · rw [ho, h]; rfl
    · rfl

theorem order_takePending : (t.takePending name).2.order = t.order := by
  cases h : t.get? name with
  | none => rw [takePending_none h]
  | some e => exact (takePending_some h).2.2

theorem mem_pendingFunctions : name ∈ t.pendingFunctions ↔
    ∃ e, t.get? name = some e ∧ e.taken < e.instances.length := by
  rw [pendingFunctions, List.mem_filter, mem_order]
  cases t.get? name <;> simp [GenericEntry.hasPending]

/-- Where nothing waits, all instances were handed out. -/
theorem taken_of_pending (h : t.pendingFunctions = []) (he : t.get? name = some e) :
    e.instances.length ≤ e.taken := by
  refine Nat.le_of_not_lt fun hlt => ?_
  have hmem : name ∈ t.pendingFunctions := mem_pendingFunctions.mpr ⟨e, he, hlt⟩
  rw [h] at hmem
  cases hmem

end SpecializationTable

end ClassGen
