import ClassGen.Dict
import ClassGen.Specialization.Call

/-! The instantiations that calls have asked for, by function name. A request for one
that is already there finds it; every recorded one is handed out for lowering once. The
entries and the order of the names are kept apart; a table carries the proof that they
agree. -/

namespace ClassGen

/-- The instantiations of one generic function. -/
structure GenericEntry where
  /-- As first asked for. -/
  sig : Signature
  /-- Distinct, in the order they were asked for. -/
  instances : List Bindings := []
  /-- How many were handed out. -/
  taken : Nat := 0

namespace GenericEntry

def hasPending (e : GenericEntry) : Bool := e.taken < e.instances.length

/-- Index of `map`, and whether it is new. -/
def require (e : GenericEntry) (map : Bindings) : (Nat × Bool) × GenericEntry :=
  match e.instances.findIdx? (· = map) with
  | some i => ((i, false), e)
  | none => ((e.instances.length, true), { e with instances := e.instances ++ [map] })

theorem require_sig (e : GenericEntry) (map : Bindings) : (e.require map).2.sig = e.sig := by
  unfold require
  split <;> rfl

end GenericEntry

namespace SpecializationTable

/-- The names in `order` are those of the entries, each once, and every entry stands under the
name of its own function. -/
structure InStep (entries : List (String × GenericEntry)) (order : List String) : Prop where
  nodup : order.Nodup
  mem_iff : ∀ name, name ∈ order ↔ (entries.lookup name).isSome
  keyed : ∀ name e, entries.lookup name = some e → e.sig.name = name

theorem InStep.empty : InStep [] [] := ⟨.nil, by simp, by simp⟩

end SpecializationTable

/-- The entries by the name of the function, and the names in the order of first requests. -/
structure SpecializationTable where
  entries : List (String × GenericEntry) := []
  order : List String := []
  inStep : SpecializationTable.InStep entries order := by exact .empty

namespace SpecializationTable

namespace InStep

variable {entries : List (String × GenericEntry)} {order : List String} {name : String}
  {e : GenericEntry}

/-- A new name comes last. -/
theorem insert_new (h : InStep entries order) (hnew : (entries.lookup name).isSome = false)
    (he : e.sig.name = name) : InStep (Dict.insert name e entries) (order ++ [name]) where
  nodup := by
    have hname : name ∉ order := fun hmem => by simp [(h.mem_iff name).mp hmem] at hnew
    have hne : ∀ other ∈ order, other ≠ name := fun other hmem heq => hname (heq ▸ hmem)
    simpa [List.nodup_append, h.nodup] using hne
  mem_iff other := by
    rw [List.mem_append, List.mem_singleton, h.mem_iff, Dict.lookup_insert]
    by_cases ho : other = name <;> simp [ho]
  keyed other old hold := by
    rw [Dict.lookup_insert] at hold
    split at hold
    · next ho =>
      cases hold
      exact he.trans ho.symm
    · exact h.keyed other old hold

/-- An entry that was there is replaced. -/
theorem insert_known (h : InStep entries order) (hknown : (entries.lookup name).isSome = true)
    (he : e.sig.name = name) : InStep (Dict.insert name e entries) order where
  nodup := h.nodup
  mem_iff other := by
    rw [h.mem_iff, Dict.lookup_insert]
    by_cases ho : other = name <;> simp [ho, hknown]
  keyed other old hold := by
    rw [Dict.lookup_insert] at hold
    split at hold
    · next ho =>
      cases hold
      exact he.trans ho.symm
    · exact h.keyed other old hold

end InStep

def get? (t : SpecializationTable) (name : String) : Option GenericEntry := t.entries.lookup name

def instances (t : SpecializationTable) (name : String) : List Bindings :=
  ((t.get? name).map GenericEntry.instances).getD []

/-- Records an instantiation. Answers its index among those of the function, and
whether it is new. -/
def require (t : SpecializationTable) (sig : Signature) (map : Bindings) :
    (Nat × Bool) × SpecializationTable :=
  let known := t.get? sig.name
  let answer := (known.getD { sig }).require map
  (answer.1,
    { entries := Dict.insert sig.name answer.2 t.entries
      order := if known.isSome then t.order else t.order ++ [sig.name]
      inStep := by
        have hname : answer.2.sig.name = sig.name := by
          rw [GenericEntry.require_sig]
          cases hknown : t.entries.lookup sig.name with
          | none => simp [known, get?, hknown]
          | some e => simpa [known, get?, hknown] using t.inStep.keyed _ _ hknown
        cases hknown : known.isSome with
        | false => exact t.inStep.insert_new hknown hname
        | true => exact t.inStep.insert_known hknown hname })

/-- Hands out the instantiations of `name` that were not handed out before. -/
def takePending (t : SpecializationTable) (name : String) : List Bindings × SpecializationTable :=
  match hknown : t.get? name with
  | none => ([], t)
  | some e =>
    (e.instances.drop e.taken,
      { entries := Dict.insert name { e with taken := e.instances.length } t.entries
        order := t.order
        inStep := t.inStep.insert_known (Option.isSome_iff_exists.mpr ⟨e, hknown⟩)
          (t.inStep.keyed name e hknown) })

/-- Functions with an instantiation that was not handed out. -/
def pendingFunctions (t : SpecializationTable) : List String :=
  t.order.filter fun name => (t.get? name).any GenericEntry.hasPending

/-- Number of instantiations of all functions. -/
def size (t : SpecializationTable) : Nat :=
  t.entries.foldr (fun entry rest => entry.2.instances.length + rest) 0

end SpecializationTable

end ClassGen
