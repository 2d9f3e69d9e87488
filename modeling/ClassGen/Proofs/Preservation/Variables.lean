import Mathlib.Data.List.Perm.Subperm
import ClassGen.Proofs.Dict
import ClassGen.Proofs.Preservation.Expr
import ClassGen.Proofs.Reference.Stmt

/-! Variables of structured code and the slots that keep them. `Placed` says where lowering keeps
the variables declared so far, `Reflects` that the machine holds the values of the reference store
there. Both look at all scopes of a path, so that a block can shadow names and give them back. -/

namespace ClassGen

namespace BodyContext

variable {cx : BodyContext} {locals : List ((ScopeId × String) × LocalVar)} {name : String}

/-- What a scope itself keeps under a name. -/
def storageAt (cx : BodyContext) (locals : List ((ScopeId × String) × LocalVar)) (id : ScopeId)
    (name : String) : Option Storage :=
  match locals.lookup (id, name) with
  | some l => some (.slot l.slot l.type)
  | none => if id = cx.bodyScope then cx.param? name else none

theorem storageIn?_found {id : ScopeId} {outer : List ScopeId} {st : Storage}
    (h : cx.storageAt locals id name = some st) :
    cx.storageIn? locals name (id :: outer) = some st := by
  unfold storageAt at h
  unfold storageIn?
  cases hl : locals.lookup (id, name) with
  | some l =>
    rw [hl] at h
    exact h
  | none =>
    simp only [hl] at h ⊢
    rw [h]

theorem storageIn?_outward {id : ScopeId} {outer : List ScopeId}
    (h : cx.storageAt locals id name = none) (hd : cx.file.scopes.declares id name = false) :
    cx.storageIn? locals name (id :: outer) = cx.storageIn? locals name outer := by
  unfold storageAt at h
  rw [storageIn?]
  cases hl : locals.lookup (id, name) with
  | some l => simp [hl] at h
  | none =>
    simp only [hl] at h
    simp [h, hd]

end BodyContext

/-- Accesses of the storage are accesses of `slot` as a value of type `kind`. -/
structure Storage.Keeps (frame : Frame) (st : Storage) (kind : Primitive) (slot : Nat) : Prop where
  type : st.type = .primitive kind
  load : st.load frame = [.slot kind.loadOp slot.toUInt16]
  store : st.store frame = [.slot kind.storeOp slot.toUInt16]

theorem representation_scalar {k : Primitive} (hk : k.isScalar) :
    (Ty.primitive k).representation = .scalar k := by
  cases k <;> first | rfl | cases hk

theorem Storage.keeps_slot {frame : Frame} {k : Primitive} (hk : k.isScalar) (n : Nat) :
    (Storage.slot n (.primitive k)).Keeps frame k n := by
  refine ⟨rfl, ?_, ?_⟩
  · simp only [Storage.load, Code.loadSlot, representation_scalar hk, Representation.loadOp]
  · simp only [Storage.store, Code.storeSlot, representation_scalar hk, Representation.storeOp]

namespace Preservation

open Machine Reference

/-- A variable, by its scope and name. -/
abbrev Key := ScopeId × String

/-- Slots that a declared variable takes. -/
def width (scopes : ScopeTree) (key : Key) : Nat :=
  ((scopes.own? key.1 key.2).map fun t => t.representation.slots).getD 0

/-- Scopes, each right inside the next. -/
structure Nested (scopes : ScopeTree) (path : List ScopeId) : Prop where
  nodup : path.Nodup
  linked : path.IsChain fun inner outer => scopes.parent? inner = some outer

/-- Lowering in the innermost scope of `path` keeps each declared variable of the path in its
`place`. -/
structure Placed (cx : BodyContext) (path : List ScopeId) (declared : List Key) (place : Key → Nat)
    (s : LowerState) : Prop where
  here : path.head? = some cx.scope
  nested : Nested cx.file.scopes path
  /-- Nothing is kept under a name that its scope does not declare. -/
  known : ∀ id name, (cx.storageAt s.body.locals id name).isSome → cx.file.scopes.declares id name
  inPath : ∀ key ∈ declared, key.1 ∈ path
  kept : ∀ key ∈ declared, ∃ k st, cx.file.scopes.own? key.1 key.2 = some (.primitive k) ∧
    k.isScalar ∧
    cx.storageAt s.body.locals key.1 key.2 = some st ∧ st.Keeps cx.frame k (place key)
  below : ∀ key ∈ declared, place key + width cx.file.scopes key ≤ s.body.nextSlot
  apart : ∀ key ∈ declared, ∀ other ∈ declared, key ≠ other →
    place key + width cx.file.scopes key ≤ place other ∨
      place other + width cx.file.scopes other ≤ place key

/-- The machine holds the values of the store, and the store has nothing undeclared in the path. -/
structure Reflects (scopes : ScopeTree) (path : List ScopeId) (declared : List Key)
    (place : Key → Nat) (σ : Store) (locals : Nat → Option Value) : Prop where
  held : ∀ key ∈ declared, ∃ v, scopes.own? key.1 key.2 = some (.primitive v.kind) ∧
    σ key.1 key.2 = some v ∧
    locals (place key) = some v.cell
  unset : ∀ id ∈ path, ∀ name, (id, name) ∉ declared → σ id name = none

/-! ### Nested scopes -/

theorem prefix_chainWithin {scopes : ScopeTree} {path : List ScopeId} {id : ScopeId} {n : Nat}
    (hlinked : path.IsChain fun inner outer => scopes.parent? inner = some outer)
    (hid : path.head? = some id) (hn : path.length ≤ n + 1) : path <+: scopes.chainWithin n id := by
  induction path generalizing id n with
  | nil => cases hid
  | cons a rest ih =>
    obtain rfl : a = id := by simpa using hid
    cases rest with
    | nil =>
      cases n with
      | zero => simp [ScopeTree.chainWithin]
      | succ n =>
        rw [ScopeTree.chainWithin]
        split <;> simp
    | cons b rest =>
      obtain ⟨hab, hrest⟩ := List.isChain_cons_cons.mp hlinked
      cases n with
      | zero => simp at hn
      | succ n =>
        rw [ScopeTree.chainWithin, hab]
        exact List.cons_prefix_cons.mpr ⟨rfl, ih hrest rfl (by simpa using hn)⟩

theorem lt_size_of_parent {scopes : ScopeTree} {id p : ScopeId} (h : scopes.parent? id = some p) :
    id < scopes.size := by
  unfold ScopeTree.parent? at h
  obtain ⟨scope, hs, -⟩ := Option.bind_eq_some_iff.mp h
  exact (Array.getElem?_eq_some_iff.mp hs).1

/-- All scopes of a nest but the outermost exist. -/
theorem dropLast_lt_size {scopes : ScopeTree} {path : List ScopeId}
    (hlinked : path.IsChain fun inner outer => scopes.parent? inner = some outer) :
    ∀ id ∈ path.dropLast, id < scopes.size := by
  induction path with
  | nil => simp
  | cons a rest ih =>
    cases rest with
    | nil => simp
    | cons b rest =>
      obtain ⟨hab, hrest⟩ := List.isChain_cons_cons.mp hlinked
      intro id hid
      rw [List.dropLast_cons_cons, List.mem_cons] at hid
      rcases hid with rfl | hid
      · exact lt_size_of_parent hab
      · exact ih hrest id hid

/-- The scopes of a nest begin the chain of the innermost one. -/
theorem Nested.prefix_chain {scopes : ScopeTree} {path : List ScopeId} {id : ScopeId}
    (h : Nested scopes path) (hid : path.head? = some id) : path <+: scopes.chain id := by
  refine prefix_chainWithin h.linked hid ?_
  have hsub : path.dropLast ⊆ List.range scopes.size := fun i hi =>
    List.mem_range.mpr (dropLast_lt_size h.linked i hi)
  have hlen := (List.subperm_of_subset (h.nodup.sublist (List.dropLast_sublist path))
    hsub).length_le
  simp only [List.length_dropLast, List.length_range] at hlen
  omega

/-! ### What a name means -/

theorem primitive?_eq {t : Ty} {k : Primitive} (h : t.primitive? = some k) : t = .primitive k := by
  cases t <;> simp_all [Ty.primitive?]

/-- A typed name means the variable of the innermost scope that declares it. -/
theorem visible_split {scopes : ScopeTree} {declared : List Key} {name : String}
    {path : List ScopeId} {k : Primitive} (h : visible scopes declared name path = some k) :
    ∃ pre id post, path = pre ++ id :: post ∧ (∀ i ∈ pre, scopes.own? i name = none) ∧
      (id, name) ∈ declared ∧ scopes.own? id name = some (.primitive k) := by
  induction path with
  | nil => cases h
  | cons id outer ih =>
    rw [visible] at h
    cases ho : scopes.own? id name with
    | some t =>
      simp only [ho] at h
      split at h
      · next hmem => exact ⟨[], id, outer, rfl, by simp, hmem, by rw [ho, primitive?_eq h]⟩
      · cases h
    | none =>
      simp only [ho] at h
      obtain ⟨pre, i, post, rfl, hpre, hi⟩ := ih h
      refine ⟨id :: pre, i, post, rfl, ?_, hi⟩
      intro j hj
      rcases List.mem_cons.mp hj with rfl | hj
      · exact ho
      · exact hpre j hj

/-- The slot of the variable that a name means. -/
def slotOf (scopes : ScopeTree) (path : List ScopeId) (place : Key → Nat)
    (name : String) : UInt16 :=
  ((path.find? fun id => scopes.declares id name).map fun id => (place (id, name)).toUInt16).getD 0

section Meaning

variable {cx : BodyContext} {path pre post : List ScopeId} {declared : List Key} {place : Key → Nat}
  {s : LowerState} {id : ScopeId} {name : String} {k : Primitive}

theorem slotOf_split {scopes : ScopeTree} (hpre : ∀ i ∈ pre, scopes.own? i name = none)
    (ho : scopes.own? id name = some (.primitive k)) :
    slotOf scopes (pre ++ id :: post) place name = (place (id, name)).toUInt16 := by
  have hfind : (pre ++ id :: post).find? (fun i => scopes.declares i name) = some id := by
    refine List.find?_eq_some_iff_append.mpr ⟨by simp [ScopeTree.declares, ho], pre, post, rfl, ?_⟩
    intro i hi
    simp [ScopeTree.declares, hpre i hi]
  simp [slotOf, hfind]

theorem storageIn?_split {locals : List ((ScopeId × String) × LocalVar)} {outer : List ScopeId}
    {st : Storage} (hpre : ∀ i ∈ pre, cx.storageAt locals i name = none ∧
      cx.file.scopes.declares i name = false)
    (hst : cx.storageAt locals id name = some st) :
    cx.storageIn? locals name (pre ++ id :: outer) = some st := by
  induction pre with
  | nil => exact BodyContext.storageIn?_found hst
  | cons i pre ih =>
    obtain ⟨hi, hd⟩ := hpre i List.mem_cons_self
    rw [List.cons_append, BodyContext.storageIn?_outward hi hd]
    exact ih fun j hj => hpre j (List.mem_cons_of_mem _ hj)

/-- A scope keeps nothing under a name that it does not declare. -/
theorem Placed.storageAt_none (hp : Placed cx path declared place s)
    (ho : cx.file.scopes.own? id name = none) : cx.storageAt s.body.locals id name = none := by
  cases hst : cx.storageAt s.body.locals id name with
  | none => rfl
  | some st =>
    have hd := hp.known id name (by simp [hst])
    simp [ScopeTree.declares, ho] at hd

/-- Storage of a typed name, with the key of its variable. -/
theorem Placed.storage (hp : Placed cx path declared place s)
    (h : visible cx.file.scopes declared name path = some k) :
    ∃ st, (cx.file.scopes.lookup cx.scope name).isSome ∧
      cx.storageIn? s.body.locals name (cx.file.scopes.chain cx.scope) = some st ∧
      st.type = .primitive k ∧ st.load cx.frame =
        [.slot k.loadOp (slotOf cx.file.scopes path place name)] ∧
      st.store cx.frame = [.slot k.storeOp (slotOf cx.file.scopes path place name)] := by
  obtain ⟨pre, id, post, rfl, hpre, hmem, ho⟩ := visible_split h
  obtain ⟨outer, hchain⟩ := hp.nested.prefix_chain hp.here
  obtain ⟨k', st, ho', -, hst, hkeeps⟩ := hp.kept _ hmem
  obtain rfl : k' = k := by
    rw [ho] at ho'
    cases ho'
    rfl
  rw [List.append_assoc, List.cons_append] at hchain
  refine ⟨st, ?_, ?_, hkeeps.type, ?_, ?_⟩
  · rw [ScopeTree.lookup, ← hchain, List.findSome?_isSome_iff]
    exact ⟨id, by simp, by simp [ho]⟩
  · rw [← hchain]
    refine storageIn?_split (fun i hi => ⟨?_, by simp [ScopeTree.declares, hpre i hi]⟩) hst
    exact hp.storageAt_none (hpre i hi)
  · rw [slotOf_split hpre ho]
    exact hkeeps.load
  · rw [slotOf_split hpre ho]
    exact hkeeps.store

theorem Placed.bound (hp : Placed cx path declared place s)
    (h : visible cx.file.scopes declared name path = some k) :
    Bound cx s.body.locals name k (slotOf cx.file.scopes path place name) := by
  obtain ⟨st, hvis, hst, ht, hload, -⟩ := hp.storage h
  exact ⟨hvis, st, hst, ht, hload⟩

theorem slots_pos {k : Primitive} (hk : k.isScalar) : 0 < k.slots := by
  cases k <;> first | decide | cases hk

theorem width_primitive {scopes : ScopeTree} {key : Key} (hk : k.isScalar)
    (ho : scopes.own? key.1 key.2 = some (.primitive k)) : width scopes key = k.slots := by
  simp [width, ho, representation_scalar hk, Representation.slots]

/-- A place is the number of a slot. -/
theorem Placed.toNat_place (hp : Placed cx path declared place s) {key : Key} (hk : key ∈ declared)
    (hfit : s.body.nextSlot ≤ 65536) : (place key).toUInt16.toNat = place key := by
  obtain ⟨k, _, ho, hs, -⟩ := hp.kept key hk
  have hbelow := hp.below key hk
  have hpos := slots_pos hs
  rw [width_primitive hs ho] at hbelow
  exact UInt16.toNat_ofNat_of_lt' (show _ < 65536 by omega)

/-- The variable that a typed name means: its scope, its value, and where the machine has it. -/
theorem Reflects.meaning {scopes : ScopeTree} {σ : Store} {ml : Nat → Option Value}
    (hr : Reflects scopes path declared place σ ml)
    (h : visible scopes declared name path = some k) :
    ∃ id v, (id, name) ∈ declared ∧ scopes.own? id name = some (.primitive k) ∧
      σ.home? path name = some id ∧ σ.find path name = some v ∧ v.kind = k ∧
      ml (place (id, name)) = some v.cell ∧ slotOf scopes path place name =
        (place (id, name)).toUInt16 := by
  obtain ⟨pre, id, post, rfl, hpre, hmem, ho⟩ := visible_split h
  obtain ⟨v, hov, hσ, hml⟩ := hr.held _ hmem
  have hundeclared : ∀ i ∈ pre, (i, name) ∉ declared := by
    intro i hi hmem'
    obtain ⟨_, ho', -⟩ := hr.held _ hmem'
    rw [hpre i hi] at ho'
    cases ho'
  have hhome : σ.home? (pre ++ id :: post) name = some id := by
    refine List.find?_eq_some_iff_append.mpr ⟨by simp [hσ], pre, post, rfl, ?_⟩
    intro i hi
    simp [hr.unset i (by simp [hi]) name (hundeclared i hi)]
  refine ⟨id, v, hmem, ho, hhome, by simp [Store.find, hhome, hσ], ?_, hml, slotOf_split hpre ho⟩
  rw [ho] at hov
  cases hov
  rfl

/-- The machine holds the values of all typed names. -/
theorem Reflects.holds {σ : Store} {ml : Nat → Option Value} (hp : Placed cx path declared place s)
    (hfit : s.body.nextSlot ≤ 65536) (hr : Reflects cx.file.scopes path declared place σ ml) :
    Holds (visible cx.file.scopes declared · path) (slotOf cx.file.scopes path place)
      (σ.find path) ml := by
  intro name k h
  obtain ⟨id, v, hmem, -, -, hfind, hk, hml, hslot⟩ := hr.meaning h
  exact ⟨v, hfind, hk, by rw [hslot, hp.toNat_place hmem hfit, hml]⟩

end Meaning

/-! ### Changing a variable -/

section Change

variable {cx : BodyContext} {path : List ScopeId} {declared declared' : List Key}
  {place place' : Key → Nat} {s t : LowerState} {scopes : ScopeTree} {σ : Store}
  {ml : Nat → Option Value}

/-- A double is the one that takes two slots. -/
theorem isDouble_cell (v : Scalar) : v.cell.isDouble = decide (v.kind.slots = 2) := by
  cases v <;> rfl

/-- A store leaves a value alone that it does not overlap. -/
theorem store_apart {n p : Nat} {v w : Scalar} (hw : ml p = some w.cell)
    (h : p + w.kind.slots ≤ n ∨ n + v.kind.slots ≤ p) : Machine.store ml n v.cell p = ml p := by
  have hv := slots_pos (kind_isScalar v)
  have hwpos := slots_pos (kind_isScalar w)
  unfold Machine.store
  rw [if_neg (by omega), if_neg, if_neg]
  · rintro ⟨hp, hd⟩
    rw [hw, Option.any_some, isDouble_cell, decide_eq_true_eq] at hd
    omega
  · rintro ⟨hd, hp⟩
    rw [isDouble_cell, decide_eq_true_eq] at hd
    omega

theorem set_same (id : ScopeId) (name : String) (v : Scalar) :
    σ.set id name v id name = some v := by
  simp [Store.set]

theorem set_other {id i : ScopeId} {name n : String} (v : Scalar) (h : (i, n) ≠ (id, name)) :
    σ.set id name v i n = σ i n := by
  have : ¬(i = id ∧ n = name) := fun hc => h (by rw [hc.1, hc.2])
  simp [Store.set, this]

/-- The variable `key` gets the value `v` in its place; the others are where they were. -/
theorem Reflects.put {key : Key} {v : Scalar} (hr : Reflects scopes path declared place σ ml)
    (hsub : ∀ k ∈ declared, k ∈ declared') (hkey : key ∈ declared')
    (ho : scopes.own? key.1 key.2 = some (.primitive v.kind))
    (hothers : ∀ other ∈ declared', other ≠ key → other ∈ declared ∧ place' other = place other ∧
      (place other + width scopes other ≤ place' key ∨ place' key + width scopes key ≤
        place other)) :
    Reflects scopes path declared' place' (σ.set key.1 key.2 v)
      (Machine.store ml (place' key) v.cell) where
  held other hmem := by
    by_cases hother : other = key
    · subst hother
      exact ⟨v, ho, set_same _ _ _, by simp [Machine.store]⟩
    · obtain ⟨hold, hplace, hapart⟩ := hothers other hmem hother
      obtain ⟨w, how, hσ, hml⟩ := hr.held other hold
      refine ⟨w, how, by rw [set_other v hother, hσ], ?_⟩
      rw [width_primitive (kind_isScalar w) how, width_primitive (kind_isScalar v) ho] at hapart
      rw [hplace, store_apart hml hapart, hml]
  unset id hid name hmem := by
    have hne : (id, name) ≠ (key.1, key.2) := fun h => hmem (h ▸ hkey)
    rw [set_other v hne]
    exact hr.unset id hid name fun h => hmem (hsub _ h)

/-- A declared variable gets a new value. -/
theorem Reflects.assign {key : Key} {v : Scalar} (hp : Placed cx path declared place s)
    (hr : Reflects cx.file.scopes path declared place σ ml) (hkey : key ∈ declared)
    (ho : cx.file.scopes.own? key.1 key.2 = some (.primitive v.kind)) :
    Reflects cx.file.scopes path declared place (σ.set key.1 key.2 v)
      (Machine.store ml (place key) v.cell) :=
  hr.put (fun _ h => h) hkey ho fun other hmem hne => ⟨hmem, rfl, hp.apart other hmem key hkey hne⟩

/-- The places after a variable was declared in the next slot. -/
def placeNext (place : Key → Nat) (key : Key) (slot : Nat) : Key → Nat := fun k =>
  if k = key then slot else place k

theorem placeNext_same (key : Key) (n : Nat) : placeNext place key n key = n := if_pos rfl

theorem placeNext_other {key other : Key} (n : Nat) (h : other ≠ key) :
    placeNext place key n other = place other := if_neg h

/-- A variable is declared, or declared again, with a value. -/
theorem Reflects.declare {key : Key} {v : Scalar} (hp : Placed cx path declared place s)
    (hr : Reflects cx.file.scopes path declared place σ ml)
    (ho : cx.file.scopes.own? key.1 key.2 = some (.primitive v.kind)) :
    Reflects cx.file.scopes path (key :: declared) (placeNext place key s.body.nextSlot)
      (σ.set key.1 key.2 v) (Machine.store ml s.body.nextSlot v.cell) := by
  have hothers : ∀ other ∈ key :: declared, other ≠ key →
      other ∈ declared ∧ placeNext place key s.body.nextSlot other = place other ∧
        (place other + width cx.file.scopes other ≤ placeNext place key s.body.nextSlot key ∨
          placeNext place key s.body.nextSlot key + width cx.file.scopes key ≤ place other) := by
    intro other hmem hne
    have hold := (List.mem_cons.mp hmem).resolve_left hne
    refine ⟨hold, placeNext_other _ hne, .inl ?_⟩
    rw [placeNext_same]
    exact hp.below other hold
  have h := hr.put (v := v) (fun _ h => List.mem_cons_of_mem _ h) List.mem_cons_self ho hothers
  rwa [placeNext_same] at h

/-- Only the locals and the next slot matter. -/
theorem Placed.congr (hp : Placed cx path declared place s) (hl : t.body.locals = s.body.locals)
    (hn : t.body.nextSlot = s.body.nextSlot) : Placed cx path declared place t where
  here := hp.here
  nested := hp.nested
  known := hl ▸ hp.known
  inPath := hp.inPath
  kept := hl ▸ hp.kept
  below := hn ▸ hp.below
  apart := hp.apart

theorem storageAt_withLocal {id : ScopeId} {name : String} {type : Ty} (i : ScopeId) (n : String) :
    cx.storageAt (s.withLocal id name type).body.locals i n =
      if (i, n) = (id, name) then some (.slot s.body.nextSlot type)
      else cx.storageAt s.body.locals i n := by
  simp only [BodyContext.storageAt, LowerState.withLocal, Dict.lookup_insert]
  by_cases h : (i, n) = (id, name)
  · rw [if_pos h, if_pos h]
  · rw [if_neg h, if_neg h]

/-- A variable of the innermost scope is declared, or declared again. -/
theorem Placed.declare {name : String} {k : Primitive} (hp : Placed cx path declared place s)
    (ho : cx.file.scopes.own? cx.scope name = some (.primitive k)) (hk : k.isScalar) :
    Placed cx path ((cx.scope, name) :: declared) (placeNext place (cx.scope, name) s.body.nextSlot)
      (s.withLocal cx.scope name (.primitive k)) where
  here := hp.here
  nested := hp.nested
  known i n := by
    rw [storageAt_withLocal]
    split
    · next heq =>
      cases heq
      simp [ScopeTree.declares, ho]
    · exact hp.known i n
  inPath key hmem := by
    rcases List.mem_cons.mp hmem with rfl | hmem
    · exact List.mem_of_mem_head? hp.here
    · exact hp.inPath key hmem
  kept key hmem := by
    by_cases hkey : key = (cx.scope, name)
    · subst hkey
      refine ⟨k, _, ho, hk, by rw [storageAt_withLocal, if_pos rfl], ?_⟩
      rw [placeNext_same]
      exact Storage.keeps_slot hk _
    · obtain ⟨j, st, hoj, hj, hst, hkeeps⟩ :=
        hp.kept key ((List.mem_cons.mp hmem).resolve_left hkey)
      refine ⟨j, st, hoj, hj, by rw [storageAt_withLocal, if_neg hkey, hst], ?_⟩
      rwa [placeNext_other _ hkey]
  below key hmem := by
    by_cases hkey : key = (cx.scope, name)
    · subst hkey
      rw [placeNext_same, width_primitive hk ho]
      simp only [LowerState.withLocal, representation_scalar hk, Representation.slots]
      omega
    · have := hp.below key ((List.mem_cons.mp hmem).resolve_left hkey)
      rw [placeNext_other _ hkey]
      simp only [LowerState.withLocal]
      omega
  apart key hmem other hother hne := by
    by_cases hkey : key = (cx.scope, name)
    · have hother' : other ≠ (cx.scope, name) := fun h => hne (hkey.trans h.symm)
      rw [hkey, placeNext_same, placeNext_other _ hother']
      exact .inr (hp.below other ((List.mem_cons.mp hother).resolve_left hother'))
    · have hold := (List.mem_cons.mp hmem).resolve_left hkey
      rw [placeNext_other _ hkey]
      by_cases hother' : other = (cx.scope, name)
      · rw [hother', placeNext_same]
        exact .inl (hp.below key hold)
      · rw [placeNext_other _ hother']
        exact hp.apart key hold other ((List.mem_cons.mp hother).resolve_left hother') hne

/-! ### Entering and leaving a block -/

theorem Placed.enter {b : Block} (hp : Placed cx path declared place s) (hnew : b.scope ∉ path)
    (hparent : cx.file.scopes.parent? b.scope = some cx.scope) :
    Placed (cx.inside b) (b.scope :: path) declared place s where
  here := rfl
  nested := by
    refine ⟨List.nodup_cons.mpr ⟨hnew, hp.nested.nodup⟩, ?_⟩
    have hhere := hp.here
    have hlinked := hp.nested.linked
    cases path with
    | nil => simp at hhere
    | cons a rest =>
      obtain rfl : a = cx.scope := by simpa using hhere
      exact List.isChain_cons_cons.mpr ⟨hparent, hlinked⟩
  known := hp.known
  inPath key h := List.mem_cons_of_mem _ (hp.inPath key h)
  kept := hp.kept
  below := hp.below
  apart := hp.apart

/-- The variables around a block are where they were. -/
theorem Placed.leave {b : Block} (hp : Placed cx path declared place s)
    (hq : Placed (cx.inside b) (b.scope :: path) declared' place' t)
    (hsub : ∀ k ∈ declared, k ∈ declared') (hplace : ∀ k ∈ declared, place' k = place k) :
    Placed cx path declared place t where
  here := hp.here
  nested := hp.nested
  known := hq.known
  inPath := hp.inPath
  kept key h := by
    obtain ⟨k, st, ho, hk, hst, hkeeps⟩ := hq.kept key (hsub key h)
    exact ⟨k, st, ho, hk, hst, hplace key h ▸ hkeeps⟩
  below key h := hplace key h ▸ hq.below key (hsub key h)
  apart key h other h' hne := by
    have := hq.apart key (hsub key h) other (hsub other h') hne
    rwa [hplace key h, hplace other h'] at this

theorem Reflects.enter {id : ScopeId} (hr : Reflects scopes path declared place σ ml)
    (hin : ∀ key ∈ declared, key.1 ∈ path) (hnew : id ∉ path) :
    Reflects scopes (id :: path) declared place (σ.clear id) ml where
  held key h := by
    obtain ⟨v, ho, hσ, hml⟩ := hr.held key h
    have hne : key.1 ≠ id := fun h' => hnew (h' ▸ hin key h)
    exact ⟨v, ho, by simpa [Store.clear, hne] using hσ, hml⟩
  unset i hi name h := by
    by_cases hid : i = id
    · simp [Store.clear, hid]
    · simpa [Store.clear, hid] using hr.unset i ((List.mem_cons.mp hi).resolve_left hid) name h

theorem Reflects.leave {id : ScopeId} (hr : Reflects scopes (id :: path) declared' place' σ ml)
    (hsub : ∀ k ∈ declared, k ∈ declared') (hnew : ∀ k ∈ declared', k ∈ declared ∨ k.1 = id)
    (hplace : ∀ k ∈ declared, place' k = place k) (hid : id ∉ path) :
    Reflects scopes path declared place σ ml where
  held key h := hplace key h ▸ hr.held key (hsub key h)
  unset i hi name h := by
    refine hr.unset i (List.mem_cons_of_mem _ hi) name fun h' => ?_
    rcases hnew _ h' with h'' | rfl
    · exact h h''
    · exact hid hi

end Change

end Preservation

end ClassGen
