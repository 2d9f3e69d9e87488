import ClassGen.Proofs.Lowering.Confined
import ClassGen.Proofs.Scoping.Lookups

/-! Code that uses slots as listed, in the order of the list and not otherwise. That of an
expression loads and stores the names of the expression where they are looked up. -/

namespace ClassGen

open Run

def Instr.isSlot : Instr → Bool
  | slot _ _ => true
  | _ => false

/-- No slot is used. -/
def Code.isSlotless (c : Code) : Bool := c.all fun i => !i.isSlot

namespace Code

variable {c d : Code}

theorem isSlotless_of_simple (h : c.all Instr.isSimple = true) : c.isSlotless = true := by
  refine List.all_eq_true.mpr fun i hi => ?_
  have hsimple := List.all_eq_true.mp h i hi
  cases i <;> first | rfl | cases hsimple

theorem isSlotless_of_confined {exits : List Label} (h : Confined (fun _ _ => False) exits c) :
    c.isSlotless = true := by
  refine List.all_eq_true.mpr fun i hi => ?_
  cases i with
  | slot op n => exact (h.slots op n hi).elim
  | _ => rfl

theorem isSlotless_coerce (source target : Ty) : (coerce source target).isSlotless = true :=
  isSlotless_of_simple (all_simple_coerce source target)

/-- No slot but `k` is used. -/
def KeepsTo (k : Nat) (c : Code) : Prop := ∀ op n, .slot op n ∈ c → n = k.toUInt16

namespace KeepsTo

variable {k : Nat}

theorem of_slotless (h : c.isSlotless = true) : KeepsTo k c := fun op n hmem => by
  cases List.all_eq_true.mp h (.slot op n) hmem

theorem append (hc : KeepsTo k c) (hd : KeepsTo k d) : KeepsTo k (c ++ d) := fun op n hmem =>
  (List.mem_append.mp hmem).elim (hc op n) (hd op n)

theorem slot (op : Opcode) : KeepsTo k [.slot op k.toUInt16] := fun op' n hmem => by
  cases List.mem_singleton.mp hmem
  rfl

end KeepsTo

end Code

namespace Scoping

/-- The slots that the code uses: `R` says where the things on the list are stored, and `H` which
slots have no name. -/
inductive Performs {α : Type} (frame : Frame) (R : α → Storage → Prop) (H : Nat → Prop) :
    List (SlotUse α) → Code → Prop
  | nil : Performs frame R H [] []
  | slotless {us c d} (hc : c.isSlotless = true) (h : Performs frame R H us d) :
      Performs frame R H us (c ++ d)
  | load {a storage us d} (ha : R a storage) (h : Performs frame R H us d) :
    Performs frame R H (.load a :: us) (storage.load frame ++ d)
  | store {a storage us d} (ha : R a storage) (h : Performs frame R H us d) :
    Performs frame R H (.store a :: us) (storage.store frame ++ d)
  | hidden {k us c d} (hk : H k) (hc : c.KeepsTo k) (h : Performs frame R H us d) :
    Performs frame R H (.hidden :: us) (c ++ d)

namespace Performs

variable {α β : Type} {frame : Frame} {R : α → Storage → Prop} {H : Nat → Prop}
  {us vs : List (SlotUse α)} {c d : Code} {a : α} {storage : Storage}

theorem append (hc : Performs frame R H us c) (hd : Performs frame R H vs d) :
    Performs frame R H (us ++ vs) (c ++ d) := by
  induction hc with
  | nil => exact hd
  | slotless hc _ ih =>
    rw [List.append_assoc]
    exact .slotless hc ih
  | load ha _ ih =>
    rw [List.append_assoc]
    exact .load ha ih
  | store ha _ ih =>
    rw [List.append_assoc]
    exact .store ha ih
  | hidden hk hc _ ih =>
    rw [List.append_assoc]
    exact .hidden hk hc ih

theorem of_slotless (hc : c.isSlotless = true) : Performs frame R H [] c := by
  rw [← List.append_nil c]
  exact .slotless hc .nil

theorem then_slotless (h : Performs frame R H us c) (hd : d.isSlotless = true) :
    Performs frame R H us (c ++ d) := by
  rw [← List.append_nil us]
  exact h.append (.of_slotless hd)

theorem of_load (ha : R a storage) : Performs frame R H [.load a] (storage.load frame) := by
  rw [← List.append_nil (storage.load frame)]
  exact .load ha .nil

theorem of_store (ha : R a storage) : Performs frame R H [.store a] (storage.store frame) := by
  rw [← List.append_nil (storage.store frame)]
  exact .store ha .nil

theorem of_hidden {k : Nat} (hk : H k) (hc : c.KeepsTo k) :
    Performs frame R H [.hidden] c := by
  rw [← List.append_nil c]
  exact .hidden hk hc .nil

/-- The same code, where things have other names. -/
theorem map {R' : β → Storage → Prop} {H' : Nat → Prop} {f : α → β} (h : Performs frame R H us c)
    (hR : ∀ a storage, R a storage → R' (f a) storage) (hH : ∀ k, H k → H' k) :
    Performs frame R' H' (us.map (SlotUse.map f)) c := by
  induction h with
  | nil => exact .nil
  | slotless hc _ ih => exact .slotless hc ih
  | load ha _ ih => exact .load (hR _ _ ha) ih
  | store ha _ ih => exact .store (hR _ _ ha) ih
  | hidden hk hc _ ih => exact .hidden (hH _ hk) hc ih

theorem mono {R' : α → Storage → Prop} {H' : Nat → Prop} (h : Performs frame R H us c)
    (hR : ∀ a storage, R a storage → R' a storage) (hH : ∀ k, H k → H' k) :
    Performs frame R' H' us c := by
  have hmap : us.map (SlotUse.map id) = us := by
    refine (List.map_congr_left fun u _ => ?_).trans (List.map_id us)
    cases u <;> rfl
  have h := h.map (f := id) hR hH
  rwa [hmap] at h

theorem coerced {v : Lowered} (h : Performs frame R H us v.code) (type : Ty) :
    Performs frame R H us (v.code ++ coerce v.type type) :=
  h.then_slotless (Code.isSlotless_coerce _ _)

theorem receiver {cx : BodyContext} {s t : LowerState} {v r : Lowered} {note : Note}
    (h : Performs frame R H us v.code) (hr : cx.receiver v note s = .ok r t) :
    Performs frame R H us r.code := by
  obtain ⟨-, rfl | ⟨_, _, _, -, rfl⟩ | ⟨_, _, -, rfl⟩⟩ := BodyContext.receiver_ok hr
  · exact h
  · exact h
  · exact h.coerced _

theorem loadFields {cx : BodyContext} {s t : LowerState} {owner v : Lowered} {span : Span}
    {fields : List String} (h : Performs frame R H us owner.code)
    (hv : cx.loadFields owner span fields s = .ok v t) : Performs frame R H us v.code := by
  induction fields generalizing s owner with
  | nil =>
    obtain ⟨rfl, -⟩ := pure_ok.mp hv
    exact h
  | cons field rest ih =>
    simp only [BodyContext.loadFields, BodyContext.loadField, bind_ok, pure_ok] at hv
    obtain ⟨_, _, ⟨_, _, -, rfl, rfl⟩, hv⟩ := hv
    exact ih ((h.then_slotless rfl).then_slotless (Code.isSlotless_coerce _ _)) hv

end Performs

/-! ### Expressions -/

section Expressions

variable {cx : BodyContext} {H : Nat → Prop}

/-- Names are stored where they are found. -/
def StoredAt (cx : BodyContext) (s : LowerState) (name : String) (storage : Storage) : Prop :=
  stored? cx s.body.locals name = some storage

theorem storedAt_of_ok {s t : LowerState} {name : String} {span : Span} {storage : Storage}
    (h : cx.storageOf name span s = .ok storage t) : StoredAt cx s name storage := by
  unfold StoredAt
  rw [storageOf_eq] at h
  cases hfound : stored? cx s.body.locals name with
  | none =>
    rw [hfound] at h
    cases h
  | some found =>
    rw [hfound] at h
    cases h
    rfl

theorem storedAt_congr {s t : LowerState} (h : t.body.locals = s.body.locals) :
    StoredAt cx t = StoredAt cx s := by
  unfold StoredAt
  rw [h]

mutual

/-- An expression uses the slots of its names. -/
theorem lowerExpr_performs : ∀ {e : Expr} {s t : LowerState} {v : Lowered},
    lowerExpr cx e s = .ok v t →
    Performs cx.frame (StoredAt cx s) H e.slotUses v.code := by
  intro e s t v h
  cases exprRun_of_ok h with
  | literal => exact .of_slotless (by cases ‹Literal› <;> rfl)
  | ident hst => exact .of_load (storedAt_of_ok hst)
  | concat hs hop hl hlv hr hrv =>
    have hright := lowerExpr_performs hr
    rw [storedAt_congr (lowerExpr_kept hl).locals] at hright
    exact ((Performs.slotless rfl ((lowerExpr_performs hl).then_slotless rfl)).append
      (hright.then_slotless rfl)).then_slotless rfl
  | logic hop hl hlv hr hrv =>
    have hright := lowerExpr_performs hr
    rw [storedAt_congr (lowerExpr_kept hl).locals] at hright
    exact ((((lowerExpr_performs hl).coerced .boolean).then_slotless rfl).append
      (hright.coerced .boolean)).then_slotless rfl
  | planned hlt hrt hplan hl hlv hr hrv =>
    have hleft := lowerExpr_performs hl
    have hright := lowerExpr_performs hr
    rw [storedAt_congr (lowerExpr_kept hl).locals,
      storedAt_congr (plan_kept hplan).locals] at hright
    rw [storedAt_congr (plan_kept hplan).locals] at hleft
    exact ((hleft.coerced _).append (hright.coerced _)).then_slotless
      (Code.isSlotless_of_confined (.plan hplan))
  | assignName hst hv hvv =>
    exact ((lowerExpr_performs hv).coerced _).append (.of_store (storedAt_of_ok hst))
  | assignField hlast hr hr' howner hfield hv hvv =>
    have hvalue := lowerExpr_performs hv
    rw [storedAt_congr (lowerExpr_kept hr).locals] at hvalue
    exact ((((lowerExpr_performs hr).receiver hr').loadFields howner).append
      (hvalue.coerced _)).then_slotless rfl
  | callExternal hc harity hlink hargs =>
    exact (lowerArgs_performs (by rw [Signature.paramTypes, List.length_map,
      harity]) hargs).then_slotless rfl
  | callUser hc harity hlink htypes hspec hargs hunit =>
    exact (lowerArgs_performs (by rw [specialize_length hspec, harity]) hargs).then_slotless rfl
  | construct hc harity hargs hn =>
    exact (Performs.slotless rfl (lowerArgs_performs
      (by rw [List.length_map, harity]) hargs)).then_slotless rfl
  | property hr hr' hv => exact ((lowerExpr_performs hr).receiver hr').loadFields hv
  | step hst hk =>
    rename_i kind
    have hstored := storedAt_of_ok hst
    refine (((Performs.of_load hstored).then_slotless ?_).then_slotless ?_).append
      (.of_store hstored)
    · cases kind <;> rfl
    · exact Code.isSlotless_of_simple (all_simple_arithmeticCode _ _)
  | negate hp hk hv hvv =>
    exact ((lowerExpr_performs hv).coerced _).then_slotless
      (Code.isSlotless_of_simple (all_simple_arithmeticCode _ _))
  | not hv hvv => exact ((lowerExpr_performs hv).coerced _).then_slotless rfl
  | group hi =>
    have hinner := lowerExpr_performs hi
    exact hinner
  | emptyList hn => exact .of_slotless rfl
  | listOf hn he =>
    have hentries := lowerEntries_performs he
    refine .slotless rfl ?_
    rename_i entries type code
    cases entries with
    | nil => exact .nil
    | cons entry entries => exact (Performs.slotless rfl hentries).then_slotless rfl
  | absent he =>
    cases e <;> first | exact .nil | cases he

theorem lowerArgs_performs : ∀ {args : List Expr} {types : List Ty} {s t : LowerState} {c : Code},
    args.length = types.length → lowerArgs cx args types s = .ok c t →
      Performs cx.frame (StoredAt cx s) H (slotUsesOf args) c
  | [], _, s, t, c, _, h => by
    obtain ⟨rfl, rfl⟩ := pure_ok.mp h
    exact .nil
  | _ :: _, [], _, _, _, hlength, _ => nomatch hlength
  | arg :: args, type :: types, s, t, c, hlength, h => by
    simp only [lowerArgs, bind_ok, pure_ok, Lowered.into_ok] at h
    obtain ⟨v, s₁, hv, _, _, ⟨-, rfl, rfl⟩, rest, _, hrest, rfl, rfl⟩ := h
    have hlater := lowerArgs_performs (Nat.succ.inj hlength) hrest
    rw [storedAt_congr (lowerExpr_kept hv).locals] at hlater
    exact ((lowerExpr_performs hv).coerced type).append hlater

theorem lowerEntries_performs : ∀ {entries : List Expr} {s t : LowerState} {c : Code},
    lowerEntries cx entries s = .ok c t → Performs cx.frame (StoredAt cx s) H (slotUsesOf entries) c
  | [], s, t, c, h => by
    obtain ⟨rfl, rfl⟩ := pure_ok.mp h
    exact .nil
  | entry :: entries, s, t, c, h => by
    simp only [lowerEntries, bind_ok, pure_ok, Lowered.into_ok] at h
    obtain ⟨v, s₁, hv, _, _, ⟨-, rfl, rfl⟩, rest, _, hrest, rfl, rfl⟩ := h
    have hlater := lowerEntries_performs hrest
    rw [storedAt_congr (lowerExpr_kept hv).locals] at hlater
    exact ((Performs.slotless rfl ((lowerExpr_performs hv).coerced .object)).then_slotless
      rfl).append hlater

end

end Expressions

end Scoping

end ClassGen
