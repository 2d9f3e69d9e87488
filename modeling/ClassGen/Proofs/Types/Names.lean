import ClassGen.Ty.Equality

/-! When the name of a type tells which type it is. Lists put brackets around a name and unions bars
between names, so a name can be taken apart again if those of the other types have neither, and then
says as much as these do. -/

namespace ClassGen.Ty

def isUnion : Ty → Bool
  | union _ => true
  | _ => false

/-- What a union is of; another type is of itself. -/
def parts : Ty → List Ty
  | union members => members
  | t => [t]

/-- The names of these types are all different, and have no brackets or bars. -/
structure Legible (vocabulary : List Ty) : Prop where
  plain : ∀ t ∈ vocabulary, ∀ c ∈ t.name.toList, c ≠ '[' ∧ c ≠ ']' ∧ c ≠ '|'
  distinct : ∀ t ∈ vocabulary, ∀ u ∈ vocabulary, t.name = u.name → t = u

mutual

/-- Put together from types of the vocabulary by lists and unions; a union is of two types or more,
and of no unions. -/
def isOver (vocabulary : List Ty) : Ty → Bool
  | union members => decide (2 ≤ members.length) && areParts vocabulary members
  | list element => element.isOver vocabulary
  | t => decide (t ∈ vocabulary)

def areParts (vocabulary : List Ty) : List Ty → Bool
  | [] => true
  | t :: ts => !t.isUnion && t.isOver vocabulary && areParts vocabulary ts

end

/-! ### Taking names apart -/

/-- A name of several types as a list of characters. -/
def joined (ts : List Ty) : List Char := (String.intercalate " | " (names ts)).toList

theorem joined_singleton (t : Ty) : joined [t] = t.name.toList := by simp [joined, names]

theorem joined_cons_cons (t u : Ty) (ts : List Ty) :
    joined (t :: u :: ts) = t.name.toList ++ ' ' :: '|' :: ' ' :: joined (u :: ts) := by
  simp [joined, names, String.intercalate_cons_cons]

theorem name_toList (t : Ty) : t.name.toList = joined t.parts := by
  cases t with
  | union members => rw [name]; rfl
  | _ => exact (joined_singleton _).symm

theorem list_name_toList (t : Ty) (rest : List Char) :
    (list t).name.toList ++ rest = '[' :: (t.name.toList ++ ']' :: rest) := by
  simp [name]

/-- What can stand behind the name of a part: nothing, the end of a list, or another part. -/
def Follows (rest : List Char) : Prop :=
  rest = [] ∨ (∃ more, rest = ']' :: more) ∨ ∃ more, rest = ' ' :: '|' :: more

/-- What can stand behind a whole name. -/
def Closes (rest : List Char) : Prop := rest = [] ∨ ∃ more, rest = ']' :: more

theorem Closes.follows {rest : List Char} (h : Closes rest) : Follows rest := h.imp_right .inl

/-- Text without brackets and bars ends where something else follows. -/
theorem eq_of_follows {a b rest rest' : List Char} (ha : ∀ c ∈ a, c ≠ '[' ∧ c ≠ ']' ∧ c ≠ '|')
    (hrest : Follows rest) (hrest' : Follows rest') (h : b ++ rest' = a ++ rest)
    (hle : b.length ≤ a.length) : b = a ∧ rest' = rest := by
  rcases List.append_eq_append_iff.mp h with ⟨more, rfl, rfl⟩ | ⟨more, rfl, rfl⟩
  · cases more with
    | nil => simp
    | cons c more =>
      -- the character behind the shorter text is in the longer one, so it opens a bar, and the bar
      -- is there too
      have hc := ha c (by simp)
      rcases hrest' with h | ⟨_, h⟩ | ⟨tail, h⟩
      · cases h
      · obtain rfl : c = ']' := (List.cons.inj h).1
        exact absurd rfl hc.2.1
      · obtain ⟨rfl, htail⟩ := List.cons.inj h
        cases more with
        | nil => rcases hrest with rfl | ⟨_, rfl⟩ | ⟨_, rfl⟩ <;> cases htail
        | cons d more =>
          obtain rfl : d = '|' := (List.cons.inj htail).1
          exact absurd rfl (ha '|' (by simp)).2.2
  · rw [List.length_append] at hle
    obtain rfl : more = [] := List.eq_nil_of_length_eq_zero (by omega)
    simp

variable {vocabulary : List Ty}

/-- A part is known from its name and what follows. -/
def PartReads (vocabulary : List Ty) (t : Ty) : Prop :=
  ∀ {u : Ty} {rest rest' : List Char}, u.isUnion = false → u.isOver vocabulary = true →
    Follows rest → Follows rest' →
    t.name.toList ++ rest = u.name.toList ++ rest' → t = u ∧ rest = rest'

/-- So are several parts. -/
def PartsRead (vocabulary : List Ty) (ts : List Ty) : Prop :=
  ∀ {us : List Ty} {rest rest' : List Char}, us ≠ [] → areParts vocabulary us = true → Closes rest →
    Closes rest' →
    joined ts ++ rest = joined us ++ rest' → ts = us ∧ rest = rest'

theorem areParts_cons {t : Ty} {ts : List Ty} : areParts vocabulary (t :: ts) = true ↔
    (t.isUnion = false ∧ t.isOver vocabulary = true) ∧ areParts vocabulary ts = true := by
  simp [areParts]

/-- A type that is no list and no union is one of the vocabulary, and its name is plain. -/
theorem partReads_of_mem (hv : Legible vocabulary) {t : Ty} (ht : t ∈ vocabulary) :
    PartReads vocabulary t := by
  intro u rest rest' hunion hover hrest hrest' h
  have hplain := hv.plain t ht
  have hleaf (hu : u ∈ vocabulary) : t = u ∧ rest = rest' := by
    have hnames : t.name.toList = u.name.toList ∧ rest = rest' := by
      rcases Nat.le_total t.name.toList.length u.name.toList.length with hle | hle
      · exact eq_of_follows (hv.plain u hu) hrest' hrest h hle
      · obtain ⟨hname, heq⟩ := eq_of_follows hplain hrest hrest' h.symm hle
        exact ⟨hname.symm, heq.symm⟩
    exact ⟨hv.distinct t ht u hu (String.toList_injective hnames.1), hnames.2⟩
  cases u with
  | union members => cases hunion
  | list element =>
    -- a name of the vocabulary, or what follows one, does not open a bracket
    rw [list_name_toList] at h
    cases hname : t.name.toList with
    | nil =>
      rw [hname, List.nil_append] at h
      rcases hrest with hr | ⟨_, hr⟩ | ⟨_, hr⟩ <;> rw [hr] at h <;> cases h
    | cons c cs =>
      rw [hname] at h
      obtain rfl : c = '[' := (List.cons.inj h).1
      exact absurd rfl (hplain '[' (by simp [hname])).1
  | _ => exact hleaf (by simpa [isOver] using hover)

theorem partsRead_singleton {t : Ty} (ht : PartReads vocabulary t) : PartsRead vocabulary [t] := by
  intro us rest rest' hne hover hrest hrest' h
  cases us with
  | nil => exact absurd rfl hne
  | cons u us =>
    obtain ⟨⟨hunion, hu⟩, -⟩ := areParts_cons.mp hover
    rw [joined_singleton] at h
    cases us with
    | nil =>
      rw [joined_singleton] at h
      obtain ⟨rfl, rfl⟩ := ht hunion hu hrest.follows hrest'.follows h
      exact ⟨rfl, rfl⟩
    | cons w us =>
      rw [joined_cons_cons, List.append_assoc] at h
      obtain ⟨-, rfl⟩ := ht hunion hu hrest.follows (.inr (.inr ⟨_, rfl⟩)) h
      rcases hrest with hr | ⟨_, hr⟩ <;> cases hr

theorem partsRead_cons {t w : Ty} {ts : List Ty} (ht : PartReads vocabulary t)
    (hts : PartsRead vocabulary (w :: ts)) : PartsRead vocabulary (t :: w :: ts) := by
  intro us rest rest' hne hover hrest hrest' h
  cases us with
  | nil => exact absurd rfl hne
  | cons u us =>
    obtain ⟨⟨hunion, hu⟩, hus⟩ := areParts_cons.mp hover
    rw [joined_cons_cons, List.append_assoc] at h
    have hbar : Follows ((' ' :: '|' :: ' ' :: joined (w :: ts)) ++ rest) := .inr (.inr ⟨_, rfl⟩)
    cases us with
    | nil =>
      rw [joined_singleton] at h
      obtain ⟨-, rfl⟩ := ht hunion hu hbar hrest'.follows h
      rcases hrest' with hr | ⟨_, hr⟩ <;> cases hr
    | cons x us =>
      rw [joined_cons_cons, List.append_assoc] at h
      obtain ⟨rfl, hlater⟩ := ht hunion hu hbar (.inr (.inr ⟨_, rfl⟩)) h
      have hlater : joined (w :: ts) ++ rest = joined (x :: us) ++ rest' := by simpa using hlater
      obtain ⟨hts, rfl⟩ := hts (List.cons_ne_nil x us) hus hrest hrest' hlater
      exact ⟨by rw [hts], rfl⟩

/-- Types have the same parts only if they are the same. -/
theorem eq_of_parts {t u : Ty} (ht : t.isOver vocabulary = true) (hu : u.isOver vocabulary = true)
    (h : t.parts = u.parts) : t = u := by
  have hlong {members : List Ty} (hover : (union members).isOver vocabulary = true) (v : Ty) :
      members ≠ [v] := by
    rintro rfl
    simp [isOver] at hover
  cases t with
  | union ts =>
    cases u with
    | union us => exact congrArg union h
    | _ => exact absurd h (hlong ht _)
  | _ =>
    cases u with
    | union us => exact absurd h.symm (hlong hu _)
    | _ => exact List.singleton_inj.mp h

theorem areParts_parts {t : Ty} (h : t.isOver vocabulary = true) :
    areParts vocabulary t.parts = true ∧ t.parts ≠ [] := by
  cases t with
  | union members =>
    rw [isOver, Bool.and_eq_true, decide_eq_true_eq] at h
    refine ⟨h.2, ?_⟩
    rintro hnil
    rw [parts] at hnil
    simp [hnil] at h
  | _ => exact ⟨areParts_cons.mpr ⟨⟨rfl, h⟩, rfl⟩, List.cons_ne_nil _ _⟩

theorem partReads_list {t : Ty} (hover : t.isOver vocabulary = true)
    (ht : PartsRead vocabulary t.parts) (hv : Legible vocabulary) :
    PartReads vocabulary (list t) := by
  intro u rest rest' hunion hu hrest hrest' h
  cases u with
  | union members => cases hunion
  | list element =>
    rw [list_name_toList, list_name_toList, List.cons.injEq, name_toList, name_toList] at h
    obtain ⟨helement, hne⟩ := areParts_parts (t := element) hu
    obtain ⟨hparts, heq⟩ := ht hne helement (.inr ⟨_, rfl⟩) (.inr ⟨_, rfl⟩) h.2
    exact ⟨congrArg list (eq_of_parts hover hu hparts), (List.cons.inj heq).2⟩
  | _ =>
    obtain ⟨hcontra, -⟩ := partReads_of_mem hv
      (by simpa [isOver] using hu) (rfl : (list t).isUnion = false) hover hrest'
      hrest h.symm
    cases hcontra

theorem reads_of_mem (hv : Legible vocabulary) {t : Ty} (hparts : t.parts = [t])
    (ht : t ∈ vocabulary) :
    PartsRead vocabulary t.parts ∧ (t.isUnion = false → PartReads vocabulary t) :=
  ⟨hparts ▸ partsRead_singleton (partReads_of_mem hv ht), fun _ => partReads_of_mem hv ht⟩

mutual

/-- A type is read part by part, and a part that is a list by what it is of. -/
theorem reads (hv : Legible vocabulary) : ∀ t : Ty, t.isOver vocabulary = true →
    PartsRead vocabulary t.parts ∧ (t.isUnion = false → PartReads vocabulary t)
  | union members, hover =>
    have hparts := areParts_parts hover
    ⟨readsAll hv members hparts.1 hparts.2, nofun⟩
  | list element, hover =>
    have hlist : PartReads vocabulary (list element) :=
      partReads_list (t := element) hover (reads hv element hover).1 hv
    ⟨partsRead_singleton hlist, fun _ => hlist⟩
  | primitive _, hover => reads_of_mem hv rfl (of_decide_eq_true hover)
  | struct _ _, hover => reads_of_mem hv rfl (of_decide_eq_true hover)
  | generic _, hover => reads_of_mem hv rfl (of_decide_eq_true hover)
  | external _, hover => reads_of_mem hv rfl (of_decide_eq_true hover)
  | function _, hover => reads_of_mem hv rfl (of_decide_eq_true hover)

theorem readsAll (hv : Legible vocabulary) : ∀ ts :
    List Ty, areParts vocabulary ts = true → ts ≠ [] →
    PartsRead vocabulary ts
  | [t], hover, _ => by
    obtain ⟨⟨hunion, ht⟩, -⟩ := areParts_cons.mp hover
    exact partsRead_singleton ((reads hv t ht).2 hunion)
  | t :: w :: ts, hover, _ => by
    obtain ⟨⟨hunion, ht⟩, hrest⟩ := areParts_cons.mp hover
    exact partsRead_cons ((reads hv t ht).2 hunion)
      (readsAll hv (w :: ts) hrest (List.cons_ne_nil w ts))

end

/-- Over a vocabulary of legible names, a type is known from its name. -/
theorem name_inj (hv : Legible vocabulary) {t u : Ty} (ht : t.isOver vocabulary = true)
    (hu : u.isOver vocabulary = true) : t.name = u.name ↔ t = u := by
  refine ⟨fun h => eq_of_parts ht hu ?_, congrArg name⟩
  obtain ⟨huparts, hune⟩ := areParts_parts hu
  have hjoined : joined t.parts ++ [] = joined u.parts ++
      [] := by rw [← name_toList, ← name_toList, h]
  exact ((reads hv t ht).1 hune huparts (.inl rfl) (.inl rfl) hjoined).1

end ClassGen.Ty
