import Mathlib.Data.List.TakeWhile
import ClassGen.Proofs.Descriptor

/-! The grammar of descriptors, and that reading accepts exactly what it derives. What is read of a
text is written as that text again, so no text has two readings. -/

namespace ClassGen

/-! ### The grammar -/

/-- A letter, `L name ;` or `[` before another. -/
inductive FieldType.Derived : List Char → Prop
  | letter {c : Char} (h : c ∈ ['B', 'C', 'D', 'F', 'I', 'J', 'S', 'Z']) : Derived [c]
  | object {name : List Char} (hne : name ≠ []) (hend : ';' ∉ name) : Derived ('L' :: name ++ [';'])
  | array {element : List Char} (h : Derived element) : Derived ('[' :: element)

/-- Any number of types, one after another. -/
inductive FieldType.DerivedMany : List Char → Prop
  | nil : DerivedMany []
  | cons {first rest : List Char} (h : Derived first) (hrest : DerivedMany rest) :
      DerivedMany (first ++ rest)

/-- Types in parentheses, then `V` or one type. -/
inductive MethodDescriptor.Derived : List Char → Prop
  | void {params : List Char} (h : FieldType.DerivedMany params) :
      Derived ('(' :: params ++ [')', 'V'])
  | value {params ret : List Char} (h : FieldType.DerivedMany params)
      (hret : FieldType.Derived ret) :
    Derived ('(' :: params ++ ')' :: ret)

theorem isClassName_iff {name : String} : isClassName name = true ↔ name.toList ≠ [] ∧
    ';' ∉ name.toList := by
  simp only [isClassName, Bool.and_eq_true, Bool.not_eq_true', List.isEmpty_eq_false_iff,
    List.all_eq_true, bne_iff_ne, ne_eq, List.forall_mem_ne']

namespace FieldType

/-! ### One type -/

/-- What is read off the front is written there. -/
theorem eq_chars_of_read {cs rest : List Char} {t : FieldType} (h : read cs = some (t, rest)) :
    t.isProper ∧ cs = t.chars ++ rest := by
  fun_induction read cs generalizing t rest with
  | case1 | case2 | case3 | case4 | case5 | case6 | case7 | case8 =>
    cases h
    exact ⟨rfl, rfl⟩
  | case9 cs c name left hdrop htake =>
    cases h
    have hname : ';' ∉ c :: name := fun hmem => by
      rw [← htake] at hmem
      simpa using List.mem_takeWhile_imp hmem
    refine ⟨isClassName_iff.mpr (by simpa using hname), ?_⟩
    rw [chars, String.toList_ofList, ← htake, List.append_assoc, List.cons_append,
      List.singleton_append, ← hdrop, List.takeWhile_append_dropWhile]
  | case10 => cases h
  | case11 cs ih =>
    obtain ⟨⟨element, rest'⟩, hread, heq⟩ := Option.map_eq_some_iff.mp h
    cases heq
    obtain ⟨hproper, rfl⟩ := ih hread
    exact ⟨hproper, rfl⟩
  | case12 => cases h

theorem read_eq_some_iff {cs rest : List Char} {t : FieldType} :
    read cs = some (t, rest) ↔ t.isProper ∧ cs = t.chars ++ rest := by
  constructor
  · exact eq_chars_of_read
  · rintro ⟨hproper, rfl⟩
    exact read_chars hproper rest

/-- Types with proper names are written as the grammar says, and nothing else is. -/
theorem derived_iff {cs : List Char} : Derived cs ↔ ∃ t : FieldType, t.isProper ∧ t.chars = cs := by
  constructor
  · intro h
    induction h with
    | letter h =>
      simp only [List.mem_cons, List.not_mem_nil, or_false] at h
      rcases h with rfl | rfl | rfl | rfl | rfl | rfl | rfl | rfl
      exacts [⟨byte, rfl, rfl⟩, ⟨char, rfl, rfl⟩, ⟨double, rfl, rfl⟩, ⟨float, rfl, rfl⟩,
        ⟨int, rfl, rfl⟩, ⟨long, rfl, rfl⟩, ⟨short, rfl, rfl⟩, ⟨boolean, rfl, rfl⟩]
    | @object name hne hend =>
      exact ⟨object (String.ofList name),
        isClassName_iff.mpr (by simpa using ⟨hne, hend⟩), by simp [chars]⟩
    | array _ ih =>
      obtain ⟨t, hproper, rfl⟩ := ih
      exact ⟨array t, hproper, rfl⟩
  · rintro ⟨t, hproper, rfl⟩
    induction t with
    | object name =>
      obtain ⟨hne, hend⟩ := isClassName_iff.mp hproper
      exact .object hne hend
    | array element ih => exact .array (ih hproper)
    | _ => exact .letter (by decide)

theorem derivedMany_iff {cs : List Char} :
    DerivedMany cs ↔ ∃ ts : List FieldType, ts.all isProper ∧ ts.flatMap chars = cs := by
  constructor
  · intro h
    induction h with
    | nil => exact ⟨[], rfl, rfl⟩
    | cons h _ ih =>
      obtain ⟨t, ht, rfl⟩ := derived_iff.mp h
      obtain ⟨ts, hts, rfl⟩ := ih
      exact ⟨t :: ts, by rw [List.all_cons, ht, hts]; rfl, List.flatMap_cons⟩
  · rintro ⟨ts, hts, rfl⟩
    induction ts with
    | nil => exact .nil
    | cons t ts ih =>
      rw [List.all_cons, Bool.and_eq_true] at hts
      rw [List.flatMap_cons]
      exact .cons (derived_iff.mpr ⟨t, hts.1, rfl⟩) (ih hts.2)

theorem text_eq_iff {t : FieldType} {text : String} : t.text = text ↔ t.chars = text.toList := by
  rw [← String.toList_inj, FieldType.text, String.toList_ofList]

theorem parse_eq_ok_iff {text : String} {t : FieldType} :
    parse text = .ok t ↔ t.isProper ∧ t.text = text := by
  have hread : parse text = .ok t ↔ read text.toList = some (t, []) := by
    unfold parse
    split
    · next u hu => simp [hu]
    · next hne => simpa using hne t
  rw [hread, read_eq_some_iff, List.append_nil, text_eq_iff, eq_comm (a := text.toList)]

/-- Also types whose classes have improper names are written differently. -/
theorem chars_injective : Function.Injective chars := by
  intro t u h
  induction t generalizing u with
  | object name =>
    cases u with
    | object other =>
      simp only [chars, List.cons_append, List.cons.injEq, true_and] at h
      rw [String.toList_inj.mp (List.append_cancel_right h)]
    | _ => simp [chars] at h
  | array element ih =>
    cases u with
    | array other =>
      simp only [chars, List.cons.injEq, true_and] at h
      rw [ih h]
    | _ => simp [chars] at h
  | _ => cases u <;> first | rfl | simp [chars] at h

/-! ### Many types -/

/-- The types that are read are written, one after another, before what is left. -/
theorem eq_chars_of_readMany {fuel : Nat} {acc ts : List FieldType} {cs rest : List Char}
    (h : readMany fuel acc cs = (ts, rest)) :
    ∃ more, ts = acc.reverse ++ more ∧ more.all isProper ∧ cs = more.flatMap chars ++ rest := by
  fun_induction readMany fuel acc cs with
  | case1 acc cs =>
    cases h
    exact ⟨[], by simp⟩
  | case2 fuel acc cs t left hread ih =>
    obtain ⟨hproper, rfl⟩ := eq_chars_of_read hread
    obtain ⟨more, rfl, hmore, rfl⟩ := ih h
    exact ⟨t :: more, by simp, by rw [List.all_cons, hproper, hmore]; rfl, by simp⟩
  | case3 fuel acc cs =>
    cases h
    exact ⟨[], by simp⟩

end FieldType

namespace MethodDescriptor

theorem readResult_eq_some_iff {cs : List Char} {ret : Option FieldType} :
    readResult cs = some ret ↔ ret.all FieldType.isProper ∧
      (ret.map FieldType.chars).getD ['V'] = cs := by
  constructor
  · intro h
    unfold readResult at h
    split at h
    · cases h
      exact ⟨rfl, rfl⟩
    · split at h
      · next t hread =>
        cases h
        obtain ⟨hproper, rfl⟩ := FieldType.eq_chars_of_read hread
        exact ⟨hproper, (List.append_nil _).symm⟩
      · cases h
  · rintro ⟨hproper, rfl⟩
    exact readResult_chars hproper

theorem eq_chars_of_read {cs : List Char} {d : MethodDescriptor} (h : read cs = some d) :
    d.isProper ∧ d.chars = cs := by
  unfold read at h
  split at h
  · next cs =>
    split at h
    · next params rest hmany =>
      obtain ⟨ret, hresult, rfl⟩ := Option.map_eq_some_iff.mp h
      obtain ⟨more, rfl, hmore, rfl⟩ := FieldType.eq_chars_of_readMany hmany
      obtain ⟨hret, rfl⟩ := readResult_eq_some_iff.mp hresult
      exact ⟨Bool.and_eq_true_iff.mpr ⟨hmore, hret⟩, rfl⟩
    · cases h
  · cases h

theorem text_eq_iff {d : MethodDescriptor} {text : String} :
    d.text = text ↔ d.chars = text.toList := by
  rw [← String.toList_inj, MethodDescriptor.text, String.toList_ofList]

theorem parse_eq_ok_iff {text : String} {d : MethodDescriptor} :
    parse text = .ok d ↔ d.isProper ∧ d.text = text := by
  constructor
  · intro h
    unfold parse at h
    split at h
    · next found hread =>
      cases h
      obtain ⟨hproper, hchars⟩ := eq_chars_of_read hread
      exact ⟨hproper, text_eq_iff.mpr hchars⟩
    · cases h
  · rintro ⟨hproper, rfl⟩
    exact parse_text hproper

theorem derived_iff {cs : List Char} : Derived cs ↔ ∃ d : MethodDescriptor,
    d.isProper ∧ d.chars = cs := by
  constructor
  · rintro (h | ⟨h, hret⟩)
    · obtain ⟨ts, hts, rfl⟩ := FieldType.derivedMany_iff.mp h
      exact ⟨⟨ts, none⟩, by rw [isProper, hts]; rfl, rfl⟩
    · obtain ⟨ts, hts, rfl⟩ := FieldType.derivedMany_iff.mp h
      obtain ⟨t, ht, rfl⟩ := FieldType.derived_iff.mp hret
      exact ⟨⟨ts, some t⟩, by rw [isProper, hts]; exact ht, rfl⟩
  · rintro ⟨⟨ts, ret⟩, hproper, rfl⟩
    rw [isProper, Bool.and_eq_true] at hproper
    have hparams := FieldType.derivedMany_iff.mpr ⟨ts, hproper.1, rfl⟩
    cases ret with
    | none => exact .void hparams
    | some t => exact .value hparams (FieldType.derived_iff.mpr ⟨t, hproper.2, rfl⟩)

end MethodDescriptor

/-- A type whose descriptor can be read is what is read from it. -/
theorem Ty.fieldType?_of_parse {t : Ty} {f : FieldType} (h : FieldType.parse t.descriptor = .ok f) :
    t.fieldType? = some f := by
  have hchars := FieldType.text_eq_iff.mp (FieldType.parse_eq_ok_iff.mp h).2
  rw [Ty.toList_descriptor] at hchars
  cases hf : t.fieldType? with
  | none =>
    rw [hf] at hchars
    cases f <;> simp [FieldType.chars] at hchars
  | some g =>
    rw [hf] at hchars
    rw [FieldType.chars_injective hchars]

/-! ### Readers -/

/-- The reader accepts what the grammar derives. What it reads is written as the text it was read
from, and every proper value is read from the text that it is written as. An error carries the text.
-/
structure ReadsGrammar {α : Type} (parse : String → Except DescriptorError α) (text : α → String)
    (isProper : α → Bool) (derived : List Char → Prop) : Prop where
  accepts : ∀ s, (∃ a, parse s = .ok a) ↔ derived s.toList
  written : ∀ s a, parse s = .ok a → text a = s
  read : ∀ a, isProper a = true → parse (text a) = .ok a
  carried : ∀ s e, parse s = .error e → e.text = s

/-- Types and method descriptors are read by their grammars. -/
theorem parse_reads_grammar :
    ReadsGrammar FieldType.parse FieldType.text FieldType.isProper FieldType.Derived ∧
      ReadsGrammar MethodDescriptor.parse MethodDescriptor.text MethodDescriptor.isProper
        MethodDescriptor.Derived := by
  refine ⟨⟨fun s => ?_, fun s t h => (FieldType.parse_eq_ok_iff.mp h).2, fun t =>
    FieldType.parse_text, fun s e h => ?_⟩, ⟨fun s => ?_, fun s d h =>
      (MethodDescriptor.parse_eq_ok_iff.mp h).2, fun d => MethodDescriptor.parse_text,
      fun s e h => ?_⟩⟩
  · simp only [FieldType.parse_eq_ok_iff, FieldType.derived_iff, FieldType.text_eq_iff]
  · unfold FieldType.parse at h
    split at h <;> cases h
    rfl
  · simp only [MethodDescriptor.parse_eq_ok_iff, MethodDescriptor.derived_iff,
      MethodDescriptor.text_eq_iff]
  · unfold MethodDescriptor.parse at h
    split at h <;> cases h
    rfl

end ClassGen
