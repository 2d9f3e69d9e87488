import ClassGen.Ty.Basic

/-! Descriptors that are written can be read back: those of any well-formed field or method type,
and so those that types and signatures get. -/

namespace ClassGen

/-- Can stand as the name of a class in a descriptor. -/
def isClassName (name : String) : Bool := !name.toList.isEmpty && name.toList.all (· != ';')

namespace FieldType

/-- Every class in it has a proper name. -/
def isProper : FieldType → Bool
  | object name => isClassName name
  | array element => element.isProper
  | _ => true

theorem read_object {name : String} (h : isClassName name) (rest : List Char) :
    read ('L' :: (name.toList ++ ';' :: rest)) = some (object name, rest) := by
  simp only [isClassName, Bool.and_eq_true, Bool.not_eq_true'] at h
  obtain ⟨hne, hall⟩ := h
  have htake : (name.toList ++ ';' :: rest).takeWhile (· != ';') = name.toList := by
    rw [List.takeWhile_append_of_pos (by simpa using hall)]
    simp
  have hdrop : (name.toList ++ ';' :: rest).dropWhile (· != ';') = ';' :: rest := by
    rw [List.dropWhile_append_of_pos (by simpa using hall)]
    simp
  rw [read, htake, hdrop]
  cases hn : name.toList with
  | nil => simp [hn] at hne
  | cons c cs =>
    simp only
    rw [← hn, String.ofList_toList]

/-- A written type is read off the front of any text. -/
theorem read_chars {t : FieldType} (h : t.isProper) (rest : List Char) :
    read (t.chars ++ rest) = some (t, rest) := by
  induction t with
  | object name =>
    have hchars : (object name).chars ++ rest =
        'L' :: (name.toList ++ ';' :: rest) := by simp [chars]
    rw [hchars]
    exact read_object h rest
  | array element ih =>
    rw [chars, List.cons_append, read, ih h]
    rfl
  | _ => rfl

theorem parse_text {t : FieldType} (h : t.isProper) : parse t.text = .ok t := by
  have hread := read_chars h []
  rw [List.append_nil] at hread
  simp [parse, text, hread]

theorem length_chars_pos (t : FieldType) : 0 < t.chars.length := by
  cases t <;> simp [chars]

theorem length_le_flatMap (ts : List FieldType) : ts.length ≤ (ts.flatMap chars).length := by
  induction ts with
  | nil => simp
  | cons t ts ih =>
    have := t.length_chars_pos
    simp only [List.flatMap_cons, List.length_append, List.length_cons]
    omega

/-- Written types are read until something else comes. -/
theorem readMany_chars {ts : List FieldType} (h : ∀ t ∈ ts, t.isProper) {rest : List Char}
    (hrest : read rest = none) {fuel : Nat} (hfuel : ts.length ≤ fuel) (acc : List FieldType) :
    readMany fuel acc (ts.flatMap chars ++ rest) = (acc.reverse ++ ts, rest) := by
  induction ts generalizing fuel acc with
  | nil => cases fuel <;> simp [readMany, hrest]
  | cons t ts ih =>
    cases fuel with
    | zero => simp at hfuel
    | succ fuel =>
      rw [List.flatMap_cons, List.append_assoc, readMany, read_chars (h t (by simp))]
      simp only
      rw [ih (fun u hu => h u (by simp [hu])) (by simpa using hfuel)]
      simp

/-- What is left is the end of the text, and the text of a type does not end as that of no result
does. -/
theorem read_suffix : ∀ {cs rest : List Char} {t : FieldType}, read cs = some (t, rest) →
    ∃ chars, cs = chars ++ rest ∧ chars.getLast? ≠ some 'V' := by
  intro cs rest t h
  fun_induction read cs generalizing t rest with
  | case1 cs | case2 cs | case3 cs | case4 cs | case5 cs | case6 cs | case7 cs | case8 cs =>
    cases h
    exact ⟨[_], rfl, by decide⟩
  | case9 cs c name left hdrop htake =>
    cases h
    refine ⟨('L' :: cs.takeWhile (· != ';')) ++ [';'], ?_, ?_⟩
    · rw [List.append_assoc, List.cons_append, List.singleton_append, ← hdrop,
        List.takeWhile_append_dropWhile]
    · rw [List.getLast?_concat]
      decide
  | case10 => cases h
  | case11 cs ih =>
    obtain ⟨⟨element, rest'⟩, hread, heq⟩ := Option.map_eq_some_iff.mp h
    cases heq
    obtain ⟨chars, rfl, hlast⟩ := ih hread
    refine ⟨'[' :: chars, rfl, ?_⟩
    cases chars with
    | nil => decide
    | cons c chars => rwa [List.getLast?_cons_cons]
  | case12 => cases h

theorem readMany_suffix {fuel : Nat} {acc : List FieldType} {cs : List Char} :
    (readMany fuel acc cs).2 <:+ cs := by
  fun_induction readMany fuel acc cs with
  | case1 => exact List.suffix_refl _
  | case2 fuel acc cs t rest hread ih =>
    obtain ⟨chars, rfl, -⟩ := read_suffix hread
    exact ih.trans (List.suffix_append _ _)
  | case3 => exact List.suffix_refl _

end FieldType

namespace MethodDescriptor

def isProper (d : MethodDescriptor) : Bool :=
  d.params.all FieldType.isProper && d.ret.all FieldType.isProper

theorem readResult_chars {ret : Option FieldType} (h : ret.all FieldType.isProper) :
    readResult ((ret.map FieldType.chars).getD ['V']) = some ret := by
  cases ret with
  | none => rfl
  | some t =>
    have hread := FieldType.read_chars (t := t) (by simpa using h) []
    rw [List.append_nil] at hread
    unfold readResult
    split
    · next heq =>
      have hv : t.chars = ['V'] := heq
      rw [hv] at hread
      cases hread
    · simp [hread]

theorem parse_text {d : MethodDescriptor} (h : d.isProper) : parse d.text = .ok d := by
  obtain ⟨params, ret⟩ := d
  simp only [isProper, Bool.and_eq_true, List.all_eq_true] at h
  have hstop : FieldType.read (')' :: (ret.map FieldType.chars).getD ['V']) = none := rfl
  have hfuel : params.length ≤
      (params.flatMap FieldType.chars ++ ')' :: (ret.map FieldType.chars).getD ['V']).length := by
    have := FieldType.length_le_flatMap params
    rw [List.length_append]
    omega
  have hread := FieldType.readMany_chars h.1 hstop hfuel []
  simp only [parse, text, chars, String.toList_ofList, List.cons_append, read, hread,
    readResult_chars h.2]
  rfl

theorem offsetsFrom_length {base : Nat} {ts : List FieldType} :
    (offsetsFrom base ts).length = ts.length := by
  induction ts generalizing base with
  | nil => rfl
  | cons u ts ih => simp [offsetsFrom, ih]

/-- A text that ends as one without a result names none. -/
theorem ret_of_parse {text : String} {d : MethodDescriptor} (h : parse text = .ok d)
    (hlast : text.toList.getLast? = some 'V') : d.ret = none := by
  unfold parse at h
  cases hread : read text.toList with
  | none => simp [hread] at h
  | some found =>
    simp only [hread, Except.ok.injEq] at h
    subst h
    unfold read at hread
    split at hread
    · next cs heq =>
      split at hread
      · next params rest hmany =>
        obtain ⟨ret, hresult, rfl⟩ := Option.map_eq_some_iff.mp hread
        have hsuffix : ')' :: rest <:+ cs := by
          have hmany' := @FieldType.readMany_suffix cs.length [] cs
          rwa [hmany] at hmany'
        obtain ⟨before, rfl⟩ := hsuffix
        have hrest : rest.getLast? = some 'V' := by
          cases rest with
          | nil => cases hresult
          | cons c rest => simpa [heq, List.getLast?_cons] using hlast
        unfold readResult at hresult
        split at hresult
        · cases hresult
          rfl
        · split at hresult
          · next t htype =>
            obtain ⟨chars, rfl, hne⟩ := FieldType.read_suffix htype
            rw [List.append_nil] at hrest
            exact absurd hrest hne
          · cases hresult
      · cases hread
    · cases hread

end MethodDescriptor

namespace Ty

/-- The type as descriptors know it; none for void. -/
def fieldType? : Ty → Option FieldType
  | primitive .int => some .int
  | primitive .float => some .float
  | primitive .double => some .double
  | primitive .boolean => some .boolean
  | primitive .string => some (.object Library.string)
  | primitive .void => none
  | t => some (.object t.className)

/-- Its class can be named in a descriptor. -/
def isNamed (t : Ty) : Bool := t.fieldType?.all FieldType.isProper

theorem eq_void {t : Ty} (h : t.isVoid = true) : t = .void := by
  unfold Ty.isVoid at h
  split at h
  · rfl
  · cases h

theorem fieldType?_isSome {t : Ty} (h : t.isVoid = false) : ∃ f, t.fieldType? = some f := by
  cases t with
  | primitive kind => cases kind <;> first | exact ⟨_, rfl⟩ | cases h
  | _ => exact ⟨_, rfl⟩

theorem toList_descriptor (t : Ty) :
    t.descriptor.toList = (t.fieldType?.map FieldType.chars).getD ['V'] := by
  cases t with
  | primitive kind => cases kind <;> rfl
  | _ => simp [descriptor, fieldType?, Library.reference, FieldType.chars, String.toList_append]

theorem parse_descriptor {t : Ty} {f : FieldType} (hf : t.fieldType? = some f) (h : t.isNamed) :
    FieldType.parse t.descriptor = .ok f := by
  have htext : t.descriptor = f.text := by
    rw [FieldType.text, ← String.ofList_toList (s := t.descriptor), toList_descriptor, hf]
    rfl
  rw [htext]
  exact FieldType.parse_text (by simpa [isNamed, hf] using h)

end Ty

/-- What a list of types with values writes in descriptors, and that it can be read. -/
theorem descriptors_of_fieldTypes {params : List Ty} {fs : List FieldType}
    (hf : params.map Ty.fieldType? = fs.map some) (hp : ∀ t ∈ params, t.isNamed) :
    (params.map Ty.descriptor).flatMap String.toList = fs.flatMap FieldType.chars ∧
      fs.all FieldType.isProper := by
  induction params generalizing fs with
  | nil =>
    obtain rfl : fs = [] := by simpa using hf
    exact ⟨rfl, rfl⟩
  | cons t ts ih =>
    cases fs with
    | nil => cases hf
    | cons f fs =>
      obtain ⟨ht, hts⟩ := List.cons.inj hf
      obtain ⟨hchars, hproper⟩ := ih hts fun u hu => hp u (List.mem_cons_of_mem _ hu)
      have hnamed := hp t List.mem_cons_self
      rw [Ty.isNamed, ht] at hnamed
      refine ⟨?_, by simpa using ⟨hnamed, by simpa using hproper⟩⟩
      rw [List.map_cons, List.flatMap_cons, List.flatMap_cons, hchars, Ty.toList_descriptor, ht]
      rfl

/-- The descriptor of a method whose parameters have values names their types. -/
theorem parse_methodDescriptor {params : List Ty} {ret : Ty} {fs : List FieldType}
    (hf : params.map Ty.fieldType? = fs.map some) (hp : ∀ t ∈ params, t.isNamed)
    (hr : ret.isNamed) :
    MethodDescriptor.parse (methodDescriptor params ret) = .ok ⟨fs, ret.fieldType?⟩ := by
  obtain ⟨hchars, hproper⟩ := descriptors_of_fieldTypes hf hp
  have htext : methodDescriptor params ret = MethodDescriptor.text ⟨fs, ret.fieldType?⟩ := by
    rw [MethodDescriptor.text, ← String.ofList_toList (s := methodDescriptor params ret)]
    congr 1
    simp [methodDescriptor, MethodDescriptor.chars, String.toList_append,
      String.toList_join, hchars, Ty.toList_descriptor]
  rw [htext]
  refine MethodDescriptor.parse_text ?_
  rw [MethodDescriptor.isProper, hproper, Bool.true_and]
  exact hr

theorem exists_fieldTypes {types : List Ty} (h : ∀ t ∈ types, t.isVoid = false) :
    ∃ fs : List FieldType, types.map Ty.fieldType? = fs.map some := by
  induction types with
  | nil => exact ⟨[], rfl⟩
  | cons t ts ih =>
    obtain ⟨f, hf⟩ := Ty.fieldType?_isSome (h t List.mem_cons_self)
    obtain ⟨fs, hfs⟩ := ih fun u hu => h u (List.mem_cons_of_mem _ hu)
    exact ⟨f :: fs, by simp [hf, hfs]⟩

/-- Types with values are read until something else comes. -/
theorem readMany_descriptors {types : List Ty} (hv : ∀ t ∈ types, t.isVoid = false)
    (hp : ∀ t ∈ types, t.isNamed) (rest : List Char) (hrest : FieldType.read rest = none) :
    ∃ fs, types.map Ty.fieldType? = fs.map some ∧
      FieldType.readMany ((types.map Ty.descriptor).flatMap String.toList ++ rest).length []
        ((types.map Ty.descriptor).flatMap String.toList ++ rest) = (fs, rest) := by
  obtain ⟨fs, hfs⟩ := exists_fieldTypes hv
  obtain ⟨hchars, hproper⟩ := descriptors_of_fieldTypes hfs hp
  refine ⟨fs, hfs, ?_⟩
  rw [hchars]
  have hlength : fs.length ≤ (fs.flatMap FieldType.chars ++ rest).length := by
    have := FieldType.length_le_flatMap fs
    rw [List.length_append]
    omega
  exact FieldType.readMany_chars (by simpa using hproper) hrest hlength []

theorem toList_methodDescriptor (params : List Ty) (ret : Ty) :
    (methodDescriptor params ret).toList =
      '(' :: ((params.map Ty.descriptor).flatMap String.toList ++
        ')' :: ret.descriptor.toList) := by
  simp [methodDescriptor, String.toList_append, String.toList_join]

/-- A descriptor that is read has the parameters that were written, if their classes have proper
names. -/
theorem params_of_parse {types : List Ty} {ret : Ty} {d : MethodDescriptor}
    (hp : ∀ t ∈ types, t.isNamed)
    (h : MethodDescriptor.parse (methodDescriptor types ret) = .ok d) :
    types.map Ty.fieldType? = d.params.map some := by
  unfold MethodDescriptor.parse at h
  rw [toList_methodDescriptor, MethodDescriptor.read] at h
  by_cases hmem : Ty.void ∈ types
  · -- Reading stops at the first parameter without a value, and not at a parenthesis.
    obtain ⟨first, others, rfl, hfirst⟩ := List.eq_append_cons_of_mem hmem
    have hvalues : ∀ t ∈ first, t.isVoid = false := fun t ht =>
      Bool.eq_false_iff.mpr fun hvoid => hfirst (Ty.eq_void hvoid ▸ ht)
    have hsplit : ((first ++ Ty.void :: others).map Ty.descriptor).flatMap String.toList ++
          ')' :: ret.descriptor.toList =
        (first.map Ty.descriptor).flatMap String.toList ++
          'V' :: ((others.map Ty.descriptor).flatMap String.toList ++
            ')' :: ret.descriptor.toList) := by
      simp [Ty.toList_descriptor, Ty.fieldType?]
    obtain ⟨fs, -, hread⟩ := readMany_descriptors hvalues
      (fun t ht => hp t (List.mem_append_left _ ht))
      ('V' :: ((others.map Ty.descriptor).flatMap String.toList ++
        ')' :: ret.descriptor.toList)) rfl
    rw [hsplit, hread] at h
    cases h
  · have hvalues : ∀ t ∈ types, t.isVoid = false := fun t ht =>
      Bool.eq_false_iff.mpr fun hvoid => hmem (Ty.eq_void hvoid ▸ ht)
    obtain ⟨fs, hfs, hread⟩ := readMany_descriptors hvalues hp (')' :: ret.descriptor.toList) rfl
    rw [hread] at h
    cases hresult : MethodDescriptor.readResult ret.descriptor.toList with
    | none => simp [hresult] at h
    | some result =>
      simp only [hresult, Option.map_some, Except.ok.injEq] at h
      rw [← h]
      exact hfs

end ClassGen
