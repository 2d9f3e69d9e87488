import ClassGen.Proofs.ClassFile.Interning
import ClassGen.Proofs.ClassFile.RoundTrip

/-! The numbers that a class file states of itself: lengths of texts, of code and of attributes, how
many constants and members there are, and how many slots an interface call takes. The file is laid
out in parts, so that each number stands beside what it counts and what is written of it. A number
that is too large for its place is cut, not refused, and this happens to texts, members and
interface calls only. -/

namespace ClassGen

/-- A stretch of a class file, or a number that the file states in one, two or four bytes. -/
inductive Part where
  | plain (content : Bytes)
  | count8 (n : Nat)
  | count16 (n : Nat)
  | count32 (n : Nat)

namespace Part

/-- Of a number only the low bytes are written. -/
def bytes : Part → Bytes
  | plain content => content
  | count8 n => [n.toUInt8]
  | count16 n => Bytes.ofU16 n.toUInt16
  | count32 n => Bytes.ofU32 n.toUInt32

/-- The number that was written is the true one. -/
def IsExact : Part → Prop
  | plain _ => True
  | count8 n => n.toUInt8.toNat = n
  | count16 n => n.toUInt16.toNat = n
  | count32 n => n.toUInt32.toNat = n

instance : DecidablePred IsExact
  | plain _ => inferInstanceAs (Decidable True)
  | count8 n => inferInstanceAs (Decidable (n.toUInt8.toNat = n))
  | count16 n => inferInstanceAs (Decidable (n.toUInt16.toNat = n))
  | count32 n => inferInstanceAs (Decidable (n.toUInt32.toNat = n))

@[simp] theorem isExact_plain (content : Bytes) : (plain content).IsExact := trivial

@[simp] theorem isExact_count8 {n : Nat} : (count8 n).IsExact ↔ n ≤ 255 := by
  rw [IsExact, Nat.toUInt8_eq, UInt8.toNat_ofNat']
  omega

@[simp] theorem isExact_count16 {n : Nat} : (count16 n).IsExact ↔ n ≤ 65535 := by
  rw [IsExact, Nat.toUInt16_eq, UInt16.toNat_ofNat']
  omega

@[simp] theorem isExact_count32 {n : Nat} : (count32 n).IsExact ↔ n ≤ 4294967295 := by
  rw [IsExact, Nat.toUInt32_eq, UInt32.toNat_ofNat']
  omega

end Part

/-! ### The parts of a class file -/

def PoolEntry.parts : PoolEntry → List Part
  | utf8 text => [.plain [1], .count16 (Text.modifiedUtf8 text).length,
      .plain (Text.modifiedUtf8 text)]
  | e => [.plain e.bytes]

/-- Slots of the arguments of a call through an interface. -/
def Instr.interfaceSlots? : Instr → Option Nat
  | invoke code target =>
    if code = .invokeinterface then (MethodDescriptor.parse target.descriptor).toOption.map
      (·.argWidth) else none
  | _ => none

/-- An instruction written as `content`. An interface call states its slots in the fourth byte, the
receiver counted with the arguments. -/
def Instr.parts (i : Instr) (content : Bytes) : List Part :=
  match i.interfaceSlots? with
  | some slots => [.plain (content.take 3), .count8 (slots + 1), .plain (content.drop 4)]
  | none => [.plain content]

/-- What linking makes of a piece: a branch gets its distance, a mark goes. -/
def Piece.Filled : Piece → Bytes → Prop
  | bytes content, written => written = content
  | jump code _, written => ∃ distance, written = Assembly.withIndex code distance
  | mark _, written => written = []

/-- What is chosen while a method is written. -/
structure MethodParts where
  name : UInt16
  descriptor : UInt16
  assembled : Assembled
  /-- Bytes of each instruction. -/
  contents : List Bytes

/-- The choices are those made for `m`. -/
def MethodParts.Of (w : MethodParts) (m : Method) : Prop :=
  ∃ p q pieces, m.code.mapM Assembly.encode p = .ok pieces q ∧
    Assembly.resolve m.name pieces = .ok w.assembled.code ∧
      List.Forall₂ Piece.Filled pieces w.contents

def Method.parts (codeName : UInt16) (m : Method) (w : MethodParts) : List Part :=
  [.plain (Bytes.ofU16 m.access ++ Bytes.ofU16 w.name ++ Bytes.ofU16 w.descriptor), .count16 1,
    .plain (Bytes.ofU16 codeName), .count32 (12 + w.assembled.code.length),
    .plain (Bytes.ofU16 w.assembled.maxStack ++ Bytes.ofU16 m.maxLocals),
    .count32 w.assembled.code.length] ++
  (List.zipWith Instr.parts m.code w.contents).flatten ++ [.count16 0, .count16 0]

/-- A field, with the indices of its name and its descriptor. -/
def Field.parts (f : Field) (indices : UInt16 × UInt16) : List Part :=
  [.plain (Bytes.ofU16 f.access ++ Bytes.ofU16 indices.1 ++ Bytes.ofU16 indices.2), .count16 0]

/-- What is chosen while a class is written. -/
structure ClassParts where
  constants : List PoolEntry
  this : UInt16
  super : UInt16
  codeName : UInt16
  fields : List (UInt16 × UInt16)
  methods : List MethodParts
  /-- Indices for the attribute that names the source. -/
  source : UInt16 × UInt16

/-- The choices are those made for `u`, whose texts are all among the constants. -/
structure ClassParts.Of (w : ClassParts) (u : ClassUnit) : Prop where
  fields : w.fields.length = u.fields.length
  methods : List.Forall₂ MethodParts.Of w.methods u.methods
  texts : ∀ t ∈ u.texts, PoolEntry.utf8 t ∈ w.constants

namespace ClassUnit

def sourceParts (sourceFile : Option String) (indices : UInt16 × UInt16) : List Part :=
  match sourceFile with
  | none => [.count16 0]
  | some _ => [.count16 1, .plain (Bytes.ofU16 indices.1), .count32 2,
      .plain (Bytes.ofU16 indices.2)]

/-- The class file: every number in it is a part of its own, given as what it counts. -/
def parts (u : ClassUnit) (major : UInt16) (w : ClassParts) : List Part :=
  [.plain (Bytes.ofU32 0xcafebabe ++ Bytes.ofU16 0 ++ Bytes.ofU16 major),
    .count16 (1 + Pool.widths w.constants)] ++
  w.constants.flatMap PoolEntry.parts ++
  [.plain (Bytes.ofU16 u.access ++ Bytes.ofU16 w.this ++ Bytes.ofU16 w.super), .count16 0,
    .count16 u.fields.length] ++
  (List.zipWith Field.parts u.fields w.fields).flatten ++
  [.count16 u.methods.length] ++
  (List.zipWith (Method.parts w.codeName) u.methods w.methods).flatten ++
  sourceParts u.sourceFile w.source

end ClassUnit

/-! ### Writing the parts -/

theorem PoolEntry.flatMap_parts (e : PoolEntry) : e.parts.flatMap Part.bytes = e.bytes := by
  cases e with
  | utf8 text => simp [parts, Part.bytes, bytes, tag]
  | _ => simp [parts, Part.bytes]

namespace Assembly

/-- Encoding leaves room for the slots of an interface call exactly where they are to stand. -/
theorem encode_parts {i : Instr} {p q : Pool} {piece : Piece} (h : encode i p = .ok piece q) :
    ∀ written, piece.Filled written → (i.parts written).flatMap Part.bytes = written := by
  intro written hw
  cases hslots : i.interfaceSlots? with
  | none => simp [Instr.parts, hslots, Part.bytes]
  | some slots =>
    cases i with
    | invoke code target =>
      simp only [Instr.interfaceSlots?] at hslots
      split at hslots
      · next hcode =>
        subst hcode
        obtain ⟨content, hcontent, rfl⟩ := Run.map_ok.mp h
        obtain ⟨index, p', hindex, hrest⟩ := Run.bind_ok.mp hcontent
        rw [if_pos (by rfl)] at hrest
        cases hd : MethodDescriptor.parse target.descriptor with
        | error e =>
          simp only [hd] at hrest
          exact (Run.throw_ok.mp hrest).elim
        | ok d =>
          simp only [hd] at hrest
          simp only [hd, Except.toOption, Option.map_some, Option.some.injEq] at hslots
          obtain ⟨rfl, -⟩ := Run.pure_ok.mp hrest
          subst hslots hw
          have hlow : d.argSlots.toUInt8 = UInt8.ofNat d.argWidth := by
            rw [MethodDescriptor.argSlots_eq]
            exact UInt16.toUInt8_ofNat' _
          simp [hlow, Instr.parts, Instr.interfaceSlots?, hd, Except.toOption, Part.bytes,
            withIndex, Bytes.ofU16]
      · cases hslots
    | _ => cases hslots

/-- Linking fills the pieces in and joins them. -/
theorem link_filled {method : String} {labels : Std.TreeMap Label Nat} {pieces : List Piece}
    {acc : List Bytes} {n : Nat} {out : Bytes} (h : link method labels acc n pieces = .ok out) :
    ∃ contents, List.Forall₂ Piece.Filled pieces contents ∧ out = acc.reverse.flatten ++
      contents.flatten := by
  induction pieces generalizing acc n with
  | nil =>
    simp only [link, Except.ok.injEq] at h
    exact ⟨[], .nil, by simp [h]⟩
  | cons piece pieces ih =>
    cases piece with
    | bytes content =>
      rw [link] at h
      obtain ⟨contents, hfilled, rfl⟩ := ih h
      exact ⟨content :: contents, .cons rfl hfilled, by simp⟩
    | mark l =>
      rw [link] at h
      obtain ⟨contents, hfilled, rfl⟩ := ih h
      exact ⟨[] :: contents, .cons rfl hfilled, by simp⟩
    | jump code target =>
      rw [link] at h
      cases ht : labels[target]? with
      | none => simp [ht] at h
      | some destination =>
        simp only [ht] at h
        cases hb : branch code n destination with
        | none => simp [hb] at h
        | some content =>
          simp only [hb] at h
          obtain ⟨contents, hfilled, rfl⟩ := ih h
          refine ⟨content :: contents, .cons ?_ hfilled, by simp⟩
          unfold branch at hb
          simp only at hb
          split at hb
          · exact ⟨_, (Option.some.inj hb).symm⟩
          · cases hb

/-- All instructions of a method, whatever its branches are filled in with. -/
theorem mapM_encode_parts {code : Code} {p q : Pool} {pieces : List Piece} {contents : List Bytes}
    (h : code.mapM encode p = .ok pieces q) (hfilled : List.Forall₂ Piece.Filled pieces contents) :
    contents.length = code.length ∧
      (List.zipWith Instr.parts code contents).flatten.flatMap Part.bytes = contents.flatten := by
  induction code generalizing p pieces contents with
  | nil =>
    obtain ⟨rfl, -⟩ := Run.pure_ok.mp h
    cases hfilled
    exact ⟨rfl, rfl⟩
  | cons i code ih =>
    simp only [List.mapM_cons, Run.bind_ok, Run.pure_ok] at h
    obtain ⟨piece, p', hfirst, pieces, q', hrest, rfl, rfl⟩ := h
    obtain ⟨content, contents, hcontent, hrestFilled, rfl⟩ := List.forall₂_cons_left_iff.mp hfilled
    obtain ⟨hlength, hbytes⟩ := ih hrest hrestFilled
    refine ⟨by simp [hlength], ?_⟩
    rw [List.zipWith_cons_cons, List.flatten_cons, List.flatMap_append,
      encode_parts hfirst content hcontent, hbytes, List.flatten_cons]

end Assembly

theorem Method.assemble_parts {m : Method} {p q : Pool} {a : Assembled} (name descriptor : UInt16)
    (h : m.assemble p = .ok a q) :
    ∃ contents, MethodParts.Of ⟨name, descriptor, a, contents⟩ m ∧
      (List.zipWith Instr.parts m.code contents).flatten.flatMap Part.bytes = a.code := by
  simp only [Method.assemble, Run.bind_ok, Run.ofExcept_ok, Run.pure_ok] at h
  obtain ⟨depth, _, ⟨-, rfl⟩, pieces, _, hpieces, bytes, _, ⟨hresolve, rfl⟩, rfl, rfl⟩ := h
  have hlink := hresolve
  unfold Assembly.resolve at hlink
  simp only at hlink
  split at hlink
  · cases hlink
  · obtain ⟨contents, hfilled, rfl⟩ := Assembly.link_filled hlink
    exact ⟨contents, ⟨p, _, pieces, hpieces, hresolve, hfilled⟩,
      (Assembly.mapM_encode_parts hpieces hfilled).2⟩

namespace ClassUnit

variable {p q : Pool} {content : Bytes}

theorem fields_parts {fs : List Field} {contents : List Bytes}
    (h : fs.mapM fieldBytes p = .ok contents q) :
    ∃ indices : List (UInt16 × UInt16), indices.length = fs.length ∧
      (List.zipWith Field.parts fs indices).flatten.flatMap Part.bytes = contents.flatten := by
  induction fs generalizing p contents with
  | nil =>
    obtain ⟨rfl, -⟩ := Run.pure_ok.mp h
    exact ⟨[], rfl, rfl⟩
  | cons f fs ih =>
    simp only [List.mapM_cons, fieldBytes, Run.bind_ok, Run.pure_ok] at h
    obtain ⟨_, p', ⟨name, _, -, descriptor, _, -, rfl, rfl⟩, contents, _, hrest, rfl, rfl⟩ := h
    obtain ⟨indices, hlength, hbytes⟩ := ih hrest
    refine ⟨(name, descriptor) :: indices, by simp [hlength], ?_⟩
    rw [List.zipWith_cons_cons, List.flatten_cons, List.flatMap_append, hbytes]
    rfl

theorem methods_parts {codeName : UInt16} {ms : List Method} {contents : List Bytes}
    (h : ms.mapM (methodBytes codeName) p = .ok contents q) :
    ∃ ws : List MethodParts, List.Forall₂ MethodParts.Of ws ms ∧
      (List.zipWith (Method.parts codeName) ms ws).flatten.flatMap Part.bytes =
        contents.flatten := by
  induction ms generalizing p contents with
  | nil =>
    obtain ⟨rfl, -⟩ := Run.pure_ok.mp h
    exact ⟨[], .nil, rfl⟩
  | cons m ms ih =>
    simp only [List.mapM_cons, methodBytes, Run.bind_ok, Run.pure_ok] at h
    obtain ⟨_, p', ⟨name, _, -, descriptor, _, -, a, _, ha, rfl, rfl⟩, contents, _, hrest,
        rfl, rfl⟩ := h
    obtain ⟨ws, hof, hbytes⟩ := ih hrest
    obtain ⟨written, hfirst, hcode⟩ := Method.assemble_parts name descriptor ha
    refine ⟨⟨name, descriptor, a, written⟩ :: ws, .cons hfirst hof, ?_⟩
    rw [List.zipWith_cons_cons, List.flatten_cons, List.flatMap_append, hbytes]
    simp [Method.parts, hcode, Part.bytes, codeBytes]

theorem attributes_parts {sourceFile : Option String}
    (h : attributeBytes sourceFile p = .ok content q) :
    ∃ indices, (sourceParts sourceFile indices).flatMap Part.bytes = content := by
  cases sourceFile with
  | none =>
    obtain ⟨rfl, -⟩ := Run.pure_ok.mp h
    exact ⟨(0, 0), rfl⟩
  | some source =>
    simp only [attributeBytes, Run.bind_ok, Run.pure_ok] at h
    obtain ⟨name, _, -, value, _, -, rfl, -⟩ := h
    exact ⟨(name, value), rfl⟩

end ClassUnit

/-! ### Texts that are entered -/

namespace Pool

variable {α β : Type} {x : PoolM α} {ts us : List String}

/-- A successful run leaves the texts among the constants. -/
def Enters (x : PoolM α) (texts : List String) : Prop :=
  Yields x fun r _ => ∀ t ∈ texts, PoolEntry.utf8 t ∈ r.entries.toList

theorem Enters.mono (h : Enters x ts) (hsub : us ⊆ ts) : Enters x us :=
  h.imp fun _ _ hts t ht => hts t (hsub ht)

theorem enters_pure (a : α) : Enters (pure a) [] := yields_pure fun _ => nofun

theorem enters_intern (e : PoolEntry) : Enters (intern e) [] :=
  (yields_intern e).imp fun _ _ _ => nofun

theorem enters_utf8 (text : String) : Enters (utf8 text) [text] :=
  (yields_intern _).imp fun r i hi t ht => by
    obtain ⟨before, rest, hsplit, -⟩ := entryFrom_eq_some hi
    rw [List.mem_singleton.mp ht, hsplit]
    exact List.mem_append_right _ List.mem_cons_self

theorem Enters.bind {f : α → PoolM β} (hx : Enters x ts) (hf : ∀ a, Enters (f a) us) :
    Enters (x >>= f) (ts ++ us) :=
  Yields.bind hx fun a => (hf a).imp fun _ _ hus hts t ht =>
    (List.mem_append.mp ht).elim (hts t) (hus t)

theorem Enters.map {f : α → β} (hx : Enters x ts) : Enters (f <$> x) ts :=
  Yields.map hx fun _ _ h => h

theorem enters_mapM {f : β → PoolM α} {texts : β → List String} {bs : List β}
    (h : ∀ b, Enters (f b) (texts b)) : Enters (bs.mapM f) (bs.flatMap texts) := by
  induction bs with
  | nil => exact enters_pure _
  | cons b bs ih =>
    rw [List.mapM_cons, List.flatMap_cons]
    exact (h b).bind fun a => (ih.bind fun as => enters_pure _).mono (by simp)

theorem enters_ofExcept (x : Except ClassFormatError α) : Enters (MonadExcept.ofExcept x) [] := by
  intro p q a hp h
  obtain ⟨-, rfl⟩ := Run.ofExcept_ok.mp h
  exact ⟨hp, .refl p, fun _ _ => nofun⟩

theorem enters_className (name : String) : Enters (className name) [name] :=
  (enters_utf8 name).bind fun _ => enters_intern _

theorem enters_reference (make : UInt16 → UInt16 → PoolEntry) (m : Member) :
    Enters (do intern (make (← className m.owner) (← nameAndType m.name m.descriptor))) m.texts :=
  (enters_className m.owner).bind fun _ =>
    ((enters_utf8 m.name).bind fun _ => (enters_utf8 m.descriptor).bind fun _ =>
      enters_intern _).bind fun _ =>
      enters_intern _

theorem enters_constant (v : Constant) : Enters (Assembly.encodeConstant v)
    (Instr.push v).texts := by
  cases v with
  | int v =>
    rw [Assembly.encodeConstant]
    split_ifs
    · exact enters_pure _
    · exact enters_pure _
    · exact enters_pure _
    · exact (enters_intern _).map
  | float bits =>
    rw [Assembly.encodeConstant]
    split_ifs
    · exact enters_pure _
    · exact enters_pure _
    · exact enters_pure _
    · exact (enters_intern _).map
  | double bits =>
    rw [Assembly.encodeConstant]
    split_ifs
    · exact enters_pure _
    · exact enters_pure _
    · exact (enters_intern _).map
  | text value => exact ((enters_utf8 value).bind fun _ => enters_intern _).map

theorem enters_invoke (code : Opcode) (target : Member) :
    Enters (Assembly.encodeInvoke code target) target.texts := by
  unfold Assembly.encodeInvoke
  have hreference : Enters (methodRef target (code == Opcode.invokeinterface)) target.texts := by
    cases code == Opcode.invokeinterface with
    | false => exact enters_reference .methodRef target
    | true => exact enters_reference .interfaceMethodRef target
  refine Enters.mono (hreference.bind fun i => show Enters _ [] from ?_) (by simp)
  split
  · split
    · exact enters_pure _
    · intro p q a _ hthrow
      exact (Run.throw_ok.mp hthrow).elim
  · exact enters_pure _

theorem enters_encode (i : Instr) : Enters (Assembly.encode i) i.texts := by
  cases i with
  | op | slot | jump | mark => exact enters_pure _
  | push value => exact (enters_constant value).map
  | type code className => exact (enters_className className).map
  | field code target => exact (enters_reference .fieldRef target).map
  | invoke code target => exact (enters_invoke code target).map

theorem enters_method (codeName : UInt16) (m : Method) :
    Enters (ClassUnit.methodBytes codeName m) m.texts := by
  have hassemble : Enters m.assemble (m.code.flatMap Instr.texts) :=
    ((enters_ofExcept _).bind fun _ => (enters_mapM enters_encode).bind fun _ =>
      (enters_ofExcept _).bind fun _ =>
      enters_pure _).mono (by simp)
  exact ((enters_utf8 m.name).bind fun _ => (enters_utf8 m.descriptor).bind fun _ =>
    hassemble.bind fun _ =>
    enters_pure _).mono (by simp [Method.texts])

theorem enters_body (u : ClassUnit) : Enters u.body u.texts := by
  have hfield (f : Field) : Enters (ClassUnit.fieldBytes f) f.texts :=
    (enters_utf8 f.name).bind fun _ => (enters_utf8 f.descriptor).bind fun _ => enters_pure _
  have hsource : Enters (ClassUnit.attributeBytes u.sourceFile) u.sourceFile.toList := by
    cases u.sourceFile with
    | none => exact enters_pure _
    | some source =>
      exact ((enters_utf8 "SourceFile").bind fun _ => (enters_utf8 source).bind fun _ =>
        enters_pure _).mono (by simp)
  refine ((enters_className u.name).bind fun _ => (enters_className u.superName).bind fun _ =>
    (enters_utf8 "Code").bind fun codeName => (enters_mapM hfield).bind fun _ =>
      (enters_mapM (enters_method codeName)).bind fun _ => hsource.bind fun _ =>
        enters_pure _).mono ?_
  intro t ht
  simp only [ClassUnit.texts, List.mem_cons, List.mem_append] at ht
  simp only [List.mem_cons, List.mem_append]
  tauto

end Pool

/-! ### Numbers that are the true ones -/

theorem PoolEntry.forall_parts {e : PoolEntry} : (∀ p ∈ e.parts, p.IsExact) ↔ e.Fits := by
  cases e with
  | utf8 text => simp [parts, Fits, Text.Fits]
  | _ => simp [parts, Fits]

theorem Instr.forall_parts {i : Instr} {content : Bytes} :
    (∀ p ∈ i.parts content, p.IsExact) ↔ ∀ slots, i.interfaceSlots? = some slots → slots ≤ 254 := by
  cases h : i.interfaceSlots? with
  | none => simp [parts, h]
  | some slots =>
    have hcount : slots + 1 ≤ 255 ↔ slots ≤ 254 := Nat.succ_le_succ_iff
    simp only [parts, h, List.forall_mem_cons, Part.isExact_plain, Part.isExact_count8, hcount,
      List.not_mem_nil, false_implies, implies_true, and_true, true_and, Option.some.injEq,
      forall_eq']

theorem forall_zipWith_parts {α β : Type} {f : α → β → List Part} {fits : α → Prop} {as : List α}
    {bs : List β} (h : List.Forall₂ (fun b a => (∀ p ∈ f a b, p.IsExact) ↔ fits a) bs as) :
    (∀ p ∈ (List.zipWith f as bs).flatten, p.IsExact) ↔ ∀ a ∈ as, fits a := by
  induction h with
  | nil => simp
  | cons hfirst _ ih =>
    rw [List.zipWith_cons_cons, List.flatten_cons, List.forall_mem_append,
      List.forall_mem_cons, hfirst, ih]

/-- A method states its own numbers well, and those of its calls if they have few enough slots. -/
theorem Method.forall_parts (codeName : UInt16) {m : Method} {w : MethodParts} (h : w.Of m) :
    (∀ p ∈ m.parts codeName w, p.IsExact) ↔
      ∀ i ∈ m.code, ∀ slots, i.interfaceSlots? = some slots → slots ≤ 254 := by
  obtain ⟨p, q, pieces, hpieces, hresolve, hfilled⟩ := h
  have hlength := (Assembly.mapM_encode_parts hpieces hfilled).1
  have hcode := Assembly.resolve_length hresolve
  have hown : 12 + w.assembled.code.length ≤ 4294967295 ∧
      w.assembled.code.length ≤ 4294967295 := by omega
  have hcalls : List.Forall₂ (fun content i => (∀ p ∈ Instr.parts i content, p.IsExact) ↔
      ∀ slots, i.interfaceSlots? = some slots → slots ≤ 254) w.contents m.code :=
    List.forall₂_iff_zip.mpr ⟨hlength, fun _ => Instr.forall_parts⟩
  rw [parts, List.forall_mem_append, List.forall_mem_append, forall_zipWith_parts hcalls]
  simp [hown]

namespace ClassUnit

variable {u : ClassUnit} {w : ClassParts}

theorem forall_sourceParts (sourceFile : Option String) (indices : UInt16 × UInt16) :
    ∀ p ∈ sourceParts sourceFile indices, p.IsExact := by
  cases sourceFile <;> simp [sourceParts]

/-- The numbers of a class are the true ones if its constants, its lists and its calls are small
enough. -/
theorem forall_parts {major : UInt16} (h : w.Of u) (hsmall : 1 + Pool.widths w.constants ≤ 65535) :
    (∀ p ∈ u.parts major w, p.IsExact) ↔
      (∀ e ∈ w.constants, e.Fits) ∧ u.fields.length ≤ 65535 ∧ u.methods.length ≤ 65535 ∧
        ∀ m ∈ u.methods, ∀ i ∈ m.code, ∀ slots, i.interfaceSlots? = some slots → slots ≤ 254 := by
  have hconstants : (∀ p ∈ w.constants.flatMap PoolEntry.parts, p.IsExact) ↔ ∀ e ∈ w.constants,
      e.Fits := by
    simp only [List.forall_mem_flatMap, PoolEntry.forall_parts]
  have hfield : List.Forall₂ (fun i f => (∀ p ∈ Field.parts f i, p.IsExact) ↔ True)
      w.fields u.fields :=
    List.forall₂_iff_zip.mpr ⟨h.fields, fun _ => by simp [Field.parts]⟩
  have hfields := (forall_zipWith_parts hfield).mpr fun _ _ => trivial
  have hmethods := forall_zipWith_parts (h.methods.imp fun v m hv =>
    Method.forall_parts w.codeName hv)
  simp only [parts, List.forall_mem_append, List.forall_mem_cons, Part.isExact_plain,
    Part.isExact_count16, hconstants, hmethods]
  constructor
  · rintro ⟨⟨⟨⟨⟨⟨-, hc⟩, -, -, hf, -⟩, -⟩, hm, -⟩, hcalls⟩, -⟩
    exact ⟨hc, hf, hm, hcalls⟩
  · rintro ⟨hc, hf, hm, hcalls⟩
    exact ⟨⟨⟨⟨⟨⟨⟨trivial, hsmall, nofun⟩, hc⟩, trivial, Nat.zero_le _, hf, nofun⟩, hfields⟩, hm,
      nofun⟩, hcalls⟩, forall_sourceParts _ _⟩

/-- What is written after the pool, in parts. -/
theorem body_parts {content : Bytes} {q : Pool} (h : u.body {} = .ok content q) :
    ∃ w : ClassParts, w.constants = q.entries.toList ∧ w.Of u ∧ q.Valid ∧ ∀ major,
      (u.parts major w).flatMap Part.bytes =
        Bytes.ofU32 0xcafebabe ++ Bytes.ofU16 0 ++ Bytes.ofU16 major ++ q.bytes ++ content := by
  obtain ⟨hq, -, htexts⟩ := Pool.enters_body u _ _ _ Pool.valid_new h
  simp only [body, Run.bind_ok, Run.pure_ok] at h
  obtain ⟨this, p₁, -, super, p₂, -, code, p₃, -, fields, p₄, hfs, methods, p₅, hms, attributes, q,
      has, rfl, rfl⟩ := h
  obtain ⟨indices, hlength, hfields⟩ := fields_parts hfs
  obtain ⟨ws, hof, hmethods⟩ := methods_parts hms
  obtain ⟨source, hsource⟩ := attributes_parts has
  refine ⟨⟨q.entries.toList, this, super, code, indices, ws, source⟩, rfl,
    ⟨hlength, hof, htexts q (.refl q)⟩, hq, fun major => ?_⟩
  have hconstants : (q.entries.toList.flatMap PoolEntry.parts).flatMap Part.bytes =
      q.entries.toList.flatMap PoolEntry.bytes := by
    rw [List.flatMap_assoc]
    simp only [PoolEntry.flatMap_parts]
  simp only [parts, List.flatMap_append, hconstants, hfields, hmethods, hsource,
    Pool.bytes, hq.count]
  simp [Part.bytes]

/-- A class file is its parts. All numbers in it are the true ones exactly if the class has few
enough fields and methods, its texts are short enough, and its interface calls take few enough
slots: of a larger number the low bytes are written. -/
theorem toBytes_states {major : UInt16} {bytes : Bytes} (h : u.toBytes major = .ok bytes) :
    ∃ w : ClassParts, w.Of u ∧ (u.parts major w).flatMap Part.bytes = bytes ∧
      ((∀ p ∈ u.parts major w, p.IsExact) ↔
        u.fields.length ≤ 65535 ∧ u.methods.length ≤ 65535 ∧
          (∀ t ∈ u.texts, (Text.modifiedUtf8 t).length ≤ 65535) ∧
          ∀ m ∈ u.methods, ∀ i ∈ m.code, ∀ slots, i.interfaceSlots? = some slots →
            slots ≤ 254) := by
  unfold toBytes at h
  cases hbody : u.body {} with
  | error e p => simp [hbody] at h
  | ok content q =>
    simp only [hbody, Except.ok.injEq] at h
    obtain ⟨w, hconstants, hof, hq, hbytes⟩ := body_parts hbody
    have hsmall : 1 + Pool.widths w.constants ≤ 65535 := by
      rw [hconstants, ← hq.count]
      exact hq.small
    refine ⟨w, hof, (hbytes major).trans h, ?_⟩
    rw [forall_parts hof hsmall]
    constructor
    · rintro ⟨hfit, hfields, hmethods, hcalls⟩
      exact ⟨hfields, hmethods, fun t ht => hfit _ (hof.texts t ht), hcalls⟩
    · rintro ⟨hfields, hmethods, htexts, hcalls⟩
      obtain ⟨-, hsound, -⟩ := body_ok hfields hmethods htexts hbody
      exact ⟨fun e he => (hsound e (hconstants ▸ he)).1, hfields, hmethods, hcalls⟩

/-- A call through an interface with as many arguments as a call may have: 127 doubles and an
integer. -/
def wideCall : Instr :=
  .invoke .invokeinterface ⟨"T", "g", "(" ++ String.ofList (List.replicate 127 'D') ++ "I)V"⟩

/-- A class with that call as its only method. -/
def wideUnit : ClassUnit where
  name := "A"
  access := 0x21
  methods := [⟨0x9, "f", "()V",
    [.op .aconstNull] ++ List.replicate 127 (.push (.double 0)) ++
      [.push (.int 0), wideCall, .op .vreturn], 0⟩]

theorem interfaceSlots?_wideCall : wideCall.interfaceSlots? = some 255 := by decide +kernel

/-- The operands of the call are written as the index 13 and no slots. -/
theorem exists_toBytes_wideUnit :
    ∃ bytes, wideUnit.toBytes 49 = .ok bytes ∧ [0xb9, 0, 13, 0, 0, 0xb1] <:+: bytes := by
  have hbytes : (wideUnit.toBytes 49).toOption.any
      (fun bytes => decide ([0xb9, 0, 13, 0, 0, 0xb1] <:+: bytes)) := by
    decide +kernel
  cases h : wideUnit.toBytes 49 with
  | error e =>
    rw [h] at hbytes
    cases hbytes
  | ok bytes =>
    rw [h] at hbytes
    exact ⟨bytes, rfl, of_decide_eq_true hbytes⟩

/-- The class is written, with numbers that are not all true. -/
theorem toBytes_states_wideUnit :
    ∃ bytes w, wideUnit.toBytes 49 = .ok bytes ∧ ClassParts.Of w wideUnit ∧
      (wideUnit.parts 49 w).flatMap Part.bytes = bytes ∧ ¬ ∀ p ∈ wideUnit.parts 49 w,
      p.IsExact := by
  obtain ⟨bytes, h, -⟩ := exists_toBytes_wideUnit
  obtain ⟨w, hof, hbytes, hexact⟩ := toBytes_states h
  refine ⟨bytes, w, h, hof, hbytes, fun hall => ?_⟩
  obtain ⟨-, -, -, hcalls⟩ := hexact.mp hall
  have hcall := hcalls _ List.mem_cons_self wideCall (by simp) 255 interfaceSlots?_wideCall
  exact absurd hcall (by decide)

/-- The arguments and the receiver of the call take 256 slots, and it is written that they take
none. -/
theorem toBytes_cuts_slots :
    ∃ bytes slots, wideUnit.toBytes 49 = .ok bytes ∧ wideCall.interfaceSlots? = some slots ∧
      slots + 1 = 256 ∧
      [Opcode.invokeinterface, 0, 13, 0, 0, Opcode.vreturn] <:+: bytes := by
  obtain ⟨bytes, h, hcall⟩ := exists_toBytes_wideUnit
  exact ⟨bytes, 255, h, interfaceSlots?_wideCall, rfl, hcall⟩

end ClassUnit

end ClassGen
