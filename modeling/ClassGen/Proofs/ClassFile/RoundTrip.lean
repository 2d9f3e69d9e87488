import ClassGen.Proofs.Assembly.Faithful
import ClassGen.Proofs.ClassFile.Constants

/-! A class that was written can be read. Its members and attributes are read back with the pool
that is complete only after the last of them, since an index keeps its meaning while the pool grows.
-/

namespace ClassGen

/-! ### The size of code -/

namespace Assembly

theorem branch_length {code : Opcode} {n destination : Nat} {content : Bytes}
    (h : branch code n destination = some content) : content.length = 3 := by
  unfold branch at h
  simp only at h
  split at h
  · cases h
    rfl
  · cases h

/-- Linking writes the bytes that the layout counted. -/
theorem link_length {method : String} {labels : Std.TreeMap Label Nat} {pieces : List Piece}
    {acc : List Bytes} {n : Nat} {out : Bytes} (h : link method labels acc n pieces = .ok out) :
    out.length = acc.reverse.flatten.length + total pieces := by
  induction pieces generalizing acc n with
  | nil =>
    simp only [link, Except.ok.injEq] at h
    rw [← h, total_nil, Nat.add_zero]
  | cons piece pieces ih =>
    cases piece with
    | bytes content =>
      rw [link] at h
      rw [ih h, total_cons]
      simp [Piece.size, Nat.add_assoc]
    | mark l =>
      rw [link] at h
      rw [ih h, total_cons, Piece.size, Nat.zero_add]
    | jump c target =>
      rw [link] at h
      cases ht : labels[target]? with
      | none => simp [ht] at h
      | some destination =>
        simp only [ht] at h
        cases hb : branch c n destination with
        | none => simp [hb] at h
        | some content =>
          simp only [hb] at h
          rw [ih h, total_cons]
          simp [Piece.size, branch_length hb, Nat.add_assoc]

theorem resolve_length {method : String} {pieces : List Piece} {code : Bytes}
    (h : resolve method pieces = .ok code) : code.length ≤ 65535 := by
  unfold resolve at h
  simp only at h
  split at h
  · cases h
  · next hsize =>
    rw [layout_eq, place_size] at hsize
    have hlength := link_length h
    simp at hlength
    omega

end Assembly

theorem Method.assemble_length {m : Method} {p q : Pool} {a : Assembled}
    (h : m.assemble p = .ok a q) : a.code.length ≤ 65535 := by
  simp only [Method.assemble, Run.bind_ok, Run.ofExcept_ok, Run.pure_ok] at h
  obtain ⟨_, _, -, _, _, -, _, _, ⟨hresolve, -⟩, rfl, -⟩ := h
  exact Assembly.resolve_length hresolve

/-! ### What is to be read -/

def Field.info (f : Field) : MemberInfo := ⟨f.access, f.name, f.descriptor, []⟩

/-- A method with its machine code, which has no handlers and no attributes. -/
def Method.info (m : Method) (a : Assembled) : MemberInfo :=
  ⟨m.access, m.name, m.descriptor, [.code ⟨a.maxStack, m.maxLocals, a.code, [], []⟩]⟩

namespace ClassUnit

/-- The name and the descriptor of a method are entered before its code. -/
def assembleNamed (m : Method) : PoolM Assembled := do
  let _ ← Pool.utf8 m.name
  let _ ← Pool.utf8 m.descriptor
  m.assemble

/-- What assembling gives for each method when the class is written. -/
def assembled (u : ClassUnit) : PoolM (List Assembled) := do
  let _ ← Pool.className u.name
  let _ ← Pool.className u.superName
  let _ ← Pool.utf8 "Code"
  let _ ← u.fields.mapM fieldBytes
  u.methods.mapM assembleNamed

open Reader

variable {p q r : Pool} {content : Bytes}

/-! ### Attributes -/

theorem text_bind {α : Type} {i : UInt16} {t : String} (h : r.text? i = some t)
    (f : String → Reader α) (rest : Bytes) : (text r >>= f) (Bytes.ofU16 i ++ rest) = f t rest :=
  Reads.bind (fun rest => by rw [text, (reads_u16 i).bind, h]; rfl) f rest

theorem className_bind {α : Type} {i : UInt16} {t : String} (h : r.className? i = some t)
    (f : String → Reader α) (rest : Bytes) : (className r >>= f)
    (Bytes.ofU16 i ++ rest) = f t rest :=
  Reads.bind (fun rest => by rw [className, (reads_u16 i).bind, h]; rfl) f rest

/-- An attribute is read by its name and to its exact length. -/
theorem reads_attribute {i : UInt16} {name : String} {info : Attribute} (hi : r.text? i = some name)
    (hfit : content.length < 4294967296) (h : understood r ⟨name, content⟩ = some info) :
    Reads (attributeInfo r) (Bytes.ofU16 i ++ Bytes.ofU32 content.length.toUInt32 ++ content)
      info := fun rest => by
  have hraw : Reads (rawAttribute r)
      (Bytes.ofU16 i ++ Bytes.ofU32 content.length.toUInt32 ++ content)
      ⟨name, content⟩ := fun rest => by
    rw [rawAttribute, List.append_assoc, List.append_assoc, text_bind hi, (reads_u32 _).bind,
      UInt32.toNat_ofNat_of_lt' hfit, (reads_stretch _).bind]
    rfl
  rw [attributeInfo, hraw.bind, h]
  rfl

/-- What stands after the length of a `Code` attribute. -/
def codeContent (maxLocals : UInt16) (a : Assembled) : Bytes :=
  Bytes.ofU16 a.maxStack ++ (Bytes.ofU16 maxLocals ++ (Bytes.ofU32 a.code.length.toUInt32 ++
    (a.code ++ (Bytes.ofU16 0 ++ Bytes.ofU16 0))))

theorem codeBytes_eq (i maxLocals : UInt16) (a : Assembled) : codeBytes i maxLocals a =
    Bytes.ofU16 i ++ Bytes.ofU32 (codeContent maxLocals a).length.toUInt32 ++
      codeContent maxLocals a := by
  have hlength : (codeContent maxLocals a).length = 12 + a.code.length := by
    simp only [codeContent, List.length_append, Bytes.ofU16, Bytes.ofU32, List.length_cons,
      List.length_nil]
    omega
  rw [hlength]
  simp only [codeBytes, codeContent, List.append_assoc]

theorem reads_codeInfo (a : Assembled) (maxLocals : UInt16) (hfit : a.code.length ≤ 65535) :
    Reads (codeInfo r) (codeContent maxLocals a) ⟨a.maxStack, maxLocals, a.code, [], []⟩ :=
      fun rest => by
  simp only [codeContent, List.append_assoc]
  rw [codeInfo, (reads_u16 _).bind, (reads_u16 _).bind, (reads_u32 _).bind,
    UInt32.toNat_ofNat_of_lt' (show _ <
      4294967296 by omega), (reads_stretch _).bind, reads_none.bind, reads_none.bind]
  rfl

theorem reads_code {i : UInt16} (a : Assembled) (maxLocals : UInt16) (hi : r.text? i = some "Code")
    (hfit : a.code.length ≤ 65535) :
    Reads (attributeInfo r) (codeBytes i maxLocals a)
      (.code ⟨a.maxStack, maxLocals, a.code, [], []⟩) := by
  have hinfo : understood r ⟨"Code", codeContent maxLocals a⟩ =
      some (.code ⟨a.maxStack, maxLocals, a.code, [], []⟩) := by
    rw [understood, if_pos rfl, whole_of_reads (reads_codeInfo a maxLocals hfit)]
    rfl
  have hsize : (codeContent maxLocals a).length < 4294967296 := by
    simp only [codeContent, List.length_append, Bytes.ofU16, Bytes.ofU32, List.length_cons,
      List.length_nil]
    omega
  rw [codeBytes_eq]
  exact reads_attribute hi hsize hinfo

theorem reads_sourceFile {i j : UInt16} {source : String} (hi : r.text? i = some "SourceFile")
    (hj : r.text? j = some source) :
    Reads (attributeInfo r) (Bytes.ofU16 i ++ Bytes.ofU32 2 ++ Bytes.ofU16 j)
      (.sourceFile source) := by
  have htext : Reads (text r) (Bytes.ofU16 j) source := fun rest => by
    rw [text, (reads_u16 j).bind, hj]
    rfl
  have hinfo : understood r ⟨"SourceFile", Bytes.ofU16 j⟩ = some (.sourceFile source) := by
    rw [understood, if_neg (by simp), if_pos rfl, whole_of_reads htext]
    rfl
  have hlength : (Bytes.ofU16 j).length.toUInt32 = 2 := rfl
  have hread := reads_attribute hi (by simp [Bytes.ofU16]) hinfo
  rwa [hlength] at hread

/-! ### Members -/

theorem reads_member {name descriptor : UInt16} {f : MemberInfo} {attributes : Bytes}
    (hname : r.text? name = some f.name) (hdescriptor : r.text? descriptor = some f.descriptor)
    (h : Reads (counted (attributeInfo r)) attributes f.attributes) :
    Reads (memberInfo r) (Bytes.ofU16 f.access ++ Bytes.ofU16 name ++ Bytes.ofU16 descriptor ++
      attributes) f :=
  fun rest => by
    simp only [List.append_assoc]
    rw [memberInfo, (reads_u16 _).bind, text_bind hname, text_bind hdescriptor, h.bind]
    rfl

theorem yields_field (f : Field) : Pool.Yields (fieldBytes f) fun r content =>
    Reads (memberInfo r) content f.info :=
  (Pool.yields_utf8 f.name).bind fun _ => (Pool.yields_utf8 f.descriptor).bind fun _ =>
    Pool.yields_pure fun _ hdescriptor hname =>
      reads_member (f := f.info) hname hdescriptor reads_none

theorem yields_fields (fs : List Field) : Pool.Yields (fs.mapM fieldBytes) fun r contents =>
    List.Forall₂ (Reads (memberInfo r)) contents (fs.map Field.info) := by
  induction fs with
  | nil => exact Pool.yields_pure fun _ => .nil
  | cons f fs ih =>
    rw [List.mapM_cons]
    exact (yields_field f).bind fun content => ih.bind fun contents =>
      Pool.yields_pure fun r hrest hfirst => .cons hfirst hrest

theorem stays_field {given : Pool → Prop} {f : Field} (h : ∀ t ∈ f.texts, Text.Fits t) :
    Pool.Stays given (fieldBytes f) :=
  (Pool.stays_utf8 (h f.name (by simp [Field.texts]))).bind fun _ =>
    (Pool.stays_utf8 (h f.descriptor (by simp [Field.texts]))).bind fun _ => Pool.stays_pure _

theorem stays_assembleNamed {given : Pool → Prop} {m : Method} (h : ∀ t ∈ m.texts, Text.Fits t) :
    Pool.Stays given (assembleNamed m) :=
  (Pool.stays_utf8 (h m.name (by simp [Method.texts]))).bind fun _ =>
    (Pool.stays_utf8 (h m.descriptor (by simp [Method.texts]))).bind fun _ => Pool.stays_assemble h

/-- Writing a method assembles it, and what is written is read as it with that code. -/
theorem methodBytes_ok {i : UInt16} {m : Method} (hp : p.Valid) (hs : p.Sound)
    (htexts : ∀ t ∈ m.texts, Text.Fits t) (h : methodBytes i m p = .ok content q) :
    ∃ a, assembleNamed m p = .ok a q ∧
      ∀ r, q.Extends r → r.text? i = some "Code" → Reads (memberInfo r) content (m.info a) := by
  simp only [methodBytes, Run.bind_ok, Run.pure_ok] at h
  obtain ⟨name, p₁, hname, descriptor, p₂, hdescriptor, a, q, ha, rfl, rfl⟩ := h
  have hrun : assembleNamed m p = .ok a q := by
    rw [assembleNamed, Run.bind_of_ok hname, Run.bind_of_ok hdescriptor, ha]
  refine ⟨a, hrun, fun r hr hcode => ?_⟩
  obtain ⟨hp₁, -, hname'⟩ := Pool.yields_utf8 m.name _ _ _ hp hname
  obtain ⟨hp₂, hp₁₂, hdescriptor'⟩ := Pool.yields_utf8 m.descriptor _ _ _ hp₁ hdescriptor
  obtain ⟨-, hs₁, -⟩ := (Pool.stays_utf8 (htexts m.name (by simp [Method.texts]))).run hp hs hname
  obtain ⟨-, hs₂, -⟩ :=
    (Pool.stays_utf8 (htexts m.descriptor (by simp [Method.texts]))).run hp₁ hs₁ hdescriptor
  obtain ⟨-, -, hp₂q⟩ := (Pool.stays_assemble htexts).run hp₂ hs₂ ha
  have hone : Reads (counted (attributeInfo r)) (Bytes.ofU16 1 ++ codeBytes i m.maxLocals a)
      [.code ⟨a.maxStack, m.maxLocals, a.code, [], []⟩] := by
    have hcode := reads_code a m.maxLocals hcode (Method.assemble_length ha)
    simpa using reads_counted (by simp) (.cons hcode .nil)
  rw [List.append_assoc _ (Bytes.ofU16 1)]
  exact reads_member (f := m.info a) (hname' r (hp₁₂.trans (hp₂q.trans hr)))
    (hdescriptor' r (hp₂q.trans hr)) hone

/-- All methods, in order. -/
theorem methods_ok {i : UInt16} {ms : List Method} {contents : List Bytes} (hp : p.Valid)
    (hs : p.Sound) (htexts : ∀ m ∈ ms, ∀ t ∈ m.texts, Text.Fits t)
    (h : ms.mapM (methodBytes i) p = .ok contents q) :
    ∃ as, ms.mapM assembleNamed p = .ok as q ∧ as.length = ms.length ∧ ∀ r, q.Extends r →
      r.text? i = some "Code" → List.Forall₂ (Reads (memberInfo r)) contents
        (List.zipWith Method.info ms as) := by
  induction ms generalizing p contents with
  | nil =>
    obtain ⟨rfl, rfl⟩ := Run.pure_ok.mp h
    exact ⟨[], rfl, rfl, fun _ _ _ => .nil⟩
  | cons m ms ih =>
    simp only [List.mapM_cons, Run.bind_ok, Run.pure_ok] at h
    obtain ⟨content, p', hfirst, contents, q, hrest, rfl, rfl⟩ := h
    have hm := htexts m List.mem_cons_self
    obtain ⟨a, ha, hread⟩ := methodBytes_ok hp hs hm hfirst
    obtain ⟨hp', hs', -⟩ := (stays_assembleNamed hm).run hp hs ha
    have htexts' : ∀ m ∈ ms, ∀ t ∈ m.texts, Text.Fits t :=
      fun m' hm' => htexts m' (List.mem_cons_of_mem _ hm')
    obtain ⟨as, has, hlength, hreads⟩ := ih hp' hs' htexts' hrest
    obtain ⟨-, -, hext⟩ := (Pool.stays_mapM fun m' hm' => stays_assembleNamed (htexts' m' hm')).run
      hp' hs' has
    refine ⟨a :: as, ?_, by simp [hlength], fun r hr hcode => ?_⟩
    · rw [List.mapM_cons, Run.bind_of_ok ha, Run.bind_of_ok has]
      rfl
    · exact .cons (hread r (hext.trans hr) hcode) (hreads r hr hcode)

theorem yields_attributes (source : Option String) :
    Pool.Yields (attributeBytes source) fun r content =>
    Reads (counted (attributeInfo r)) content (source.map .sourceFile).toList := by
  cases source with
  | none => exact Pool.yields_pure fun r => reads_none
  | some source =>
    refine (Pool.yields_utf8 "SourceFile").bind fun i => (Pool.yields_utf8 source).bind fun j => ?_
    refine Pool.yields_pure fun r hj hi => ?_
    simpa using reads_counted (by simp) (.cons (reads_sourceFile hi hj) .nil)

theorem stays_attributes {given : Pool → Prop} {source : Option String}
    (h : ∀ t ∈ source.toList, Text.Fits t) : Pool.Stays given (attributeBytes source) := by
  cases source with
  | none => exact Pool.stays_pure _
  | some source =>
    exact (Pool.stays_utf8
        (by decide)).bind fun _ => (Pool.stays_utf8 (h source (by simp))).bind fun _ =>
      Pool.stays_pure _

/-! ### The class -/

/-- The class as a reader sees it, with the code that `as` gives for its methods. -/
def info (u : ClassUnit) (as : List Assembled) : ClassBody where
  access := u.access
  name := u.name
  superName := u.superName
  interfaces := []
  fields := u.fields.map Field.info
  methods := List.zipWith Method.info u.methods as
  attributes := (u.sourceFile.map .sourceFile).toList

variable {u : ClassUnit}

theorem texts_field (h : ∀ t ∈ u.texts, Text.Fits t) : ∀ f ∈ u.fields, ∀ t ∈ f.texts, Text.Fits t :=
  fun f hf t ht => h t (by
    have : t ∈ u.fields.flatMap Field.texts := List.mem_flatMap.mpr ⟨f, hf, ht⟩
    simp [texts, this])

theorem texts_method (h : ∀ t ∈ u.texts, Text.Fits t) : ∀ m ∈ u.methods, ∀ t ∈ m.texts,
    Text.Fits t :=
  fun m hm t ht => h t (by
    have : t ∈ u.methods.flatMap Method.texts := List.mem_flatMap.mpr ⟨m, hm, ht⟩
    simp [texts, this])

/-- Everything after the pool is read back with the pool that writing it leaves. -/
theorem body_ok (hfields : u.fields.length ≤ 65535) (hmethods : u.methods.length ≤ 65535)
    (htexts : ∀ t ∈ u.texts, Text.Fits t) (h : u.body {} = .ok content q) :
    q.Valid ∧ q.Sound ∧ ∃ as p, u.assembled {} = .ok as p ∧ as.length = u.methods.length ∧
      ∀ r, q.Extends r → Reads (classBody r) content (u.info as) := by
  simp only [body, Run.bind_ok, Run.pure_ok] at h
  obtain ⟨this, p₁, hthis, super, p₂, hsuper, code, p₃, hcode, fields, p₄, hfs, methods, p₅, hms,
      attributes, q, has,
    rfl, rfl⟩ := h
  -- the pool stays in order
  have hname := htexts u.name (by simp [texts])
  have hsuperName := htexts u.superName (by simp [texts])
  have hsource : ∀ t ∈ u.sourceFile.toList, Text.Fits t :=
    fun t ht => htexts t (by simp [texts, ht])
  obtain ⟨hp₁, hs₁, -⟩ := (Pool.stays_className hname).run Pool.valid_new Pool.sound_new hthis
  obtain ⟨hp₂, hs₂, h₁₂⟩ := (Pool.stays_className hsuperName).run hp₁ hs₁ hsuper
  obtain ⟨hp₃, hs₃, h₂₃⟩ := (Pool.stays_utf8 (by decide)).run hp₂ hs₂ hcode
  obtain ⟨hp₄, hs₄, h₃₄⟩ := (Pool.stays_mapM fun f hf => stays_field (texts_field htexts f hf)).run
    hp₃ hs₃ hfs
  obtain ⟨as, hassembled, hlength, hmethodsRead⟩ := methods_ok hp₄ hs₄ (texts_method htexts) hms
  obtain ⟨hp₅, hs₅, h₄₅⟩ :=
    (Pool.stays_mapM fun m hm => stays_assembleNamed (texts_method htexts m hm)).run hp₄
      hs₄ hassembled
  obtain ⟨hq, hsq, h₅q⟩ := (stays_attributes hsource).run hp₅ hs₅ has
  have h₃q := h₃₄.trans (h₄₅.trans h₅q)
  have hrun : u.assembled {} = .ok as p₅ := by
    rw [assembled, Run.bind_of_ok hthis, Run.bind_of_ok hsuper, Run.bind_of_ok hcode,
      Run.bind_of_ok hfs, hassembled]
  refine ⟨hq, hsq, as, p₅, hrun, hlength, fun r hr rest => ?_⟩
  -- what was handed out is still good
  have hthisRead := (Pool.yields_className u.name _ _ _ Pool.valid_new hthis).2.2 r
    (h₁₂.trans (h₂₃.trans (h₃q.trans hr)))
  have hsuperRead := (Pool.yields_className u.superName _ _ _ hp₁ hsuper).2.2 r
    (h₂₃.trans (h₃q.trans hr))
  have hcodeRead := (Pool.yields_utf8 "Code" _ _ _ hp₂ hcode).2.2 r (h₃q.trans hr)
  have hfieldsRead := (yields_fields u.fields _ _ _ hp₃ hfs).2.2 r (h₄₅.trans (h₅q.trans hr))
  have hattributesRead := (yields_attributes u.sourceFile _ _ _ hp₅ has).2.2 r hr
  have hfieldsCounted := reads_counted (by simpa using hfields) hfieldsRead
  have hmethodsCounted := reads_counted
    (by simpa [hlength] using hmethods) (hmethodsRead r (h₅q.trans hr) hcodeRead)
  rw [List.length_map] at hfieldsCounted
  rw [List.length_zipWith, hlength, Nat.min_self] at hmethodsCounted
  simp only [List.append_assoc]
  rw [classBody, (reads_u16 _).bind, className_bind hthisRead, className_bind hsuperRead,
    reads_none.bind, ← List.append_assoc _ fields.flatten, hfieldsCounted.bind,
    ← List.append_assoc _ methods.flatten, hmethodsCounted.bind, hattributesRead.bind]
  rfl

/-- A class whose lists are short enough to be counted and whose texts are short enough to be
measured is read back from its bytes, to the last of them. -/
theorem toBytes_read_back {major : UInt16} {bytes : Bytes} (hfields : u.fields.length ≤ 65535)
    (hmethods : u.methods.length ≤ 65535)
    (htexts : ∀ t ∈ u.texts, (Text.modifiedUtf8 t).length ≤ 65535)
    (h : u.toBytes major = .ok bytes) :
    ∃ as q count constants, u.assembled {} = .ok as q ∧ as.length = u.methods.length ∧
      ClassInfo.parse bytes = some {
        minor := 0
        major := major
        constantCount := count
        constants := constants
        access := u.access
        name := u.name
        superName := u.superName
        interfaces := []
        fields := u.fields.map fun f => ⟨f.access, f.name, f.descriptor, []⟩
        methods := List.zipWith (fun m a =>
          ⟨m.access, m.name, m.descriptor, [.code ⟨a.maxStack, m.maxLocals, a.code, [], []⟩]⟩)
            u.methods as
        attributes := (u.sourceFile.map .sourceFile).toList } ∧
      count.toNat = 1 + Pool.widths constants ∧ ∀ e ∈ constants,
      e.isBacked (.ofConstants constants) := by
  unfold toBytes at h
  cases hbody : u.body {} with
  | error e p => simp [hbody] at h
  | ok content q =>
    simp only [hbody, Except.ok.injEq] at h
    subst h
    obtain ⟨hq, hsound, as, p, hrun, hlength, hread⟩ := body_ok hfields hmethods htexts hbody
    have hext : q.Extends (.ofConstants q.entries.toList) := by simp [Pool.Extends,
      Pool.ofConstants]
    have hcount := Pool.toNat_count hq
    have hbacked (e : PoolEntry) (he : e ∈ q.entries.toList) :
        e.isBacked (.ofConstants q.entries.toList) :=
      hext.isBacked (hsound e he).2
    refine ⟨as, p, q.count.toUInt16, q.entries.toList, hrun, hlength,
      ?_, by rw [hcount, hq.count], hbacked⟩
    refine whole_of_reads fun rest => ?_
    have hwidths : q.count.toUInt16.toNat - 1 = Pool.widths q.entries.toList := by
      rw [hcount, hq.count, Nat.add_sub_cancel_left]
    have hne : q.count.toUInt16 ≠ 0 := by
      intro hzero
      rw [hzero, hq.count] at hcount
      have : (0 : UInt16).toNat = 0 := rfl
      omega
    simp only [Pool.bytes, List.append_assoc]
    rw [classInfo, (reads_u32 _).bind, check_bind (beq_self_eq_true _), (reads_u16 _).bind,
      (reads_u16 _).bind, (reads_u16 _).bind, check_bind (by simpa using hne), hwidths,
      (reads_constants fun e he => (hsound e he).1).bind, check_bind (List.all_eq_true.mpr hbacked),
      (hread _ hext).bind]
    rfl

/-- A class with a double among its constants, a field, two methods and a source. -/
def sampleUnit : ClassUnit where
  name := "Point"
  access := 0x21
  sourceFile := some "point.ix"
  fields := [⟨0x1, "x", "D"⟩]
  methods := [
    ⟨0x1, "<init>", "()V", [.slot .aload 0,
      .invoke .invokespecial ⟨Library.object, "<init>", "()V"⟩, .slot .aload 0,
      .push (.double 0x4004000000000000), .field .putfield ⟨"Point", "x", "D"⟩, .op .vreturn], 1⟩,
    ⟨0x9, "hello", "()Ljava/lang/String;", [.push (.text "é"), .op .areturn], 0⟩]

/-- The sample is written, and read back. -/
theorem toBytes_read_back_sample :
    ∃ bytes a b q info, sampleUnit.toBytes 52 = .ok bytes ∧ sampleUnit.assembled {} = .ok [a, b] q ∧
      ClassInfo.parse bytes = some info ∧ info.fields = [⟨0x1, "x", "D", []⟩] ∧
      info.methods = [⟨0x1, "<init>", "()V", [.code ⟨a.maxStack, 1, a.code, [], []⟩]⟩,
        ⟨0x9, "hello", "()Ljava/lang/String;", [.code ⟨b.maxStack, 0, b.code, [], []⟩]⟩] ∧
      info.attributes = [.sourceFile "point.ix"] := by
  have hwritten : (sampleUnit.toBytes 52).toOption.isSome := by decide +kernel
  cases h : sampleUnit.toBytes 52 with
  | error e =>
    rw [h] at hwritten
    cases hwritten
  | ok bytes =>
    obtain ⟨as, q, count, constants, hrun, hlength, hparse, -⟩ :=
      toBytes_read_back (by decide) (by decide) (by decide +kernel) h
    obtain ⟨a, b, rfl⟩ := List.length_eq_two.mp hlength
    exact ⟨bytes, a, b, q, _, rfl, hrun, hparse, rfl, rfl, rfl⟩

end ClassUnit

end ClassGen
