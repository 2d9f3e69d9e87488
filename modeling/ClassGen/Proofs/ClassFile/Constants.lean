import ClassGen.ClassFile.Unit
import ClassGen.Proofs.ClassFile.Reader

/-! The constants of a class file. Whatever is entered while one is written, each reference points
to entries of its kind, and a pool whose texts have a length of sixteen bits is read back from its
bytes. -/

namespace ClassGen

/-- The length of the encoding fits in sixteen bits. -/
def Text.Fits (text : String) : Prop := (modifiedUtf8 text).length ≤ 65535

instance (text : String) : Decidable (Text.Fits text) := inferInstanceAs (Decidable (_ ≤ _))

def PoolEntry.Fits : PoolEntry → Prop
  | utf8 text => Text.Fits text
  | _ => True

/-! ### The texts of a class -/

def Member.texts (m : Member) : List String := [m.owner, m.name, m.descriptor]

def Instr.texts : Instr → List String
  | push (.text value) => [value]
  | type _ className => [className]
  | field _ target | invoke _ target => target.texts
  | op _ | push _ | slot _ _ | jump _ _ | mark _ => []

def Field.texts (f : Field) : List String := [f.name, f.descriptor]

def Method.texts (m : Method) : List String := m.name :: m.descriptor :: m.code.flatMap Instr.texts

/-- Every text that stands in the class. -/
def ClassUnit.texts (u : ClassUnit) : List String :=
  u.name :: u.superName :: u.fields.flatMap Field.texts ++ u.methods.flatMap Method.texts ++
    u.sourceFile.toList

namespace Reader

/-! ### Reading a pool back -/

theorem reads_pair (make : UInt16 → UInt16 → PoolEntry) (i j : UInt16) :
    Reads (pair make) (Bytes.ofU16 i ++ Bytes.ofU16 j) (make i j) := fun rest => by
  rw [pair, List.append_assoc, (reads_u16 i).bind, (reads_u16 j).bind]
  rfl

theorem constant_tag (tag : UInt8) (bytes : Bytes) :
    constant (tag :: bytes) = tagged tag.toNat bytes := rfl

theorem reads_constant {e : PoolEntry} (h : e.Fits) : Reads constant e.bytes e := by
  intro rest
  rw [PoolEntry.bytes.eq_def, List.cons_append, constant_tag]
  cases e with
  | utf8 text =>
    have hlength : (Text.modifiedUtf8 text).length.toUInt16.toNat =
        (Text.modifiedUtf8 text).length :=
      UInt16.toNat_ofNat_of_lt' (Nat.lt_succ_of_le h)
    show tagged 1 _ = _
    rw [tagged, List.append_assoc, (reads_u16 _).bind, hlength, (reads_stretch _).bind,
      found_bind (Text.decode?_modifiedUtf8 text)]
    rfl
  | integer value =>
    show tagged 3 _ = _
    rw [tagged, (reads_u32 _).bind]
    rfl
  | float bits =>
    show tagged 4 _ = _
    rw [tagged, (reads_u32 _).bind]
    rfl
  | double bits =>
    show tagged 6 _ = _
    rw [tagged, (reads_u64 _).bind]
    rfl
  | className i =>
    show tagged 7 _ = _
    rw [tagged, (reads_u16 _).bind]
    rfl
  | string i =>
    show tagged 8 _ = _
    rw [tagged, (reads_u16 _).bind]
    rfl
  | fieldRef i j => exact reads_pair .fieldRef i j rest
  | methodRef i j => exact reads_pair .methodRef i j rest
  | interfaceMethodRef i j => exact reads_pair .interfaceMethodRef i j rest
  | nameAndType i j => exact reads_pair .nameAndType i j rest

theorem width_eq (e : PoolEntry) :
    e.width = 1 ∨ e.width = 2 := by cases e <;> simp [PoolEntry.width]

theorem reads_constants {es : List PoolEntry} (h : ∀ e ∈ es, e.Fits) :
    Reads (constants (Pool.widths es)) (es.flatMap PoolEntry.bytes) es := by
  induction es with
  | nil => exact fun rest => rfl
  | cons e es ih =>
    intro rest
    have hfirst := reads_constant (h e List.mem_cons_self)
    have hrest := ih fun f hf => h f (List.mem_cons_of_mem _ hf)
    have hwidths : Pool.widths (e :: es) =
        Pool.widths es + e.width := by simp [Pool.widths, Nat.add_comm]
    rw [hwidths, List.flatMap_cons, List.append_assoc]
    obtain hw | hw := width_eq e
    · rw [hw]
      cases hn : Pool.widths es with
      | zero =>
        -- no entry takes no index, so this one is the last
        have hnil : es = [] := by
          cases es with
          | nil => rfl
          | cons f es =>
            have := Pool.width_pos f
            simp [Pool.widths] at hn
            omega
        rw [hnil, constants, hfirst.bind, check_bind (by rw [hw]; rfl)]
        rfl
      | succ n =>
        rw [hn] at hrest
        rw [constants, hfirst.bind, if_pos hw, hrest.bind]
        rfl
    · rw [hw, constants, hfirst.bind, if_neg (by omega), hrest.bind]
      rfl

end Reader

namespace Pool

variable {α β : Type} {p q r : Pool}

/-! ### Pools that refer to themselves only -/

theorem Extends.text (h : p.Extends q) {i : UInt16} (hi : (p.text? i).isSome) :
    (q.text? i).isSome := by
  unfold text? at hi ⊢
  split at hi
  · next he => simp [h.entry he]
  · cases hi

theorem Extends.className (h : p.Extends q) {i : UInt16} (hi : (p.className? i).isSome) :
    (q.className? i).isSome := by
  unfold className? at hi ⊢
  split at hi
  · next he =>
    simp only [h.entry he]
    exact h.text hi
  · cases hi

theorem isSome_member? {owner nt : UInt16} : (p.member? owner nt).isSome ↔
    ∃ name descriptor, p.at? nt = some (.nameAndType name descriptor) ∧
      (p.className? owner).isSome ∧
      (p.text? name).isSome ∧ (p.text? descriptor).isSome := by
  unfold member?
  split
  · next name descriptor he =>
    cases p.className? owner <;> cases hn : p.text? name <;> cases hd : p.text? descriptor <;>
      simp [he, hn, hd]
  · next hne =>
    simp only [Option.isSome_none, Bool.false_eq_true, false_iff]
    rintro ⟨name, descriptor, he, -⟩
    exact hne _ _ he

theorem Extends.member (h : p.Extends q) {owner nt : UInt16} (hi : (p.member? owner nt).isSome) :
    (q.member? owner nt).isSome := by
  obtain ⟨name, descriptor, he, howner, hname, hdescriptor⟩ := isSome_member?.mp hi
  exact isSome_member?.mpr ⟨name, descriptor, h.entry he, h.className howner, h.text hname,
    h.text hdescriptor⟩

theorem Extends.isBacked (h : p.Extends q) {e : PoolEntry} (he : e.isBacked p) : e.isBacked q := by
  cases e with
  | utf8 | integer | float | double => rfl
  | className i | string i => exact h.text he
  | fieldRef o nt | methodRef o nt | interfaceMethodRef o nt => exact h.member he
  | nameAndType n d =>
    obtain ⟨hn, hd⟩ := Bool.and_eq_true_iff.mp he
    exact Bool.and_eq_true_iff.mpr ⟨h.text hn, h.text hd⟩

/-- Every text can be given its length, and every reference points to what it should. -/
def Sound (p : Pool) : Prop := ∀ e ∈ p.entries.toList, e.Fits ∧ e.isBacked p

theorem sound_new : ({} : Pool).Sound := nofun

/-- A successful computation keeps a sound pool sound, if `given` holds of the pool and of all later
ones. -/
def Stays (given : Pool → Prop) (x : PoolM α) : Prop :=
  ∀ p q a, Valid p → Sound p → (∀ r, p.Extends r → given r) → x p = .ok a q → Valid q ∧
    Sound q ∧ p.Extends q

variable {given : Pool → Prop} {x : PoolM α}

theorem Stays.run {a : α} (h : Stays (fun _ => True) x) (hp : p.Valid) (hs : p.Sound)
    (hx : x p = .ok a q) : q.Valid ∧ q.Sound ∧ p.Extends q :=
  h p q a hp hs (fun _ _ => trivial) hx

theorem stays_intern {e : PoolEntry} (hfit : e.Fits) (hback : ∀ r, given r → e.isBacked r) :
    Stays given (intern e) := by
  intro p q i hp hs hgiven h
  obtain ⟨hq, hpq, -⟩ := intern_ok hp h
  refine ⟨hq, ?_, hpq⟩
  unfold intern at h
  cases hi : p.index[e]? with
  | some j =>
    simp only [hi, EStateM.Result.ok.injEq] at h
    exact h.2 ▸ hs
  | none =>
    simp only [hi] at h
    split at h
    · cases h
    · cases h
      intro f hf
      rw [Array.toList_push, List.mem_append, List.mem_singleton] at hf
      obtain hf | rfl := hf
      · exact ⟨(hs f hf).1, hpq.isBacked (hs f hf).2⟩
      · exact ⟨hfit, hback _ (hgiven _ hpq)⟩

theorem stays_pure (a : α) : Stays given (pure a) := by
  intro p q b hp hs _ h
  obtain ⟨-, rfl⟩ := Run.pure_ok.mp h
  exact ⟨hp, hs, .refl p⟩

theorem Stays.bind {f : α → PoolM β} (hx : Stays given x) (hf : ∀ a, Stays given (f a)) :
    Stays given (x >>= f) := by
  intro p r b hp hs hgiven h
  obtain ⟨a, q, ha, hb⟩ := Run.bind_ok.mp h
  obtain ⟨hq, hsq, hpq⟩ := hx p q a hp hs hgiven ha
  obtain ⟨hr, hsr, hqr⟩ := hf a q r b hq hsq (fun s hs => hgiven s (hpq.trans hs)) hb
  exact ⟨hr, hsr, hpq.trans hqr⟩

/-- What comes after may rely on what was handed out. -/
theorem Stays.bindYields {f : α → PoolM β} {mid : Pool → α → Prop} (hx : Stays given x)
    (hy : Yields x mid) (hf : ∀ a, Stays (fun r => given r ∧ mid r a) (f a)) :
    Stays given (x >>= f) := by
  intro p r b hp hs hgiven h
  obtain ⟨a, q, ha, hb⟩ := Run.bind_ok.mp h
  obtain ⟨hq, hsq, hpq⟩ := hx p q a hp hs hgiven ha
  obtain ⟨-, -, hmid⟩ := hy p q a hp ha
  obtain ⟨hr, hsr, hqr⟩ := hf a q r b hq hsq (fun s hs => ⟨hgiven s (hpq.trans hs), hmid s hs⟩) hb
  exact ⟨hr, hsr, hpq.trans hqr⟩

theorem Stays.map {f : α → β} (hx : Stays given x) : Stays given (f <$> x) := by
  rw [map_eq_pure_bind]
  exact hx.bind fun a => stays_pure _

theorem stays_mapM {f : β → PoolM α} {bs : List β} (h : ∀ b ∈ bs, Stays given (f b)) :
    Stays given (bs.mapM f) := by
  induction bs with
  | nil => exact stays_pure _
  | cons b bs ih =>
    rw [List.mapM_cons]
    exact (h b List.mem_cons_self).bind fun a =>
      (ih fun c hc => h c (List.mem_cons_of_mem _ hc)).bind fun as => stays_pure _

theorem stays_ofExcept (x : Except ClassFormatError α) : Stays given (MonadExcept.ofExcept x) := by
  intro p q a hp hs _ h
  obtain ⟨-, rfl⟩ := Run.ofExcept_ok.mp h
  exact ⟨hp, hs, .refl p⟩

/-! ### What is entered -/

variable {name descriptor text : String}

theorem stays_utf8 (h : Text.Fits text) : Stays given (utf8 text) := stays_intern h fun _ _ => rfl

theorem stays_className (h : Text.Fits name) : Stays given (Pool.className name) :=
  (stays_utf8 h).bindYields (yields_utf8 name) fun i =>
    stays_intern trivial fun r hr => by simp [PoolEntry.isBacked, hr.2]

theorem stays_string (h : Text.Fits text) : Stays given (string text) :=
  (stays_utf8 h).bindYields (yields_utf8 text) fun i =>
    stays_intern trivial fun r hr => by simp [PoolEntry.isBacked, hr.2]

theorem stays_nameAndType (hname : Text.Fits name) (hdescriptor : Text.Fits descriptor) :
    Stays given (nameAndType name descriptor) :=
  (stays_utf8 hname).bindYields (yields_utf8 name) fun n =>
    (stays_utf8 hdescriptor).bindYields (yields_utf8 descriptor) fun d =>
      stays_intern trivial fun r hr => by simp [PoolEntry.isBacked, hr.1.2, hr.2]

/-- A reference to a member, of whatever kind. -/
theorem stays_reference (make : UInt16 → UInt16 → PoolEntry) {m : Member}
    (h : ∀ t ∈ m.texts, Text.Fits t) (hfit : ∀ i j, (make i j).Fits)
    (hmake : ∀ r i j, (make i j).isBacked r = (r.member? i j).isSome) :
    Stays given (do intern (make (← Pool.className m.owner)
      (← nameAndType m.name m.descriptor))) := by
  simp only [Member.texts, List.forall_mem_cons] at h
  obtain ⟨howner, hname, hdescriptor, -⟩ := h
  refine (stays_className howner).bindYields (yields_className m.owner) fun owner => ?_
  refine (stays_nameAndType hname hdescriptor).bindYields (yields_nameAndType m.name m.descriptor)
    fun nt => ?_
  refine stays_intern (hfit owner nt) fun r hr => ?_
  rw [hmake, hr.2 owner m.owner hr.1.2]
  rfl

theorem stays_fieldRef {m : Member} (h : ∀ t ∈ m.texts, Text.Fits t) : Stays given (fieldRef m) :=
  stays_reference .fieldRef h (fun _ _ => trivial) fun _ _ _ => rfl

theorem stays_methodRef {m : Member} (h : ∀ t ∈ m.texts, Text.Fits t) (interface : Bool) :
    Stays given (methodRef m interface) := by
  cases interface with
  | false => exact stays_reference .methodRef h (fun _ _ => trivial) fun _ _ _ => rfl
  | true => exact stays_reference .interfaceMethodRef h (fun _ _ => trivial) fun _ _ _ => rfl

theorem stays_constant {v : Constant} (h : ∀ t ∈ (Instr.push v).texts, Text.Fits t) :
    Stays given (Assembly.encodeConstant v) := by
  cases v with
  | int v =>
    rw [Assembly.encodeConstant]
    split_ifs
    · exact stays_pure _
    · exact stays_pure _
    · exact stays_pure _
    · exact (stays_intern (e := .integer v) trivial fun _ _ => rfl).map
  | float bits =>
    rw [Assembly.encodeConstant]
    split_ifs
    · exact stays_pure _
    · exact stays_pure _
    · exact stays_pure _
    · exact (stays_intern (e := .float bits) trivial fun _ _ => rfl).map
  | double bits =>
    rw [Assembly.encodeConstant]
    split_ifs
    · exact stays_pure _
    · exact stays_pure _
    · exact (stays_intern (e := .double bits) trivial fun _ _ => rfl).map
  | text value => exact (stays_string (h value (by simp [Instr.texts]))).map

theorem stays_invoke {code : Opcode} {target : Member} (h : ∀ t ∈ target.texts, Text.Fits t) :
    Stays given (Assembly.encodeInvoke code target) := by
  unfold Assembly.encodeInvoke
  refine (stays_methodRef h _).bind fun i => ?_
  split
  · split
    · exact stays_pure _
    · intro p q a _ _ _ hthrow
      exact (Run.throw_ok.mp hthrow).elim
  · exact stays_pure _

theorem stays_encode {i : Instr} (h : ∀ t ∈ i.texts, Text.Fits t) :
    Stays given (Assembly.encode i) := by
  cases i with
  | op | slot | jump | mark => exact stays_pure _
  | push value => exact (stays_constant h).map
  | type code className => exact (stays_className (h className (by simp [Instr.texts]))).map
  | field code target => exact (stays_fieldRef h).map
  | invoke code target => exact (stays_invoke h).map

theorem stays_assemble {m : Method} (h : ∀ t ∈ m.texts, Text.Fits t) : Stays given m.assemble := by
  have hcode (i : Instr) (hi : i ∈ m.code) (t : String) (ht : t ∈ i.texts) : Text.Fits t :=
    h t (List.mem_cons_of_mem _ (List.mem_cons_of_mem _ (List.mem_flatMap.mpr ⟨i, hi, ht⟩)))
  exact (stays_ofExcept _).bind fun depth => (stays_mapM fun i hi => stays_encode (hcode i hi)).bind
      fun pieces =>
    (stays_ofExcept _).bind fun code => stays_pure _

end Pool

end ClassGen
