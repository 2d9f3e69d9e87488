import Mathlib.Algebra.GroupWithZero.Nat
import Mathlib.Tactic.SplitIfs
import ClassGen.Proofs.Assembly.Decoder

/-! Assembled code can be read back. Each instruction is read back from its bytes in every pool that
has grown from the one it was encoded with; the pass that lays labels out and the pass that writes
branches agree on all offsets. -/

namespace ClassGen

/-- The opcode is one of the form it stands in, and a call through an interface can say how many
argument slots it has. -/
def Instr.isRegular : Instr → Bool
  | op code => decide (Opcode.form code = .plain)
  | push _ | mark _ => true
  | slot code _ => decide (Opcode.form code = .slot)
  | jump code _ => decide (Opcode.form code = .jump)
  | type code _ => decide (Opcode.form code = .type)
  | field code _ => decide (Opcode.form code = .field)
  | invoke code target =>
    decide (Opcode.form code = .invoke) &&
      (code != .invokeinterface ||
        match MethodDescriptor.parse target.descriptor with
        | .ok d => decide (d.argWidth ≤ 254)
        | .error _ => true)

/-- What a decoder makes of the instruction; branches and marks apart. -/
def Instr.decoded? : Instr → Option Decoded
  | op code => some (.op code)
  | push value => some (.push value)
  | slot code index => some (.slot code index)
  | type code className => some (.type code className)
  | field code target => some (.field code target)
  | invoke code target => some (.invoke code target)
  | jump _ _ | mark _ => none

namespace Assembly

open Decoder

variable {r : Pool}

/-- The bytes are read as `d`, whatever comes after them. -/
def ReadAs (r : Pool) (content : Bytes) (d : Decoded) : Prop :=
  content ≠ [] ∧ ∀ rest, instr? r (content ++ rest) = some (d, rest)

/-! ### Constants -/

theorem toUInt8_toUInt16 {i : UInt16} (h : i.toNat < 256) : i.toUInt8.toUInt16 = i := by
  refine UInt16.toNat_inj.mp ?_
  rw [UInt8.toNat_toUInt16, UInt16.toNat_toUInt8]
  exact Nat.mod_eq_of_lt h

theorem readAs_loadConstant {v : Constant} {i : UInt16} (h : r.word? i = some v) :
    ReadAs r (loadConstant i) (.push v) := by
  unfold loadConstant
  split
  · next hi =>
    refine ⟨by simp, fun rest => ?_⟩
    show ((r.word? i.toUInt8.toUInt16).map _).map _ = _
    rw [toUInt8_toUInt16 hi, h]
    rfl
  · refine ⟨by simp [withIndex], fun rest => ?_⟩
    show ((r.word? (Bytes.toU16 (i >>> 8).toUInt8 i.toUInt8)).map _).map _ = _
    rw [Bytes.toU16_ofU16, h]
    rfl

/-- The integers from -1 to 5. -/
theorem readAs_small {v : Int32} (h : -1 ≤ v.toInt ∧ v.toInt ≤ 5) :
    ReadAs r [Opcode.iconst0 + v.toUInt32.toUInt8] (.push (.int v)) := by
  have hv : v ∈ ([-1, 0, 1, 2, 3, 4, 5] : List Int32) := by
    simp only [List.mem_cons, List.not_mem_nil, or_false, ← Int32.toInt_inj]
    show v.toInt = -1 ∨ v.toInt = 0 ∨ v.toInt = 1 ∨ v.toInt = 2 ∨ v.toInt = 3 ∨
        v.toInt = 4 ∨ v.toInt = 5
    omega
  refine ⟨by simp, fun rest => ?_⟩
  simp only [List.mem_cons, List.not_mem_nil, or_false] at hv
  rcases hv with rfl | rfl | rfl | rfl | rfl | rfl | rfl <;> rfl

/-- A byte keeps the integers that fit in it, with their sign. -/
theorem toInt32_toInt8 {v : Int32} (h : -128 ≤ v.toInt ∧ v.toInt ≤ 127) :
    v.toUInt32.toUInt8.toInt8.toInt32 = v := by
  have hbyte : v.toUInt32.toUInt8.toInt8 = v.toInt8 := by
    refine Int8.toBitVec_inj.mp ?_
    show v.toBitVec.setWidth 8 = v.toBitVec.signExtend 8
    rw [BitVec.signExtend_eq_setWidth_of_le _ (by decide)]
  rw [hbyte]
  refine Int32.toInt_inj.mp ?_
  simp only [Int8.toInt_toInt32, Int32.toInt_toInt8, Int.bmod]
  omega

theorem toInt32_toInt16 {v : Int32} (h : -32768 ≤ v.toInt ∧ v.toInt ≤ 32767) :
    v.toUInt32.toUInt16.toInt16.toInt32 = v := by
  have hword : v.toUInt32.toUInt16.toInt16 = v.toInt16 := by
    refine Int16.toBitVec_inj.mp ?_
    show v.toBitVec.setWidth 16 = v.toBitVec.signExtend 16
    rw [BitVec.signExtend_eq_setWidth_of_le _ (by decide)]
  rw [hword]
  refine Int32.toInt_inj.mp ?_
  simp only [Int16.toInt_toInt32, Int32.toInt_toInt16, Int.bmod]
  omega

/-- Every constant is read back from the form that was chosen for it. -/
theorem yields_constant (v : Constant) :
    Pool.Yields (encodeConstant v) fun r content => ReadAs r content (.push v) := by
  cases v with
  | int v =>
    rw [encodeConstant]
    split_ifs with h₁ h₂ h₃
    · exact Pool.yields_pure fun r => readAs_small h₁
    · refine Pool.yields_pure fun r => ⟨by simp, fun rest => ?_⟩
      show some (Decoded.push (.int v.toUInt32.toUInt8.toInt8.toInt32), rest) = _
      rw [toInt32_toInt8 h₂]
    · refine Pool.yields_pure fun r => ⟨by simp [withIndex], fun rest => ?_⟩
      show some (Decoded.push (.int (Bytes.toU16 _ _).toInt16.toInt32), rest) = _
      rw [Bytes.toU16_ofU16, toInt32_toInt16 h₃]
    · exact (Pool.yields_intern _).map fun r i hi => readAs_loadConstant (by simp [Pool.word?, hi])
  | float bits =>
    rw [encodeConstant]
    split_ifs with h₁ h₂ h₃
    · exact Pool.yields_pure fun r => ⟨by simp, fun rest => by rw [h₁]; rfl⟩
    · exact Pool.yields_pure fun r => ⟨by simp, fun rest => by rw [h₂]; rfl⟩
    · exact Pool.yields_pure fun r => ⟨by simp, fun rest => by rw [h₃]; rfl⟩
    · exact (Pool.yields_intern _).map fun r i hi => readAs_loadConstant (by simp [Pool.word?, hi])
  | double bits =>
    rw [encodeConstant]
    split_ifs with h₁ h₂
    · exact Pool.yields_pure fun r => ⟨by simp, fun rest => by rw [h₁]; rfl⟩
    · exact Pool.yields_pure fun r => ⟨by simp, fun rest => by rw [h₂]; rfl⟩
    · refine (Pool.yields_intern _).map fun r i hi => ⟨by simp [withIndex], fun rest => ?_⟩
      show ((r.double? (Bytes.toU16 _ _)).map _).map _ = _
      rw [Bytes.toU16_ofU16, Pool.double?, hi]
      rfl
  | text value => exact (Pool.yields_string value).map fun r i hi => readAs_loadConstant hi

/-! ### Instructions -/

/-- A piece stands for the instruction: it is read back as it, or still has its label. -/
def Renders (r : Pool) (i : Instr) : Piece → Prop
  | .bytes content => ∃ d, i.decoded? = some d ∧ ReadAs r content d
  | .jump code target => i = .jump code target ∧ Opcode.form code = .jump
  | .mark label => i = .mark label

theorem readAs_slot {code : Opcode} {index : UInt16} (h : Opcode.form code = .slot) :
    ReadAs r (encodeSlot code index) (.slot code index) := by
  unfold encodeSlot
  split
  · next hi =>
    refine ⟨by simp, fun rest => ?_⟩
    simp only [List.cons_append, List.nil_append, instr?, h, toUInt8_toUInt16 hi]
  · refine ⟨by simp, fun rest => ?_⟩
    have hwide : Opcode.form .wide = .wide := rfl
    simp only [withIndex, Bytes.ofU16, List.cons_append, List.nil_append, instr?, hwide, h, if_true,
      Bytes.toU16_ofU16]

theorem readAs_type {code : Opcode} {i : UInt16} {name : String} (h : Opcode.form code = .type)
    (hi : r.className? i = some name) : ReadAs r (withIndex code i) (.type code name) := by
  refine ⟨by simp [withIndex], fun rest => ?_⟩
  simp only [withIndex, Bytes.ofU16, List.cons_append, List.nil_append, instr?, h,
    Bytes.toU16_ofU16, hi, Option.map_some]

theorem readAs_field {code : Opcode} {i : UInt16} {target : Member} (h : Opcode.form code = .field)
    (hi : r.fieldRef? i = some target) : ReadAs r (withIndex code i) (.field code target) := by
  refine ⟨by simp [withIndex], fun rest => ?_⟩
  simp only [withIndex, Bytes.ofU16, List.cons_append, List.nil_append, instr?, h,
    Bytes.toU16_ofU16, hi, Option.map_some]

theorem readAs_invoke {code : Opcode} {i : UInt16} {target : Member}
    (h : Opcode.form code = .invoke) (hcode : code ≠ .invokeinterface)
    (hi : r.methodRef? false i = some target) :
    ReadAs r (withIndex code i) (.invoke code target) := by
  refine ⟨by simp [withIndex], fun rest => ?_⟩
  have hb : (code == Opcode.invokeinterface) = false := by simpa using hcode
  simp [withIndex, Bytes.ofU16, instr?, h, invoke?, Bytes.toU16_ofU16, hb, hi, hcode]

theorem readAs_invokeInterface {i : UInt16} {target : Member} {d : MethodDescriptor}
    (hi : r.methodRef? true i = some target) (hd : MethodDescriptor.parse target.descriptor = .ok d)
    (hfit : d.argWidth ≤ 254) :
    ReadAs r (withIndex .invokeinterface i ++ [(d.argSlots + 1).toUInt8, 0])
      (.invoke .invokeinterface target) := by
  refine ⟨by simp [withIndex], fun rest => ?_⟩
  have hform : Opcode.form .invokeinterface = .invoke := rfl
  have hslots : d.argSlots.toNat = d.argWidth := by
    rw [MethodDescriptor.argSlots_eq]
    exact UInt16.toNat_ofNat_of_lt' (Nat.lt_of_le_of_lt hfit (by decide))
  have hcount : (d.argSlots.toNat + 1) % 256 = d.argWidth + 1 := by omega
  simp [withIndex, Bytes.ofU16, instr?, hform, invoke?, Bytes.toU16_ofU16, hi, hd, hcount]

theorem yields_invoke {code : Opcode} {target : Member} (h : (Instr.invoke code target).isRegular) :
    Pool.Yields (encodeInvoke code target) fun r content =>
      ReadAs r content (.invoke code target) := by
  simp only [Instr.isRegular, Bool.and_eq_true, decide_eq_true_eq, Bool.or_eq_true, bne_iff_ne] at h
  obtain ⟨hform, hfit⟩ := h
  unfold encodeInvoke
  refine (Pool.yields_methodRef target _).bind fun i => ?_
  by_cases hcode : code = .invokeinterface
  · subst hcode
    simp only [BEq.rfl, if_true]
    cases hd : MethodDescriptor.parse target.descriptor with
    | error e =>
      intro p q a _ hthrow
      exact (Run.throw_ok.mp hthrow).elim
    | ok d =>
      simp only [hd, decide_eq_true_eq] at hfit
      exact Pool.yields_pure fun r hi => readAs_invokeInterface hi hd (hfit.resolve_left (by simp))
  · have hb : (code == Opcode.invokeinterface) = false := by simpa using hcode
    rw [hb, if_neg Bool.false_ne_true]
    exact Pool.yields_pure fun r hi => readAs_invoke hform hcode hi

/-- Encoding an instruction gives a piece that stands for it. -/
theorem yields_encode {i : Instr} (h : i.isRegular) : Pool.Yields (encode i) fun r piece =>
    Renders r i piece := by
  cases i with
  | op code =>
    have hform : Opcode.form code = .plain := by simpa [Instr.isRegular] using h
    refine Pool.yields_pure fun r => ⟨_, rfl, by simp, fun rest => ?_⟩
    simp only [List.cons_append, List.nil_append, instr?, hform]
  | push value => exact (yields_constant value).map fun r content hc => ⟨_, rfl, hc⟩
  | slot code index =>
    exact Pool.yields_pure fun r => ⟨_, rfl, readAs_slot (by simpa [Instr.isRegular] using h)⟩
  | jump code target => exact Pool.yields_pure fun r => ⟨rfl, by simpa [Instr.isRegular] using h⟩
  | mark label => exact Pool.yields_pure fun r => rfl
  | type code className =>
    refine (Pool.yields_className className).map fun r i hi => ⟨_, rfl, readAs_type ?_ hi⟩
    simpa [Instr.isRegular] using h
  | field code target =>
    refine (Pool.yields_fieldRef target).map fun r i hi => ⟨_, rfl, readAs_field ?_ hi⟩
    simpa [Instr.isRegular] using h
  | invoke code target => exact (yields_invoke h).map fun r content hc => ⟨_, rfl, hc⟩

/-- All instructions of a method, with the pool after the last of them. -/
theorem yields_pieces {code : Code} (h : ∀ i ∈ code, i.isRegular) :
    Pool.Yields (code.mapM encode) fun r pieces => List.Forall₂ (Renders r) code pieces := by
  induction code with
  | nil => exact Pool.yields_pure fun r => .nil
  | cons i rest ih =>
    rw [List.mapM_cons]
    refine (yields_encode (h i List.mem_cons_self)).bind fun piece => ?_
    refine (ih fun j hj => h j (List.mem_cons_of_mem _ hj)).bind fun pieces => ?_
    exact Pool.yields_pure fun r hrest hfirst => .cons hfirst hrest

/-! ### Layout -/

/-- Bytes of all pieces. -/
def total (pieces : List Piece) : Nat := (pieces.map Piece.size).sum

@[simp] theorem total_nil : total [] = 0 := rfl

@[simp] theorem total_cons (piece : Piece) (pieces : List Piece) :
    total (piece :: pieces) = piece.size + total pieces := by simp [total]

/-- One piece of the layout. -/
def place (acc : Std.TreeMap Label Nat × Nat) (piece : Piece) : Std.TreeMap Label Nat × Nat :=
  (match piece with
    | .mark label => acc.1.insert label acc.2
    | _ => acc.1, acc.2 + piece.size)

theorem layout_eq (pieces : List Piece) : layout pieces = pieces.foldl place (∅, 0) := rfl

theorem place_size (pieces : List Piece) (acc : Std.TreeMap Label Nat × Nat) :
    (pieces.foldl place acc).2 = acc.2 + total pieces := by
  induction pieces generalizing acc with
  | nil => rfl
  | cons piece pieces ih =>
    rw [List.foldl_cons, ih, total_cons, ← Nat.add_assoc]
    rfl

theorem place_unmarked {pieces : List Piece} {l : Label} (h : Piece.mark l ∉ pieces)
    (acc : Std.TreeMap Label Nat × Nat) : (pieces.foldl place acc).1[l]? = acc.1[l]? := by
  induction pieces generalizing acc with
  | nil => rfl
  | cons piece pieces ih =>
    obtain ⟨hne, hrest⟩ := not_or.mp (List.mem_cons.not.mp h)
    rw [List.foldl_cons, ih hrest]
    cases piece with
    | mark label =>
      rw [place, Std.TreeMap.getElem?_insert, if_neg]
      intro heq
      exact hne (by rw [Std.LawfulEqCmp.eq_of_compare heq])
    | bytes | jump => rfl

/-- The offset of a label that is placed once is that of what comes after it. -/
theorem layout_mark {before after : List Piece} {l : Label} (h : Piece.mark l ∉ after) :
    (layout (before ++ .mark l :: after)).1[l]? = some (total before) := by
  rw [layout_eq, List.foldl_append, List.foldl_cons, place_unmarked h, place,
    Std.TreeMap.getElem?_insert_self, place_size, Nat.zero_add]

/-! ### Linking -/

/-- The instructions that take bytes. -/
def real (code : Code) : Code := code.filter fun i => i.mark?.isNone

/-- The decoded instruction is the symbolic one; a branch at offset `n` goes to the offset of its
label. -/
inductive Reads (offsets : Label → Option Nat) : Instr → Nat × Decoded → Prop
  | same {i : Instr} {d : Decoded} (n : Nat) (h : i.decoded? = some d) : Reads offsets i (n, d)
  | jump {code : Opcode} {target : Label} {n destination : Nat} {displacement : Int}
    (h : offsets target = some destination) (hd : (n : Int) + displacement = destination) :
    Reads offsets (.jump code target) (n, .jump code displacement)

theorem decoded?_of_mark {i : Instr} {d : Decoded} (h : i.decoded? = some d) : i.mark? = none := by
  cases i <;> first | rfl | cases h

/-- A branch is read back with the distance it was written for. -/
theorem branch_ok {code : Opcode} {n destination : Nat} {content : Bytes}
    (hform : Opcode.form code = .jump) (h : branch code n destination = some content) :
    content.length = 3 ∧ ReadAs r content (.jump code (destination - n)) := by
  unfold branch at h
  simp only at h
  split at h
  · next hfit =>
    cases h
    refine ⟨rfl, by simp [withIndex], fun rest => ?_⟩
    have hdelta : (Int16.ofInt ((destination : Int) - n)).toUInt16.toInt16.toInt =
        destination - n :=
      Int16.toInt_ofInt_of_le (by omega) (by omega)
    simp only [withIndex, Bytes.ofU16, List.cons_append, List.nil_append, instr?, hform,
      Bytes.toU16_ofU16, hdelta]
  · cases h

/-- One more instruction is read. -/
theorem decodeFrom_append {content tail : Bytes} {d : Decoded} {n fuel : Nat}
    {ds : List (Nat × Decoded)} (hc : ReadAs r content d) (hfuel : (content ++ tail).length ≤ fuel)
    (htail : ∀ fuel, tail.length ≤ fuel → decodeFrom r fuel (n + content.length) tail = some ds) :
    decodeFrom r fuel n (content ++ tail) = some ((n, d) :: ds) := by
  obtain ⟨hne, hread⟩ := hc
  have hlen := List.length_pos_iff.mpr hne
  rw [List.length_append] at hfuel
  cases fuel with
  | zero => omega
  | succ fuel =>
    have hfirst := hread tail
    have hsize : (content ++ tail).length - tail.length = content.length := by simp
    cases hbytes : content ++ tail with
    | nil => simp [hne] at hbytes
    | cons b bytes =>
      rw [hbytes] at hfirst hsize
      simp [decodeFrom, hfirst, -List.length_cons, hsize, htail fuel (by omega)]

/-- What linking writes from a position on is read back from there. -/
structure Linked (r : Pool) (offsets : Label → Option Nat) (code : Code)
    (pieces : List Piece) (n : Nat) (tail : Bytes) (ds : List (Nat × Decoded)) : Prop where
  length : tail.length = total pieces
  decoded : ∀ fuel, tail.length ≤ fuel → decodeFrom r fuel n tail = some ds
  reads : List.Forall₂ (Reads offsets) (real code) ds
  /-- Instructions begin where the pieces before them end. -/
  offset : ∀ k ≤ pieces.length,
    (ds[(real (code.take k)).length]?.map Prod.fst).getD (n + total pieces) = n + total
      (pieces.take k)

variable {offsets : Label → Option Nat} {code : Code} {pieces : List Piece} {n : Nat} {tail : Bytes}
  {ds : List (Nat × Decoded)}

theorem Linked.nil : Linked r offsets [] [] n [] [] where
  length := rfl
  decoded _ _ := by simp [decodeFrom]
  reads := .nil
  offset _ _ := by simp

theorem Linked.mark (h : Linked r offsets code pieces n tail ds) (l : Label) :
    Linked r offsets (.mark l :: code) (.mark l :: pieces) n tail ds where
  length := by rw [h.length, total_cons, Piece.size, Nat.zero_add]
  decoded := h.decoded
  reads := h.reads
  offset k hk := by
    simp only [total_cons, Piece.size, Nat.zero_add]
    cases k with
    | zero => exact h.offset 0 (Nat.zero_le _)
    | succ k =>
      simp only [List.take_succ_cons, total_cons, Piece.size, Nat.zero_add]
      exact h.offset k (by simpa using hk)

/-- An instruction of `content` before the rest. -/
theorem Linked.instr {i : Instr} {piece : Piece} {content : Bytes} {d : Decoded}
    (h : Linked r offsets code pieces (n + content.length) tail ds) (hi : i.mark? = none)
    (hsize : piece.size = content.length) (hc : ReadAs r content d) (hd : Reads offsets i (n, d)) :
    Linked r offsets (i :: code) (piece :: pieces) n (content ++ tail) ((n, d) :: ds) where
  length := by rw [List.length_append, h.length, total_cons, hsize]
  decoded fuel hfuel := decodeFrom_append hc hfuel h.decoded
  reads := by
    have hreal : real (i :: code) = i :: real code := by simp [real, hi]
    rw [hreal]
    exact .cons hd h.reads
  offset k hk := by
    cases k with
    | zero => rfl
    | succ k =>
      have := h.offset k (by simpa using hk)
      have hreal : real (i :: code.take k) = i :: real (code.take k) := by simp [real, hi]
      simpa [List.take_succ_cons, hreal, hsize, Nat.add_assoc] using this

theorem link_linked {method : String} {labels : Std.TreeMap Label Nat} {acc : List Bytes}
    {out : Bytes} (hr : List.Forall₂ (Renders r) code pieces)
    (h : link method labels acc n pieces = .ok out) :
    ∃ tail ds, out = acc.reverse.flatten ++ tail ∧ Linked r (fun l => labels[l]?) code pieces n
      tail ds := by
  induction hr generalizing acc n with
  | nil =>
    simp only [link, Except.ok.injEq] at h
    exact ⟨[], [], by simp [h], .nil⟩
  | @cons i piece code pieces hfirst hrest ih =>
    cases piece with
    | bytes content =>
      obtain ⟨d, hd, hc⟩ := hfirst
      rw [link] at h
      obtain ⟨tail, ds, rfl, hl⟩ := ih h
      exact ⟨content ++ tail, _, by simp, hl.instr (decoded?_of_mark hd) rfl hc (.same n hd)⟩
    | mark l =>
      obtain rfl : i = .mark l := hfirst
      rw [link] at h
      obtain ⟨tail, ds, rfl, hl⟩ := ih h
      exact ⟨tail, ds, rfl, hl.mark l⟩
    | jump c target =>
      obtain ⟨rfl, hform⟩ := hfirst
      rw [link] at h
      cases ht : labels[target]? with
      | none => simp [ht] at h
      | some destination =>
        simp only [ht] at h
        cases hb : branch c n destination with
        | none => simp [hb] at h
        | some content =>
          simp only [hb] at h
          obtain ⟨hlen, hc⟩ := branch_ok (r := r) hform hb
          rw [← hlen] at h
          obtain ⟨tail, ds, rfl, hl⟩ := ih h
          exact ⟨content ++ tail, _, by simp, hl.instr rfl hlen.symm hc (.jump ht (by omega))⟩

/-! ### Labels -/

/-- Offset of the instruction after the mark of a label, in code that was decoded as `ds` and has
`size` bytes; the end of the code if there is none. -/
def landing (code : Code) (ds : List (Nat × Decoded)) (size : Nat) (l : Label) : Option Nat :=
  (code.findIdx? (· == .mark l)).map fun k =>
    (ds[(real (code.take k)).length]?.map Prod.fst).getD size

theorem renders_mark {i : Instr} {piece : Piece} {l : Label} (h : Renders r i piece) :
    piece = .mark l ↔ i = .mark l := by
  cases piece with
  | bytes content =>
    obtain ⟨d, hd, -⟩ := h
    refine ⟨nofun, fun hi => ?_⟩
    rw [hi] at hd
    cases hd
  | jump code target =>
    obtain ⟨rfl, -⟩ := h
    exact ⟨nofun, nofun⟩
  | mark label =>
    obtain rfl : i = .mark label := h
    simp

/-- Marks stand at the same places among the instructions and the pieces. -/
theorem getElem?_mark {k : Nat} {l : Label} (hr : List.Forall₂ (Renders r) code pieces) :
    pieces[k]? = some (.mark l) ↔ code[k]? = some (.mark l) := by
  induction hr generalizing k with
  | nil => simp
  | cons hfirst _ ih =>
    cases k with
    | zero => simp [renders_mark hfirst]
    | succ k => simpa using ih

/-- The layout gives a label the end of the pieces before its mark. -/
theorem layout_landing {l : Label} {destination : Nat} (hr : List.Forall₂ (Renders r) code pieces)
    (hmarks : code.marks.Nodup) (h : (layout pieces).1[l]? = some destination) :
    ∃ k, code[k]? = some (.mark l) ∧ k ≤ pieces.length ∧ destination = total (pieces.take k) := by
  by_cases hmem : Piece.mark l ∈ pieces
  · obtain ⟨k, hk⟩ := List.getElem?_of_mem hmem
    have hlt := (List.getElem?_eq_some_iff.mp hk).1
    have hcode := (getElem?_mark hr).mp hk
    refine ⟨k, hcode, Nat.le_of_lt hlt, ?_⟩
    have hsplit : pieces = pieces.take k ++ .mark l :: pieces.drop (k + 1) := by
      rw [← (List.getElem?_eq_some_iff.mp hk).2, List.getElem_cons_drop, List.take_append_drop]
    have hlast : Piece.mark l ∉ pieces.drop (k + 1) := by
      intro hagain
      obtain ⟨j, hj⟩ := List.getElem?_of_mem hagain
      rw [List.getElem?_drop] at hj
      have := Code.mark_unique hmarks hcode ((getElem?_mark hr).mp hj)
      omega
    rw [hsplit, layout_mark hlast] at h
    exact (Option.some.inj h).symm
  · rw [layout_eq, place_unmarked hmem] at h
    simp at h

theorem Reads.imp {offsets' : Label → Option Nat} {i : Instr} {d : Nat × Decoded}
    (h : Reads offsets i d) (himp : ∀ l n, offsets l = some n → offsets' l = some n) :
    Reads offsets' i d := by
  cases h with
  | same n hd => exact .same n hd
  | jump ht hd => exact .jump (himp _ _ ht) hd

end Assembly

open Assembly in
/-- The code of a method can be read back with the pool that assembling it leaves: all instructions
in order, with their constants and references, every branch going to the instruction after its
label. -/
theorem assemble_reads_back {m : Method} {p p' : Pool} {a : Assembled} (hp : p.Reachable)
    (hforms : ∀ i ∈ m.code, i.isRegular) (hmarks : m.code.marks.Nodup)
    (h : m.assemble p = .ok a p') :
    a.code.length ≤ 65535 ∧ ∃ ds, Decoder.decode p' a.code = some ds ∧
      List.Forall₂ (Reads (landing m.code ds a.code.length)) (real m.code) ds := by
  simp only [Method.assemble, Run.bind_ok, Run.ofExcept_ok, Run.pure_ok] at h
  obtain ⟨depth, _, ⟨-, rfl⟩, pieces, _, hpieces, bytes, _, ⟨hresolve, rfl⟩, rfl, rfl⟩ := h
  obtain ⟨-, -, hrenders⟩ := yields_pieces hforms _ _ _ hp.valid hpieces
  have hr := hrenders _ (.refl _)
  unfold resolve at hresolve
  simp only at hresolve
  split at hresolve
  · cases hresolve
  · next hsize =>
    obtain ⟨tail, ds, hbytes, hl⟩ := link_linked hr hresolve
    obtain rfl : bytes = tail := by simpa using hbytes
    have htotal : (layout pieces).2 = bytes.length := by
      rw [layout_eq, place_size, hl.length, Nat.zero_add]
    have hsmall : bytes.length ≤ 65535 := by omega
    refine ⟨hsmall, ds, hl.decoded _ (Nat.le_refl _),
      hl.reads.imp fun i d hread => hread.imp fun l n hn => ?_⟩
    obtain ⟨k, hk, hle, rfl⟩ := layout_landing hr hmarks hn
    have hoffset := hl.offset k hle
    rw [Nat.zero_add, ← hl.length, Nat.zero_add] at hoffset
    rw [landing, Code.findIdx?_mark hmarks hk, Option.map_some, hoffset]

namespace Assembly

/-- A loop with branches both ways, a wide slot, a negative zero, and a call through an interface.
-/
def sampleMethod : Method where
  access := .publicStatic
  name := "sample"
  descriptor := "()V"
  code := [.push (.int 100000), .slot .istore 300, .mark 0, .slot .iload 300, .jump .ifeq 1,
    .push (.text "a"), .push (.double 0x8000000000000000),
    .invoke .invokeinterface ⟨"T", "f", "(D)V"⟩, .push (.int (-7)), .slot .istore 3, .jump .goto 0,
    .mark 1, .op .vreturn]
  maxLocals := 302

/-- The code, if assembling succeeded. -/
def code? : EStateM.Result ClassFormatError Pool Assembled → Option Bytes
  | .ok a _ => some a.code
  | .error _ _ => none

theorem code?_sampleMethod : code? (sampleMethod.assemble {}) = some [0x12, 1, 0xc4, 0x36, 1, 44,
    0xc4, 0x15, 1, 44, 0x99, 0, 20, 0x12, 3, 0x14, 0, 4, 0xb9, 0, 11, 3, 0, 0x10, 249, 0x36, 3,
    0xa7, 255, 235, 0xb1] := by
  decide +kernel

/-- The thirty-one bytes of the sample are read back. -/
theorem assemble_reads_back_sample :
    ∃ a p' ds, sampleMethod.assemble {} = .ok a p' ∧ a.code.length = 31 ∧
      Decoder.decode p' a.code = some ds ∧
      List.Forall₂ (Reads (landing sampleMethod.code ds 31)) (real sampleMethod.code) ds := by
  have hcode := code?_sampleMethod
  cases h : sampleMethod.assemble {} with
  | error e p' =>
    rw [h] at hcode
    cases hcode
  | ok a p' =>
    rw [h] at hcode
    have hlen : a.code.length = 31 := congrArg List.length (Option.some.inj hcode)
    obtain ⟨-, ds, hds, hreads⟩ :=
      assemble_reads_back .new (by decide +kernel) (by decide +kernel) h
    exact ⟨a, p', ds, rfl, hlen, hds, hlen ▸ hreads⟩

end Assembly

end ClassGen
