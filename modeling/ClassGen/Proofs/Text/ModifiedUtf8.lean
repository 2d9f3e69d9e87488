import ClassGen.ClassFile.Pool
import Mathlib.Tactic.SplitIfs

/-! Reading modified UTF-8. Bytes are read as units, in forms of one, two and three bytes, and units
as characters, two surrogates making one. What a text was encoded to is read as that text, to its
last byte, so that no two texts have the same encoding. -/

namespace ClassGen.Text

/-- The six bits of a byte that continues a form. -/
def tail? (b : UInt8) : Option Nat :=
  if 0x80 ≤ b.toNat ∧ b.toNat ≤ 0xbf then some (b.toNat - 0x80) else none

/-- The first unit, and the bytes after it. No form begins with zero or with more than 0xef. -/
def unit? : List UInt8 → Option (UInt16 × List UInt8)
  | [] => none
  | a :: rest =>
    let n := a.toNat
    if 1 ≤ n ∧ n ≤ 0x7f then some (n.toUInt16, rest)
    else if 0xc0 ≤ n ∧ n ≤ 0xdf then
      match rest with
      | b :: rest => (tail? b).map fun low => (((n - 0xc0) * 64 + low).toUInt16, rest)
      | [] => none
    else if 0xe0 ≤ n ∧ n ≤ 0xef then
      match rest with
      | b :: c :: rest => do
        let middle ← tail? b
        let low ← tail? c
        return (((n - 0xe0) * 4096 + middle * 64 + low).toUInt16, rest)
      | _ => none
    else none

def unitsWithin : Nat → List UInt8 → Option (List UInt16)
  | _, [] => some []
  | 0, _ => none
  | fuel + 1, bytes => do
    let (u, rest) ← unit? bytes
    return u :: (← unitsWithin fuel rest)

/-- All units; every one takes a byte at least. -/
def units? (bytes : List UInt8) : Option (List UInt16) := unitsWithin bytes.length bytes

/-- Characters of the units; a high surrogate takes the low one after it, and neither may stand
alone. -/
def chars? : List UInt16 → Option (List Char)
  | [] => some []
  | u :: rest =>
    if u.toNat < 0xd800 ∨ 0xdfff < u.toNat then (chars? rest).map (Char.ofNat u.toNat :: ·)
    else
      match rest with
      | v :: rest =>
        if u.toNat < 0xdc00 ∧ 0xdc00 ≤ v.toNat ∧ v.toNat ≤ 0xdfff then
          (chars? rest).map
            (Char.ofNat (0x10000 + (u.toNat - 0xd800) * 0x400 + (v.toNat - 0xdc00)) :: ·)
        else none
      | [] => none

/-- The text that the bytes encode. -/
def decode? (bytes : List UInt8) : Option String := do
  let us ← units? bytes
  let cs ← chars? us
  return String.ofList cs

/-! ### Units -/

theorem toUInt16_eq {n : Nat} {u : UInt16} (h : n = u.toNat) : n.toUInt16 = u := by
  rw [h, Nat.toUInt16_eq, UInt16.ofNat_toNat]

theorem tail?_mark {n : Nat} (h : n < 64) : tail? (0x80 + n).toUInt8 = some n := by
  have hn : (0x80 + n).toUInt8.toNat = 0x80 + n := UInt8.toNat_ofNat_of_lt' (show _ < 256 by omega)
  rw [tail?, hn, if_pos (by omega), Nat.add_sub_cancel_left]

/-- Each form is read as the unit it was chosen for. -/
theorem unit?_unitBytes (u : UInt16) (rest : List UInt8) :
    unit? (unitBytes u ++ rest) = some (u, rest) := by
  have hu := u.toNat_lt
  simp only [unitBytes]
  split_ifs with h₁ h₂
  · have hn : u.toNat.toUInt8.toNat = u.toNat := UInt8.toNat_ofNat_of_lt' (show _ < 256 by omega)
    simp only [List.cons_append, List.nil_append, unit?, hn, if_pos h₁]
    rw [toUInt16_eq rfl]
  · have hn : (0xc0 + u.toNat / 64).toUInt8.toNat = 0xc0 + u.toNat / 64 :=
      UInt8.toNat_ofNat_of_lt' (show _ < 256 by omega)
    have hlow := tail?_mark (n := u.toNat % 64) (by omega)
    have hjoined : (0xc0 + u.toNat / 64 - 0xc0) * 64 + u.toNat % 64 = u.toNat := by omega
    simp only [List.cons_append, List.nil_append, unit?, hn, hlow, Option.map_some]
    rw [if_neg (by omega), if_pos (by omega), toUInt16_eq hjoined]
  · have hn : (0xe0 + u.toNat / 4096).toUInt8.toNat = 0xe0 + u.toNat / 4096 :=
      UInt8.toNat_ofNat_of_lt' (show _ < 256 by omega)
    have hmiddle := tail?_mark (n := u.toNat / 64 % 64) (by omega)
    have hlow := tail?_mark (n := u.toNat % 64) (by omega)
    have hjoined : (0xe0 + u.toNat / 4096 - 0xe0) * 4096 + u.toNat / 64 % 64 * 64 + u.toNat % 64 =
        u.toNat := by
      omega
    simp only [List.cons_append, List.nil_append, unit?, hn, hmiddle, hlow]
    rw [if_neg (by omega), if_neg (by omega), if_pos (by omega)]
    simp only [Option.bind_eq_bind, Option.bind_some, Option.pure_def]
    rw [toUInt16_eq hjoined]

/-! ### Forms up to the last byte -/

/-- The bytes are forms one after the other, and these the units that are read from them. -/
inductive Forms : List UInt8 → List UInt16 → Prop
  | nil : Forms [] []
  | cons {bytes rest : List UInt8} {u : UInt16} {us : List UInt16}
      (hfirst : unit? bytes = some (u, rest))
      (hrest : Forms rest us) : Forms bytes (u :: us)

theorem forms_nil_iff {us : List UInt16} : Forms [] us ↔ [] = us := by
  constructor
  · rintro (_ | ⟨hfirst, -⟩)
    · rfl
    · cases hfirst
  · rintro rfl
    exact .nil

theorem forms_flatMap (us : List UInt16) : Forms (us.flatMap unitBytes) us := by
  induction us with
  | nil => exact .nil
  | cons u us ih =>
    rw [List.flatMap_cons]
    exact .cons (unit?_unitBytes u _) ih

theorem length_lt_of_unit? {bytes rest : List UInt8} {u : UInt16}
    (h : unit? bytes = some (u, rest)) : rest.length < bytes.length := by
  revert h
  fun_cases unit? bytes with
  | case1 => simp
  | case2 a left => simp +contextual
  | case3 a n h₁ h₂ b left =>
    intro h
    obtain ⟨low, -, h⟩ := Option.map_eq_some_iff.mp h
    cases h
    simp only [List.length_cons]
    omega
  | case4 => simp
  | case5 a n h₁ h₂ h₃ b c left =>
    intro h
    obtain ⟨middle, -, h⟩ := Option.bind_eq_some_iff.mp h
    obtain ⟨low, -, h⟩ := Option.bind_eq_some_iff.mp h
    cases h
    simp only [List.length_cons]
    omega
  | case6 => simp
  | case7 => simp

/-- Fuel for each byte is enough to read all forms, and nothing else is read. -/
theorem unitsWithin_eq_some_iff {fuel : Nat} {bytes : List UInt8} {us : List UInt16}
    (hfuel : bytes.length ≤ fuel) : unitsWithin fuel bytes = some us ↔ Forms bytes us := by
  induction fuel generalizing bytes us with
  | zero =>
    obtain rfl := List.length_eq_zero_iff.mp (Nat.le_zero.mp hfuel)
    rw [unitsWithin, Option.some_inj, forms_nil_iff]
  | succ fuel ih =>
    cases bytes with
    | nil => rw [unitsWithin, Option.some_inj, forms_nil_iff]
    | cons b bytes =>
      simp only [unitsWithin, Option.bind_eq_bind, Option.bind_eq_some_iff, Option.pure_def,
        Option.some_inj]
      constructor
      · rintro ⟨⟨u, rest⟩, hfirst, more, hrest, rfl⟩
        have hlt := length_lt_of_unit? hfirst
        exact .cons hfirst ((ih (by omega)).mp hrest)
      · rintro (_ | ⟨hfirst, hrest⟩)
        have hlt := length_lt_of_unit? hfirst
        have hmore := (ih (by omega)).mpr hrest
        exact ⟨_, hfirst, _, hmore, rfl⟩

/-- A text is read exactly from forms whose units are its characters. -/
theorem decode?_eq_some_iff {bytes : List UInt8} {text : String} :
    decode? bytes = some text ↔ ∃ us, Forms bytes us ∧ chars? us = some text.toList := by
  simp only [decode?, units?, Option.bind_eq_bind, Option.bind_eq_some_iff, Option.pure_def,
    Option.some_inj, unitsWithin_eq_some_iff (Nat.le_refl _)]
  constructor
  · rintro ⟨us, hforms, cs, hchars, rfl⟩
    exact ⟨us, hforms, by rw [hchars, String.toList_ofList]⟩
  · rintro ⟨us, hforms, hchars⟩
    exact ⟨us, hforms, _, hchars, String.ofList_toList⟩

/-! ### Characters -/

theorem chars?_charUnits (c : Char) (rest : List UInt16) :
    chars? (charUnits c ++ rest) = (chars? rest).map (c :: ·) := by
  have hvalid : c.toNat < 0xd800 ∨ 0xdfff < c.toNat ∧ c.toNat < 0x110000 := c.valid
  simp only [charUnits]
  split_ifs with hsmall
  · have hn : c.toNat.toUInt16.toNat = c.toNat := UInt16.toNat_ofNat_of_lt' hsmall
    rw [List.cons_append, List.nil_append, chars?.eq_def]
    simp only [hn]
    rw [if_pos (by omega), Char.ofNat_toNat]
  · have hhigh : (0xd800 + (c.toNat - 0x10000) / 0x400).toUInt16.toNat =
        0xd800 + (c.toNat - 0x10000) / 0x400 :=
      UInt16.toNat_ofNat_of_lt' (show _ < 65536 by omega)
    have hlow : (0xdc00 + (c.toNat - 0x10000) % 0x400).toUInt16.toNat =
        0xdc00 + (c.toNat - 0x10000) % 0x400 :=
      UInt16.toNat_ofNat_of_lt' (show _ < 65536 by omega)
    have hjoined : 0x10000 + (0xd800 + (c.toNat - 0x10000) / 0x400 - 0xd800) * 0x400 +
        (0xdc00 + (c.toNat - 0x10000) % 0x400 - 0xdc00) = c.toNat := by omega
    simp only [List.cons_append, List.nil_append, chars?, hhigh, hlow]
    rw [if_neg (by omega), if_pos (by omega), hjoined, Char.ofNat_toNat]

theorem chars?_flatMap (cs : List Char) : chars? (cs.flatMap charUnits) = some cs := by
  induction cs with
  | nil => rfl
  | cons c cs ih => rw [List.flatMap_cons, chars?_charUnits, ih, Option.map_some]

/-- A text is read back from its encoding. -/
theorem decode?_modifiedUtf8 (text : String) : decode? (modifiedUtf8 text) = some text :=
  decode?_eq_some_iff.mpr ⟨units text, forms_flatMap _, chars?_flatMap _⟩

/-! ### One text, one encoding -/

theorem toUInt8_bounds {n : Nat} (hpos : 0 < n) (hlt : n < 0xf0) :
    n.toUInt8 ≠ 0 ∧ n.toUInt8 < 0xf0 := by
  have hn : n.toUInt8.toNat = n := UInt8.toNat_ofNat_of_lt' (show _ < 256 by omega)
  refine ⟨fun h => ?_, UInt8.lt_iff_toNat_lt.mpr ?_⟩
  · rw [h] at hn
    exact Nat.ne_of_lt hpos hn
  · rw [hn]
    exact hlt

theorem unitBytes_bounds {u : UInt16} {b : UInt8} (h : b ∈ unitBytes u) : b ≠ 0 ∧ b < 0xf0 := by
  have hu := u.toNat_lt
  simp only [unitBytes] at h
  split_ifs at h with h₁ h₂ <;> simp only [List.mem_cons, List.not_mem_nil, or_false] at h
  · exact h ▸ toUInt8_bounds (by omega) (by omega)
  · rcases h with rfl | rfl <;> exact toUInt8_bounds (by omega) (by omega)
  · rcases h with rfl | rfl | rfl <;> exact toUInt8_bounds (by omega) (by omega)

theorem modifiedUtf8_injective : Function.Injective modifiedUtf8 := by
  intro text other h
  have hread := decode?_modifiedUtf8 text
  rw [h, decode?_modifiedUtf8 other] at hread
  exact (Option.some_inj.mp hread).symm

/-- The tag and the length before the bytes tell no less. -/
theorem utf8_bytes_injective : Function.Injective fun text => (PoolEntry.utf8 text).bytes := by
  intro text other h
  have hbehind := (List.cons.inj h).2
  exact modifiedUtf8_injective (List.append_inj_right hbehind rfl)

/-- A text is read back from its encoding: the encoding is forms of one to three bytes, up to the
last byte, and their units, with surrogates joined in pairs, are the characters of the text. No byte
is zero, none is 0xf0 or above. So no other text has the same encoding, nor the same entry in a
constant pool. -/
theorem modifiedUtf8_decodes_uniquely (text : String) :
    decode? (modifiedUtf8 text) = some text ∧
      (∃ us, Forms (modifiedUtf8 text) us ∧ chars? us = some text.toList) ∧
      (∀ b ∈ modifiedUtf8 text, b ≠ 0 ∧ b < 0xf0) ∧
      ∀ other, (modifiedUtf8 other = modifiedUtf8 text ↔ other = text) ∧
        ((PoolEntry.utf8 other).bytes = (PoolEntry.utf8 text).bytes ↔ other = text) := by
  have hread := decode?_modifiedUtf8 text
  refine ⟨hread, decode?_eq_some_iff.mp hread, fun b hb => ?_, fun other => ?_⟩
  · obtain ⟨u, -, hu⟩ := List.mem_flatMap.mp hb
    exact unitBytes_bounds hu
  · exact ⟨modifiedUtf8_injective.eq_iff, utf8_bytes_injective.eq_iff⟩

/-- NUL in two bytes, and a clef of two surrogates in six. -/
theorem modifiedUtf8_decodes_uniquely_clef :
    modifiedUtf8 "\x00𝄞" = [0xc0, 0x80, 0xed, 0xa0, 0xb4, 0xed, 0xb4, 0x9e] ∧
      decode? [0xc0, 0x80, 0xed, 0xa0, 0xb4, 0xed, 0xb4, 0x9e] = some "\x00𝄞" ∧
      (0xed ∈ modifiedUtf8 "\x00𝄞" ∧ (0xed : UInt8) ≠ 0 ∧ (0xed : UInt8) < 0xf0) ∧
      modifiedUtf8 "𝄞" ≠ modifiedUtf8 "\x00𝄞" := by
  have hbytes : modifiedUtf8 "\x00𝄞" = [0xc0, 0x80, 0xed, 0xa0, 0xb4, 0xed, 0xb4,
      0x9e] := by decide +kernel
  have hmem : 0xed ∈ modifiedUtf8 "\x00𝄞" := by simp [hbytes]
  obtain ⟨hdecode, -, hbounds, hother⟩ := modifiedUtf8_decodes_uniquely "\x00𝄞"
  refine ⟨hbytes, hbytes ▸ hdecode, ⟨hmem, hbounds _ hmem⟩, fun h => ?_⟩
  exact absurd ((hother _).1.mp h) (by decide)

end ClassGen.Text
