/-! UTF-16 code units of a text, and their one- to three-byte encoding in class
files. A class file writes the NUL unit in two bytes, and a supplementary character
as two surrogate units of three bytes each, so no written byte is zero and no form is
longer than three bytes. -/

namespace ClassGen.Text

/-- One unit below 2^16, otherwise the high and the low surrogate. -/
def charUnits (c : Char) : List UInt16 :=
  let n := c.toNat
  if n < 0x10000 then [n.toUInt16]
  else
    let rest := n - 0x10000
    [(0xd800 + rest / 0x400).toUInt16, (0xdc00 + rest % 0x400).toUInt16]

def units (text : String) : List UInt16 := text.toList.flatMap charUnits

/-- Bytes of one unit: one for 1 to 0x7f, two for NUL and up to 0x7ff, three above. -/
def unitBytes (u : UInt16) : List UInt8 :=
  let n := u.toNat
  if 1 ≤ n ∧ n ≤ 0x7f then [n.toUInt8]
  else if n ≤ 0x7ff then [(0xc0 + n / 64).toUInt8, (0x80 + n % 64).toUInt8]
  else [(0xe0 + n / 4096).toUInt8, (0x80 + n / 64 % 64).toUInt8, (0x80 + n % 64).toUInt8]

/-- Modified UTF-8, the encoding of every text in a class file. -/
def modifiedUtf8 (text : String) : List UInt8 := (units text).flatMap unitBytes

end ClassGen.Text
