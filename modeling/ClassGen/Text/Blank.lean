/-! Unicode white space, for values that come from the environment or a manifest.
The set is the `White_Space` property; `Char.isWhitespace` knows only its ASCII part. -/

namespace ClassGen.Text

/-- Code points with the `White_Space` property. -/
def isBlank (c : Char) : Bool :=
  let n := c.toNat
  (0x09 ≤ n && n ≤ 0x0d) || n == 0x20 || n == 0x85 || n == 0xa0 || n == 0x1680 ||
    (0x2000 ≤ n && n ≤ 0x200a) || n == 0x2028 || n == 0x2029 || n == 0x202f || n == 0x205f ||
    n == 0x3000

/-- The characters between the blanks at both ends. -/
def trimBlank (text : String) : List Char :=
  ((text.toList.dropWhile isBlank).reverse.dropWhile isBlank).reverse

end ClassGen.Text
