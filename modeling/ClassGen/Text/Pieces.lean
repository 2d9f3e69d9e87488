/-! Cutting file paths and class names: the last segment of a path, and a text
without a suffix however often it is repeated. Both work on the characters. -/

namespace ClassGen.Text

/-- What follows the last `separator`; everything if there is none. -/
def afterLast (separator : Char) (text : String) : String :=
  String.ofList (text.toList.reverse.takeWhile (· != separator)).reverse

/-- Reversed text without the reversed suffix `tail`, as often as it leads. The fuel
bounds the number of cuts. -/
def cutLeading (tail : List Char) : Nat → List Char → List Char
  | 0, cs => cs
  | fuel + 1, cs =>
    match tail.isPrefixOf? cs with
    | some rest => cutLeading tail fuel rest
    | none => cs

/-- `text` without `suffix` at its end, as often as it stands there. Each cut of a
non-empty suffix shortens the text, so the length is fuel enough. -/
def dropSuffixes (suffix text : String) : String :=
  let cs := text.toList.reverse
  String.ofList (cutLeading suffix.toList.reverse cs.length cs).reverse

end ClassGen.Text
