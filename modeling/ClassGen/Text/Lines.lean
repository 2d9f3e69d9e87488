/-! The lines of a text. A line feed ends a line, and a carriage return right before it
belongs to the end. -/

namespace ClassGen.Text

/-- The line whose characters are `cs` reversed, without the carriage return of its end. -/
def endedLine : List Char → String
  | '\r' :: cs => String.ofList cs.reverse
  | cs => String.ofList cs.reverse

/-- Lines of `cs`; `line` holds what was read of the first one, reversed. What follows the
last line feed is a line only if it is not empty, and nothing of it is left out. -/
def linesFrom : List Char → List Char → List String
  | [], [] => []
  | line, [] => [String.ofList line.reverse]
  | line, '\n' :: cs => endedLine line :: linesFrom [] cs
  | line, c :: cs => linesFrom (c :: line) cs

def lines (text : String) : List String := linesFrom [] text.toList

end ClassGen.Text
