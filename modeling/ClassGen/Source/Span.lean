/-! Byte ranges of the source text. Every node of the tree carries one, and every
diagnostic that has a place points at one. -/

namespace ClassGen

/-- Byte range from `start` up to `stop`. A range that stops before it starts is empty. -/
structure Span where
  start : Nat := 0
  stop : Nat := 0
  deriving DecidableEq, Inhabited

namespace Span

/-- Number of bytes covered, zero for a range that runs backwards. -/
def length (s : Span) : Nat := s.stop - s.start

def isEmpty (s : Span) : Bool := s.length == 0

end Span

end ClassGen
