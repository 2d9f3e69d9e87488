/-! Decimal numbers in scientific form, and which of them a double can hold. -/

namespace ClassGen

/-- The number `coefficient * 10 ^ exponent`. -/
structure Decimal where
  coefficient : Nat
  exponent : Int

namespace Decimal

/-- Half way between the largest double and 2^1024. It rounds up, to the even side. -/
def leastInfinite : Nat := Nat.pow 2 1024 - Nat.pow 2 970

/-- The nearest double is infinite. -/
def overflows (d : Decimal) : Bool :=
  leastInfinite * Nat.pow 10 (-d.exponent).toNat ≤ d.coefficient * Nat.pow 10 d.exponent.toNat

end Decimal

end ClassGen
