/-!
# Decimals out of range

A decimal is a whole number times a power of ten. The largest floating-point number lies half a
step below the power of two at which the range ends, so a decimal from the middle of that step on is
rounded to infinity. A power of ten is only computed where it can decide, so that the exponent may
be of any size.
-/

namespace IndexedGrammar.Number

/-- A whole number times a power of ten. -/
structure Decimal where
  significand : Nat
  exponent : Int
deriving DecidableEq

/-- The least number that is rounded to infinity. -/
def infinityBound : Nat :=
  Nat.pow 2 1024 - Nat.pow 2 970

/-- Whether a decimal is rounded to infinity. -/
def Decimal.isInfinite (d : Decimal) : Bool :=
  match d.exponent with
  | .ofNat zeros =>
    d.significand ≠ 0 && (309 ≤ zeros || infinityBound ≤ d.significand * Nat.pow 10 zeros)
  | .negSucc places =>
    places < d.significand.log2 && infinityBound * Nat.pow 10 (places + 1) ≤ d.significand

end IndexedGrammar.Number
