/-!
# Large numbers as floating-point numbers

A natural number becomes the nearest floating-point number; of two that are equally near, the one
whose last bit is even. All numbers of up to 53 bits are exact.
-/

namespace IndexedGrammar.Number

/-- A quotient rounded to the nearest whole number, a half to the even one. -/
def roundDiv (n d : Nat) : Nat :=
  let q := n / d
  let twice := 2 * (n % d)
  if twice < d then q
  else if d < twice then q + 1
  else q + q % 2

/-- The nearest floating-point number. -/
def toDouble (n : Nat) : Float :=
  let excess := n.log2 + 1 - 53
  (Float.ofNat (roundDiv n (Nat.pow 2 excess))).scaleB excess

end IndexedGrammar.Number
