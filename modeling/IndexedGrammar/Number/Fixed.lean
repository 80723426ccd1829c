import IndexedGrammar.Number.Double

/-!
# Decimals with fixed places

A floating-point number is written with a fixed number of decimal places, rounded from its exact
value; a half goes to the even neighbour. Only finite numbers that are not negative are written.
-/

namespace IndexedGrammar.Number

/-- A finite number that is not negative as a fraction of natural numbers. -/
def fractionOf (x : Float) : Nat × Nat :=
  let bits := x.toBits.toNat
  let exponent := bits / Nat.pow 2 52 % Nat.pow 2 11
  let mantissa := bits % Nat.pow 2 52
  let scaled := if exponent = 0 then mantissa else mantissa + Nat.pow 2 52
  let power := max exponent 1
  (scaled * Nat.pow 2 (power - 1075), Nat.pow 2 (1075 - power))

/-- The digits of a number, with zeros in front up to a width. -/
def paddedDigits (width n : Nat) : String :=
  let digits := toString n
  String.ofList (List.replicate (width - digits.length) '0') ++ digits

/-- A number with a fixed count of decimal places. -/
def fixedText (places : Nat) (x : Float) : String :=
  let (num, den) := fractionOf x
  let scaled := roundDiv (num * Nat.pow 10 places) den
  toString (scaled / Nat.pow 10 places) ++ "." ++ paddedDigits places (scaled % Nat.pow 10 places)

end IndexedGrammar.Number
