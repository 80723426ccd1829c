import Std.Data.ExtTreeMap

/-!
# Capped counts

Derivations can be too many to count, so counting stops at a cap: sums and products are those of
the natural numbers, cut down to the cap. Counts by sentence length are kept in a map; a length
that is not in it has no derivations.

Lengths are not cut down. A sum of lengths that is beyond the largest length is an overflow, which
ends the count.
-/

namespace IndexedGrammar

/-- The largest count, the greatest number of 128 bits. -/
def countCap : Nat := Nat.pow 2 128 - 1

/-- The largest length, the greatest number of 64 bits. -/
def lengthCap : Nat := Nat.pow 2 64 - 1

/-- A number cut down to the cap. -/
def capped (n : Nat) : Nat := min n countCap

/-- The sum of two counts. -/
def cappedAdd (m n : Nat) : Nat := capped (m + n)

/-- The product of two counts. -/
def cappedMul (m n : Nat) : Nat := capped (m * n)

/-- The sum of counts. -/
def cappedSum (ns : List Nat) : Nat := ns.foldl cappedAdd 0

/-- The product of counts. -/
def cappedProduct (ns : List Nat) : Nat := ns.foldl cappedMul 1

/-- How many derivations there are of each sentence length. -/
abbrev Counts := Std.ExtTreeMap Nat Nat

namespace Counts

/-- The count for a length. -/
def count (counts : Counts) (length : Nat) : Nat :=
  counts.getD length 0

/-- One derivation, of a given length. -/
def single (length : Nat) : Counts :=
  (∅ : Counts).insert length 1

/-- Adds to the count for a length. -/
def add (counts : Counts) (length n : Nat) : Counts :=
  counts.insert length (cappedAdd (counts.count length) n)

/-- Adds length by length. -/
def merge (counts more : Counts) : Counts :=
  more.toList.foldl (fun counts (length, n) => counts.add length n) counts

/-- Whether some length on the left and some length on the right have a sum beyond the largest length. -/
def overflows (left right : Counts) : Bool :=
  left.toList.any fun (l, _) => right.toList.any fun (r, _) => lengthCap < l + r

/-- Lengths add and counts multiply. Sums beyond the longest length of interest are left out. This is the
product where lengths do not overflow. -/
def product (longest : Option Nat) (left right : Counts) : Counts :=
  left.toList.foldl (fun counts (l, m) =>
    right.toList.foldl (fun counts (r, n) =>
      if longest.any fun longest => longest < l + r then counts
      else counts.add (l + r) (cappedMul m n)) counts) ∅

end Counts

end IndexedGrammar
