import IndexedGrammar.Grammar.Basic
import IndexedGrammar.Saturation

/-!
# Nullable categories

A category is nullable if it can be expanded to nothing: by an epsilon rule, or by a rule whose
right-hand symbols are all nullable.
-/

namespace IndexedGrammar

/-- Whether a rule expands its left-hand side to nothing, given the categories known to. -/
def Rule.isNullableFor (known : CategorySet) (r : Rule) : Bool :=
  r.isEpsilon || r.rhs.all known.contains

namespace Grammar

/-- Adds the left-hand side of every live rule that is nullable by now. -/
def nullablePass (g : Grammar) (known : CategorySet) : CategorySet :=
  g.rules.foldl (fun known (_, r) => if r.isNullableFor known then known.insert r.lhs else known)
    known

/-- The categories that can be expanded to nothing by live rules. -/
def nullables (g : Grammar) : CategorySet :=
  saturate g.nullablePass (g.rules.length + 1) ∅

end Grammar

end IndexedGrammar
