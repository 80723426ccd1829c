import IndexedGrammar.Fault

/-!
# Well-formed rules

Every rule of a grammar has one or two right-hand categories, the empty category only alone, at
most one heir, which needs a stack to inherit, and moves at most one stack symbol, in one direction.
-/

namespace IndexedGrammar.Rule

/-- The first condition that the rule breaks, if there is one. -/
def defect? (r : Rule) : Option Defect :=
  let heirs := (r.rhs.filter Category.hasWildcard).length
  if r.rhs.isEmpty || 2 < r.rhs.length then some (.arity r)
  else if r.lhs.isEpsilon then some (.epsilonExpanded r)
  else if 1 < r.rhs.length && r.rhs.any Category.isEpsilon then some (.epsilonNotAlone r)
  else if 1 < heirs then some (.severalHeirs r)
  else if heirs = 1 && !r.lhs.hasWildcard then some (.orphanHeir r)
  else if 0 < r.popped && 0 < r.pushed then some (.pushesAndPops r)
  else if 1 < r.popped || 1 < r.pushed then some (.movesSeveral r)
  else none

/-- Whether the rule breaks none of the conditions. -/
def WellFormed (r : Rule) : Prop :=
  r.defect? = none

instance (r : Rule) : Decidable r.WellFormed :=
  inferInstanceAs (Decidable (r.defect? = none))

end IndexedGrammar.Rule
