import IndexedGrammar.Grammar.Basic

/-!
# Unproductive rules

A rule that mentions a category without rules of its own can never be completed. Taking such rules
out can leave further categories without rules, so it is repeated until nothing changes.
-/

namespace IndexedGrammar.Grammar

/-- The numbers of the live rules that mention a category without rules. -/
def unproductive (g : Grammar) : List Nat :=
  let defined := g.leftHandSides
  (g.rules.filter fun (_, r) =>
    r.rhs.any fun c => g.isNonterminal c && !defined.contains c).map Prod.fst

/-- Takes unproductive rules out of use, at most `rounds` times over. -/
def pruneUnproductiveWithin (g : Grammar) : Nat → List Nat × Grammar
  | 0 => ([], g)
  | rounds + 1 =>
    let doomed := g.unproductive
    if doomed.isEmpty then ([], g)
    else
      let (later, pruned) := (g.removeAll doomed).pruneUnproductiveWithin rounds
      (doomed ++ later, pruned)

/-- Takes rules out of use that mention a category without rules, until there are none. Also gives
their numbers in the order of removal. Every round but the last removes a rule. -/
def pruneUnproductive (g : Grammar) : List Nat × Grammar :=
  g.pruneUnproductiveWithin (g.rules.length + 1)

end IndexedGrammar.Grammar
