/-!
# Settings

The knobs shared by compilation, parsing and counting.
-/

namespace IndexedGrammar

/-- Knobs with their usual values. -/
structure Settings where
  /-- The name of the start category. -/
  start : String := "START"
  /-- The name of the synthetic category above the start category. -/
  gamma : String := "Gamma"
  /-- How many symbols a filled-in stack may have. -/
  maxStackDepth : Nat := 3
  /-- How many nonterminals a rule space has. -/
  maxNonterminals : Nat := 4
  /-- How much work a chart column may take before a parse is given up. -/
  maxStatesPerColumn : Nat := 100000
  /-- How tall a derivation may be to be counted. -/
  countDepth : Nat := 8
deriving DecidableEq

end IndexedGrammar
