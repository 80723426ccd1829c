import IndexedGrammar.Forest.Basic

/-!
# Which rules a forest uses

A rule is used once for every way of making up a node with it, however many trees go through it.
-/

namespace IndexedGrammar

/-- How often rules are used, by their numbers. -/
abbrev Usage := Std.ExtTreeMap Nat Nat

/-- Counts more uses of a rule. -/
def Usage.add (usage : Usage) (rule n : Nat) : Usage :=
  usage.insert rule (usage.getD rule 0 + n)

/-- Adds rule by rule. -/
def Usage.merge (usage more : Usage) : Usage :=
  more.toList.foldl (fun usage (rule, n) => usage.add rule n) usage

namespace Forest

/-- The ways of making up all nodes. A forest holds no nodes but those that its roots lead to. -/
def packed (f : Forest) : List Packed :=
  f.nodes.toList.flatMap Node.alternatives

/-- How many ways of making up a node use each rule. -/
def ruleUsage (f : Forest) : Usage :=
  f.packed.foldl (fun usage packed => usage.add packed.rule 1) ∅

/-- How many ways of making up a node use an instance of each schema rule. -/
def schemaUsage (f : Forest) : Usage :=
  f.packed.foldl (fun usage packed =>
    match packed.origin with
    | some origin => usage.add origin 1
    | none => usage) ∅

end Forest

end IndexedGrammar
