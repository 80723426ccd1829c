import IndexedGrammar.RuleSpace

/-!
# Hypotheses

A hypothesis is a set of coordinates of a rule space, and stands for the schema grammar of the
rules there, in the order of coordinates. Two hypotheses can differ in the naming of nonterminals
only; the canonical form numbers nonterminals in the order in which they are reached from the start
category, and the unreachable ones behind them in the order of the rules.
-/

namespace IndexedGrammar

/-- A set of coordinates. -/
structure Hypothesis where
  coordinates : Std.ExtTreeSet Coordinate
deriving DecidableEq

namespace Hypothesis

/-- The hypothesis without rules. -/
def empty : Hypothesis := ⟨∅⟩

/-- The hypothesis of the given coordinates. -/
def ofList (coordinates : List Coordinate) : Hypothesis :=
  ⟨Std.ExtTreeSet.ofList coordinates⟩

/-- The coordinates in order. -/
def toList (h : Hypothesis) : List Coordinate :=
  h.coordinates.toList

/-- Whether a coordinate is in the set. -/
def contains (h : Hypothesis) (place : Coordinate) : Bool :=
  h.coordinates.contains place

/-- Adds a coordinate. -/
def insert (h : Hypothesis) (place : Coordinate) : Hypothesis :=
  ⟨h.coordinates.insert place⟩

/-- Takes a coordinate out. -/
def erase (h : Hypothesis) (place : Coordinate) : Hypothesis :=
  ⟨h.coordinates.erase place⟩

/-- The number of coordinates. -/
def size (h : Hypothesis) : Nat :=
  h.coordinates.size

/-- The coordinates in braces. -/
def text (h : Hypothesis) : String :=
  "\x7b" ++ String.intercalate ", " (h.toList.map Coordinate.text) ++ "\x7d"

/-- The rules at the coordinates, in order. -/
def rules (h : Hypothesis) (space : RuleSpace) : Except Breach (List Rule) :=
  h.toList.mapM space.ruleAt

/-- Adds the rule at a coordinate to a schema grammar. -/
def addTo (space : RuleSpace) (s : Schema) (place : Coordinate) : Except Failure Schema := do
  let rule ← (space.ruleAt place).mapError .breach
  (s.insert rule).mapError .fault

/-- The schema grammar of the rules; a rule's number is the place of its coordinate. The first
coordinate that is out of range or has a malformed rule tells what is wrong. -/
def toSchema (h : Hypothesis) (space : RuleSpace) : Except Failure Schema :=
  h.toList.foldlM (addTo space) .empty

/-- Adds the categories that are not yet there. -/
def addMissing (known new : List Category) : List Category :=
  new.foldl (fun known x => if x ∈ known then known else known ++ [x]) known

/-- The nonterminals in the order in which rules mention them on their right-hand sides, beginning
with the rules of the queued categories. Every category queued after the first is a nonterminal
that was not known, which bounds the number of steps. -/
def reach (space : RuleSpace) (rules : List Rule) :
    Nat → List Category → List Category → List Category
  | 0, known, _ => known
  | _ + 1, known, [] => known
  | steps + 1, known, lhs :: queue =>
    let more := addMissing known ((rules.filter fun r => r.lhs.name = lhs.name).flatMap fun r =>
      r.rhs.flatMap space.mentioned)
    reach space rules steps more (queue ++ more.drop known.length)

/-- The nonterminals in canonical order. -/
def order (space : RuleSpace) (rules : List Rule) : List Category :=
  addMissing (reach space rules (space.nonterminals.length + 1) [] [space.start])
    (rules.flatMap fun r => (r.lhs :: r.rhs).flatMap space.mentioned)

/-- The renaming of some categories, in order, into others. -/
def renameInOrder (old new : List Category) (name : String) : String :=
  match (old.zip new).find? fun (before, _) => before.name = name with
  | some (_, after) => after.name
  | none => name

/-- The hypothesis with its nonterminals named in canonical order. -/
def canonicalize (h : Hypothesis) (space : RuleSpace) : Except Breach Hypothesis := do
  let rules ← h.rules space
  let names := renameInOrder (order space rules) space.nonterminals
  let coordinates ← rules.mapM fun rule =>
    match space.find? (rule.renamed names) with
    | some place => .ok place
    | none => .error .notClosedUnderRenaming
  return ofList coordinates

end Hypothesis

end IndexedGrammar
