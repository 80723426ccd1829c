import IndexedGrammar.Index
import IndexedGrammar.Rule.WellFormed

/-!
# Compiled grammars

A compiled grammar holds rules without wildcards. A rule's number is the place at which it was
inserted. Removing a rule keeps its number, so that it can be restored; only the latest rule can
be retracted, which gives its number back. Rule 0 is the synthetic rule above the start category:
it is never removed, and it is left out of the listings.

The rules of a category are found through an index that holds the numbers of its live rules in
ascending order.
-/

namespace IndexedGrammar

/-- A rule of a grammar, and whether it is in use. -/
structure Slot where
  rule : Rule
  live : Bool
deriving DecidableEq

/-- Rules without wildcards over a set of parts of speech. -/
structure Grammar where
  /-- The category every sentence belongs to. -/
  start : Category
  /-- The names that words can have as their category. -/
  partsOfSpeech : Std.ExtTreeSet String
  /-- The rules in the order of their numbers. -/
  slots : Array Slot
  /-- The numbers of a left-hand side's live rules. -/
  byLhs : Index Category
  /-- The categories whose rules have been worked out. -/
  expanded : CategorySet
deriving DecidableEq

namespace Grammar

/-- The number of the synthetic rule. -/
def rootId : Nat := 0

/-- The number the next rule gets. -/
def size (g : Grammar) : Nat :=
  g.slots.size

/-- Adds a rule under the next number. -/
def insert (g : Grammar) (r : Rule) : Grammar :=
  { g with slots := g.slots.push ⟨r, true⟩, byLhs := g.byLhs.push r.lhs g.size }

/-- The grammar that holds only the synthetic rule, which expands the category named `root` to
the start category. -/
def new (start : Category) (root : String) (partsOfSpeech : Std.ExtTreeSet String) : Grammar :=
  insert ⟨start, partsOfSpeech, #[], ∅, ∅⟩ ⟨Category.bare root, [start], none⟩

/-- Any rule that was inserted and not retracted, live or removed. -/
def rule? (g : Grammar) (id : Nat) : Option Rule :=
  g.slots[id]?.map Slot.rule

/-- The synthetic rule. -/
def rootRule? (g : Grammar) : Option Rule :=
  g.rule? rootId

/-- Whether a rule is in use. -/
def isLive (g : Grammar) (id : Nat) : Bool :=
  match g.slots[id]? with
  | some slot => slot.live
  | none => false

/-- Whether a category is a part of speech, which carries no stack. -/
def isPartOfSpeech (g : Grammar) (c : Category) : Bool :=
  c.isStackEmpty && g.partsOfSpeech.contains c.name

/-- Whether a category can have rules. -/
def isNonterminal (g : Grammar) (c : Category) : Bool :=
  !c.isEpsilon && !g.isPartOfSpeech c

/-- Sets whether a rule is in use. -/
def mark (g : Grammar) (id : Nat) (live : Bool) : Grammar :=
  { g with slots := g.slots.modify id fun slot => { slot with live := live } }

/-- Takes a rule out of use. The synthetic rule and a rule not in use are refused. -/
def remove? (g : Grammar) (id : Nat) : Option Grammar :=
  match g.rule? id with
  | none => none
  | some r =>
    if id = rootId || !g.isLive id then none
    else some { g.mark id false with
      byLhs := g.byLhs.put r.lhs ((g.byLhs.ids r.lhs).filter (· ≠ id)) }

/-- Puts a removed rule back into use; it takes its old place among the rules of its category. -/
def restore? (g : Grammar) (id : Nat) : Option Grammar :=
  match g.rule? id with
  | none => none
  | some r =>
    if g.isLive id then none
    else
      let ids := g.byLhs.ids r.lhs
      some { g.mark id true with
        byLhs := g.byLhs.put r.lhs (ids.takeWhile (· < id) ++ id :: ids.dropWhile (· < id)) }

/-- Undoes the latest insertion. -/
def retract (g : Grammar) (id : Nat) : Except Breach Grammar :=
  if id + 1 ≠ g.size then .error .notLatestRule
  else
    let removed := (g.remove? id).getD g
    .ok { removed with slots := removed.slots.pop }

/-- All rules ever inserted and not retracted, with their numbers. -/
def numbered (g : Grammar) : List (Nat × Slot) :=
  g.slots.toList.zipIdx.map fun (slot, id) => (id, slot)

/-- The live rules with their numbers, without the synthetic one. -/
def rules (g : Grammar) : List (Nat × Rule) :=
  g.numbered.filterMap fun (id, slot) =>
    if id ≠ rootId && slot.live then some (id, slot.rule) else none

/-- The live rules of a category with their numbers. -/
def rulesFor (g : Grammar) (lhs : Category) : List (Nat × Rule) :=
  (g.byLhs.ids lhs).filterMap fun id => (g.rule? id).map fun r => (id, r)

/-- Whether every number filed under a category is that of a rule. Retracting the synthetic rule
leaves its number behind. -/
def knowsRulesFor (g : Grammar) (lhs : Category) : Bool :=
  (g.byLhs.ids lhs).all fun id => (g.rule? id).isSome

/-- Whether a live rule expands this category to these symbols. -/
def containsProduction (g : Grammar) (lhs : Category) (rhs : List Category) : Bool :=
  (g.rulesFor lhs).any fun (_, r) => r.rhs = rhs

/-- Notes that a category's rules have been worked out. -/
def markExpanded (g : Grammar) (c : Category) : Grammar :=
  { g with expanded := g.expanded.insert c }

/-- The categories with a live rule. -/
def leftHandSides (g : Grammar) : CategorySet :=
  Std.ExtTreeSet.ofList (g.rules.map fun (_, r) => r.lhs)

/-- Takes rules out of use, one after the other. -/
def removeAll (g : Grammar) (ids : List Nat) : Grammar :=
  ids.foldl (fun g id => (g.remove? id).getD g) g

/-- Takes every rule out of use that is not to be kept. Also gives the numbers of those rules. -/
def prune (g : Grammar) (keep : Rule → Bool) : List Nat × Grammar :=
  let doomed := (g.rules.filter fun (_, r) => !keep r).map Prod.fst
  (doomed, g.removeAll doomed)

/-- The start category, the parts of speech, and one live rule a line. -/
def text (g : Grammar) : String :=
  "# start: " ++ g.start.text ++ "\n# parts of speech:" ++
    String.join (g.partsOfSpeech.toList.map fun name => " " ++ name) ++ "\n" ++
    String.join (g.rules.map fun (_, r) => r.text ++ "\n")

/-- What stands behind a dot in a rule. -/
inductive Ahead where
  /-- There is no rule of that number. -/
  | unknown
  /-- Nothing: the rule is complete, and its left-hand side is found. -/
  | complete (lhs : Category)
  /-- The next symbol to be found. -/
  | expects (symbol : Category)
deriving DecidableEq

/-- What stands behind a dot in a rule. -/
def ahead (g : Grammar) (rule dot : Nat) : Ahead :=
  match g.rule? rule with
  | none => .unknown
  | some r =>
    match r.rhs[dot]? with
    | none => .complete r.lhs
    | some symbol => .expects symbol

end Grammar

end IndexedGrammar
