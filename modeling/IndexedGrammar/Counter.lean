import IndexedGrammar.Counts
import IndexedGrammar.Grammar.Basic

/-!
# Counting derivations

A counter counts the derivations of a grammar by the length of the sentence, no taller than a
bound. A part of speech and the empty category have height 0, and every rule adds one level.

What was counted is kept by bound. What was counted for another bound answers as well if nothing
was cut off there and the tallest derivation counted fits the bound asked for.

A counter notes when lengths overflow. There is no answer then, and what it counts afterwards does not
matter.
-/

namespace IndexedGrammar

/-- What was counted for a bound. -/
structure CountEntry where
  counts : Counts
  /-- Whether some derivation was cut off by the bound. -/
  truncated : Bool
  /-- The height of the tallest derivation counted. -/
  height : Nat

namespace CountEntry

/-- The one derivation of height 0, of a given length. -/
def flat (length : Nat) : CountEntry := ⟨Counts.single length, false, 0⟩

/-- Whether the entry, counted for any bound, holds for this one. -/
def answers (entry : CountEntry) (depth : Nat) : Bool :=
  !entry.truncated && entry.height ≤ depth

/-- Adds the derivations by one more rule. -/
def merge (total entry : CountEntry) : CountEntry :=
  ⟨total.counts.merge entry.counts, total.truncated || entry.truncated,
    if entry.counts.isEmpty then total.height else max total.height entry.height⟩

/-- Puts the derivations of the next right-hand category behind those of the ones before. -/
def append (longest : Option Nat) (front entry : CountEntry) : CountEntry :=
  ⟨front.counts.product longest entry.counts, front.truncated || entry.truncated,
    max front.height entry.height⟩

/-- What is counted for a rule, given what is counted for its right-hand categories together. -/
def raise (entry : CountEntry) : CountEntry :=
  { entry with height := entry.height + 1 }

end CountEntry

/-- What was counted, by bound. -/
abbrev CountCache := Std.ExtTreeMap Nat CountEntry

/-- The entry for a bound, or else that of the least bound which answers for it. -/
def CountCache.find (cache : CountCache) (depth : Nat) : Option CountEntry :=
  match cache[depth]? with
  | some entry => some entry
  | none => (cache.toList.find? fun (_, entry) => entry.answers depth).map Prod.snd

/-- Counts derivations and keeps what it counted. -/
structure Counter where
  /-- Sentences longer than this do not count. -/
  longest : Option Nat
  categories : Std.ExtTreeMap Category CountCache
  rules : Std.ExtTreeMap Nat CountCache
  /-- How often something kept was used. -/
  hits : Nat
  /-- Whether lengths have overflowed. -/
  overflowed : Bool

namespace Counter

/-- The counter that has counted nothing. -/
def new (longest : Option Nat) : Counter := ⟨longest, ∅, ∅, 0, false⟩

/-- Notes that something kept was used. -/
def hit (counter : Counter) : Counter :=
  { counter with hits := counter.hits + 1 }

/-- Notes an overflow of lengths, if there was one. -/
def note (counter : Counter) (overflow : Bool) : Counter :=
  { counter with overflowed := counter.overflowed || overflow }

/-- Keeps what was counted for a category. -/
def keepCategory (counter : Counter) (category : Category) (depth : Nat) (entry : CountEntry) :
    Counter :=
  { counter with
    categories := counter.categories.insert category
      ((counter.categories.getD category ∅).insert depth entry) }

/-- Keeps what was counted for a rule. -/
def keepRule (counter : Counter) (rule depth : Nat) (entry : CountEntry) : Counter :=
  { counter with
    rules := counter.rules.insert rule ((counter.rules.getD rule ∅).insert depth entry) }

/-- Counts something unless it is kept. -/
def keptOrCount (counter : Counter) (cache : CountCache) (depth : Nat)
    (count : Counter → CountEntry × Counter) : CountEntry × Counter :=
  match cache.find depth with
  | some entry => (entry, counter.hit)
  | none => count counter

/-- Counts the derivations that begin with a rule, given how its right-hand categories are counted
one level below. -/
def ruleEntry (below : Category → Counter → CountEntry × Counter) (depth id : Nat) (rule : Rule)
    (counter : Counter) : CountEntry × Counter :=
  counter.keptOrCount (counter.rules.getD id ∅) depth fun counter =>
    let (entry, counter) := rule.rhs.foldl (fun (front, counter) child =>
      let (entry, counter) := below child counter
      (CountEntry.append counter.longest front entry, counter.note (front.counts.overflows entry.counts)))
        (CountEntry.flat 0, counter)
    (entry.raise, counter.keepRule id depth entry.raise)

/-- Counts the derivations of a category. -/
def categoryEntry (g : Grammar) : Nat → Category → Counter → CountEntry × Counter
  | depth, category, counter =>
    if category.isEpsilon then (CountEntry.flat 0, counter)
    else if g.isPartOfSpeech category then (CountEntry.flat 1, counter)
    else counter.keptOrCount (counter.categories.getD category ∅) depth fun counter =>
      let (entry, counter) : CountEntry × Counter := match depth with
        | 0 => (⟨∅, !(g.rulesFor category).isEmpty, 0⟩, counter)
        | below + 1 => (g.rulesFor category).foldl (fun (total, counter) (id, rule) =>
            let (entry, counter) := ruleEntry (categoryEntry g below) (below + 1) id rule counter
            (CountEntry.merge total entry, counter)) (⟨∅, false, 0⟩, counter)
      (entry, counter.keepCategory category depth entry)

/-- What a count comes to: there is no answer if lengths have overflowed. -/
def answer (result : CountEntry × Counter) : Except Breach (Counts × Counter) :=
  if result.2.overflowed then .error .lengthOverflow else .ok (result.1.counts, result.2)

/-- Counts the derivations of a category no taller than a bound. -/
def countCategory (g : Grammar) (category : Category) (depth : Nat) (counter : Counter) :
    Except Breach (Counts × Counter) :=
  answer (categoryEntry g depth category counter)

/-- Counts the derivations of the start category no taller than a bound. -/
def countStart (g : Grammar) (depth : Nat) (counter : Counter) : Except Breach (Counts × Counter) :=
  counter.countCategory g g.start depth

/-- Counts the derivations that begin with a rule; no taller than 0 there are none. -/
def entryForRule (g : Grammar) (id : Nat) (rule : Rule) : Nat → Counter → CountEntry × Counter
  | 0, counter => counter.keptOrCount (counter.rules.getD id ∅) 0 fun counter =>
    (⟨∅, true, 0⟩, counter.keepRule id 0 ⟨∅, true, 0⟩)
  | below + 1, counter => ruleEntry (categoryEntry g below) (below + 1) id rule counter

/-- Counts the derivations that begin with a rule, no taller than a bound. -/
def countRule (g : Grammar) (id depth : Nat) (counter : Counter) :
    Except Breach (Counts × Counter) :=
  match g.rule? id with
  | none => .error .indexOutOfBounds
  | some rule => answer (entryForRule g id rule depth counter)

end Counter

/-- The number of derivations of the start category no taller than a bound, by sentence length, unless lengths
overflow. -/
def countDerivations? (g : Grammar) (depth : Nat) (longest : Option Nat) : Except Breach Counts :=
  ((Counter.new longest).countStart g depth).map Prod.fst

/-- The number of derivations of the start category no taller than a bound, by sentence length, where lengths
do not overflow. They never do if the longest sentence of interest is one that can be stored. -/
def countDerivations (g : Grammar) (depth : Nat) (longest : Option Nat) : Counts :=
  (Counter.categoryEntry g depth g.start (.new longest)).1.counts

end IndexedGrammar
