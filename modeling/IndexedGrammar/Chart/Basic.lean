import IndexedGrammar.Grammar.Basic
import IndexedGrammar.Lexicon
import IndexedGrammar.Settings

/-!
# Charts

A chart has one column for every position between words. Its states are rules with a dot, found
between the column where the rule was begun and the column they end at. Each state keeps every way
in which it was derived: from which state the dot was moved, and over which completed state. States
refer to each other by their number in the chart, and to the states derived through them as their
parents.

A column finds its states by item, the states that wait there for a category, and the completed
states that begin there. A state taken out of the chart is only flagged until the chart is
compacted.
-/

namespace IndexedGrammar

/-- A rule with a dot, begun at a column. -/
structure Item where
  rule : Nat
  dot : Nat
  origin : Nat
deriving DecidableEq

namespace Item

/-- By rule, then by dot, then by origin. -/
def order : Item → Item → Ordering :=
  compareLex (compareOn rule) (compareLex (compareOn dot) (compareOn origin))

instance : Ord Item := ⟨order⟩

instance : Std.TransOrd Item :=
  inferInstanceAs (Std.TransCmp
    (compareLex (compareOn rule) (compareLex (compareOn dot) (compareOn origin))))

instance : Std.LawfulEqOrd Item where
  eq_of_compare {a b} h := by
    have h : compareLex (compareOn rule)
      (compareLex (compareOn dot) (compareOn origin)) a b = .eq := h
    rw [compareLex_eq_eq, compareLex_eq_eq] at h
    obtain ⟨hrule, hdot, horigin⟩ := h
    cases a
    cases b
    simp only [compareOn] at hrule hdot horigin
    rw [Std.LawfulEqOrd.eq_of_compare hrule, Std.LawfulEqOrd.eq_of_compare hdot,
      Std.LawfulEqOrd.eq_of_compare horigin]

/-- The item with its dot behind the next symbol. -/
def advance (item : Item) : Item :=
  { item with dot := item.dot + 1 }

end Item

/-- One way in which a state was derived. Moving the dot over a word or over nothing completes no
state, and a prediction moves no dot. -/
structure Derivation where
  /-- The state whose dot was moved. -/
  predecessor : Option Nat
  /-- The completed state the dot was moved over. -/
  reductor : Option Nat
deriving DecidableEq

namespace Derivation

/-- The derivation of a state that was predicted. -/
def predicted : Derivation := ⟨none, none⟩

/-- The states a derivation goes through. -/
def links (d : Derivation) : List Nat :=
  d.predecessor.toList ++ d.reductor.toList

end Derivation

/-- An item found up to a column. -/
structure State where
  item : Item
  /-- The column the item was found up to. -/
  stop : Nat
  /-- The ways in which the state was derived, oldest first. -/
  derivations : List Derivation
  /-- The states with a derivation through this one, once for each link. -/
  parents : List Nat
  /-- Whether the state was taken out of the chart. -/
  removed : Bool
deriving DecidableEq

/-- What a chart knows at one position. -/
structure Column where
  /-- The states that end here, oldest first, those taken out included. -/
  states : Array Nat
  /-- The state of each item that ends here. -/
  lookup : Std.ExtTreeMap Item Nat
  /-- The states that end here, by the category behind their dot. -/
  expecting : Index Category
  /-- The completed states that begin here, by their left-hand side. -/
  reductors : Index Category
  /-- The categories whose rules were begun here. -/
  predicted : CategorySet
deriving DecidableEq

/-- The column at which nothing is known. -/
def Column.empty : Column := ⟨#[], ∅, ∅, ∅, ∅⟩

/-- How many columns there are, and at which of them a sentence may end. -/
inductive Layout where
  /-- A sentence of this many words. -/
  | sentence (length : Nat)
  /-- Every length up to this one. -/
  | upTo (length : Nat)
deriving DecidableEq

namespace Layout

/-- The number of the last column. -/
def last : Layout → Nat
  | sentence length => length
  | upTo length => length

/-- Whether a sentence may end at a column. -/
def isFinal : Layout → Nat → Bool
  | sentence length, k => k = length
  | upTo length, k => k ≤ length

end Layout

/-- A word with the categories it can have. -/
structure Token where
  word : String
  categories : List Category
deriving DecidableEq

/-- Which parts of speech can be found at a position. -/
inductive Input where
  /-- Those of the word at that position. -/
  | tokens (tokens : Array Token)
  /-- All of them. -/
  | anything
deriving DecidableEq

/-- Whether a part of speech can be found at a position. -/
def Input.allows (input : Input) (k : Nat) (category : Category) : Bool :=
  match input with
  | .anything => true
  | .tokens sentence =>
    match sentence[k]? with
    | some token => token.categories.contains category
    | none => false

/-- The states found, and how to find them. -/
structure Chart where
  states : Array State
  columns : Array Column
  /-- The states on each rule, oldest first, those taken out included. -/
  byRule : Index Nat
  layout : Layout
  input : Input
deriving DecidableEq

namespace Chart

/-- The chart in which nothing has been found. -/
def new (layout : Layout) (input : Input) : Chart :=
  ⟨#[], .replicate (layout.last + 1) .empty, ∅, layout, input⟩

/-- The chart for a sentence, in which a word can have the categories its lexicon gives it. -/
def forSentence (lexicon : Lexicon) (words : List String) : Chart :=
  new (.sentence words.length)
    (.tokens (words.map fun word => ⟨word, lexicon.categories word⟩).toArray)

/-- The chart for every list of at most `length` parts of speech. -/
def forGeneration (length : Nat) : Chart :=
  new (.upTo length) .anything

/-- Whether a part of speech can be found at a position. -/
def allows (c : Chart) (k : Nat) (category : Category) : Bool :=
  c.input.allows k category

/-- The word at a position, if the chart is for a sentence. -/
def word? (c : Chart) (k : Nat) : Option String :=
  match c.input with
  | .anything => none
  | .tokens tokens => tokens[k]?.map Token.word

/-- The columns at which a sentence may end. -/
def finalColumns (c : Chart) : List Nat :=
  (List.range c.columns.size).filter c.layout.isFinal

/-- The state of an item that ends at a column. -/
def find? (c : Chart) (item : Item) (stop : Nat) : Option Nat :=
  c.columns[stop]?.bind fun column => column.lookup[item]?

/-- The states that wait at a column for a category. -/
def expecting (c : Chart) (k : Nat) (category : Category) : List Nat :=
  match c.columns[k]? with
  | some column => column.expecting.ids category
  | none => []

/-- The completed states of a category that begin at a column. -/
def reductors (c : Chart) (k : Nat) (category : Category) : List Nat :=
  match c.columns[k]? with
  | some column => column.reductors.ids category
  | none => []

/-- Whether a category's rules were begun at a column. -/
def isPredicted (c : Chart) (k : Nat) (category : Category) : Bool :=
  match c.columns[k]? with
  | some column => column.predicted.contains category
  | none => false

/-- The completed states of a category between two columns. -/
def completed (c : Chart) (lhs : Category) (origin stop : Nat) : List Nat :=
  (c.reductors origin lhs).filter fun id =>
    match c.states[id]? with
    | some state => state.stop = stop
    | none => false

/-- The completed states of a category from the first column to a final one. -/
def acceptedAs (c : Chart) (root : Category) : List Nat :=
  c.finalColumns.flatMap (c.completed root 0)

/-- The completed states of the synthetic rule that stand for whole sentences. -/
def accepted (c : Chart) (g : Grammar) : List Nat :=
  match g.rootRule? with
  | some r => c.acceptedAs r.lhs
  | none => []

/-- Whether some sentence was found. -/
def isParsed (c : Chart) (g : Grammar) : Bool :=
  !(c.accepted g).isEmpty

/-- The states not taken out, as rule, dot, origin and end, in ascending order. -/
def liveStates (c : Chart) : List (Item × Nat) :=
  let live := c.states.toList.filterMap fun state =>
    if state.removed then none else some (state.item, state.stop)
  live.mergeSort fun a b =>
    (compareLex (compareOn Prod.fst) (compareOn Prod.snd) a b).isLE

/-- Whether some state not taken out is on a rule that the grammar does not have. -/
def refersToUnknown (c : Chart) (g : Grammar) : Bool :=
  c.columns.any fun column => column.states.any fun id =>
    match c.states[id]? with
    | some state => !state.removed && (g.rule? state.item.rule).isNone
    | none => false

end Chart

namespace Rule

/-- A rule with a dot in front of the symbol at a position, or at its end. -/
def dottedText (r : Rule) (dot : Nat) : String :=
  r.lhs.text ++ " →" ++
    String.join (r.rhs.zipIdx.map fun (c, index) =>
      (if index = dot then " ・ " else " ") ++ c.text) ++
    (if r.rhs.length ≤ dot then " ・" else "")

end Rule

namespace Chart

/-- The states not taken out, column by column. -/
def text (c : Chart) (g : Grammar) : String :=
  String.join (c.columns.toList.zipIdx.map fun (column, k) =>
    "State " ++ toString k ++ ":\n" ++
      String.join (column.states.toList.filterMap fun id => do
        let state ← c.states[id]?
        let r ← g.rule? state.item.rule
        if state.removed then none
        else some ("  " ++ toString state.item.origin ++ ".." ++ toString k ++ ": " ++
          r.dottedText state.item.dot ++ "\n")))

end Chart

end IndexedGrammar
