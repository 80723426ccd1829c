import IndexedGrammar.Schema
import IndexedGrammar.Settings

/-!
# Rule spaces

A rule space holds every schema rule that a hypothesis can consist of, over fixed symbols: the
parts of speech and the nonterminals `X1`, `X2` and so on. There is one block of rows for each
action and each nonterminal `x`, in which `a` and `b` run over the symbols and `y` over the
nonterminals.

* constant: `start -> x`, then `x[*] -> a`, then `x[*] -> a b`; a nonterminal standing alone, or
  else the last one, inherits the stack
* push: `x[*] -> a y[*a]`
* pop: `x[*a] -> Epsilon`, then `x[*a] -> y[*]`

A rule's coordinate is its action, the number of its nonterminal, and its row.
-/

namespace IndexedGrammar

/-- Where a rule is in a rule space. -/
structure Coordinate where
  action : StackAction
  /-- The number of the nonterminal. -/
  block : Nat
  row : Nat
deriving DecidableEq

namespace Coordinate

/-- By action, then by nonterminal, then by row. -/
instance : Ord Coordinate where
  compare := compareLex (compareOn fun place => place.action.index)
    (compareLex (compareOn block) (compareOn row))

instance : Std.TransOrd Coordinate :=
  inferInstanceAs (Std.TransCmp (compareLex (compareOn fun place => StackAction.index place.action)
    (compareLex (compareOn block) (compareOn row))))

instance : Std.LawfulEqOrd Coordinate where
  eq_of_compare {a b} h := by
    have h : compareLex (compareOn fun place => StackAction.index place.action)
      (compareLex (compareOn block) (compareOn row)) a b = .eq := h
    rw [compareLex_eq_eq, compareLex_eq_eq] at h
    obtain ⟨haction, hblock, hrow⟩ := h
    obtain ⟨action, block, row⟩ := a
    obtain ⟨action', block', row'⟩ := b
    simp only [compareOn] at haction hblock hrow
    rw [Std.LawfulEqOrd.eq_of_compare hblock, Std.LawfulEqOrd.eq_of_compare hrow]
    have haction := Std.LawfulEqOrd.eq_of_compare haction
    cases action <;> cases action' <;> simp_all [StackAction.index]

/-- The action, the nonterminal's number and the row, with colons between them. -/
def text (place : Coordinate) : String :=
  place.action.text ++ ":" ++ toString place.block ++ ":" ++ toString place.row

end Coordinate

/-- Every rule over fixed symbols. -/
structure RuleSpace where
  start : Category
  /-- The parts of speech in order, then the nonterminals. -/
  symbols : List Category
  nonterminals : List Category
deriving DecidableEq

namespace RuleSpace

/-- The nonterminal of a number, counted from 1. -/
def nonterminal (number : Nat) : Category :=
  Category.bare ("X" ++ toString number)

/-- The rule space over some parts of speech and as many nonterminals as the settings say. -/
def new (partsOfSpeech : Std.ExtTreeSet String) (settings : Settings) : RuleSpace :=
  let nonterminals := (List.range settings.maxNonterminals).map fun i => nonterminal (i + 1)
  let leaves := partsOfSpeech.toList.map Category.bare
  ⟨Category.bare settings.start, leaves ++ nonterminals, nonterminals⟩

variable (space : RuleSpace)

/-- Whether a category is one of the nonterminals. -/
def isNonterminal (c : Category) : Bool :=
  space.nonterminals.contains c

/-- A category that inherits the whole stack. -/
def inheriting (c : Category) : Category :=
  ⟨c.name, "*"⟩

/-- A category that inherits the stack with a symbol on top of it. -/
def topped (c symbol : Category) : Category :=
  ⟨c.name, "*" ++ symbol.name⟩

/-- A single right-hand symbol. -/
def single (a : Category) : List Category :=
  [if space.isNonterminal a then inheriting a else a]

/-- Two right-hand symbols, of which the last nonterminal inherits the stack. -/
def pair (a b : Category) : List Category :=
  if space.isNonterminal b then [a, inheriting b]
  else if space.isNonterminal a then [inheriting a, b]
  else [a, b]

/-- The rules of a nonterminal that leave the stack as it is. -/
def constantRows (x : Category) : List Rule :=
  ⟨space.start, [x], none⟩ ::
    (space.symbols.map fun a => ⟨inheriting x, space.single a, none⟩) ++
    space.symbols.flatMap fun a => space.symbols.map fun b => ⟨inheriting x, space.pair a b, none⟩

/-- The rules of a nonterminal that push a symbol. -/
def pushRows (x : Category) : List Rule :=
  space.symbols.flatMap fun a =>
    space.nonterminals.map fun y => ⟨inheriting x, [a, topped y a], none⟩

/-- The rules of a nonterminal that pop a symbol. -/
def popRows (x : Category) : List Rule :=
  (space.symbols.map fun a => Rule.epsilon (topped x a)) ++
    space.symbols.flatMap fun a =>
      space.nonterminals.map fun y => ⟨topped x a, [inheriting y], none⟩

/-- The rows of a block. -/
def rows (action : StackAction) (x : Category) : List Rule :=
  match action with
  | .constant => space.constantRows x
  | .push => space.pushRows x
  | .pop => space.popRows x

/-- The rule at a coordinate. -/
def get? (place : Coordinate) : Option Rule :=
  space.nonterminals[place.block]?.bind fun x => (space.rows place.action x)[place.row]?

/-- The rule at a coordinate that has to be in the space. -/
def ruleAt (place : Coordinate) : Except Breach Rule :=
  match space.get? place with
  | some rule => .ok rule
  | none => .error .indexOutOfBounds

/-- How many rows a block has; a nonterminal that is not there has none. -/
def rowCount (action : StackAction) (block : Nat) : Nat :=
  match space.nonterminals[block]? with
  | some x => (space.rows action x).length
  | none => 0

/-- All rules with their coordinates, in order. -/
def entries : List (Coordinate × Rule) :=
  StackAction.all.flatMap fun action =>
    space.nonterminals.zipIdx.flatMap fun (x, block) =>
      (space.rows action x).zipIdx.map fun (rule, row) => (⟨action, block, row⟩, rule)

/-- All coordinates, in order. -/
def coordinates : List Coordinate :=
  space.entries.map Prod.fst

/-- The number of rules. -/
def size : Nat :=
  space.entries.length

/-- The last coordinate at which a rule with these categories is. -/
def find? (rule : Rule) : Option Coordinate :=
  (space.entries.reverse.find? fun (_, r) => r.sameProduction rule).map Prod.fst

/-- The nonterminals a category names: itself, then its stack symbols. -/
def mentioned (c : Category) : List Category :=
  let names := c.name :: (Stack.pieces (c.stack.toList.map fun ch =>
    if ch = Stack.wildcard then Stack.separator else ch)).map String.ofList
  names.filterMap fun name => space.nonterminals.find? fun x => x.name = name

end RuleSpace

end IndexedGrammar
