import IndexedGrammar.StackPattern
import Std.Data.ExtTreeMap
import Std.Data.ExtTreeSet

/-!
# Categories

A category is a name with a stack text beside it. Two categories are the same when both texts
are, and categories are ordered by name and then by stack. A category whose stack holds a wildcard
is a schema category; all others are concrete.
-/

namespace IndexedGrammar

/-- A grammar symbol with its stack text. -/
structure Category where
  name : String
  stack : String
deriving DecidableEq

namespace Category

/-- By name, then by stack text. -/
instance : Ord Category where
  compare := compareLex (compareOn Category.name) (compareOn Category.stack)

instance : Std.TransOrd Category :=
  inferInstanceAs (Std.TransCmp (compareLex (compareOn Category.name) (compareOn Category.stack)))

instance : Std.LawfulEqOrd Category where
  eq_of_compare {a b} h := by
    have h : compareLex (compareOn Category.name) (compareOn Category.stack) a b = .eq := h
    rw [compareLex_eq_eq] at h
    obtain ⟨hname, hstack⟩ := h
    cases a
    cases b
    simp only [compareOn] at hname hstack
    rw [Std.LawfulEqOrd.eq_of_compare hname, Std.LawfulEqOrd.eq_of_compare hstack]

/-- The category of a bare name. -/
def bare (name : String) : Category := ⟨name, ""⟩

/-- The reserved name of the empty category. -/
def epsilonName : String := "Epsilon"

/-- The empty category, written as the only right-hand symbol of an epsilon rule. -/
def epsilon : Category := bare epsilonName

/-- Whether this is the empty category. -/
def isEpsilon (c : Category) : Bool :=
  c.name = epsilonName && c.stack.isEmpty

/-- Whether the stack holds a wildcard. -/
def hasWildcard (c : Category) : Bool :=
  c.stack.toList.contains Stack.wildcard

/-- Whether nothing is written on the stack. -/
def isStackEmpty (c : Category) : Bool :=
  c.stack.isEmpty

/-- The same symbol without its stack. -/
def base (c : Category) : Category :=
  bare c.name

/-- The pattern of a schema category; a concrete category has none. -/
def pattern? (c : Category) : Option StackPattern :=
  StackPattern.parse c.stack

/-- How many concrete symbols the stack holds, a wildcard not counted. -/
def depth (c : Category) : Nat :=
  match c.pattern? with
  | some p => p.depth
  | none => (Stack.symbols c.stack).length

/-- Renames the category and every symbol on its stack. -/
def renamed (names : String → String) (c : Category) : Category where
  name := names c.name
  stack :=
    match c.pattern? with
    | some p => (p.renamed names).text
    | none => Stack.rename names (Stack.segments c.stack)

/-- The name, followed by the stack in brackets unless it is empty. -/
def text (c : Category) : String :=
  if c.stack.isEmpty then c.name else c.name ++ "[" ++ c.stack ++ "]"

end Category

/-- A category with the depth it was written with. Renaming keeps that depth, whatever the new names
look like. -/
structure CountedCategory where
  category : Category
  depth : Nat
deriving DecidableEq

/-- A category with the depth of its own stack. -/
def Category.counted (c : Category) : CountedCategory :=
  ⟨c, c.depth⟩

/-- Renames the category and keeps the depth. -/
def CountedCategory.renamed (names : String → String) (counted : CountedCategory) :
    CountedCategory :=
  ⟨counted.category.renamed names, counted.depth⟩

/-- A finite set of categories. -/
abbrev CategorySet := Std.ExtTreeSet Category

end IndexedGrammar
