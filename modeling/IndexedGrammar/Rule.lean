import IndexedGrammar.Category

/-!
# Rules

A rule expands one category to a list of categories. A rule whose only right-hand symbol is
the empty category is an epsilon rule. In a schema rule the right-hand category with a wildcard is
the heir: it receives the stack of the left-hand side, with at most one symbol pushed or popped.
-/

namespace IndexedGrammar

/-- What a schema rule does to the stack it receives. -/
inductive StackAction where
  /-- The stack is passed on unchanged, or there is none. -/
  | constant
  /-- A symbol is pushed onto the stack handed to a child. -/
  | push
  /-- A symbol is popped off the stack of the left-hand side. -/
  | pop
deriving DecidableEq

namespace StackAction

/-- The name of an action. -/
def text : StackAction → String
  | constant => "Constant"
  | push => "Push"
  | pop => "Pop"

/-- The place of an action among the three. -/
def index : StackAction → Nat
  | constant => 0
  | push => 1
  | pop => 2

/-- The three actions in order. -/
def all : List StackAction := [constant, push, pop]

end StackAction

/-- A production. A rule of a compiled grammar remembers the schema rule it is an instance of. -/
structure Rule where
  lhs : Category
  rhs : List Category
  /-- The number of the schema rule behind a compiled rule. -/
  origin : Option Nat := none
deriving DecidableEq

namespace Rule

/-- The rule that expands a category to nothing. -/
def epsilon (lhs : Category) : Rule :=
  ⟨lhs, [Category.epsilon], none⟩

/-- Whether the only right-hand symbol is the empty category. -/
def isEpsilon (r : Rule) : Bool :=
  match r.rhs with
  | [c] => c.isEpsilon
  | _ => false

/-- Whether there is one right-hand symbol and it is not the empty category. -/
def isUnary (r : Rule) : Bool :=
  r.rhs.length = 1 && !r.isEpsilon

/-- Whether there are two right-hand symbols. -/
def isBinary (r : Rule) : Bool :=
  r.rhs.length = 2

/-- Whether a wildcard occurs on either side. -/
def isSchema (r : Rule) : Bool :=
  r.lhs.hasWildcard || r.rhs.any Category.hasWildcard

/-- The position of the right-hand category that inherits the stack. -/
def heir? (r : Rule) : Option Nat :=
  r.rhs.findIdx? Category.hasWildcard

/-- How many explicit symbols a category's pattern has; a concrete category has none. -/
def explicitDepth (c : Category) : Nat :=
  match c.pattern? with
  | some p => p.depth
  | none => 0

/-- How many symbols the left-hand side takes off the stack. -/
def popped (r : Rule) : Nat :=
  explicitDepth r.lhs

/-- How many symbols the heir gets on top of the stack. -/
def pushed (r : Rule) : Nat :=
  match r.rhs.find? Category.hasWildcard with
  | some c => explicitDepth c
  | none => 0

/-- What the rule does to the stack. -/
def action (r : Rule) : StackAction :=
  if 0 < r.pushed then .push
  else if 0 < r.popped then .pop
  else .constant

/-- The production alone, without the schema rule behind it. -/
def detached (r : Rule) : Rule :=
  { r with origin := none }

/-- Whether two rules expand the same category to the same symbols. -/
def sameProduction (r s : Rule) : Bool :=
  r.lhs = s.lhs && r.rhs = s.rhs

/-- Renames every category of the rule. -/
def renamed (names : String → String) (r : Rule) : Rule :=
  { r with lhs := r.lhs.renamed names, rhs := r.rhs.map (·.renamed names) }

/-- The left-hand side, an arrow and the right-hand symbols; an epsilon rule shows none. -/
def text (r : Rule) : String :=
  r.lhs.text ++ " ->" ++
    if r.isEpsilon then "" else String.join (r.rhs.map fun c => " " ++ c.text)

end Rule

end IndexedGrammar
