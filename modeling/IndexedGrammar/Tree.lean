import IndexedGrammar.Text.Blank

/-!
# Trees

A tree has a value and a stretch of the sentence at every node; its leaves are words. The short
form is bracketed on one line, and the long form shows stretches and gives each child lines of its
own, indented.
-/

namespace IndexedGrammar

/-- A stretch of a sentence, between two positions. -/
structure Span where
  start : Nat
  stop : Nat
deriving DecidableEq

/-- A stretch with the value that stands there. -/
def Span.label (span : Span) (value : String) : String :=
  toString span.start ++ ".." ++ toString span.stop ++ ": " ++ value

/-- A tree with inner values in `α` and leaves in `β`. -/
inductive Tree (α β : Type) where
  | leaf (value : β) (span : Span)
  | branch (value : α) (span : Span) (children : List (Tree α β))

namespace Tree

variable {α β γ δ : Type}

/-- Whether the tree is a single word. -/
def isLeaf : Tree α β → Bool
  | leaf _ _ => true
  | branch _ _ _ => false

/-- The stretch the tree covers. -/
def span : Tree α β → Span
  | leaf _ span => span
  | branch _ span _ => span

/-- The words at the bottom, from left to right. -/
def leaves : Tree α β → List β
  | leaf value _ => [value]
  | branch _ _ children => children.flatMap leaves

/-- How many rules are applied on the longest way down. -/
def height : Tree α β → Nat
  | leaf _ _ => 0
  | branch _ _ children => (children.map height).foldl max 0 + 1

/-- Changes the values and keeps the shape. -/
def map (inner : α → γ) (word : β → δ) : Tree α β → Tree γ δ
  | leaf value span => leaf (word value) span
  | branch value span children => branch (inner value) span (children.map (map inner word))

/-- The tree in brackets, on one line. -/
def text (inner : α → String) (word : β → String) : Tree α β → String
  | leaf value _ => word value
  | branch value _ children =>
    "(" ++ inner value ++
      String.join (children.map fun child => " " ++ text inner word child) ++ ")"

/-- The tree in brackets with stretches, every line of a child indented on a line of its own. -/
def longText (inner : α → String) (word : β → String) : Tree α β → String
  | leaf value span => span.label (word value)
  | branch value span children =>
    "(" ++ span.label (inner value) ++
      String.join (children.map fun child =>
        String.join ((Text.lines (longText inner word child)).map fun line => "\n  " ++ line)) ++
      ")"

end Tree

end IndexedGrammar
