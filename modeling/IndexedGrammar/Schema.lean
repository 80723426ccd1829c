import IndexedGrammar.Rule.WellFormed
import IndexedGrammar.Text.Blank

/-!
# Schema grammars

A schema grammar holds rules as they are written, before wildcards are filled in. A rule's number
is its place in the grammar, and every rule is well formed with proper stack texts.
-/

namespace IndexedGrammar

/-- Whether a stack text is empty or a list of non-empty symbols, at most one of which begins with
a wildcard, without brackets or blanks. -/
def Category.hasProperStack (c : Category) : Bool :=
  let text := c.stack.toList
  let badCharacter := text.any fun ch => ch = '[' || ch = ']' || Text.isBlank ch
  let wildcards := text.count Stack.wildcard
  let badSegment := (Stack.pieces text).any fun segment =>
    segment.isEmpty ||
      (segment.contains Stack.wildcard && 1 < segment.length
        && segment.head? != some Stack.wildcard)
  text.isEmpty || !(badCharacter || 1 < wildcards || badSegment)

/-- The first reason to refuse a rule as part of a schema grammar. -/
def Rule.schemaDefect? (r : Rule) : Option Defect :=
  match r.defect? with
  | some defect => some defect
  | none => ((r.lhs :: r.rhs).find? fun c => !c.hasProperStack).map Defect.badStack

/-- Rules as written, numbered in order. -/
structure Schema where
  rules : Array Rule
deriving DecidableEq

namespace Schema

/-- The schema grammar without rules. -/
def empty : Schema := ⟨#[]⟩

/-- The number of rules. -/
def size (s : Schema) : Nat := s.rules.size

/-- Adds a rule under the next number, which is the size before. -/
def insert (s : Schema) (r : Rule) : Except Fault Schema :=
  match r.schemaDefect? with
  | some defect => .error (.malformed defect)
  | none => .ok ⟨s.rules.push r⟩

/-- The schema grammar of the given rules, in order. -/
def ofRules (rules : List Rule) : Except Fault Schema :=
  rules.foldlM insert empty

/-- The rules with their numbers. -/
def numbered (s : Schema) : List (Nat × Rule) :=
  s.rules.toList.zipIdx.map fun (r, id) => (id, r)

/-- The numbered rules whose left-hand side has this name. -/
def rulesNamed (s : Schema) (name : String) : List (Nat × Rule) :=
  s.numbered.filter fun (_, r) => r.lhs.name = name

/-- The same grammar with categories and stack symbols renamed. -/
def renamed (names : String → String) (s : Schema) : Except Fault Schema :=
  ofRules (s.rules.toList.map fun r => (r.renamed names).detached)

/-- One rule a line. -/
def text (s : Schema) : String :=
  String.join (s.rules.toList.map fun r => r.text ++ "\n")

end Schema

end IndexedGrammar
