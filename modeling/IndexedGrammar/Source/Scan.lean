import IndexedGrammar.Fault
import IndexedGrammar.Text.Blank

/-!
# Scanning source lines

Source files have one statement a line. Blank lines and lines that begin with `#` are skipped. A
scanning step takes what it needs off the front of a line and gives the rest back; names are the
longest runs of ASCII letters, digits, hyphens, underscores and apostrophes.
-/

namespace IndexedGrammar.Source

/-- The statements of a source text with their line numbers, which count from 1. -/
def statements (text : String) : List (Nat × List Char) :=
  (Text.lines text).zipIdx.filterMap fun (line, number) =>
    let line := Text.trimmed line.toList
    if line.isEmpty || line.head? = some '#' then none else some (number + 1, line)

/-- Drops the spaces and tabs at the front. -/
def skipSpace (line : List Char) : List Char :=
  line.dropWhile fun c => c = ' ' || c = '\t'

/-- Whether a character can stand in a name. -/
def isNameChar (c : Char) : Bool :=
  c.isAlphanum || c = '-' || c = '_' || c = '\''

/-- Whether a character can stand in a stack text. -/
def isStackChar (c : Char) : Bool :=
  isNameChar c || c = Stack.wildcard || c = Stack.separator

/-- The complaint that something is missing at the front of a line. -/
def missing (expected : Expected) (line : List Char) : Fault :=
  .unreadable [] (.missing expected (String.ofList line))

/-- Adds a place around the complaint of a reader. -/
def within {α : Type} (place : Place) (result : Except Fault α) : Except Fault α :=
  result.mapError (Fault.within place)

/-- Takes a given character off the front. -/
def scanChar (c : Char) : List Char → Except Fault (List Char)
  | [] => .error (missing (.char c) [])
  | first :: rest => if first = c then .ok rest else .error (missing (.char c) (first :: rest))

/-- Takes a name off the front. -/
def scanName (line : List Char) : Except Fault (String × List Char) :=
  match line.span isNameChar with
  | ([], _) => within .name (.error (missing .name line))
  | (name, rest) => .ok (String.ofList name, rest)

/-- Takes the arrow of a rule off the front. -/
def scanArrow : List Char → Except Fault (List Char)
  | '-' :: '>' :: rest => .ok rest
  | line => within .ruleArrow (.error (missing .arrow line))

/-- Takes a stack in brackets off the front. -/
def scanStack (line : List Char) : Except Fault (String × List Char) := do
  let line ← scanChar '[' line
  let (stack, line) := (skipSpace line).span isStackChar
  let line ← scanChar ']' (skipSpace line)
  return (String.ofList stack, line)

/-- Takes a category off the front. -/
def scanCategory (line : List Char) : Except Fault (Category × List Char) := do
  let (name, line) ← within .category (scanName line)
  if line.head? = some '[' then
    let (stack, line) ← within (.stackOf name) (scanStack line)
    return (⟨name, stack⟩, line)
  else
    return (Category.bare name, line)

/-- Reads a list of things separated by spaces, to the end of a line. Scanning one thing leaves a
shorter rest, so the line's length bounds how often it is done. -/
def readAll {α : Type} (scan : List Char → Except Fault (α × List Char)) :
    Nat → List Char → Except Fault (List α)
  | 0, _ => .ok []
  | bound + 1, line =>
    match skipSpace line with
    | [] => .ok []
    | line => do
      let (first, rest) ← scan line
      let more ← readAll scan bound rest
      return first :: more

/-- Reads as many things separated by spaces as a line holds. -/
def readList {α : Type} (scan : List Char → Except Fault (α × List Char)) (line : List Char) :
    Except Fault (List α) :=
  readAll scan line.length line

end IndexedGrammar.Source
