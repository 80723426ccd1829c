/-!
# Stack texts

A category's stack is written as its symbols joined by a separator, top of the stack last. The
text is cut into segments at the separators, and joining the segments gives the text back. A
segment may be empty in a text that nothing has checked; the symbols are the segments that are not.
-/

namespace IndexedGrammar.Stack

/-- Stands between two symbols of a stack. -/
def separator : Char := '.'

/-- Stands for the rest of the stack. -/
def wildcard : Char := '*'

/-- Cuts a text at each separator. There is always at least one piece. -/
def pieces : List Char → List (List Char)
  | [] => [[]]
  | c :: rest =>
    if c = separator then [] :: pieces rest
    else match pieces rest with
      | [] => [[c]]
      | piece :: more => (c :: piece) :: more

/-- The segments of a stack text; the empty text has none. -/
def segmentsOf (text : List Char) : List String :=
  if text.isEmpty then [] else (pieces text).map String.ofList

/-- The segments of a stack text; the empty text has none. -/
def segments (text : String) : List String :=
  segmentsOf text.toList

/-- Joins segments with the separator between them. -/
def join : List String → String
  | [] => ""
  | [segment] => segment
  | segment :: next :: rest => segment ++ separator.toString ++ join (next :: rest)

/-- The segments that are not empty. -/
def symbolsOf (parts : List String) : List String :=
  parts.filter (· ≠ "")

/-- The symbols on a stack, bottom first. -/
def symbols (text : String) : List String :=
  symbolsOf (segments text)

/-- Replaces each symbol by its new name. -/
def rename (names : String → String) (parts : List String) : String :=
  join ((symbolsOf parts).map names)

end IndexedGrammar.Stack
