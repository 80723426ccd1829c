import IndexedGrammar.Stack

/-!
# Stack patterns

A schema stack `front*back` matches every concrete stack that begins with the segments of
`front` and ends with those of `back`; the wildcard captures what lies between. Matching works on
whole segments, so a symbol never matches a part of another one, and filling the wildcard with
what was captured gives the matched stack back.
-/

namespace IndexedGrammar

/-- The segments on both sides of a wildcard. -/
structure StackPattern where
  /-- The segments below the captured part. -/
  front : List String
  /-- The segments above the captured part. -/
  back : List String
deriving DecidableEq

namespace StackPattern

/-- Drops the separators at the end of a text. -/
def dropTrailing (text : List Char) : List Char :=
  (text.reverse.dropWhile (· = Stack.separator)).reverse

/-- Reads the pattern around the first wildcard of a text; separators next to the wildcard do not
count. A text without a wildcard is no pattern. -/
def parse (text : String) : Option StackPattern :=
  match text.toList.span (· ≠ Stack.wildcard) with
  | (_, []) => none
  | (front, _ :: back) =>
    some ⟨Stack.segmentsOf (dropTrailing front),
      Stack.segmentsOf (back.dropWhile (· = Stack.separator))⟩

/-- How many explicit symbols stand around the wildcard. -/
def depth (p : StackPattern) : Nat :=
  (Stack.symbolsOf p.front).length + (Stack.symbolsOf p.back).length

/-- Takes given segments off the start of a list. -/
def stripFront : List String → List String → Option (List String)
  | [], rest => some rest
  | _ :: _, [] => none
  | segment :: front, first :: rest => if segment = first then stripFront front rest else none

/-- Takes given segments off the end of a list. -/
def stripBack (back parts : List String) : Option (List String) :=
  (stripFront back.reverse parts.reverse).map List.reverse

/-- What the wildcard captures of a concrete stack, if the pattern matches it. -/
def capture (p : StackPattern) (stack : String) : Option String :=
  ((stripFront p.front (Stack.segments stack)).bind (stripBack p.back)).map Stack.join

/-- The stack with the wildcard replaced by a captured stack. -/
def substitute (p : StackPattern) (captured : String) : String :=
  Stack.join (p.front ++ Stack.segments captured ++ p.back)

/-- The pattern as it is written: a separator follows the front part only. -/
def text (p : StackPattern) : String :=
  let rest := Stack.wildcard.toString ++ Stack.join p.back
  if p.front.isEmpty then rest else Stack.join p.front ++ Stack.separator.toString ++ rest

/-- Replaces each symbol by its new name. -/
def renamed (names : String → String) (p : StackPattern) : StackPattern :=
  ⟨Stack.segments (Stack.rename names p.front), Stack.segments (Stack.rename names p.back)⟩

end StackPattern

end IndexedGrammar
