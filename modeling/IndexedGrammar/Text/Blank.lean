/-!
# Blanks, lines and words

Source files are read line by line and sentences word by word. A blank is a character with the
`White_Space` property of Unicode, a line ends at a line feed (or at a carriage return followed
by one), and words are the longest runs without a blank.
-/

namespace IndexedGrammar.Text

/-- The code points with the `White_Space` property, as ranges with both ends included. -/
def blankRanges : List (Nat × Nat) :=
  [(0x09, 0x0D), (0x20, 0x20), (0x85, 0x85), (0xA0, 0xA0), (0x1680, 0x1680), (0x2000, 0x200A),
    (0x2028, 0x2029), (0x202F, 0x202F), (0x205F, 0x205F), (0x3000, 0x3000)]

/-- Whether a character is white space. -/
def isBlank (c : Char) : Bool :=
  blankRanges.any fun (low, high) => low ≤ c.toNat && c.toNat ≤ high

/-- Cuts a text into lines. `taken` holds the current line, last character first. -/
def linesFrom : List Char → List Char → List (List Char)
  | [], [] => []
  | [], taken => [taken.reverse]
  | '\n' :: rest, '\r' :: taken => taken.reverse :: linesFrom rest []
  | '\n' :: rest, taken => taken.reverse :: linesFrom rest []
  | c :: rest, taken => linesFrom rest (c :: taken)

/-- The lines of a text without their ends. Nothing follows the last line end. -/
def lines (s : String) : List String :=
  (linesFrom s.toList []).map String.ofList

/-- Drops the blanks at both ends. -/
def trimmed (cs : List Char) : List Char :=
  ((cs.dropWhile isBlank).reverse.dropWhile isBlank).reverse

/-- A text without the blanks at its ends. -/
def trim (s : String) : String :=
  String.ofList (trimmed s.toList)

/-- Cuts a text into its runs of characters that are not blank. `taken` holds the current run,
last character first. -/
def wordsFrom : List Char → List Char → List (List Char)
  | [], [] => []
  | [], taken => [taken.reverse]
  | c :: rest, taken =>
    if isBlank c then
      if taken.isEmpty then wordsFrom rest [] else taken.reverse :: wordsFrom rest []
    else wordsFrom rest (c :: taken)

/-- The words of a text, in order. -/
def words (s : String) : List String :=
  (wordsFrom s.toList []).map String.ofList

end IndexedGrammar.Text
