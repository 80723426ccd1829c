import IndexedGrammar.Number.Decimal

/-!
# TOML values

The values of a TOML document, as far as settings need them: texts and integers are kept, and all
other values, such as dates, arrays and inline tables, are only checked for their form.
-/

namespace IndexedGrammar.Toml

/-- A value of a document. -/
inductive Value where
  | text (text : String)
  | integer (n : Int)
  /-- A value that is neither a text nor an integer. -/
  | other
deriving DecidableEq

/-- A step that takes something off the front of a text, if it is there. -/
abbrev Scan (α : Type) := List Char → Option (α × List Char)

/-- Whether a character may not stand in a comment or a text. -/
def isControl (c : Char) : Bool :=
  (c.toNat < 0x20 && c ≠ '\t') || c.toNat = 0x7F

/-- Drops the spaces and tabs at the front. -/
def skipBlanks (text : List Char) : List Char :=
  text.dropWhile fun c => c = ' ' || c = '\t'

/-- The value of a hexadecimal digit. -/
def hexValue? (c : Char) : Option Nat :=
  if '0' ≤ c && c ≤ '9' then some (c.toNat - '0'.toNat)
  else if 'a' ≤ c && c ≤ 'f' then some (c.toNat - 'a'.toNat + 10)
  else if 'A' ≤ c && c ≤ 'F' then some (c.toNat - 'A'.toNat + 10)
  else none

/-- The character with a code in hexadecimal digits. -/
def charOfHex? (digits : List Char) : Option Char := do
  let code ← digits.foldlM (fun code digit => do return code * 16 + (← hexValue? digit)) 0
  if code.isValidChar then some (Char.ofNat code) else none

/-- Reads what follows a backslash. -/
def scanEscape : Scan Char
  | 'b' :: rest => some ('\x08', rest)
  | 't' :: rest => some ('\t', rest)
  | 'n' :: rest => some ('\n', rest)
  | 'f' :: rest => some ('\x0c', rest)
  | 'r' :: rest => some ('\r', rest)
  | '"' :: rest => some ('"', rest)
  | '\\' :: rest => some ('\\', rest)
  | 'u' :: rest => do
    if (rest.take 4).length = 4 then return (← charOfHex? (rest.take 4), rest.drop 4) else none
  | 'U' :: rest => do
    if (rest.take 8).length = 8 then return (← charOfHex? (rest.take 8), rest.drop 8) else none
  | _ => none

/-- Reads a text in double quotes, behind the opening one. The length of the text bounds the
steps, here and below. -/
def scanBasic : Nat → List Char → Scan (List Char)
  | 0, _, _ => none
  | _ + 1, _, [] => none
  | _ + 1, taken, '"' :: rest => some (taken.reverse, rest)
  | steps + 1, taken, '\\' :: rest => do
    let (c, rest) ← scanEscape rest
    scanBasic steps (c :: taken) rest
  | steps + 1, taken, c :: rest => if isControl c then none else scanBasic steps (c :: taken) rest

/-- Reads a text in single quotes, behind the opening one. -/
def scanLiteral : List Char → Scan (List Char)
  | _, [] => none
  | taken, '\'' :: rest => some (taken.reverse, rest)
  | taken, c :: rest => if isControl c then none else scanLiteral (c :: taken) rest

/-- Takes a line end off the front. -/
def scanNewline : Scan Unit
  | '\n' :: rest => some ((), rest)
  | '\r' :: '\n' :: rest => some ((), rest)
  | _ => none

/-- Drops spaces, tabs and line ends at the front. -/
def skipSpace : Nat → List Char → List Char
  | 0, text => text
  | steps + 1, text =>
    match scanNewline (skipBlanks text) with
    | some (_, rest) => skipSpace steps rest
    | none => skipBlanks text

/-- Reads a text of several lines, behind the opening quotes. Three quotes close it, and up to two
more in front of them belong to the text. In double quotes a backslash at the end of a line drops
the line end and the space around it. -/
def scanLines (quote : Char) : Nat → List Char → Scan (List Char)
  | 0, _, _ => none
  | steps + 1, taken, text =>
    match text with
    | [] => none
    | c :: rest =>
      if c = quote then
        let quotes := text.takeWhile (· = quote)
        let rest := text.dropWhile (· = quote)
        if quotes.length < 3 then scanLines quote steps (quotes ++ taken) rest
        else if quotes.length ≤ 5 then some ((quotes.drop 3 ++ taken).reverse, rest)
        else none
      else if c = '\\' && quote = '"' then
        match scanNewline (skipBlanks rest) with
        | some (_, rest) => scanLines quote steps taken (skipSpace rest.length rest)
        | none => do
          let (escaped, rest) ← scanEscape rest
          scanLines quote steps (escaped :: taken) rest
      else match scanNewline text with
        | some (_, rest) => scanLines quote steps ('\n' :: taken) rest
        | none => if isControl c then none else scanLines quote steps (c :: taken) rest

/-- Drops a line end right behind opening quotes. -/
def skipFirstNewline (text : List Char) : List Char :=
  match scanNewline text with
  | some (_, rest) => rest
  | none => text

/-- Reads a text in any quotes. -/
def scanText : Scan (List Char)
  | '"' :: '"' :: '"' :: rest => scanLines '"' (rest.length + 1) [] (skipFirstNewline rest)
  | '\'' :: '\'' :: '\'' :: rest => scanLines '\'' (rest.length + 1) [] (skipFirstNewline rest)
  | '"' :: rest => scanBasic (rest.length + 1) [] rest
  | '\'' :: rest => scanLiteral [] rest
  | _ => none

/-- Reads digits with single underscores between them. -/
def digits? (isDigit : Char → Bool) : List Char → Option (List Char)
  | [] => none
  | [c] => if isDigit c then some [c] else none
  | c :: '_' :: rest =>
    if isDigit c then (digits? isDigit rest).map (c :: ·) else none
  | c :: rest =>
    if isDigit c then (digits? isDigit rest).map (c :: ·) else none

/-- The number that digits stand for in a base. -/
def numberOf (base : Nat) (digits : List Char) : Nat :=
  digits.foldl (fun n digit => n * base + (hexValue? digit).getD 0) 0

/-- Whether a text is decimal digits without a leading zero. -/
def decimal? (text : List Char) : Option Nat := do
  let digits ← digits? Char.isDigit text
  if digits.head? = some '0' && 1 < digits.length then none else some (numberOf 10 digits)

/-- The sign at the front of a number, and the rest. -/
def splitSign : List Char → Int × List Char
  | '+' :: rest => (1, rest)
  | '-' :: rest => (-1, rest)
  | rest => (1, rest)

/-- An integer, if it fits into 64 bits with a sign. -/
def fitting? (n : Int) : Option Int :=
  if -Int.ofNat (Nat.pow 2 63) ≤ n && n < Int.ofNat (Nat.pow 2 63) then some n else none

/-- Reads an integer. -/
def integer? (text : List Char) : Option Int :=
  match text with
  | '0' :: 'x' :: rest => do
    fitting? (numberOf 16 (← digits? (fun c => (hexValue? c).isSome) rest))
  | '0' :: 'o' :: rest => do
    fitting? (numberOf 8 (← digits? (fun c => '0' ≤ c && c ≤ '7') rest))
  | '0' :: 'b' :: rest => do
    fitting? (numberOf 2 (← digits? (fun c => c = '0' || c = '1') rest))
  | _ => do
    let (sign, rest) := splitSign text
    fitting? (sign * (← decimal? rest))

/-- Reads a number without a sign that has a fraction, an exponent, or both. -/
def fraction? (text : List Char) : Option Number.Decimal := do
  let isMark := fun c : Char => c = 'e' || c = 'E'
  let mantissa := text.takeWhile fun c => !isMark c
  let power := text.dropWhile fun c => !isMark c
  let whole ← decimal? (mantissa.takeWhile (· ≠ '.'))
  let behind := mantissa.dropWhile (· ≠ '.')
  if behind.isEmpty && power.isEmpty then none
  else do
    let places ← if behind.isEmpty then some [] else digits? Char.isDigit behind.tail
    let (sign, unsigned) := splitSign power.tail
    let exponent ← if power.isEmpty then some [] else digits? Char.isDigit unsigned
    return ⟨whole * Nat.pow 10 places.length + numberOf 10 places,
      sign * numberOf 10 exponent - places.length⟩

/-- Whether a text is a floating-point number. A number above zero has to be in range, unless it is
infinity by name; one below zero may be rounded to infinity. -/
def isFloating (text : List Char) : Bool :=
  let (sign, unsigned) := splitSign text
  if unsigned = "inf".toList || unsigned = "nan".toList then true
  else match fraction? unsigned with
    | some decimal => sign < 0 || !decimal.isInfinite
    | none => false

/-- The number that exactly as many decimal digits stand for. -/
def fixedDigits? (count : Nat) (text : List Char) : Option Nat :=
  if text.length = count && text.all Char.isDigit then some (numberOf 10 text) else none

/-- How many days a month has. -/
def daysIn (year month : Nat) : Nat :=
  if month = 2 then
    if year % 4 = 0 && (year % 100 ≠ 0 || year % 400 = 0) then 29 else 28
  else if month = 4 || month = 6 || month = 9 || month = 11 then 30
  else 31

/-- Whether a text is a date. -/
def isDate (text : List Char) : Bool :=
  match fixedDigits? 4 (text.take 4), fixedDigits? 2 ((text.drop 5).take 2),
    fixedDigits? 2 (text.drop 8) with
  | some year, some month, some day =>
    text[4]? = some '-' && text[7]? = some '-' && 1 ≤ month && month ≤ 12 && 1 ≤ day
      && day ≤ daysIn year month
  | _, _, _ => false

/-- Whether a text is a time of day. -/
def isTime (text : List Char) : Bool :=
  match fixedDigits? 2 (text.take 2), fixedDigits? 2 ((text.drop 3).take 2),
    fixedDigits? 2 ((text.drop 6).take 2) with
  | some hour, some minute, some second =>
    let fraction := text.drop 8
    text[2]? = some ':' && text[5]? = some ':' && hour < 24 && minute < 60 && second ≤ 60
      && (fraction.isEmpty ||
        (fraction.head? = some '.' && 1 < fraction.length && fraction.tail.all Char.isDigit))
  | _, _, _ => false

/-- Whether a text is an offset from universal time. -/
def isOffset (text : List Char) : Bool :=
  match text with
  | ['Z'] | ['z'] => true
  | sign :: rest =>
    match fixedDigits? 2 (rest.take 2), fixedDigits? 2 (rest.drop 3) with
    | some hour, some minute =>
      (sign = '+' || sign = '-') && rest[2]? = some ':' && hour < 24 && minute < 60
    | _, _ => false
  | [] => false

/-- Whether a text is a date, a time, or both. -/
def isMoment (text : List Char) : Bool :=
  isDate text || isTime text ||
    (isDate (text.take 10) && (text[10]? = some 'T' || text[10]? = some 't')
      && (let rest := text.drop 11
        let isMark := fun c : Char => c = 'Z' || c = 'z' || c = '+' || c = '-'
        let time := rest.takeWhile fun c => !isMark c
        let offset := rest.dropWhile fun c => !isMark c
        isTime time && (offset.isEmpty || isOffset offset)))

/-- Whether a character can stand in a value without quotes. -/
def isPlainChar (c : Char) : Bool :=
  c.isAlphanum || c = '+' || c = '-' || c = '_' || c = '.' || c = ':'

/-- Takes a value without quotes off the front. A date and a time can have a space between them. -/
def scanPlain (text : List Char) : List Char × List Char :=
  let first := text.takeWhile isPlainChar
  let rest := text.dropWhile isPlainChar
  match rest with
  | ' ' :: a :: b :: ':' :: _ =>
    if isDate first && a.isDigit && b.isDigit then
      let rest := rest.tail
      (first ++ 'T' :: rest.takeWhile isPlainChar, rest.dropWhile isPlainChar)
    else (first, rest)
  | _ => (first, rest)

/-- What a value without quotes stands for. -/
def plainValue? (text : List Char) : Option Value :=
  match integer? text with
  | some n => some (.integer n)
  | none =>
    if text = "true".toList || text = "false".toList || isFloating text || isMoment text then
      some .other
    else none

end IndexedGrammar.Toml
