import IndexedGrammar.Toml.Scalar

/-!
# TOML documents

A document is a table of values and further tables. A statement puts a value under a key of the
current table, or makes another table the current one by a header. A key has one value, a header
names a table once, and tables made by dotted keys are complete where they are written. Neither the
names of a key nor values inside each other may lead 80 levels deep.
-/

namespace IndexedGrammar.Toml

/-- How a table came to be. -/
inductive Making where
  /-- Named by a header. -/
  | header
  /-- Named in front of the last name of a header. -/
  | passage
  /-- Named by a dotted key. -/
  | dotted
deriving DecidableEq

/-- What a key stands for. -/
inductive Entry where
  | value (value : Value)
  | table (making : Making) (entries : List (String × Entry))
  /-- Tables under the same name; the last one is the current one. -/
  | tables (earlier : List (List (String × Entry))) (latest : List (String × Entry))

/-- Keys with what they stand for. -/
abbrev Entries := List (String × Entry)

namespace Entries

/-- Puts an entry under a key, in place of the one that is there. -/
def put (entries : Entries) (key : String) (entry : Entry) : Entries :=
  entries.filter (fun (other, _) => other ≠ key) ++ [(key, entry)]

/-- Changes the table that the names of a header lead to. -/
def within (change : Entries → Option Entries) : List String → Entries → Option Entries
  | [], entries => change entries
  | key :: path, entries =>
    match entries.lookup key with
    | none => do return entries.put key (.table .passage (← within change path []))
    | some (.value _) => none
    | some (.table making inner) => do
      return entries.put key (.table making (← within change path inner))
    | some (.tables earlier latest) => do
      return entries.put key (.tables earlier (← within change path latest))

/-- Puts a value under a dotted key. -/
def define (value : Value) : List String → Entries → Option Entries
  | [], _ => none
  | [key], entries =>
    if (entries.lookup key).isSome then none else some (entries.put key (.value value))
  | key :: next :: path, entries =>
    match entries.lookup key with
    | none => do return entries.put key (.table .dotted (← define value (next :: path) []))
    | some (.table .dotted inner) => do
      return entries.put key (.table .dotted (← define value (next :: path) inner))
    | some (.table .passage inner) =>
      if path.isEmpty then none
      else do return entries.put key (.table .passage (← define value (next :: path) inner))
    | some (.tables earlier latest) =>
      if path.isEmpty then none
      else do return entries.put key (.tables earlier (← define value (next :: path) latest))
    | some _ => none

/-- Names a table by a header. -/
def openTable (key : String) (entries : Entries) : Option Entries :=
  match entries.lookup key with
  | none => some (entries.put key (.table .header []))
  | some (.table .passage inner) => some (entries.put key (.table .header inner))
  | some _ => none

/-- Names one more table under the same name. -/
def openNext (key : String) (entries : Entries) : Option Entries :=
  match entries.lookup key with
  | none => some (entries.put key (.tables [] []))
  | some (.tables earlier latest) => some (entries.put key (.tables (earlier ++ [latest]) []))
  | some _ => none

end Entries

/-- Whether a character can stand in a key without quotes. -/
def isKeyChar (c : Char) : Bool :=
  c.isAlphanum || c = '-' || c = '_'

/-- Reads one name of a key. -/
def scanName : Scan String
  | '"' :: rest => do
    let (name, rest) ← scanBasic (rest.length + 1) [] rest
    return (String.ofList name, rest)
  | '\'' :: rest => do
    let (name, rest) ← scanLiteral [] rest
    return (String.ofList name, rest)
  | text =>
    let name := text.takeWhile isKeyChar
    if name.isEmpty then none else some (String.ofList name, text.dropWhile isKeyChar)

/-- How many levels of values or names are too many. -/
def depthLimit : Nat := 80

/-- Reads names with dots between them. The length of the text bounds the steps. -/
def scanNames : Nat → Scan (List String)
  | 0, _ => none
  | steps + 1, text => do
    let (name, rest) ← scanName (skipBlanks text)
    match skipBlanks rest with
    | '.' :: rest => do
      let (more, rest) ← scanNames steps rest
      return (name :: more, rest)
    | rest => return ([name], rest)

/-- Reads a key. -/
def scanKey : Scan (List String) := fun text => do
  let (names, rest) ← scanNames (text.length + 1) text
  if names.length < depthLimit then some (names, rest) else none

/-- Drops a comment at the front. -/
def scanComment : Scan Unit
  | '#' :: rest =>
    let behind := rest.dropWhile fun c => !isControl c
    match behind with
    | [] => some ((), [])
    | '\n' :: _ => some ((), behind)
    | '\r' :: '\n' :: _ => some ((), behind)
    | _ => none
  | text => some ((), text)

/-- Drops blanks, line ends and comments at the front. -/
def skipLayout : Nat → List Char → Option (List Char)
  | 0, _ => none
  | steps + 1, text => do
    let ((), rest) ← scanComment (skipBlanks text)
    match scanNewline rest with
    | some (_, rest) => skipLayout steps rest
    | none => return rest

mutual

/-- Reads a value, given how many arrays and inline tables around it are too many. The length of the
text bounds the steps, here and below. -/
def scanValue : Nat → Nat → Scan Value
  | 0, _, _ => none
  | steps + 1, room, text =>
    match text with
    | '"' :: _ | '\'' :: _ =>
      (scanText text).map fun (text, rest) => (.text (String.ofList text), rest)
    | '[' :: rest => if room ≤ 1 then none else scanArray steps (room - 1) rest
    | '\x7b' :: rest =>
      if room ≤ 1 then none
      else match skipBlanks rest with
        | '\x7d' :: rest => some (.other, rest)
        | rest => scanInline steps (room - 1) [] rest
    | _ =>
      let (plain, rest) := scanPlain text
      (plainValue? plain).map fun value => (value, rest)

/-- Reads the rest of an array. -/
def scanArray : Nat → Nat → Scan Value
  | 0, _, _ => none
  | steps + 1, room, text => do
    match ← skipLayout (text.length + 1) text with
    | ']' :: rest => some (.other, rest)
    | text => do
      let (_, rest) ← scanValue steps room text
      match ← skipLayout (rest.length + 1) rest with
      | ',' :: rest => scanArray steps room rest
      | ']' :: rest => some (.other, rest)
      | _ => none

/-- Reads the rest of an inline table, given its keys so far. -/
def scanInline : Nat → Nat → Entries → Scan Value
  | 0, _, _, _ => none
  | steps + 1, room, entries, text => do
    let (key, rest) ← scanKey text
    match rest with
    | '=' :: rest => do
      let (value, rest) ← scanValue steps room (skipBlanks rest)
      let entries ← entries.define value key
      match skipBlanks rest with
      | ',' :: rest => scanInline steps room entries rest
      | '\x7d' :: rest => some (.other, rest)
      | _ => none
    | _ => none

end

/-- Takes the end of a statement off the front: a comment perhaps, then a line end or nothing. -/
def scanEnd (text : List Char) : Option (List Char) := do
  let ((), rest) ← scanComment (skipBlanks text)
  match rest with
  | [] => some []
  | _ => (scanNewline rest).map Prod.snd

/-- Reads the statements of a document, given the entries so far and the names that lead to the
current table. -/
def readFrom : Nat → List String → Entries → List Char → Option Entries
  | 0, _, _, _ => none
  | steps + 1, current, entries, text => do
    match ← skipLayout (text.length + 1) text with
    | [] => some entries
    | '[' :: '[' :: rest => do
      let (path, rest) ← scanKey rest
      match rest with
      | ']' :: ']' :: rest => do
        let rest ← scanEnd rest
        let entries ← entries.within (Entries.openNext (path.getLastD "")) path.dropLast
        readFrom steps path entries rest
      | _ => none
    | '[' :: rest => do
      let (path, rest) ← scanKey rest
      match rest with
      | ']' :: rest => do
        let rest ← scanEnd rest
        let entries ← entries.within (Entries.openTable (path.getLastD "")) path.dropLast
        readFrom steps path entries rest
      | _ => none
    | text => do
      let (key, rest) ← scanKey text
      match rest with
      | '=' :: rest => do
        let (value, rest) ← scanValue (rest.length + 1) depthLimit (skipBlanks rest)
        let rest ← scanEnd rest
        let entries ← entries.within (Entries.define value key) current
        readFrom steps current entries rest
      | _ => none

/-- Reads a document. -/
def read (text : String) : Option Entries :=
  let text := match text.toList with
    | '\ufeff' :: rest => rest
    | text => text
  readFrom (text.length + 1) [] [] text

end IndexedGrammar.Toml
