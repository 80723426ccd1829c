import IndexedGrammar.Lexicon
import IndexedGrammar.Source.Scan

/-!
# Reading lexicons

A statement is a part of speech, a colon, and words.
-/

namespace IndexedGrammar.Lexicon

/-- Reads a part of speech and its words from a statement. -/
def readStatement (line : List Char) : Except Fault (String × List String) := do
  let (partOfSpeech, line) ← Source.scanName line
  match Source.skipSpace line with
  | ':' :: line => return (partOfSpeech, ← Source.readList Source.scanName line)
  | _ => throw (.unreadable [] (.noColon partOfSpeech))

/-- Reads a lexicon. -/
def read (text : String) : Except Fault Lexicon :=
  (Source.statements text).foldlM (fun lexicon (number, line) => do
    let (partOfSpeech, words) ← Source.within (.line number) (readStatement line)
    return words.foldl (fun lexicon word => lexicon.insert partOfSpeech word) lexicon) empty

end IndexedGrammar.Lexicon
