import IndexedGrammar.Text.Blank
import Std.Data.ExtTreeMap

/-!
# Corpora

A corpus is a list of sentences, each of them a list of at least one word. In a source text a
sentence stands on a line of its own, and lines that begin with `#` are comments.
-/

namespace IndexedGrammar

/-- Sentences in the order in which they came. -/
structure Corpus where
  sentences : List (List String)

/-- Word by word; a sentence comes before those it begins. -/
def compareSentences : List String → List String → Ordering :=
  List.compareLex compare

instance : Std.TransCmp compareSentences :=
  inferInstanceAs (Std.TransCmp (List.compareLex compare))

namespace Corpus

/-- Adds the words of a line as a sentence; a blank line adds nothing. -/
def push (corpus : Corpus) (line : String) : Corpus :=
  let words := Text.words line
  if words.isEmpty then corpus else ⟨corpus.sentences ++ [words]⟩

/-- Reads a corpus. -/
def read (text : String) : Corpus :=
  let isComment (line : String) := (Text.trimmed line.toList).head? == some '#'
  ((Text.lines text).filter fun line => !isComment line).foldl push ⟨[]⟩

/-- The different sentences with how often they occur, in the order of sentences. -/
def distinct (corpus : Corpus) : List (List String × Nat) :=
  let counted : Std.ExtTreeMap (List String) Nat compareSentences :=
    corpus.sentences.foldl (fun counted sentence =>
      counted.insert sentence (counted.getD sentence 0 + 1)) ∅
  counted.toList

end Corpus

end IndexedGrammar
