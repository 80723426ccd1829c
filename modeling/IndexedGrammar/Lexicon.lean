import IndexedGrammar.Category
import IndexedGrammar.Index

/-!
# Lexicons

A lexicon relates words and parts of speech. It keeps, in the order of insertion, the parts of
speech of each word and the words of each part of speech. A word comes under a part of speech once.
-/

namespace IndexedGrammar

/-- Which words have which parts of speech. -/
structure Lexicon where
  /-- The parts of speech of each word, oldest first. -/
  byWord : Std.ExtTreeMap String (List String)
  /-- The words of each part of speech, oldest first. -/
  byPartOfSpeech : Std.ExtTreeMap String (List String)

namespace Lexicon

/-- The lexicon without words. -/
def empty : Lexicon := ⟨∅, ∅⟩

/-- The parts of speech a word can have; an unknown word has none. -/
def partsOfSpeechOf (lexicon : Lexicon) (word : String) : List String :=
  lexicon.byWord.getD word []

/-- The words of a part of speech. -/
def wordsFor (lexicon : Lexicon) (partOfSpeech : String) : List String :=
  lexicon.byPartOfSpeech.getD partOfSpeech []

/-- Whether a word is known. -/
def contains (lexicon : Lexicon) (word : String) : Bool :=
  lexicon.byWord.contains word

/-- The categories a word can have. -/
def categories (lexicon : Lexicon) (word : String) : List Category :=
  (lexicon.partsOfSpeechOf word).map Category.bare

/-- Puts a word under a part of speech, unless it is there. -/
def insert (lexicon : Lexicon) (partOfSpeech word : String) : Lexicon :=
  if partOfSpeech ∈ lexicon.partsOfSpeechOf word then lexicon
  else
    ⟨lexicon.byWord.insert word (lexicon.partsOfSpeechOf word ++ [partOfSpeech]),
      lexicon.byPartOfSpeech.insert partOfSpeech (lexicon.wordsFor partOfSpeech ++ [word])⟩

/-- The parts of speech that have words. -/
def partsOfSpeech (lexicon : Lexicon) : Std.ExtTreeSet String :=
  Std.ExtTreeSet.ofList lexicon.byPartOfSpeech.keys

end Lexicon

end IndexedGrammar
