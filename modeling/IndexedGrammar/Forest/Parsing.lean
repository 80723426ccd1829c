import IndexedGrammar.Chart.Parsing
import IndexedGrammar.Forest.Trees

/-!
# Parsing into forests and trees

A grammar parses a sentence into a packed forest, or into all its trees, and generates the forest of
every sentence up to a length.
-/

namespace IndexedGrammar.Grammar

/-- The forest of a sentence. -/
def parseForest (g : Grammar) (lexicon : Lexicon) (budget : Budget) (words : List String) :
    Except Failure Forest :=
  (Chart.parse g lexicon budget words).map fun chart => Forest.ofChart chart g

/-- The trees of a sentence. -/
def parse (g : Grammar) (lexicon : Lexicon) (budget : Budget) (words : List String) :
    Except Failure (List (Tree Category String)) :=
  (g.parseForest lexicon budget words).map Forest.trees

/-- The forest of every list of at most `length` parts of speech. -/
def generate (g : Grammar) (budget : Budget) (length : Nat) : Except Failure Forest :=
  (Chart.generate g budget length).map fun chart => Forest.ofChart chart g

end IndexedGrammar.Grammar
