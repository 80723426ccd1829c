import IndexedGrammar.Chart.Parsing
import IndexedGrammar.Corpus
import IndexedGrammar.Counter
import IndexedGrammar.Forest.Count
import IndexedGrammar.Forest.Usage
import IndexedGrammar.Number.Double
import IndexedGrammar.Total

/-!
# Scores

A score tells how well a grammar explains a corpus. For every sentence length of the corpus, the
trees that were found, each different sentence counted once, are set against the derivations that
the grammar has; their ratio, less the share of sentences without a parse, is the probability.
-/

namespace IndexedGrammar

/-- A sentence that was parsed: its length, how often it occurs, and what came of it. -/
structure Parsed (α : Type) where
  length : Nat
  occurrences : Nat
  outcome : α

/-- How well a grammar explains a corpus. -/
structure Score where
  /-- The trees found, by sentence length. -/
  observed : Counts
  /-- The derivations of the grammar, for the sentence lengths of the corpus. -/
  possible : Counts
  /-- The sentences without a parse, with repetitions. -/
  unexplained : Nat
  /-- The sentences, with repetitions. -/
  sentences : Nat
  /-- How often each rule is used. -/
  usage : Usage
  /-- How often instances of each schema rule are used. -/
  schemaUsage : Usage
  probability : Float

namespace Score

/-- The trees found, by sentence length. -/
def observedTrees (settings : Settings) (parses : List (Parsed Forest)) : Counts :=
  parses.foldl (fun observed parsed =>
    if parsed.outcome.isEmpty then observed
    else observed.add parsed.length (parsed.outcome.treeCountWithin settings.countDepth)) ∅

/-- The derivations of a grammar, for the lengths of some sentences. -/
def possibleTrees (g : Grammar) (settings : Settings) (parses : List (Parsed Forest)) : Counts :=
  let lengths := parses.map Parsed.length
  let all := countDerivations g settings.countDepth (some (lengths.foldl max 0))
  all.filter fun length _ => lengths.contains length

/-- How often rules are used, over all sentences. -/
def totalUsage (usage : Forest → Usage) (parses : List (Parsed Forest)) : Usage :=
  parses.foldl (fun total parsed => total.merge (usage parsed.outcome)) ∅

/-- The share of possible trees that were found, less the share of sentences without a parse. -/
def probabilityOf (observed possible : Counts) (unexplained sentences : Nat) : Float :=
  let (explained, total) := possible.toList.foldl (fun ((explained, total) : Float × Float) entry =>
    (explained + Number.toDouble (min (observed.count entry.1) entry.2),
      total + Number.toDouble entry.2)) (0, 0)
  let ratio := if 0 < total then explained / total else 0
  let missed :=
    if 0 < sentences then Number.toDouble unexplained / Number.toDouble sentences else 0
  if 0 < ratio - missed then ratio - missed else 0

/-- The score of a grammar, given the forest of each different sentence. -/
def tally (g : Grammar) (settings : Settings) (parses : List (Parsed Forest)) : Score :=
  let observed := observedTrees settings parses
  let possible := possibleTrees g settings parses
  let unexplained :=
    total Parsed.occurrences (parses.filter fun parsed => parsed.outcome.isEmpty)
  let sentences := total Parsed.occurrences parses
  ⟨observed, possible, unexplained, sentences, totalUsage Forest.ruleUsage parses,
    totalUsage Forest.schemaUsage parses, probabilityOf observed possible unexplained sentences⟩

end Score

namespace Corpus

/-- The charts of the different sentences of a corpus. -/
def parse (corpus : Corpus) (g : Grammar) (lexicon : Lexicon) (budget : Budget) :
    Except Failure (List (Parsed Editor)) :=
  corpus.distinct.mapM fun (words, occurrences) => do
    return ⟨words.length, occurrences, ← Editor.parse g lexicon budget words⟩

/-- The forests of charts. -/
def readForests (g : Grammar) (charts : List (Parsed Editor)) : List (Parsed Forest) :=
  charts.map fun parsed => { parsed with outcome := Forest.ofChart parsed.outcome.chart g }

end Corpus

/-- Parses every different sentence of a corpus and scores the grammar. -/
def evaluate (g : Grammar) (lexicon : Lexicon) (settings : Settings) (cancelled : Bool)
    (corpus : Corpus) : Except Failure Score := do
  let charts ← corpus.parse g lexicon (settings.budget cancelled)
  return Score.tally g settings (Corpus.readForests g charts)

end IndexedGrammar
