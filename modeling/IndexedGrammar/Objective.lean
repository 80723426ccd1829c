import IndexedGrammar.Grammar.Expansion
import IndexedGrammar.Hypothesis
import IndexedGrammar.Score

/-!
# The objective of a grammar search

A search looks for the hypothesis that explains a corpus best. A hypothesis whose grammar is
malformed, or too costly to parse with, explains nothing. Pruning leaves out the rules that no parse
uses.
-/

namespace IndexedGrammar.Hypothesis

/-- The compiled grammar of a hypothesis. -/
def compile (h : Hypothesis) (space : RuleSpace) (partsOfSpeech : Std.ExtTreeSet String)
    (settings : Settings) : Except Failure Grammar := do
  let schema ← h.toSchema space
  (IndexedGrammar.compile schema partsOfSpeech settings).mapError .fault

/-- The score of a hypothesis on a corpus. -/
def score (h : Hypothesis) (space : RuleSpace) (lexicon : Lexicon) (settings : Settings)
    (cancelled : Bool) (corpus : Corpus) : Except Failure Score := do
  let g ← h.compile space lexicon.partsOfSpeech settings
  evaluate g lexicon settings cancelled corpus

/-- The probability of a hypothesis, which is 0 if its grammar is no good. -/
def probability (h : Hypothesis) (space : RuleSpace) (lexicon : Lexicon) (settings : Settings)
    (cancelled : Bool) (corpus : Corpus) : Except Failure Float :=
  match h.score space lexicon settings cancelled corpus with
  | .ok score => .ok score.probability
  | .error (.fault fault) => if fault.rejectsHypothesis then .ok 0 else .error (.fault fault)
  | .error (.breach breach) => .error (.breach breach)

/-- The hypothesis without the rules that no parse of the corpus uses. -/
def prune (h : Hypothesis) (space : RuleSpace) (lexicon : Lexicon) (settings : Settings)
    (corpus : Corpus) : Except Failure Hypothesis := do
  let score ← h.score space lexicon settings false corpus
  let used := h.toList.zipIdx.filter fun (_, id) => score.schemaUsage.contains id
  return ofList (used.map Prod.fst)

end IndexedGrammar.Hypothesis
