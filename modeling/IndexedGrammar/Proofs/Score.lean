import IndexedGrammar.Proofs.Forest.Alike
import IndexedGrammar.Proofs.Result
import IndexedGrammar.Score

/-!
# Scores of forests that are alike

A score depends on forests through their counts and uses alone, so lists of forests that are alike, place
by place, have the same score. The sentences of a corpus are all parsed, or it fails as one of them does.
-/

namespace IndexedGrammar

/-- Sentences of the same length that occur equally often, with forests that are alike. -/
structure Parsed.Alike (p q : Parsed Forest) : Prop where
  length : p.length = q.length
  occurrences : p.occurrences = q.occurrences
  outcome : p.outcome.Alike q.outcome

/-- Forests are alike that are alike to the same one. -/
theorem Forest.Alike.trans {f f' f'' : Forest} (h : f.Alike f') (h' : f'.Alike f'') : f.Alike f'' where
  isEmpty := h.isEmpty.trans h'.isEmpty
  treeCountWithin height := (h.treeCountWithin height).trans (h'.treeCountWithin height)
  ruleUsage := h.ruleUsage.trans h'.ruleUsage
  schemaUsage := h.schemaUsage.trans h'.schemaUsage

/-- Sentences with the same forest are alike. -/
theorem Parsed.Alike.refl (p : Parsed Forest) : p.Alike p :=
  ⟨rfl, rfl, rfl, fun _ => rfl, rfl, rfl⟩

/-- Sentences with forests that are alike, one after the other. -/
theorem Parsed.Alike.trans {p q r : Parsed Forest} (h : p.Alike q) (h' : q.Alike r) : p.Alike r :=
  ⟨h.length.trans h'.length, h.occurrences.trans h'.occurrences, h.outcome.trans h'.outcome⟩

namespace Score

variable {ps qs : List (Parsed Forest)}

/-- The sentences without a parse are as many. -/
theorem unexplained_eq (h : List.Forall₂ Parsed.Alike ps qs) :
    total Parsed.occurrences (ps.filter fun parsed => parsed.outcome.isEmpty) =
      total Parsed.occurrences (qs.filter fun parsed => parsed.outcome.isEmpty) := by
  induction h with
  | nil => rfl
  | @cons p q ps qs hpq _ ih =>
    rw [List.filter_cons, List.filter_cons, hpq.outcome.isEmpty]
    split
    · rw [total, total, hpq.occurrences, ih]
    · exact ih

/-- The sentences are as many. -/
theorem sentences_eq (h : List.Forall₂ Parsed.Alike ps qs) :
    total Parsed.occurrences ps = total Parsed.occurrences qs := by
  induction h with
  | nil => rfl
  | @cons p q ps qs hpq _ ih => rw [total, total, hpq.occurrences, ih]

/-- The trees found are as many, for every length. -/
theorem observedTrees_eq (settings : Settings) (h : List.Forall₂ Parsed.Alike ps qs) :
    observedTrees settings ps = observedTrees settings qs := by
  unfold observedTrees
  generalize (∅ : Counts) = counts
  induction h generalizing counts with
  | nil => rfl
  | @cons p q ps qs hpq _ ih =>
    rw [List.foldl_cons, List.foldl_cons, hpq.outcome.isEmpty, hpq.length,
      hpq.outcome.treeCountWithin, ih]

/-- The derivations of the grammar are counted for the same lengths. -/
theorem possibleTrees_eq (g : Grammar) (settings : Settings) (h : List.Forall₂ Parsed.Alike ps qs) :
    possibleTrees g settings ps = possibleTrees g settings qs := by
  have hlengths : ps.map Parsed.length = qs.map Parsed.length := by
    induction h with
    | nil => rfl
    | @cons p q ps qs hpq _ ih => rw [List.map_cons, List.map_cons, hpq.length, ih]
  rw [possibleTrees, hlengths, possibleTrees]

/-- Rules are used equally often. -/
theorem totalUsage_eq {usage : Forest → Usage} (husage : ∀ f f', f.Alike f' → usage f = usage f')
    (h : List.Forall₂ Parsed.Alike ps qs) : totalUsage usage ps = totalUsage usage qs := by
  unfold totalUsage
  generalize (∅ : Usage) = sum
  induction h generalizing sum with
  | nil => rfl
  | @cons p q ps qs hpq _ ih =>
    rw [List.foldl_cons, List.foldl_cons, husage _ _ hpq.outcome, ih]

/-- Forests that are alike have the same score. -/
theorem tally_eq (g : Grammar) (settings : Settings) (h : List.Forall₂ Parsed.Alike ps qs) :
    tally g settings ps = tally g settings qs := by
  unfold tally
  rw [observedTrees_eq settings h, possibleTrees_eq g settings h, unexplained_eq h, sentences_eq h,
    totalUsage_eq (fun _ _ halike => halike.ruleUsage) h,
    totalUsage_eq (fun _ _ halike => halike.schemaUsage) h]

end Score

/-- The sentences of a corpus can all be parsed, or the corpus fails as one of them does. -/
theorem Corpus.parse_ok_or_error (g : Grammar) (lexicon : Lexicon) (budget : Budget) (corpus : Corpus) :
    (∃ charts, corpus.parse g lexicon budget = .ok charts) ∨
      ∃ sentence ∈ corpus.distinct, ∃ failure, Editor.parse g lexicon budget sentence.1 = .error failure ∧
        corpus.parse g lexicon budget = .error failure := by
  refine (mapM_ok_or_error _ corpus.distinct).imp_right ?_
  rintro ⟨sentence, hsentence, failure, hfailure, hcorpus⟩
  refine ⟨sentence, hsentence, failure, ?_, hcorpus⟩
  cases hparse : Editor.parse g lexicon budget sentence.1 with
  | ok e => simp [hparse, pure, Except.pure, bind, Except.bind] at hfailure
  | error other => simpa [hparse, bind, Except.bind] using hfailure

end IndexedGrammar
