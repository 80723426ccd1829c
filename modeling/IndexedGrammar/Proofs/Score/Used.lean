import IndexedGrammar.Proofs.Chart.Unbroken
import IndexedGrammar.Proofs.Forest.Exact
import IndexedGrammar.Proofs.Forest.Used
import IndexedGrammar.Proofs.Score
import IndexedGrammar.Proofs.Score.Possible

/-!
# The rules that a corpus uses

An evaluation parses every sentence of a corpus. Without cancellation it can fail only because a parse takes too
much work; otherwise the schema rules that are used are those behind the rules that are applied in parses of the
sentences.
-/

namespace IndexedGrammar

variable {g : Grammar} {lexicon : Lexicon} {settings : Settings} {cancelled : Bool} {corpus : Corpus}
  {score : Score} {budget : Budget} {words : List String} {forest : Forest}

/-! Sentences -/

instance : Std.LawfulEqCmp compareSentences :=
  inferInstanceAs (Std.LawfulEqCmp (List.compareLex compare))

/-- Whether a schema rule is applied in a parse of a sentence of a corpus. -/
def Corpus.Applies (corpus : Corpus) (g : Grammar) (lexicon : Lexicon) (n : Nat) : Prop :=
  ∃ words ∈ corpus.sentences, ∃ t, g.IsParseOf lexicon words t ∧ g.Applies t n

/-- The different sentences of a corpus are its sentences. -/
theorem Corpus.exists_mem_distinct : (∃ n, (words, n) ∈ corpus.distinct) ↔ words ∈ corpus.sentences := by
  have hfold (sentences : List (List String)) (counted : Std.ExtTreeMap (List String) Nat compareSentences) :
      words ∈ sentences.foldl (fun counted sentence =>
        counted.insert sentence (counted.getD sentence 0 + 1)) counted ↔
        words ∈ sentences ∨ words ∈ counted := by
    induction sentences generalizing counted with
    | nil => simp
    | cons sentence rest ih =>
      rw [List.foldl_cons, ih, Std.ExtTreeMap.mem_insert, Std.LawfulEqCmp.compare_eq_iff_eq, List.mem_cons,
        or_left_comm, or_assoc, @eq_comm _ sentence]
  unfold distinct
  simp only [Std.ExtTreeMap.mem_toList_iff_getElem?_eq_some]
  rw [← Option.isSome_iff_exists, ← Std.ExtTreeMap.mem_iff_isSome_getElem?, hfold,
    or_iff_left Std.ExtTreeMap.not_mem_empty]

/-- The parses of a sentence that a settled chart holds are its parses. -/
theorem Chart.isSentence_iff {c : Chart} (hindexed : g.Indexed) (hunasked : g.RootUnasked)
    (h : Chart.parse g lexicon budget words = .ok c) :
    c.Settled g ∧ ∀ t, c.IsSentence g t ↔ g.IsParseOf lexicon words t := by
  obtain ⟨hsettled, hlayout, hinput⟩ := Chart.settled_of_finished hindexed hunasked h
  exact ⟨hsettled, fun t => isSentence_forSentence hlayout hinput⟩

/-- A schema rule is used in the forest of a sentence if it is applied in a parse of the sentence. -/
theorem Forest.mem_schemaUsage_sentence (hindexed : g.Indexed) (hunasked : g.RootUnasked)
    (h : g.parseForest lexicon budget words = .ok forest) {n : Nat} :
    n ∈ forest.schemaUsage ↔ ∃ t, g.IsParseOf lexicon words t ∧ g.Applies t n := by
  obtain ⟨c, hc, rfl⟩ := Grammar.parseForest_eq_ok.mp h
  obtain ⟨hsettled, hsentence⟩ := Chart.isSentence_iff hindexed hunasked hc
  rw [Forest.mem_schemaUsage hsettled]
  exact exists_congr fun t => and_congr_left fun _ => hsentence t

/-- A rule is used in forests if it is used in one of them. -/
theorem Score.mem_totalUsage {usage : Forest → Usage} {parses : List (Parsed Forest)} {n : Nat} :
    n ∈ totalUsage usage parses ↔ ∃ parsed ∈ parses, n ∈ usage parsed.outcome := by
  have hstep (total : Usage) (parsed : Parsed Forest) :
      n ∈ total.merge (usage parsed.outcome) ↔ n ∈ usage parsed.outcome ∨ n ∈ total := Usage.mem_merge
  exact (Usage.mem_foldl hstep parses ∅).trans (or_iff_left Std.ExtTreeMap.not_mem_empty)

/-- An evaluation finds the forest of every sentence. -/
theorem exists_parseForest_of_evaluate (h : evaluate g lexicon settings cancelled corpus = .ok score)
    (hwords : words ∈ corpus.sentences) :
    ∃ forest, g.parseForest lexicon (settings.budget cancelled) words = .ok forest := by
  obtain ⟨charts, hcharts, -⟩ := bind_eq_ok.mp h
  obtain ⟨n, hn⟩ := Corpus.exists_mem_distinct.mpr hwords
  obtain ⟨parsed, -, -, hforest⟩ := exists_of_forall₂ (forall₂_readForests hcharts).flip hn
  exact ⟨parsed.outcome, hforest⟩

/-- An evaluation tells which schema rules are applied in parses of the sentences. -/
theorem mem_schemaUsage_of_evaluate (hindexed : g.Indexed) (hunasked : g.RootUnasked)
    (h : evaluate g lexicon settings cancelled corpus = .ok score) {n : Nat} :
    n ∈ score.schemaUsage ↔ corpus.Applies g lexicon n := by
  obtain ⟨charts, hcharts, hscore⟩ := bind_eq_ok.mp h
  obtain rfl := Except.ok.inj hscore
  have hforests := forall₂_readForests hcharts
  refine Score.mem_totalUsage.trans ⟨fun hused => ?_, fun hused => ?_⟩
  · obtain ⟨parsed, hparsed, hn⟩ := hused
    obtain ⟨sentence, hsentence, -, hforest⟩ := exists_of_forall₂ hforests hparsed
    exact ⟨sentence.1, Corpus.exists_mem_distinct.mp ⟨_, hsentence⟩,
      (Forest.mem_schemaUsage_sentence hindexed hunasked hforest).mp hn⟩
  · obtain ⟨words, hwords, hn⟩ := hused
    obtain ⟨n', hdistinct⟩ := Corpus.exists_mem_distinct.mpr hwords
    obtain ⟨parsed, hparsed, -, hforest⟩ := exists_of_forall₂ hforests.flip hdistinct
    exact ⟨parsed, hparsed, (Forest.mem_schemaUsage_sentence hindexed hunasked hforest).mpr hn⟩

/-! Evaluations that are given up -/

/-- An evaluation without cancellation comes to its end, or a parse is given up. -/
theorem evaluate_ok_or_unbounded (hg : g.Indexed) (settings : Settings) (corpus : Corpus) :
    (∃ score, evaluate g lexicon settings false corpus = .ok score) ∨
      ∃ k, evaluate g lexicon settings false corpus =
        .error (.fault (.unbounded k settings.maxStatesPerColumn)) := by
  unfold evaluate
  rcases corpus.parse_ok_or_error g lexicon (settings.budget false) with
    ⟨charts, hcharts⟩ | ⟨sentence, -, failure, hfailure, hcharts⟩
  · exact .inl ⟨_, by rw [hcharts]; rfl⟩
  · rcases Editor.parse_ok_or_unbounded hg lexicon settings.maxStatesPerColumn sentence.1 with
      ⟨e, he⟩ | ⟨k, hlimit⟩
    · exact absurd (he.symm.trans hfailure) (by simp)
    · obtain rfl := Except.error.inj (hfailure.symm.trans hlimit)
      exact .inr ⟨k, by rw [hcharts]; rfl⟩

end IndexedGrammar
