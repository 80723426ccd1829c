import IndexedGrammar.Proofs.Forest.Derived
import IndexedGrammar.Proofs.Result
import IndexedGrammar.Score
import Mathlib.Data.List.Fold

/-!
# Found trees are possible

The trees found in the sentences of some length are at most as many as there are sentences times
derivations of that length. So a length for which trees are found always has an entry among the possible
trees, unless the synthetic category is a part of speech: then the synthetic rule can stand for a word, and
trees are found in sentences that are too long.
-/

namespace IndexedGrammar

variable {g : Grammar} {lexicon : Lexicon} {settings : Settings} {cancelled : Bool} {corpus : Corpus}
  {score : Score} {budget : Budget}

/-! One sentence -/

/-- No more trees are found in a sentence than the start category has derivations of its length. -/
theorem Forest.treeCountWithin_le (hg : g.Reachable) (hroot : g.RootApart) {words : List String}
    {forest : Forest} (h : g.parseForest lexicon budget words = .ok forest) (depth : Nat) {longest : Nat}
    (hlongest : words.length ≤ longest) :
    forest.treeCountWithin depth ≤ (countDerivations g depth (some longest)).count words.length := by
  obtain ⟨c, hchart, rfl⟩ := Grammar.parseForest_eq_ok.mp h
  obtain ⟨hc, hlayout, -⟩ := Chart.readable_of_finished hg.indexed hchart
  have hall : ∀ site ∈ c.rootSites g, site = ⟨g.start, 0, words.length⟩ := by
    intro site hsite
    obtain ⟨hcategory, hstart, hfinal, -⟩ := hc.fitting_of_mem_rootSites hroot hsite
    rw [hlayout] at hfinal
    obtain ⟨category, start, stop⟩ := site
    rw [Site.mk.injEq]
    exact ⟨hcategory, hstart, of_decide_eq_true hfinal⟩
  have hroots := List.eq_replicate_of_mem hall
  have hone : (c.rootSites g).length ≤ 1 := by
    have hnodup := Chart.nodup_rootSites c g
    rwa [hroots, List.nodup_replicate] at hnodup
  rw [treeCountWithin_ofChart hc.traced, hroots, List.map_replicate, cappedSum_eq, List.sum_replicate]
  refine (Nat.min_le_left _ _).trans ?_
  obtain hnone | hsome := Nat.le_one_iff_eq_zero_or_eq_one.mp hone
  · simp [hnone]
  · have hmem : (⟨g.start, 0, words.length⟩ : Site) ∈ c.rootSites g := by
      rw [hroots, hsome]
      exact List.mem_singleton_self _
    rw [hsome, one_smul]
    exact hc.treesWithin_le hg.ordered hroot hmem depth hlongest

/-! All sentences -/

/-- What is added to the count of a length is added to that count alone. -/
theorem Counts.count_add (counts : Counts) (length n other : Nat) : (counts.add length n).count other =
    if length = other then cappedAdd (counts.count length) n else counts.count other := by
  unfold count add
  rw [Std.ExtTreeMap.getD_insert]
  by_cases heq : length = other
  · subst heq
    simp [count]
  · simp [heq]

namespace Score

/-- If no forest has more trees than are possible for the length of its sentence, no more trees are found
for a length than there are sentences times possible trees. -/
theorem count_observedTrees_le {parses : List (Parsed Forest)} {possible : Nat → Nat}
    (h : ∀ parsed ∈ parses,
      parsed.outcome.treeCountWithin settings.countDepth ≤ possible parsed.length) (length : Nat) :
    (observedTrees settings parses).count length ≤
      (parses.countP fun parsed => parsed.length = length) * possible length := by
  -- generalized over what has been counted so far
  have hfold (counts : Counts) : (parses.foldl (fun observed parsed =>
      if parsed.outcome.isEmpty then observed
      else observed.add parsed.length (parsed.outcome.treeCountWithin settings.countDepth))
        counts).count length ≤
      counts.count length + (parses.countP fun parsed => parsed.length = length) * possible length := by
    induction parses generalizing counts with
    | nil => simp
    | cons parsed rest ih =>
      have hparsed := h parsed List.mem_cons_self
      have hrest := ih (fun other hother => h other (List.mem_cons_of_mem _ hother))
      rw [List.foldl_cons, List.countP_cons, Nat.add_mul, Nat.add_comm (_ * _), ← Nat.add_assoc]
      refine (hrest _).trans (Nat.add_le_add_right ?_ _)
      split
      · exact Nat.le_add_right _ _
      · rw [Counts.count_add]
        by_cases heq : parsed.length = length
        · subst heq
          simp only [if_true, decide_true, one_mul]
          exact (Nat.min_le_left _ _).trans (Nat.add_le_add_left hparsed _)
        · simp [heq]
  have hempty : (∅ : Counts).count length = 0 := Std.ExtTreeMap.getD_empty
  have hall := hfold ∅
  rwa [hempty, Nat.zero_add] at hall

/-- Some length is no longer than the longest one. -/
theorem le_longest {lengths : List Nat} {length : Nat} (h : length ∈ lengths) :
    length ≤ lengths.foldl max 0 := by
  rw [List.foldl_eq_foldr]
  exact List.le_max_of_le' 0 h le_rfl

/-- The derivations of a grammar are counted for the lengths of sentences alone. -/
theorem count_possibleTrees_eq (g : Grammar) (settings : Settings) (parses : List (Parsed Forest))
    (length : Nat) : (possibleTrees g settings parses).count length =
      if length ∈ parses.map Parsed.length then
        (countDerivations g settings.countDepth
          (some ((parses.map Parsed.length).foldl max 0))).count length
      else 0 := by
  unfold possibleTrees Counts.count
  rw [Std.ExtTreeMap.getD_filter', Std.ExtTreeMap.getD_eq_getD_getElem?]
  split
  · next hmem =>
    rw [List.contains_iff_mem.mpr hmem]
    cases (countDerivations g settings.countDepth _)[length]? <;> rfl
  · next hmem =>
    rw [Bool.eq_false_iff.mpr (mt List.contains_iff_mem.mp hmem)]
    cases (countDerivations g settings.countDepth _)[length]? <;> rfl

/-- The derivations of a grammar are counted for all lengths of sentences. -/
theorem count_possibleTrees (g : Grammar) (settings : Settings) {parses : List (Parsed Forest)}
    {parsed : Parsed Forest} (h : parsed ∈ parses) : ∃ longest, parsed.length ≤ longest ∧
      (possibleTrees g settings parses).count parsed.length =
        (countDerivations g settings.countDepth (some longest)).count parsed.length := by
  have hmem : parsed.length ∈ parses.map Parsed.length := List.mem_map_of_mem h
  exact ⟨_, le_longest hmem, by rw [count_possibleTrees_eq, if_pos hmem]⟩

/-- A grammar without a rule has no more derivations, for all lengths of sentences. -/
theorem count_possibleTrees_le {g' : Grammar} {id : Nat} (h : g.Without id g') (hg : g.Ordered)
    (hg' : g'.Ordered) (settings : Settings) (parses : List (Parsed Forest)) (length : Nat) :
    (possibleTrees g' settings parses).count length ≤ (possibleTrees g settings parses).count length := by
  rw [count_possibleTrees_eq, count_possibleTrees_eq]
  split
  · next hmem => exact h.count_countDerivations_le hg hg' settings.countDepth (le_longest hmem)
  · exact Nat.le_refl 0

end Score

/-- The forests that are scored are those of the different sentences. -/
theorem forall₂_readForests {charts : List (Parsed Editor)} (h : corpus.parse g lexicon budget = .ok charts) :
    List.Forall₂ (fun sentence parsed => parsed.length = sentence.1.length ∧
      g.parseForest lexicon budget sentence.1 = .ok parsed.outcome) corpus.distinct
      (Corpus.readForests g charts) := by
  unfold Corpus.readForests
  rw [List.forall₂_map_right_iff]
  refine (mapM_eq_ok.mp h).imp fun sentence parsed hparsed => ?_
  obtain ⟨e, he, hpure⟩ := bind_eq_ok.mp hparsed
  obtain rfl := Except.ok.inj hpure
  exact ⟨rfl, by simp [Grammar.parseForest, Chart.parse, he, Except.map]⟩

/-- Unless the synthetic category is a part of speech, no more trees are found in a sentence than the start
category has derivations of its length. So a length for which trees are found has an entry among the possible
trees, and no more are found for a length than there are different sentences times possible trees. -/
theorem evaluate_le_possible (hg : g.Reachable) (hroot : g.RootApart)
    (h : evaluate g lexicon settings cancelled corpus = .ok score) :
    (∀ sentence ∈ corpus.distinct, ∃ forest,
      g.parseForest lexicon (settings.budget cancelled) sentence.1 = .ok forest ∧
      forest.treeCountWithin settings.countDepth ≤ score.possible.count sentence.1.length) ∧
    (∀ length, 0 < score.observed.count length → length ∈ score.possible) ∧
    ∀ length, score.observed.count length ≤
      (corpus.distinct.countP fun sentence => sentence.1.length = length) *
        score.possible.count length := by
  obtain ⟨charts, hcharts, hscore⟩ := bind_eq_ok.mp h
  obtain rfl := Except.ok.inj hscore
  have hforests := forall₂_readForests hcharts
  generalize Corpus.readForests g charts = parses at hforests ⊢
  have hparsed : ∀ parsed ∈ parses, parsed.outcome.treeCountWithin settings.countDepth ≤
      (Score.possibleTrees g settings parses).count parsed.length := by
    intro parsed hmem
    obtain ⟨sentence, -, hlength, hforest⟩ := exists_of_forall₂ hforests hmem
    obtain ⟨longest, hlongest, hcount⟩ := Score.count_possibleTrees g settings hmem
    rw [hcount, hlength]
    exact Forest.treeCountWithin_le hg hroot hforest settings.countDepth (hlength ▸ hlongest)
  -- sentences and parses correspond one by one, with the same lengths
  have hlengths (length : Nat) : (parses.countP fun parsed => parsed.length = length) =
      corpus.distinct.countP fun sentence => sentence.1.length = length := by
    clear hparsed
    generalize corpus.distinct = sentences at hforests ⊢
    induction hforests with
    | nil => rfl
    | cons hgiven _ ih => rw [List.countP_cons, List.countP_cons, ih, hgiven.1]
  have hfound (length : Nat) : (Score.observedTrees settings parses).count length ≤
      (corpus.distinct.countP fun sentence => sentence.1.length = length) *
        (Score.possibleTrees g settings parses).count length :=
    hlengths length ▸ Score.count_observedTrees_le hparsed length
  refine ⟨fun sentence hsentence => ?_, fun length hlength => ?_, hfound⟩
  · obtain ⟨parsed, hmem, hlength, hforest⟩ := exists_of_forall₂ hforests.flip hsentence
    exact ⟨parsed.outcome, hforest, hlength ▸ hparsed parsed hmem⟩
  -- without an entry nothing is possible, and so nothing was observed
  · by_contra hnone
    have hzero : (Score.possibleTrees g settings parses).count length = 0 :=
      Std.ExtTreeMap.getD_eq_fallback hnone
    have hle := hfound length
    rw [hzero, Nat.mul_zero] at hle
    exact absurd hlength (Nat.not_lt.mpr hle)

/-- Lists with a rule for the synthetic category, which stands in another rule, so that the synthetic rule is
used within trees. -/
def Sample.nested : Grammar :=
  (singles.insert ⟨list, [.bare "γ", noun], none⟩).insert ⟨.bare "γ", [noun], none⟩

open Sample in
/-- Two words have two nested lists, and one word has one. -/
theorem evaluate_le_possible_nested : ∃ score : Score,
    evaluate nested words {} false sentences = .ok score ∧
    score.observed.toList = [(1, 1), (2, 2)] ∧ score.possible.toList = [(1, 1), (2, 2)] ∧
    (∀ sentence ∈ sentences.distinct, ∃ forest,
      nested.parseForest words (({} : Settings).budget false) sentence.1 = .ok forest ∧
      forest.treeCountWithin ({} : Settings).countDepth ≤ score.possible.count sentence.1.length) ∧
    (∀ length, 0 < score.observed.count length → length ∈ score.possible) ∧
    ∀ length, score.observed.count length ≤
      (sentences.distinct.countP fun sentence => sentence.1.length = length) *
        score.possible.count length := by
  have hrun : ((evaluate nested words {} false sentences).toOption.any fun score =>
      decide (score.observed.toList = [(1, 1), (2, 2)] ∧ score.possible.toList = [(1, 1), (2, 2)])) = true := by
    decide +kernel
  obtain ⟨score, hscore, hcounts⟩ := exists_ok_of_any hrun
  obtain ⟨hobserved, hpossible⟩ := of_decide_eq_true hcounts
  have hroot : nested.RootApart := by
    intro root hroot
    obtain rfl := Option.some.inj hroot
    exact .inr (by decide +kernel)
  exact ⟨score, hscore, hobserved, hpossible,
    evaluate_le_possible (.insert _ (.insert _ reachable_singles)) hroot hscore⟩

/-- Two rules for the start category, with a synthetic category that is a part of speech. -/
def Sample.mistaken : List Rule :=
  [⟨.bare "START", [.bare "x", .bare "x"], none⟩, ⟨.bare "START", [.bare "Gamma", .bare "x"], none⟩]

/-- One word of each of two parts of speech, one of them with the name of the synthetic category. -/
def Sample.homonyms : Lexicon :=
  (Lexicon.empty.insert "x" "a").insert "Gamma" "g"

/-- The only sentence has three words of one part of speech. -/
def Sample.triple : Corpus :=
  ⟨[["a", "a", "a"]]⟩

/-- If the synthetic category is a part of speech, a tree is found in a sentence that is too long for any
derivation. -/
theorem exists_found_not_possible : ∃ s g score, Schema.ofRules Sample.mistaken = .ok s ∧
    compile s Sample.homonyms.partsOfSpeech {} = .ok g ∧
    evaluate g Sample.homonyms {} false Sample.triple = .ok score ∧
    0 < score.observed.count 3 ∧ 3 ∉ score.possible := by
  have hs : Schema.ofRules Sample.mistaken = .ok ⟨Sample.mistaken.toArray⟩ :=
    Sample.ok_of_toOption (by decide +kernel)
  have hrun : ((compile ⟨Sample.mistaken.toArray⟩ Sample.homonyms.partsOfSpeech {}).toOption.any fun g =>
      (evaluate g Sample.homonyms {} false Sample.triple).toOption.any fun score =>
        decide (0 < score.observed.count 3 ∧ 3 ∉ score.possible)) = true := by
    decide +kernel
  obtain ⟨g, hg, hrun⟩ := Sample.exists_ok_of_any hrun
  obtain ⟨score, hscore, hcounts⟩ := Sample.exists_ok_of_any hrun
  exact ⟨_, g, score, hs, hg, hscore, of_decide_eq_true hcounts⟩

end IndexedGrammar
