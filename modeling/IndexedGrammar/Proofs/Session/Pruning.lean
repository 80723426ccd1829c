import IndexedGrammar.Proofs.Chart.Balance
import IndexedGrammar.Proofs.Forest.Spared
import IndexedGrammar.Proofs.Score.Used
import IndexedGrammar.Proofs.Session.Rejection

/-!
# Pruning sessions

A session is pruned of the rules that are applied in no parse of a sentence of its corpus. They are taken out
one after the other. Each removal leaves the parses of the sentences as they are, so the rules that are still to
be taken out stay unused, and all that is read off the charts stays the same.
-/

namespace IndexedGrammar

variable {lexicon : Lexicon} {settings : Settings} {corpus : Corpus} {before : Option Grammar} {id : Nat}

/-! Charts -/

namespace Parsed.Follows

variable {g g' : Grammar} {other : Option Grammar} {failed : Bool} {sentence : List String × Nat}
  {parsed parsed' : Parsed Editor}

/-- The whole sentences of a chart that follows a grammar are the parses of its sentence. -/
theorem isSentence_iff (h : Parsed.Follows .ofHolds lexicon g before failed sentence parsed) {t : Parse} :
    parsed.outcome.chart.IsSentence g t ↔ g.IsParseOf lexicon sentence.1 t :=
  Chart.isSentence_forSentence h.outcome.layout h.outcome.input

/-- Following a grammar, and following it without a rule that no parse of the sentence applies. -/
theorem spares (hwithout : g.Without id g') (hg : g.Fit) (hg' : g'.Fit)
    (h : Parsed.Follows .ofHolds lexicon g before false sentence parsed)
    (h' : Parsed.Follows .ofHolds lexicon g' other false sentence parsed')
    (hunused : ∀ t, g.IsParseOf lexicon sentence.1 t → id ∉ t.rules) :
    Chart.Spares g id g' parsed.outcome.chart parsed'.outcome.chart where
  without := hwithout
  left := h.outcome.keptUp.settled hg
  right := h'.outcome.keptUp.settled hg'
  layout := h'.outcome.layout.trans h.outcome.layout.symm
  input := h'.outcome.input.trans h.outcome.input.symm
  unused t ht := hunused t (h.isSentence_iff.mp ht)

end Parsed.Follows

namespace Session

variable {s s' s'' : Session} {ids more : List Nat}

/-! Removals -/

/-- A rule is not in use and the session stays as it is, or the rule is taken out of the grammar. -/
theorem removeRule_cases {inUse : Bool} (hremove : s.removeRule id = .ok (s', inUse)) :
    s.grammar.remove? id = none ∧ s' = s ∨ s.grammar.remove? id = some s'.grammar := by
  unfold Session.removeRule at hremove
  split at hremove
  · contradiction
  · split at hremove
    · next hnone =>
      obtain ⟨rfl, -⟩ := Prod.mk.inj (Except.ok.inj hremove)
      exact .inl ⟨hnone, rfl⟩
    · next grammar hgrammar =>
      obtain ⟨changed, hchanged, hremove⟩ := bind_eq_ok.mp hremove
      obtain ⟨rfl, -⟩ := Prod.mk.inj (Except.ok.inj hremove)
      obtain ⟨charts, -, hchanged⟩ := bind_eq_ok.mp hchanged
      obtain rfl := Except.ok.inj hchanged
      exact .inr hgrammar

/-- Whether no parse of a sentence of a corpus applies a rule. -/
def Spare (lexicon : Lexicon) (corpus : Corpus) (g : Grammar) (id : Nat) : Prop :=
  ∀ words ∈ corpus.sentences, ∀ t, g.IsParseOf lexicon words t → id ∉ t.rules

/-- What a session retains without some rules: the other rules, the parses of the sentences of its corpus, and
forests with the same trees, counts and uses; and no more trees are possible. -/
structure Retains (lexicon : Lexicon) (corpus : Corpus) (ids : List Nat) (s s' : Session) : Prop where
  hasRule_iff : ∀ id r, s'.grammar.HasRule id r ↔ s.grammar.HasRule id r ∧ id ∉ ids
  isParseOf_iff : ∀ words ∈ corpus.sentences, ∀ t,
    s'.grammar.IsParseOf lexicon words t ↔ s.grammar.IsParseOf lexicon words t
  alike : List.Forall₂ Parsed.Alike s.forests s'.forests
  trees : List.Forall₂ (fun parsed parsed' => parsed'.outcome.trees.Perm parsed.outcome.trees)
    s.forests s'.forests
  possible_le : ∀ length, s'.score.possible.count length ≤ s.score.possible.count length

/-- A session retains everything if the rules were not in use. -/
theorem retains_self (h : ∀ id ∈ ids, ∀ r, ¬s.grammar.HasRule id r) : Retains lexicon corpus ids s s where
  hasRule_iff id r := (and_iff_left_of_imp fun hr hid => h id hid r hr).symm
  isParseOf_iff _ _ _ := Iff.rfl
  alike := List.forall₂_same.mpr fun parsed _ => .refl parsed
  trees := List.forall₂_same.mpr fun _ _ => .refl _
  possible_le _ := Nat.le_refl _

/-- What is retained twice. -/
theorem Retains.trans (h : Retains lexicon corpus ids s s') (h' : Retains lexicon corpus more s' s'') :
    Retains lexicon corpus (ids ++ more) s s'' where
  hasRule_iff id r := by
    rw [h'.hasRule_iff, h.hasRule_iff, List.mem_append, not_or, and_assoc]
  isParseOf_iff words hwords t := (h'.isParseOf_iff words hwords t).trans (h.isParseOf_iff words hwords t)
  alike := forall₂_across (fun _ _ _ hleft hright => hleft.trans hright) h.alike.flip h'.alike
  trees := forall₂_across (fun _ _ _ hleft hright => hright.trans hleft) h.trees.flip h'.trees
  possible_le length := Nat.le_trans (h'.possible_le length) (h.possible_le length)

namespace Coherent

variable (h : Coherent .ofHolds lexicon settings corpus before false s)
include h

/-- The charts of a coherent session are aligned with its grammar. -/
theorem aligned : s.Aligned where
  reachable := h.admitted.reachable
  sound parsed hparsed := by
    obtain ⟨sentence, -, hfollows⟩ := exists_of_forall₂ h.charts hparsed
    exact hfollows.outcome.sound
  inTransaction_eq parsed hparsed := by
    obtain ⟨sentence, -, hfollows⟩ := exists_of_forall₂ h.charts hparsed
    exact hfollows.outcome.inTransaction_eq.trans h.inTransaction_eq.symm

/-- A session uses the rules that are applied in parses of its sentences. -/
theorem mem_usage : id ∈ s.score.usage ↔ ¬Spare lexicon corpus s.grammar id := by
  have hforest {sentence : List String × Nat} {parsed : Parsed Editor}
      (hparsed : Parsed.Follows .ofHolds lexicon s.grammar before false sentence parsed) :
      id ∈ (Forest.ofChart parsed.outcome.chart s.grammar).ruleUsage ↔
        ∃ t, s.grammar.IsParseOf lexicon sentence.1 t ∧ id ∈ t.rules := by
    rw [Forest.mem_ruleUsage (hparsed.outcome.keptUp.settled h.admitted)]
    exact exists_congr fun t => and_congr_left fun _ => hparsed.isSentence_iff
  have husage : id ∈ s.score.usage ↔
      ∃ parsed ∈ s.charts, id ∈ (Forest.ofChart parsed.outcome.chart s.grammar).ruleUsage :=
    Score.mem_totalUsage.trans (by simp [forests, Corpus.readForests])
  unfold Spare
  push Not
  rw [husage]
  constructor
  · rintro ⟨parsed, hparsed, hused⟩
    obtain ⟨sentence, hsentence, hfollows⟩ := exists_of_forall₂ h.charts hparsed
    exact ⟨sentence.1, Corpus.exists_mem_distinct.mp ⟨_, hsentence⟩, (hforest hfollows).mp hused⟩
  · rintro ⟨words, hwords, hused⟩
    obtain ⟨n, hn⟩ := Corpus.exists_mem_distinct.mpr hwords
    obtain ⟨parsed, hparsed, hfollows⟩ := exists_of_forall₂ h.charts.flip hn
    exact ⟨parsed, hparsed, (hforest hfollows).mpr hused⟩

/-- One removal of a rule that no parse applies. -/
theorem retains_removeRule {inUse : Bool} (hroot : id ≠ Grammar.rootId)
    (hspare : Spare lexicon corpus s.grammar id) (hremove : s.removeRule id = .ok (s', inUse)) :
    Retains lexicon corpus [id] s s' := by
  rcases removeRule_cases hremove with ⟨hnone, rfl⟩ | hgrammar
  · exact retains_self fun other hother r hr => by
      obtain rfl := List.mem_singleton.mp hother
      exact absurd hnone (hr.remove?_ne_none hroot)
  have h' := h.removeRule hremove
  have hwithout := Grammar.without_remove h.admitted.reachable.indexed hgrammar
  have hsentences : ∀ sentence ∈ corpus.distinct, sentence.1 ∈ corpus.sentences :=
    fun sentence hsentence => Corpus.exists_mem_distinct.mp ⟨_, hsentence⟩
  -- each chart against the chart of the same sentence after the removal
  have hcharts : List.Forall₂ (fun parsed parsed' => (parsed.length = parsed'.length ∧
      parsed.occurrences = parsed'.occurrences) ∧ Chart.Spares s.grammar id s'.grammar
        parsed.outcome.chart parsed'.outcome.chart) s.charts s'.charts := by
    have hleft := (List.forall₂_and_left _ _).mpr ⟨hsentences, h.charts⟩
    refine forall₂_across (fun sentence parsed parsed' hold hnew => ?_) hleft h'.charts
    exact ⟨⟨hold.2.length.trans hnew.length.symm, hold.2.occurrences.trans hnew.occurrences.symm⟩,
      hold.2.spares hwithout h.admitted h'.admitted hnew (hspare sentence.1 hold.1)⟩
  have halike : List.Forall₂ Parsed.Alike s.forests s'.forests :=
    List.forall₂_map_left_iff.mpr (List.forall₂_map_right_iff.mpr (hcharts.imp fun _ _ hpair =>
      ⟨hpair.1.1, hpair.1.2, Forest.alike_ofChart hpair.2.readAlike⟩))
  have htrees : List.Forall₂ (fun parsed parsed' => parsed'.outcome.trees.Perm parsed.outcome.trees)
      s.forests s'.forests :=
    List.forall₂_map_left_iff.mpr (List.forall₂_map_right_iff.mpr (hcharts.imp fun _ _ hpair =>
      Forest.trees_perm hpair.2 ⟨h.admitted.wellFormed, h.admitted.acyclic⟩ ⟨h'.admitted.wellFormed, h'.admitted.acyclic⟩))
  refine ⟨fun other r => ?_, fun words hwords t => ?_, halike, htrees, fun length => ?_⟩
  · rw [hwithout.hasRule, List.mem_singleton]
  · unfold Grammar.IsParseOf
    rw [hwithout.start_eq, hwithout.isParse_iff]
    exact ⟨fun ht => ⟨ht.1.1, ht.2⟩, fun ht => ⟨⟨ht.1, hspare words hwords t ht⟩, ht.2⟩⟩
  · show (Score.possibleTrees s'.grammar s'.settings s'.forests).count length ≤
      (Score.possibleTrees s.grammar s.settings s.forests).count length
    rw [h'.settings_eq, h.settings_eq, ← Score.possibleTrees_eq s'.grammar settings halike]
    exact Score.count_possibleTrees_le hwithout h.admitted.reachable.ordered h'.admitted.reachable.ordered settings
      s.forests length

/-- Removals of rules that no parse applies, one after the other. -/
theorem retains_removeRules (hroot : ∀ id ∈ ids, id ≠ Grammar.rootId)
    (hspare : ∀ id ∈ ids, Spare lexicon corpus s.grammar id)
    (hremove : ids.foldlM (fun s id => do return (← s.removeRule id).1) s = .ok s') :
    Retains lexicon corpus ids s s' := by
  induction ids generalizing s with
  | nil =>
    obtain rfl := Except.ok.inj hremove
    exact retains_self fun id hid => absurd hid List.not_mem_nil
  | cons id ids ih =>
    obtain ⟨hfirst, hrest⟩ := List.forall_mem_cons.mp hroot
    obtain ⟨hspared, hspares⟩ := List.forall_mem_cons.mp hspare
    rw [List.foldlM_cons] at hremove
    obtain ⟨next, hnext, hremove⟩ := bind_eq_ok.mp hremove
    obtain ⟨⟨removed, inUse⟩, hremoved, hnext⟩ := bind_eq_ok.mp hnext
    obtain rfl := Except.ok.inj hnext
    have hretains := h.retains_removeRule hfirst hspared hremoved
    -- the parses are the same, so the other rules are still spare
    have hstill : ∀ other ∈ ids, Spare lexicon corpus removed.grammar other :=
      fun other hother words hwords t ht =>
        hspares other hother words hwords t ((hretains.isParseOf_iff words hwords t).mp ht)
    exact hretains.trans (ih (h.removeRule hremoved) hrest hstill hremove)

end Coherent

/-- Pruning a session in a transaction finds the rules in use that are applied in no parse of a sentence of the
corpus, each once, and takes out these rules alone. All charts can be read before and after it. The sentences have
the same trees, as many are found and the same sentences are left without one, and the same rules are used as
often; and for no length are more trees possible than before. -/
theorem pruneUnused_exact (h : History lexicon settings corpus s false) (hopen : s.inTransaction = true) :
    ∃ s' unused, s.pruneUnused = .ok (s', unused) ∧ unused.Nodup ∧
      (∀ id, id ∈ unused ↔ (∃ r, (id, r) ∈ s.grammar.rules) ∧
        ∀ words ∈ corpus.sentences, ∀ t, s.grammar.IsParseOf lexicon words t → id ∉ t.rules) ∧
      (∀ id r, s'.grammar.HasRule id r ↔ s.grammar.HasRule id r ∧ id ∉ unused) ∧
      (∀ parsed ∈ s.charts, Forest.read parsed.outcome.chart s.grammar =
        .ok (Forest.ofChart parsed.outcome.chart s.grammar)) ∧
      (∀ parsed ∈ s'.charts, Forest.read parsed.outcome.chart s'.grammar =
        .ok (Forest.ofChart parsed.outcome.chart s'.grammar)) ∧
      List.Forall₂ (fun parsed parsed' => parsed'.outcome.trees.Perm parsed.outcome.trees)
        s.forests s'.forests ∧
      s'.score.observed = s.score.observed ∧ s'.score.unexplained = s.score.unexplained ∧
      s'.score.usage = s.score.usage ∧
      ∀ length, s'.score.possible.count length ≤ s.score.possible.count length := by
  obtain ⟨before, hs⟩ := h.coherent
  obtain ⟨s', unused, hprune⟩ := hs.aligned.exists_pruneUnused hopen
  obtain ⟨pruned, hremove, heq⟩ := bind_eq_ok.mp hprune
  obtain ⟨rfl, hunused⟩ := Prod.mk.inj (Except.ok.inj heq)
  -- the usage of a score is that of the parses, so unused rules are spare ones
  have hmem (id : Nat) : id ∈ unused ↔
      (∃ r, (id, r) ∈ s.grammar.rules) ∧ Spare lexicon corpus s.grammar id := by
    have husage : s.score.usage.contains id = false ↔ Spare lexicon corpus s.grammar id := by
      rw [← Bool.not_eq_true, Std.ExtTreeMap.contains_iff_mem, hs.mem_usage, not_not]
    rw [← hunused, List.mem_map]
    simp [← husage]
  rw [hunused] at hremove
  have hs' := hs.removeRules hremove
  have hretains := hs.retains_removeRules
    (fun id hid => (Grammar.mem_rules_iff.mp ((hmem id).mp hid).1.choose_spec).1)
    (fun id hid => ((hmem id).mp hid).2) hremove
  refine ⟨_, unused, hprune, ?_, hmem, hretains.hasRule_iff, read_of_follows hs.admitted hs.charts,
    read_of_follows hs'.admitted hs'.charts, hretains.trees, ?_, ?_, ?_, hretains.possible_le⟩
  · rw [← hunused]
    exact s.grammar.nodup_rules.sublist (List.filter_sublist.map Prod.fst)
  · show Score.observedTrees pruned.settings pruned.forests = Score.observedTrees s.settings s.forests
    rw [hs'.settings_eq, hs.settings_eq, Score.observedTrees_eq settings hretains.alike]
  · exact (Score.unexplained_eq hretains.alike).symm
  · exact (Score.totalUsage_eq (fun _ _ halike => halike.ruleUsage) hretains.alike).symm

open Sample in
/-- If the only sentence is one word, lists of two words and lists of two lists are pruned. -/
theorem pruneUnused_exact_lists : ∃ s₀ s₁ s₂ s₃ : Session,
    ofCorpus lists words {} false false ⟨[["a"]]⟩ = .ok s₀ ∧ s₀.begin = .ok s₁ ∧
    s₁.insertRule doubled = .ok (s₂, .ok 3) ∧ s₂.inTransaction = true ∧ s₂.pruneUnused = .ok (s₃, [2, 3]) ∧
    (∀ id r, s₃.grammar.HasRule id r ↔ s₂.grammar.HasRule id r ∧ id ∉ [2, 3]) ∧
    s₃.score.observed = s₂.score.observed ∧ s₃.score.usage = s₂.score.usage := by
  have hrun : ((ofCorpus lists words {} false false ⟨[["a"]]⟩).toOption.bind fun s₀ =>
      (s₀.begin.toOption.filter fun s₁ => s₁.grammar.RootUnusedIn doubled).bind fun s₁ =>
        (s₁.insertRule doubled).toOption.filter fun grown =>
          grown.2 = .ok 3 && grown.1.inTransaction &&
            decide ((grown.1.grammar.rules.filter fun numbered =>
              !grown.1.score.usage.contains numbered.1).map Prod.fst = [2, 3])).isSome = true := by
    decide +kernel
  obtain ⟨⟨s₂, result⟩, hrun⟩ := Option.isSome_iff_exists.mp hrun
  simp only [Option.bind_eq_some_iff, Option.filter_eq_some_iff, decide_eq_true_eq, Bool.and_eq_true] at hrun
  obtain ⟨s₀, hopen, s₁, ⟨hbegin, hdoubled⟩, hgrown, ⟨hresult, hin⟩, htwo⟩ := hrun
  obtain rfl : result = .ok 3 := hresult
  have hopen := ok_of_toOption hopen
  have hbegin := ok_of_toOption hbegin
  have hgrown := ok_of_toOption hgrown
  have hhistory : History words {} ⟨[["a"]]⟩ s₂ false :=
    .insertRule (.begin (.opened fit_lists hopen) hbegin) hgrown fun _ => hdoubled
  obtain ⟨s₃, unused, hprune, -, -, hrules, -, -, -, hobserved, -, husage, -⟩ := pruneUnused_exact hhistory hin
  obtain ⟨pruned, -, heq⟩ := bind_eq_ok.mp hprune
  obtain rfl : [2, 3] = unused := htwo.symm.trans (Prod.mk.inj (Except.ok.inj heq)).2
  exact ⟨s₀, s₁, s₂, s₃, hopen, hbegin, hgrown, hin, hprune, hrules, hobserved, husage⟩

/-- Pruning a session all of whose rules are used finds no rule. -/
theorem pruneUnused_of_used (h : ∀ id r, (id, r) ∈ s.grammar.rules → s.score.usage.contains id = true) :
    s.pruneUnused = .ok (s, []) := by
  have hnone : (s.grammar.rules.filter fun numbered => !s.score.usage.contains numbered.1) = [] :=
    List.filter_eq_nil_iff.mpr fun numbered hmem => by simp [h numbered.1 numbered.2 hmem]
  unfold pruneUnused
  simp only [hnone]
  rfl

/-- What no forest uses when a session is opened with a fit grammar is spare. -/
theorem spare_of_ofCorpus {g : Grammar} (hg : g.Fit)
    (hopen : ofCorpus g lexicon settings false false corpus = .ok s) {id : Nat}
    (hunused : s.score.usage.contains id = false) : Spare lexicon corpus g id := by
  have hgrammar : s.grammar = g := by
    obtain ⟨charts, -, heq⟩ := bind_eq_ok.mp hopen
    rw [← Except.ok.inj heq]
  rw [← hgrammar, ← not_not (a := Spare _ _ _ _), ← (coherent_ofCorpus hg hopen).mem_usage,
    ← Std.ExtTreeMap.contains_iff_mem, Bool.not_eq_true]
  exact hunused

/-- Removing a rule from a session with one chart comes to one sweep of it, if nothing that still stands is to be
looked at again. -/
theorem removeRule_of_isEmpty {parsed : Parsed Editor} {g : Grammar} {id : Nat} (hcharts : s.charts = [parsed])
    (hin : s.inTransaction = true) (hinside : parsed.outcome.inTransaction = true)
    (hremove : s.grammar.remove? id = some g)
    (hreview : ((Removal.on parsed.outcome.chart).sweepRule g id).review.isEmpty = true)
    (hbreach : ((Removal.on parsed.outcome.chart).sweepRule g id).breach = none) :
    ∃ swept : Editor, swept.chart = ((Removal.on parsed.outcome.chart).sweepRule g id).chart ∧
      s.removeRule id = .ok ({ ({ s with grammar := g }.note (.removed id)) with
        charts := [{ parsed with outcome := swept }] }, true) := by
  obtain ⟨swept, hchart, hswept⟩ : ∃ swept : Editor,
      swept.chart = ((Removal.on parsed.outcome.chart).sweepRule g id).chart ∧
        parsed.outcome.removeRule g id = .ok swept := by
    rw [Editor.removeRule_of_isEmpty hreview hbreach]
    exact ⟨_, rfl, if_pos (Option.isSome_map.trans hinside)⟩
  refine ⟨swept, hchart, ?_⟩
  simp only [removeRule, hin, hremove, mapChartsM, note, hcharts, List.mapM_cons, List.mapM_nil, hswept,
    Bool.not_true, Bool.false_eq_true, if_false]
  rfl

open Sample in
/-- A grammar with the rules for single words and for two lists is fit if it has no unit cycle. -/
theorem fit_of_rules {g : Grammar} (hg : g.Reachable) (hrules : g.rules = [(1, single), (2, doubled)])
    (hstart : g.start = list) (hroot : g.rootRule? = some ⟨.bare "γ", [list], none⟩)
    (hacyclic : g.hasUnitCycle = false) : g.Fit := by
  refine ⟨hg, fun id r hr => ?_, hacyclic, fun root hroot' => ?_⟩
  · have hall : ∀ numbered ∈ [(1, single), (2, doubled)], numbered.2.WellFormed := by decide +kernel
    exact hall (id, r) (hrules ▸ hr)
  · obtain rfl := Option.some.inj (hroot.symm.trans hroot')
    have hall : ∀ numbered ∈ [(1, single), (2, doubled)], numbered.2.lhs.name ≠ "γ" ∧
        ∀ c ∈ numbered.2.rhs, c.name ≠ "γ" := by decide +kernel
    exact ⟨by rw [hstart]; decide, fun id r hr => hall (id, r) (hrules ▸ hr)⟩

open Sample in
/-- A session may be opened with lists that can be two lists, one of which can be nothing. After lists can no
longer be nothing, the grammar is fit and no parse of one word applies the rule for two lists, but the
states on it hold each other up, so that it is not pruned. -/
theorem exists_unused_not_pruned : ∃ s₀ s₁ s₂ : Session,
    ofCorpus ((singles.insert doubled).insert nothing) words {} false false ⟨[["a"]]⟩ = .ok s₀ ∧
    s₀.begin = .ok s₁ ∧ s₁.removeRule 3 = .ok (s₂, true) ∧ s₂.inTransaction = true ∧ s₂.grammar.Fit ∧
    s₂.pruneUnused = .ok (s₂, []) ∧ (2, doubled) ∈ s₂.grammar.rules ∧
    ∀ t, s₂.grammar.IsParseOf words ["a"] t → 2 ∉ t.rules := by
  have hrun : ((ofCorpus ((singles.insert doubled).insert nothing) words {} false false
      ⟨[["a"]]⟩).toOption.bind fun s₀ => s₀.begin.toOption.bind fun s₁ => s₁.charts.head?.bind fun parsed =>
        (s₁.grammar.remove? 3).bind fun g =>
          (some ((Removal.on parsed.outcome.chart).sweepRule g 3)).bind fun swept =>
            (ofCorpus g words {} false false ⟨[["a"]]⟩).toOption.filter fun anew =>
              s₁.inTransaction && (s₁.charts.tail.isEmpty && (parsed.outcome.inTransaction &&
                (swept.review.isEmpty && (swept.breach.isNone && (g.rules = [(1, single), (2, doubled)] &&
                  (g.start = list && (g.rootRule? = some ⟨.bare "γ", [list], none⟩ && (!g.hasUnitCycle &&
                    ((Forest.ofChart swept.chart g).ruleUsage.contains 1 &&
                      ((Forest.ofChart swept.chart g).ruleUsage.contains 2 &&
                        !(Score.totalUsage Forest.ruleUsage anew.forests).contains 2))))))))))).isSome = true := by
    -- the sweep is not structural, so the kernel alone does not get through it
    cbv
  obtain ⟨anew, hrun⟩ := Option.isSome_iff_exists.mp hrun
  simp only [Option.bind_eq_some_iff, Option.filter_eq_some_iff, Bool.and_eq_true, decide_eq_true_eq,
    Bool.not_eq_true', Option.isNone_iff_eq_none, Option.some.injEq] at hrun
  obtain ⟨s₀, hopen, s₁, hbegin, parsed, hparsed, g, hremove, swept, rfl, hanew, hin, hrest, hinside, hreview,
    hbreach, hrules, hstart, hroot, hacyclic, hsingle, hdoubled, hunused⟩ := hrun
  have hopen := ok_of_toOption hopen
  have hbegin := ok_of_toOption hbegin
  have hcharts : s₁.charts = [parsed] := by
    obtain ⟨rest, hrest'⟩ := List.head?_eq_some_iff.mp hparsed
    rw [hrest', List.tail_cons, List.isEmpty_iff] at hrest
    rw [hrest', hrest]
  have hreachable : s₁.grammar.Reachable :=
    ((Arises.opened ((reachable_singles.insert doubled).insert nothing) hopen).sound.begin
      hbegin).aligned.reachable
  have hfit : g.Fit := fit_of_rules (hreachable.remove hremove) hrules hstart hroot hacyclic
  obtain ⟨swept, hswept, hremoved⟩ := removeRule_of_isEmpty hcharts hin hinside hremove hreview hbreach
  rw [← hswept] at hsingle hdoubled
  refine ⟨s₀, s₁, _, hopen, hbegin, hremoved, Option.isSome_map.trans hin, hfit,
    pruneUnused_of_used fun id r hr => ?_, ?_, ?_⟩
  · refine Std.ExtTreeMap.contains_iff_mem.mpr (Score.mem_totalUsage.mpr ⟨_, List.mem_singleton_self _, ?_⟩)
    have hmem : (id, r) ∈ [(1, single), (2, doubled)] := hrules ▸ hr
    rcases List.mem_pair.mp hmem with heq | heq
    · obtain ⟨rfl, -⟩ := Prod.mk.inj heq
      exact Std.ExtTreeMap.contains_iff_mem.mp hsingle
    · obtain ⟨rfl, -⟩ := Prod.mk.inj heq
      exact Std.ExtTreeMap.contains_iff_mem.mp hdoubled
  · show (2, doubled) ∈ g.rules
    simp [hrules]
  · exact spare_of_ofCorpus hfit (ok_of_toOption hanew) hunused ["a"] (List.mem_singleton_self _)

end Session

end IndexedGrammar
