import IndexedGrammar.Proofs.Chart.Work
import IndexedGrammar.Proofs.Session.History

/-!
# The limit in a session and in an evaluation

The limit of work is for one run at one column. Inserting a rule into a chart counts only what is new, so a
session can hold a grammar that is refused when it is evaluated anew under the same settings. This happens only
if the charts of the session call for more work at some column than the limit; otherwise every sentence can be
parsed anew.

The exception is a rule that asks for the synthetic name as a part of speech. A sentence that is parsed anew moves
the dot of such a rule over its complete parses, which an insertion does not do.
-/

namespace IndexedGrammar

variable {g : Grammar} {lexicon : Lexicon}

/-- A parse comes to its end, or it is given up at a column where the finished chart calls for more work than the
limit. -/
theorem Editor.parse_cases (hg : g.Indexed) {words : List String} {d : Chart}
    (hd : (Chart.forSentence lexicon words).Encloses g d) (limit : Nat) :
    (∃ e, parse g lexicon ⟨limit, none⟩ words = .ok e) ∨
      ∃ k, parse g lexicon ⟨limit, none⟩ words = .error (.fault (.unbounded k limit)) ∧
        limit < d.workAt g k := by
  have hbuilt {c : Chart} {fault : Option Fault}
      (h : (Chart.forSentence lexicon words).build g ⟨limit, none⟩ = .ok (c, fault)) :
      ∃ e, (new (Chart.forSentence lexicon words) ⟨limit, none⟩).build g = .ok (e, fault) := by
    unfold Chart.build at h
    cases hbuild : (new (Chart.forSentence lexicon words) ⟨limit, none⟩).build g with
    | error breach =>
      rw [hbuild] at h
      contradiction
    | ok outcome =>
      rw [hbuild] at h
      obtain ⟨-, rfl⟩ := Prod.mk.inj (Except.ok.inj h)
      exact ⟨outcome.1, rfl⟩
  obtain ⟨c, hbuild | ⟨k, hbuild, hlimit⟩⟩ := Chart.build_cases hg hd limit
  · obtain ⟨e, he⟩ := hbuilt hbuild
    exact .inl ⟨e, by rw [parse, he, finished]⟩
  · obtain ⟨e, he⟩ := hbuilt hbuild
    exact .inr ⟨k, by rw [parse, he, finished], hlimit⟩

/-- The sentences of a corpus can all be parsed anew, or one of them is given up at a column where its chart calls
for more work than the limit. -/
theorem Corpus.parse_cases (hg : g.Indexed) (hunscanned : g.RootUnscanned) {before : Option Grammar} (limit : Nat)
    {corpus : Corpus} {charts : List (Parsed Editor)}
    (h : List.Forall₂ (Parsed.Follows .ofSustained lexicon g before false) corpus.distinct charts) :
    (∃ parsed, corpus.parse g lexicon ⟨limit, none⟩ = .ok parsed) ∨
      ∃ k, corpus.parse g lexicon ⟨limit, none⟩ = .error (.fault (.unbounded k limit)) ∧
        ∃ parsed ∈ charts, limit < parsed.outcome.chart.workAt g k := by
  refine (corpus.parse_ok_or_error g lexicon ⟨limit, none⟩).imp_right ?_
  rintro ⟨sentence, hsentence, failure, hfailure, hcorpus⟩
  obtain ⟨parsed, hparsed, hfollows⟩ := exists_of_forall₂ h.flip hsentence
  have hkept := hfollows.outcome.keptUp
  have hencloses : (Chart.forSentence lexicon sentence.1).Encloses g parsed.outcome.chart :=
    hkept.keeps.closed.encloses hg hunscanned hkept.filed hkept.layout hkept.input
  rcases Editor.parse_cases hg hencloses limit with ⟨e, he⟩ | ⟨k, he, hlimit⟩
  · exact absurd (he.symm.trans hfailure) (by simp)
  · obtain rfl := Except.error.inj (hfailure.symm.trans he)
    exact ⟨k, hcorpus, parsed, hparsed, hlimit⟩

namespace Sample

/-- A sentence may be a front behind a word of the category that has the synthetic name. -/
def crossing : Rule := ⟨list, [.bare "γ", front], none⟩

/-- The grammar of sentences of one word, where the synthetic name is a part of speech. -/
def shadowed : Grammar :=
  (Grammar.new list "γ" (Std.ExtTreeSet.ofList ["n", "γ"])).insert single

/-- This grammar comes about by insertions. -/
theorem reachable_shadowed : shadowed.Reachable :=
  .insert single (.new list "γ" _)

end Sample

namespace Session

variable {settings : Settings} {corpus : Corpus} {s : Session}

/-- At every point at which no change of the charts has failed, whatever the grammar and the rules, the grammar of
the session can be evaluated anew, or a sentence is given up at a column where one of the charts of the session calls
for more work than the limit. -/
theorem evaluate_or_unbounded (h : Course lexicon settings corpus s false) (hunscanned : s.grammar.RootUnscanned) :
    (∃ score, evaluate s.grammar lexicon settings false corpus = .ok score) ∨
      ∃ k, evaluate s.grammar lexicon settings false corpus =
          .error (.fault (.unbounded k settings.maxStatesPerColumn)) ∧
        ∃ parsed ∈ s.charts, settings.maxStatesPerColumn < parsed.outcome.chart.workAt s.grammar k := by
  obtain ⟨before, hs⟩ := h.coherent
  rw [evaluate, Settings.budget_false]
  rcases Corpus.parse_cases hs.admitted.indexed hunscanned settings.maxStatesPerColumn hs.charts with
    ⟨parsed, hparsed⟩ | ⟨k, hparsed, hlimit⟩
  · rw [hparsed]
    exact .inl ⟨_, rfl⟩
  · rw [hparsed]
    exact .inr ⟨k, rfl, hlimit⟩

open Sample in
/-- Lists and pairs are too much work at once under scant settings, but lists can be parsed, and then pairs can
be inserted. -/
theorem refused_anew : ∃ s₀ s₁ s₂ : Session,
    ofCorpus lists words scant false false sentences = .ok s₀ ∧ s₀.begin = .ok s₁ ∧
    s₁.insertRule pair = .ok (s₂, .ok 3) ∧ History words scant sentences s₂ false ∧
    evaluate s₂.grammar words scant false sentences = .error (.fault (.unbounded 0 8)) := by
  have hrun : ((ofCorpus lists words scant false false sentences).toOption.bind fun s₀ =>
      (s₀.begin.toOption.filter fun s₁ => s₁.grammar.RootUnusedIn pair).bind fun s₁ =>
        (s₁.insertRule pair).toOption.filter fun grown => grown.2 = .ok 3 &&
          match evaluate grown.1.grammar words scant false sentences with
          | .ok _ => false
          | .error failure => failure = .fault (.unbounded 0 8)).isSome = true := by
    decide +kernel
  obtain ⟨⟨s₂, result⟩, hrun⟩ := Option.isSome_iff_exists.mp hrun
  simp only [Option.bind_eq_some_iff, Option.filter_eq_some_iff, Bool.and_eq_true, decide_eq_true_eq] at hrun
  obtain ⟨s₀, hopen, s₁, ⟨hbegin, hpair⟩, hgrown, hresult, hevaluate⟩ := hrun
  obtain rfl : result = .ok 3 := hresult
  have hopen := ok_of_toOption hopen
  have hbegin := ok_of_toOption hbegin
  have hgrown := ok_of_toOption hgrown
  refine ⟨s₀, s₁, s₂, hopen, hbegin, hgrown,
    .insertRule (.begin (.opened fit_lists hopen) hbegin) hgrown fun _ => hpair, ?_⟩
  split at hevaluate
  · contradiction
  · next failure hfailure => rw [hfailure, of_decide_eq_true hevaluate]

open Sample in
/-- Where a rule asks for the synthetic name as a part of speech, a sentence is given up although no chart of the
session calls for more work than the limit. -/
theorem refused_unscanned : ∃ s : Session, Course words scant ⟨[["a"]]⟩ s false ∧
    evaluate s.grammar words scant false ⟨[["a"]]⟩ = .error (.fault (.unbounded 1 8)) ∧
    ∀ parsed ∈ s.charts, ∀ k < parsed.outcome.chart.columns.size,
      parsed.outcome.chart.workAt s.grammar k ≤ 8 := by
  have hrun : ((ofCorpus shadowed words scant false false ⟨[["a"]]⟩).toOption.bind fun s₀ =>
      s₀.begin.toOption.bind fun s₁ =>
        ((s₁.insertRule ⟨front, [noun], none⟩).toOption.filter (·.2 = .ok 2)).bind fun once =>
        ((once.1.insertRule ⟨front, [noun, noun], none⟩).toOption.filter (·.2 = .ok 3)).bind fun twice =>
        (twice.1.insertRule crossing).toOption.filter fun grown => grown.2 = .ok 4 &&
          (match evaluate grown.1.grammar words scant false ⟨[["a"]]⟩ with
          | .ok _ => false
          | .error failure => failure = .fault (.unbounded 1 8)) &&
          grown.1.charts.all fun parsed => (List.range parsed.outcome.chart.columns.size).all fun k =>
            parsed.outcome.chart.workAt grown.1.grammar k ≤ 8).isSome = true := by
    decide +kernel
  obtain ⟨⟨s₄, result⟩, hrun⟩ := Option.isSome_iff_exists.mp hrun
  simp only [Option.bind_eq_some_iff, Option.filter_eq_some_iff, Bool.and_eq_true, decide_eq_true_eq,
    List.all_eq_true, List.mem_range] at hrun
  obtain ⟨s₀, hopen, s₁, hbegin, ⟨s₂, -⟩, ⟨honce, rfl⟩, ⟨s₃, -⟩, ⟨htwice, rfl⟩, hgrown, ⟨hresult, hevaluate⟩,
    hwork⟩ := hrun
  obtain rfl : result = .ok 4 := hresult
  have hbegun : Course words scant ⟨[["a"]]⟩ s₁ false :=
    .begin (.opened reachable_shadowed (ok_of_toOption hopen)) (ok_of_toOption hbegin)
  have hfronts : Course words scant ⟨[["a"]]⟩ s₃ false :=
    .insertRule (.insertRule hbegun (ok_of_toOption honce)) (ok_of_toOption htwice)
  refine ⟨s₄, .insertRule hfronts (ok_of_toOption hgrown), ?_, hwork⟩
  split at hevaluate
  · contradiction
  · next failure hfailure => rw [hfailure, of_decide_eq_true hevaluate]

/-- A history in which no insertion was given up may lead to a grammar that is refused when it is evaluated
anew; and where a rule asks for the synthetic name as a part of speech, without more work in a chart of the session
than the limit. -/
theorem not_evaluate_of_history :
    (¬∀ (lexicon : Lexicon) (settings : Settings) (corpus : Corpus) (s : Session),
      Course lexicon settings corpus s false →
        ∀ k limit, evaluate s.grammar lexicon settings false corpus ≠ .error (.fault (.unbounded k limit))) ∧
    ∃ (lexicon : Lexicon) (settings : Settings) (corpus : Corpus) (s : Session),
      Course lexicon settings corpus s false ∧
      evaluate s.grammar lexicon settings false corpus =
        .error (.fault (.unbounded 1 settings.maxStatesPerColumn)) ∧
      ∀ parsed ∈ s.charts, ∀ k < parsed.outcome.chart.columns.size,
        parsed.outcome.chart.workAt s.grammar k ≤ settings.maxStatesPerColumn := by
  constructor
  · intro hall
    obtain ⟨-, -, s, -, -, -, hhistory, hevaluate⟩ := refused_anew
    exact hall _ _ _ s hhistory.course 0 8 hevaluate
  · obtain ⟨s, hcourse, hevaluate, hwork⟩ := refused_unscanned
    exact ⟨_, _, _, s, hcourse, hevaluate, hwork⟩

open Sample in
/-- Where lists and pairs are refused, a chart of the session calls for more work than the limit. -/
theorem evaluate_or_unbounded_lists : ∃ s : Session, Course words scant sentences s false ∧ s.grammar.RootUnscanned ∧
    evaluate s.grammar words scant false sentences = .error (.fault (.unbounded 0 8)) ∧
    ∃ parsed ∈ s.charts, 8 < parsed.outcome.chart.workAt s.grammar 0 := by
  obtain ⟨-, -, s, -, -, -, hhistory, hevaluate⟩ := refused_anew
  obtain ⟨before, hs⟩ := hhistory.coherent
  have hunscanned : s.grammar.RootUnscanned :=
    hs.admitted.rootUnused.unasked.unscanned hs.admitted.reachable.indexed
  refine ⟨s, hhistory.course, hunscanned, hevaluate, ?_⟩
  rcases evaluate_or_unbounded hhistory.course hunscanned with ⟨score, hscore⟩ | ⟨k, hrefused, hlimit⟩
  · rw [hevaluate] at hscore
    contradiction
  · rw [hevaluate] at hrefused
    obtain ⟨rfl, -⟩ := Fault.unbounded.inj (Failure.fault.inj (Except.error.inj hrefused))
    exact hlimit

end Session

end IndexedGrammar
