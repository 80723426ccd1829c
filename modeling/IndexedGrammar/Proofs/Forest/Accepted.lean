import IndexedGrammar.Proofs.Expansion.Compiled
import IndexedGrammar.Proofs.Forest.Exact
import IndexedGrammar.Proofs.Parse.Finite

/-!
# Acceptance

A sentence is accepted if the synthetic category was found over all of it. Where the compiled rules do not
use the name of that category, this means that the sentence has a parse by the compiled rules. A rule for
the synthetic category in the schema is not told apart from the synthetic rule, though: whatever it covers
is accepted.
-/

namespace IndexedGrammar

namespace Chart

variable {g : Grammar} {c : Chart}

/-- A chart accepts, and has a forest that is not empty, if there is a parse of a whole sentence. -/
theorem Settled.isParsed_iff (h : c.Settled g) :
    (c.isParsed g = true ↔ ∃ t, c.IsSentence g t) ∧
      ((Forest.ofChart c g).isEmpty = false ↔ ∃ t, c.IsSentence g t) := by
  have hroots : (∃ t, c.IsSentence g t) ↔ ¬c.rootSites g = [] := by
    rw [h.rootSites_eq_nil_iff, not_forall_not]
  constructor
  · rw [hroots, ← h.accepted_eq_nil_iff, isParsed, Bool.not_eq_true', List.isEmpty_eq_false_iff]
  · rw [hroots, ← Forest.isEmpty_ofChart, Bool.not_eq_true]

end Chart

/-- If the compiled rules do not use the name of the synthetic category, a sentence is accepted, and its
forest is not empty, exactly if the start category derives it by the compiled rules. -/
theorem isParsed_iff_of_compile {rules : List Rule} {s : Schema} {partsOfSpeech : Std.ExtTreeSet String}
    {settings : Settings} {g : Grammar} {lexicon : Lexicon} {budget : Budget} {words : List String}
    {chart : Chart} (hs : Schema.ofRules rules = .ok s) (hg : compile s partsOfSpeech settings = .ok g)
    (hunused : g.RootUnused) (hchart : Chart.parse g lexicon budget words = .ok chart) :
    (chart.isParsed g = true ↔ ∃ t, g.IsParse g.start t ∧
      List.Forall₂ (fun category word => category ∈ lexicon.categories word) t.yield words) ∧
    ((Forest.ofChart chart g).isEmpty = false ↔ ∃ t, g.IsParse g.start t ∧
      List.Forall₂ (fun category word => category ∈ lexicon.categories word) t.yield words) := by
  obtain ⟨rfl, -⟩ := compile_eq_ok_iff.mp hg
  obtain ⟨e, hgrammar, hconsistent, -⟩ := (Schema.valid_ofRules hs).consistent partsOfSpeech settings
  have hindexed : (s.compiled partsOfSpeech settings).Indexed := hgrammar ▸ hconsistent.indexed
  obtain ⟨hsettled, hlayout, hinput⟩ := Chart.settled_of_finished hindexed hunused.unasked hchart
  have hsentences : (∃ t, chart.IsSentence (s.compiled partsOfSpeech settings) t) ↔
      ∃ t, (s.compiled partsOfSpeech settings).IsParse (s.compiled partsOfSpeech settings).start t ∧
        List.Forall₂ (fun category word => category ∈ lexicon.categories word) t.yield words :=
    exists_congr fun t => Chart.isSentence_forSentence hlayout hinput
  rw [← hsentences]
  exact hsettled.isParsed_iff

open Sample in
/-- Counted lists of three words are accepted. -/
theorem isParsed_iff_of_compile_counted : ∃ g chart,
    compile counted lists.partsOfSpeech forCounted = .ok g ∧ g.RootUnused ∧
    Chart.parse g words ample ["a", "b", "a"] = .ok chart ∧ chart.isParsed g = true ∧
    ∃ t, g.IsParse g.start t ∧
      List.Forall₂ (fun category word => category ∈ words.categories word) t.yield ["a", "b", "a"] := by
  have hcompile : ((compile counted lists.partsOfSpeech forCounted).toOption.any fun g =>
      decide (g.rootRule? = some ⟨.bare "γ", [g.start], none⟩ ∧ g.start.name ≠ "γ" ∧
        ∀ numbered ∈ g.rules, numbered.2.lhs.name ≠ "γ" ∧ ∀ c ∈ numbered.2.rhs, c.name ≠ "γ") &&
      (Chart.parse g words ample ["a", "b", "a"]).toOption.any (·.isParsed g)) = true := by
    decide +kernel
  obtain ⟨g, hg, hrest⟩ := exists_ok_of_any hcompile
  rw [Bool.and_eq_true, decide_eq_true_iff] at hrest
  obtain ⟨⟨hroot, hstart, hrules⟩, hparse⟩ := hrest
  have hunused : g.RootUnused := by
    intro root hroot'
    obtain rfl := Option.some.inj (hroot.symm.trans hroot')
    exact ⟨hstart, fun id r hr => hrules (id, r) hr⟩
  obtain ⟨chart, hchart, hparsed⟩ := exists_ok_of_any hparse
  exact ⟨g, chart, hg, hunused, hchart, hparsed,
    (isParsed_iff_of_compile ofRules_counted hg hunused hchart).1.mp hparsed⟩

/-- Two rules, the second one for the synthetic category. -/
def Sample.clashing : List Rule :=
  [⟨.bare "START", [.bare "Gamma", .bare "x"], none⟩, ⟨.bare "Gamma", [.bare "y"], none⟩]

/-- One word of each of two parts of speech. -/
def Sample.letters : Lexicon :=
  (Lexicon.empty.insert "x" "a").insert "y" "b"

/-- Whatever the start category derives by the first rule has an `x` at its end. -/
theorem Sample.mem_yield_of_clashing {g : Grammar} (hpos : g.isPartOfSpeech (.bare "x") = true)
    (hstart : g.isNonterminal (.bare "START") = true)
    (hrules : ∀ id r, (id, r) ∈ g.rules → r.lhs = .bare "START" → r.rhs = [.bare "Gamma", .bare "x"])
    {t : Parse} (ht : g.IsParse (.bare "START") t) : .bare "x" ∈ t.yield := by
  obtain ⟨hempty, hword⟩ := Grammar.isNonterminal_iff.mp hstart
  cases t with
  | word c => exact absurd (hword.symm.trans ht.2.2) Bool.false_ne_true
  | nothing => exact absurd (hempty.symm.trans ht) Bool.false_ne_true
  | apply lhs id parts =>
    obtain ⟨-, -, r, hr, hlhs, hparts⟩ := ht
    rw [hrules id r hr hlhs, Grammar.areParses_iff_forall₂] at hparts
    obtain ⟨first, rest, -, hrest, rfl⟩ := List.forall₂_cons_left_iff.mp hparts
    obtain ⟨last, rest, hlast, hrest, rfl⟩ := List.forall₂_cons_left_iff.mp hrest
    have hcovered : last.yield = [.bare "x"] := by
      cases last with
      | word c => rw [Parse.yield, hlast.1]
      | nothing => exact absurd hlast Bool.false_ne_true
      | apply => exact absurd (hpos.symm.trans (Grammar.isNonterminal_iff.mp hlast.2.1).2) Bool.noConfusion
    simp [Parse.yield, Parse.yields, hcovered]

/-- What is found for the synthetic category by a rule of the schema is accepted, although the start category
does not derive it. -/
theorem exists_isParsed_without_parse : ∃ s g chart, Schema.ofRules Sample.clashing = .ok s ∧
    compile s Sample.letters.partsOfSpeech {} = .ok g ∧
    Chart.parse g Sample.letters Sample.ample ["b"] = .ok chart ∧
    chart.isParsed g = true ∧ (Forest.ofChart chart g).isEmpty = false ∧
    ¬∃ t, g.IsParse g.start t ∧ List.Forall₂ (fun category word =>
      category ∈ Sample.letters.categories word) t.yield ["b"] := by
  have hs : Schema.ofRules Sample.clashing = .ok ⟨Sample.clashing.toArray⟩ :=
    Sample.ok_of_toOption (by decide +kernel)
  have hcompile : ((compile ⟨Sample.clashing.toArray⟩ Sample.letters.partsOfSpeech {}).toOption.any fun g =>
      decide (g.start = .bare "START" ∧ g.isPartOfSpeech (.bare "x") = true ∧
        g.isNonterminal (.bare "START") = true ∧ ∀ numbered ∈ g.rules,
          numbered.2.lhs = .bare "START" → numbered.2.rhs = [.bare "Gamma", .bare "x"]) &&
      (Chart.parse g Sample.letters Sample.ample ["b"]).toOption.any fun chart =>
        chart.isParsed g && !(Forest.ofChart chart g).isEmpty) = true := by
    decide +kernel
  obtain ⟨g, hg, hrest⟩ := Sample.exists_ok_of_any hcompile
  rw [Bool.and_eq_true, decide_eq_true_iff] at hrest
  obtain ⟨⟨hstart, hpos, hsymbol, hrules⟩, hparse⟩ := hrest
  obtain ⟨chart, hchart, hfound⟩ := Sample.exists_ok_of_any hparse
  rw [Bool.and_eq_true, Bool.not_eq_true'] at hfound
  refine ⟨_, g, chart, hs, hg, hchart, hfound.1, hfound.2, fun hexists => ?_⟩
  obtain ⟨t, ht, hwords⟩ := hexists
  -- every parse has a leaf x, which the only word is not
  have hmem := Sample.mem_yield_of_clashing hpos hsymbol (fun id r hr => hrules (id, r) hr) (hstart ▸ ht)
  have hall : ∀ c ∈ t.yield, c ∈ Sample.letters.categories "b" := by
    obtain ⟨c, rest, hc, hrest, hyield⟩ := List.forall₂_cons_right_iff.mp hwords
    rw [hyield, List.forall₂_nil_right_iff.mp hrest]
    exact List.forall_mem_singleton.mpr hc
  exact absurd (hall _ hmem) (by decide +kernel)

end IndexedGrammar
