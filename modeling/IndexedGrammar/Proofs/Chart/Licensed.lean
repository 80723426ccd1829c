import IndexedGrammar.Proofs.Chart.Arising
import IndexedGrammar.Proofs.Grammar.Changes

/-!
# The rules on a chart

Whatever is done to an editor, a chart predicts nothing but nonterminals, and but for the synthetic rule its states
are on rules for nonterminals. If the name of the synthetic rule stands in no other rule that is in use, no other
state is on a rule for that name, also when rules have been taken out of use since.
-/

namespace IndexedGrammar

namespace Grammar

/-- A grammar over some parts of speech, with a synthetic rule for a name that is none of them and that stands
nowhere else. -/
structure Over (partsOfSpeech : Std.ExtTreeSet String) (root : String) (g : Grammar) : Prop where
  indexed : g.Indexed
  partsOfSpeech_eq : g.partsOfSpeech = partsOfSpeech
  rootRule?_eq : g.rootRule? = some ⟨Category.bare root, [g.start], none⟩
  not_contains : partsOfSpeech.contains root = false
  rootUnused : g.RootUnused

/-- Whether a rule is the synthetic one, or one for a nonterminal of another name. -/
def Licenses (root : String) (g : Grammar) (rule : Nat) : Prop :=
  rule = rootId ∨ ∃ r, g.rule? rule = some r ∧ g.isNonterminal r.lhs = true ∧ r.lhs.name ≠ root

variable {partsOfSpeech : Std.ExtTreeSet String} {root : String} {g g' : Grammar}

/-- Grammars over the same parts of speech have the same nonterminals. -/
theorem Over.isNonterminal_eq (h : g.Over partsOfSpeech root) (h' : g'.Over partsOfSpeech root)
    (symbol : Category) : g'.isNonterminal symbol = g.isNonterminal symbol := by
  rw [isNonterminal, isPartOfSpeech, h'.partsOfSpeech_eq, ← h.partsOfSpeech_eq, isNonterminal, isPartOfSpeech]

/-- Grammars over the same parts of speech have no others. -/
theorem Over.partsWithin (h : g.Over partsOfSpeech root) (h' : g'.Over partsOfSpeech root) :
    g'.PartsWithin fun symbol => g.isPartOfSpeech symbol = true := by
  intro symbol hsymbol
  rwa [isPartOfSpeech, h'.partsOfSpeech_eq, ← h.partsOfSpeech_eq] at hsymbol

/-- An insertion leaves a grammar over the same parts of speech, if the rule does not use the synthetic name. -/
theorem Over.insert (h : g.Over partsOfSpeech root) {r : Rule} (hunused : g.RootUnusedIn r) :
    (g.insert r).Over partsOfSpeech root where
  indexed := h.indexed.insert r
  partsOfSpeech_eq := h.partsOfSpeech_eq
  rootRule?_eq := ((without_insert h.indexed r).rule? rootId h.indexed.size_ne_rootId.symm).symm.trans h.rootRule?_eq
  not_contains := h.not_contains
  rootUnused := h.rootUnused.insert h.indexed hunused

/-- The synthetic category is no part of speech. -/
theorem Over.isPartOfSpeech_root (h : g.Over partsOfSpeech root) :
    g.isPartOfSpeech (Category.bare root) = false := by
  rw [isPartOfSpeech, h.partsOfSpeech_eq, Category.bare, h.not_contains, Bool.and_false]

/-- A rule in use for a nonterminal is licensed. -/
theorem Over.licenses (h : g.Over partsOfSpeech root) {rule : Nat} {r : Rule} (hr : g.HasRule rule r)
    (hlhs : g.isNonterminal r.lhs = true) : g.Licenses root rule := by
  by_cases hroot : rule = rootId
  · exact .inl hroot
  · obtain ⟨-, hrules⟩ := h.rootUnused _ h.rootRule?_eq
    exact .inr ⟨r, hr.rule?, hlhs, (hrules rule r (mem_rules_iff.mpr ⟨hroot, hr⟩)).1⟩

end Grammar

namespace Chart

/-- A chart whose states are on licensed rules, and that predicts nothing but nonterminals. -/
structure Licensed (root : String) (g : Grammar) (c : Chart) : Prop where
  licenses : ∀ {id s}, c.spot? id = some s → g.Licenses root s.item.rule
  predicts : ∀ {k symbol}, c.isPredicted k symbol = true → g.isNonterminal symbol = true

variable {partsOfSpeech : Std.ExtTreeSet String} {root : String} {g g' : Grammar} {c : Chart}

/-- A new chart is licensed. -/
theorem licensed_new (root : String) (g : Grammar) (layout : Layout) (input : Input) :
    (new layout input).Licensed root g where
  licenses {id s} hs := by simp [spot?, new] at hs
  predicts hpredicted := by
    rw [isPredicted_new] at hpredicted
    contradiction

/-- A chart stays licensed under a grammar with the same rules for its states and the same parts of speech. -/
theorem Licensed.regrammar (h : c.Licensed root g) (hg : g.Over partsOfSpeech root)
    (hg' : g'.Over partsOfSpeech root) (hsame : Editor.SameRules c g g') : c.Licensed root g' where
  licenses hs := by
    rcases h.licenses hs with hroot | ⟨r, hr, hsymbol, hname⟩
    · exact .inl hroot
    · exact .inr ⟨r, (hsame _ _ hs).trans hr, (hg.isNonterminal_eq hg' _).trans hsymbol, hname⟩
  predicts hpredicted := (hg.isNonterminal_eq hg' _).trans (h.predicts hpredicted)

/-- What a licensed chart calls for is on a licensed rule. -/
theorem Licensed.warrants (h : c.Licensed root g) (hg : g.Over partsOfSpeech root) {k : Nat} {item : Item}
    {stop : Nat} {d : Derivation} (hwarrants : c.Warrants g k item stop d) : g.Licenses root item.rule := by
  cases hwarrants with
  | begun hpredicted hrule =>
    obtain ⟨hr, rfl⟩ := hg.indexed.mem_rulesFor.mp hrule
    exact hg.licenses hr (h.predicts hpredicted)
  | skip hs => exact h.licenses hs.spot?
  | scan hs => exact h.licenses hs.spot?
  | complete hs => exact h.licenses hs.spot?

/-- Predicting a nonterminal keeps a chart licensed. -/
theorem Licensed.predict (h : c.Licensed root g) {k : Nat} (hk : k < c.columns.size) {symbol : Category}
    (hsymbol : g.isNonterminal symbol = true) : (c.predict k symbol).Licensed root g where
  licenses hs := h.licenses hs
  predicts hpredicted := by
    rw [isPredicted_predict hk, Bool.or_eq_true, decide_eq_true_iff] at hpredicted
    rcases hpredicted with ⟨-, rfl⟩ | hold
    · exact hsymbol
    · exact h.predicts hold

/-- A chart stays licensed under new numbers. -/
theorem Licensed.renumbered (h : c.Licensed root g) : c.renumbered.Licensed root g where
  licenses hs := by
    obtain ⟨id, -, hlive⟩ := live_renumbered.mp (spot?_renumbered.mp hs)
    exact h.licenses hlive.spot?
  predicts hpredicted := by
    rw [isPredicted_renumbered] at hpredicted
    exact h.predicts hpredicted

end Chart

variable {partsOfSpeech : Std.ExtTreeSet String} {root : String} {g : Grammar}

/-- Adding a state on a licensed rule keeps a chart licensed. -/
theorem Run.licensed_add {run : Run} (h : run.chart.Licensed root g) {item : Item} {stop : Nat} {d : Derivation}
    (hitem : g.Licenses root item.rule) (hok : (Run.add g run item stop d).breach = none) :
    (Run.add g run item stop d).chart.Licensed root g where
  licenses {id s} hs := by
    obtain ⟨-, -, ⟨other, -, hchart, -⟩ | ⟨-, -, hchart, -⟩⟩ := add_spec hok
    · rw [hchart, Chart.spot?_pack] at hs
      exact h.licenses hs
    · rw [hchart, Chart.spot?_grow] at hs
      split at hs
      · obtain rfl := Option.some.inj hs
        exact hitem
      · exact h.licenses hs
  predicts hpredicted := by
    rw [isPredicted_add hok] at hpredicted
    exact h.predicts hpredicted

namespace Editor

/-- Being licensed lasts. -/
theorem lasting_licensed (hg : g.Over partsOfSpeech root) : Lasting g (Chart.Licensed root g) where
  root _ h hok := Run.licensed_add h (.inl rfl) hok
  add _ h hwarrants hok := Run.licensed_add h (h.warrants hg hwarrants) hok
  predict hc h hs hstop _ hsymbol := h.predict (hstop ▸ (hc.lt_columns hs).2) hsymbol
  beginRule _ h hr hpredicted hok := Run.licensed_add h (hg.licenses hr (h.predicts hpredicted)) hok
  removeRule {c} hc h rule := by
    have horderly := Removal.removeRule_orderly (r := Removal.on c) hc rule
    exact ⟨fun hs => h.licenses ((horderly.spot? _).symm.trans hs), fun hk => h.predicts (horderly.isPredicted hk)⟩
  renumbered h := h.renumbered

/-- The chart of every editor that evolves under grammars over some parts of speech is licensed. -/
theorem Evolves.licensed {e : Editor} (h : Evolves (Grammar.Over partsOfSpeech root) e g) :
    e.chart.Licensed root g :=
  (h.bears (motive := Chart.Licensed root) (fun _ => Chart.licensed_new root _)
    (fun hg hg' hsame hc => hc.regrammar hg hg' hsame) lasting_licensed).chart

end Editor

end IndexedGrammar
