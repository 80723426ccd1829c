import IndexedGrammar.Proofs.Forest.Exact
import IndexedGrammar.Proofs.Parse.Renumbered

/-!
# Grammars whose trees show their parses

If the rules of a grammar are well formed and without unit cycles, and nothing waits for the synthetic rule, then the
trees of a sentence show its parses, each once. So two such grammars have the same trees for a sentence if the parses
by the one are those by the other under other numbers.
-/

namespace IndexedGrammar

/-- A grammar whose trees are those of its parses: its rules are well formed and without unit cycles, and nothing
waits for the synthetic rule. -/
structure Grammar.Faithful (g : Grammar) : Prop where
  indexed : g.Indexed
  rootUnasked : g.RootUnasked
  wellFormed : g.WellFormed
  acyclic : g.hasUnitCycle = false

variable {g g' : Grammar} {lexicon : Lexicon} {budget budget' : Budget} {words : List String}
  {trees trees' : List (Tree Category String)}

/-- Nothing is shown of an empty start category. -/
theorem Forest.trees_eq_nil {c : Chart} (h : c.Settled g) (hstart : g.start.isEpsilon = true) :
    (ofChart c g).trees = [] := by
  have hroots : (ofChart c g).roots = (c.rootSites g).map (c.siteNumber g) := rfl
  rw [trees, hroots, List.flatMap_map, List.flatMap_eq_nil_iff]
  intro site hsite
  have hempty : site.category.isEpsilon = true := (h.mem_rootSites.mp hsite).1 ▸ hstart
  rw [treesAt, node?_siteNumber h.traced (h.traced.explores_discover.2 site hsite)]
  simp [kindOf, hempty]

/-- The trees of a sentence are those of the forest of its chart. -/
theorem Grammar.parse_eq_ok : g.parse lexicon budget words = .ok trees ↔
    ∃ c, Chart.parse g lexicon budget words = .ok c ∧ (Forest.ofChart c g).trees = trees := by
  rw [parse, parseForest]
  cases Chart.parse g lexicon budget words <;> simp [Except.map]

namespace Grammar.Faithful

/-- No sentence has trees if the start category is empty. -/
theorem trees_eq_nil (hg : g.Faithful) (hstart : g.start.isEpsilon = true)
    (h : g.parse lexicon budget words = .ok trees) : trees = [] := by
  obtain ⟨c, hc, rfl⟩ := parse_eq_ok.mp h
  exact Forest.trees_eq_nil (Chart.settled_of_finished hg.indexed hg.rootUnasked hc).1 hstart

/-- The trees of a sentence show its parses, each once, if the start category is not empty. -/
theorem exists_parses (hg : g.Faithful) (hstart : g.start.isEpsilon = false)
    (h : g.parse lexicon budget words = .ok trees) :
    ∃ parses : List Parse, parses.Nodup ∧ (∀ t, t ∈ parses ↔ g.IsParseOf lexicon words t) ∧
      trees = parses.map (Parse.tree (fun k => words[k]?) 0) := by
  obtain ⟨c, hc, rfl⟩ := parse_eq_ok.mp h
  obtain ⟨hsettled, hlayout, hinput⟩ := Chart.settled_of_finished hg.indexed hg.rootUnasked hc
  obtain ⟨parses, hnodup, hparses, htrees⟩ :=
    (Forest.lists_ofChart hsettled hg.wellFormed hg.acyclic hstart).trees
  rw [Chart.word?_forSentence hinput] at htrees
  exact ⟨parses, hnodup, fun t => (hparses t).trans (Chart.isSentence_forSentence hlayout hinput), htrees⟩

/-- Two grammars have the same trees for a sentence if parses by the one become parses by the other under other
numbers, and come back. -/
theorem perm_trees (hg : g.Faithful) (hg' : g'.Faithful) (hstart : g'.start = g.start)
    {number back : Nat → Nat}
    (hnumber : ∀ t, g'.IsParseOf lexicon words t →
      g.IsParseOf lexicon words (t.renumber number) ∧ (t.renumber number).renumber back = t)
    (hback : ∀ t, g.IsParseOf lexicon words t →
      g'.IsParseOf lexicon words (t.renumber back) ∧ (t.renumber back).renumber number = t)
    (h : g.parse lexicon budget words = .ok trees) (h' : g'.parse lexicon budget' words = .ok trees') :
    trees'.Perm trees := by
  cases hempty : g.start.isEpsilon with
  | true => rw [hg.trees_eq_nil hempty h, hg'.trees_eq_nil (hstart ▸ hempty) h']
  | false =>
    obtain ⟨parses, hnodup, hparses, rfl⟩ := hg.exists_parses hempty h
    obtain ⟨parses', hnodup', hparses', rfl⟩ := hg'.exists_parses (hstart ▸ hempty) h'
    have hto : ∀ t ∈ parses', t.renumber number ∈ parses ∧ (t.renumber number).renumber back = t :=
      fun t ht => (hnumber t ((hparses' t).mp ht)).imp_left (hparses _).mpr
    have hfrom : ∀ t ∈ parses, t.renumber back ∈ parses' ∧ (t.renumber back).renumber number = t :=
      fun t ht => (hback t ((hparses t).mp ht)).imp_left (hparses' _).mpr
    exact Parse.map_tree_perm hnodup' hnodup hto hfrom _ 0

end Grammar.Faithful

end IndexedGrammar
