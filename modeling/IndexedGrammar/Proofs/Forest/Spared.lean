import IndexedGrammar.Proofs.Forest.Faithful
import IndexedGrammar.Proofs.Forest.Used

/-!
# Forests without a rule that no sentence uses

The parses by a grammar without some rule are the parses that do not apply it. So if no parse of a whole sentence
applies the rule, no site that a whole sentence leads to is made up with it, and the chart of the smaller grammar
reads alike: the whole sentences are the same, and so are the ways of making up their parts.
-/

namespace IndexedGrammar

variable {g g' : Grammar} {id : Nat} {input : Input} {last : Nat} {site : Site} {c d : Chart}

/-! Parses without a rule -/

namespace Grammar.Without

mutual

/-- The parses by a grammar without a rule are the parses that do not apply it. -/
theorem isParse_iff (h : g.Without id g') : (t : Parse) → {category : Category} →
    (g'.IsParse category t ↔ g.IsParse category t ∧ id ∉ t.rules)
  | .word _, category => by
    rw [IsParse, IsParse, h.isPartOfSpeech, Parse.rules]
    exact (and_iff_left List.not_mem_nil).symm
  | .nothing, category => by
    rw [IsParse, IsParse, Parse.rules]
    exact (and_iff_left List.not_mem_nil).symm
  | .apply lhs rule parts, category => by
    rw [IsParse, IsParse, h.isNonterminal, Parse.rules, List.mem_cons, not_or]
    simp only [h.mem_rules_iff, areParses_iff h parts]
    constructor
    · rintro ⟨hlhs, hsymbol, r, ⟨hr, hne⟩, hcategory, hparts, hnot⟩
      exact ⟨⟨hlhs, hsymbol, r, hr, hcategory, hparts⟩, hne.symm, hnot⟩
    · rintro ⟨⟨hlhs, hsymbol, r, hr, hcategory, hparts⟩, hne, hnot⟩
      exact ⟨hlhs, hsymbol, r, ⟨hr, Ne.symm hne⟩, hcategory, hparts, hnot⟩

/-- The same of several parses. -/
theorem areParses_iff (h : g.Without id g') : (ts : List Parse) → {categories : List Category} →
    (g'.AreParses categories ts ↔ g.AreParses categories ts ∧ id ∉ Parse.rulesOf ts)
  | [], [] => by simp [AreParses, Parse.rulesOf]
  | [], _ :: _ => by simp [AreParses]
  | _ :: _, [] => by simp [AreParses]
  | t :: ts, category :: categories => by
    rw [AreParses, AreParses, isParse_iff h t, areParses_iff h ts, Parse.rulesOf, List.mem_append, not_or,
      and_and_and_comm]

end

/-- A parse by a grammar without a rule covers what a parse covers that does not apply it. -/
theorem covers_iff (h : g.Without id g') {t : Parse} :
    Covers g' input last site t ↔ Covers g input last site t ∧ id ∉ t.rules := by
  constructor
  · intro hcovers
    obtain ⟨hparse, hnot⟩ := (h.isParse_iff t).mp hcovers.isParse
    exact ⟨⟨hparse, hcovers.stop_eq, hcovers.fits⟩, hnot⟩
  · intro hgiven
    exact ⟨(h.isParse_iff t).mpr ⟨hgiven.1.isParse, hgiven.2⟩, hgiven.1.stop_eq, hgiven.1.fits⟩

end Grammar.Without

/-- What is found without a rule is found with it. -/
theorem Site.Found.of_without (hwithout : g.Without id g') (h : site.Found g' input last) :
    site.Found g input last := by
  cases h with
  | nothing k hempty => exact .nothing k hempty
  | word hempty hpos hlast hallows => exact .word hempty (hwithout.isPartOfSpeech _ ▸ hpos) hlast hallows
  | completed hs hcompletes hroot hsymbol =>
    obtain ⟨l, hl⟩ := hs
    exact .completed ⟨l, hl.of_without hwithout⟩ ((hwithout.completes (hl.rule_ne hwithout)).mp hcompletes)
      hroot (hwithout.isNonterminal _ ▸ hsymbol)

/-! Charts without a rule -/

namespace Chart

/-- A chart, and one of the grammar without a rule that is applied in no parse of a whole sentence. -/
structure Spares (g : Grammar) (id : Nat) (g' : Grammar) (c d : Chart) : Prop where
  without : g.Without id g'
  left : c.Settled g
  right : d.Settled g'
  layout : d.layout = c.layout
  input : d.input = c.input
  unused : ∀ t, c.IsSentence g t → id ∉ t.rules

namespace Spares

variable (h : Spares g id g' c d)
include h

/-- The parses of whole sentences are the same. -/
theorem isSentence_iff {t : Parse} : d.IsSentence g' t ↔ c.IsSentence g t := by
  have hparse : g'.IsParse g'.start t ↔ g.IsParse g.start t ∧ id ∉ t.rules := by
    rw [h.without.start_eq, h.without.isParse_iff t]
  constructor
  · intro ht
    exact ⟨(hparse.mp ht.isParse).1, h.layout ▸ ht.isFinal, h.layout ▸ h.input ▸ ht.fits⟩
  · intro ht
    exact ⟨hparse.mpr ⟨ht.isParse, h.unused t ht⟩, h.layout.symm ▸ ht.isFinal,
      h.layout.symm ▸ h.input.symm ▸ ht.fits⟩

/-- The parses of a site with a node do not apply the rule. -/
theorem covers (hsite : c.HasNode g site) {t : Parse} (ht : Covers g c.input c.layout.last site t) :
    Covers g' c.input c.layout.last site t := by
  obtain ⟨-, -, htakes⟩ := hsite.takesPart h.left
  obtain ⟨u, hu, hrules⟩ := htakes t ht
  exact h.without.covers_iff.mpr ⟨ht, fun hmem => h.unused u hu (hrules hmem)⟩

/-- A way of making up a site with a node is on another rule, with a row of sites that are found without the rule, if
the site is. -/
theorem exists_row (hsite : c.HasNode g site) (hfound : site.Found g' c.input c.layout.last) {rule : Nat}
    {origin : Option Nat} {parts : List Site} (hway : (rule, origin, parts) ∈ c.waysOf g site) :
    ∃ r, (rule, r) ∈ g'.rules ∧ r.lhs = site.category ∧ r.origin = origin ∧
      Row (Site.Found g' c.input c.layout.last) site.start r.rhs site.stop parts := by
  obtain ⟨hfound₀, hlast, -⟩ := hsite.takesPart h.left
  have hsymbol := (Chart.mem_waysOf.mp hway).1
  obtain ⟨r, hr, hlhs, horigin, hrow⟩ := (h.left.mem_waysOf hfound₀ hsymbol).mp hway
  obtain ⟨ts, hts⟩ := exists_forall₂ fun part hpart => (h.left.parses_parts hfound₀ hlast hway part hpart).2
  have hcovers := h.covers hsite (h.left.covers_of_way hfound₀ hlast hway hts)
  obtain ⟨-, hsymbol', r', hr', hlhs', hparses⟩ := hcovers.isParse
  obtain ⟨-, hrule'⟩ := Grammar.mem_rules_iff.mp hr'
  obtain rfl := ((h.without.hasRule _ _).mp hrule').1.unique (Grammar.mem_rules_iff.mp hr).2
  -- the parts are where parses by the smaller grammar are found
  obtain ⟨l, hl⟩ := (hfound.wanted h.right.indexed hsymbol').1.begun h.right.indexed hrule' hlhs'
  have hparts := Covers.found_parts h.right.indexed ts hl hrule' hparses hcovers.fits
  have hsame : parts = rowOf site.start r'.rhs ts := hrow.eq_rowOf (hts.imp fun _ _ hpart => hpart.stop_eq)
  exact ⟨r', hr', hlhs, horigin, hrow.categories, hrow.adjacent, hsame ▸ hparts⟩

/-- Every site with a node is found without the rule. -/
theorem found (hsite : c.HasNode g site) : site.Found g' c.input c.layout.last := by
  refine (hsite.induction h.left.grounded (fun site => c.HasNode g site ∧ site.Found g' c.input c.layout.last)
    (fun site hroot => ?_) fun site hnode rule origin parts hway part hpart => ?_).2
  · have hnode := h.left.traced.explores_discover.2 site hroot
    obtain ⟨hcategory, hstart, hfinal, hfound⟩ := h.left.mem_rootSites.mp hroot
    obtain ⟨t, ht⟩ := hfound.exists_parse h.left.indexed h.left.rootUnasked (Layout.le_last_of_isFinal hfinal)
    have hcovers := h.covers hnode ht
    obtain ⟨category, start, stop⟩ := site
    obtain rfl : category = g'.start := hcategory.trans h.without.start_eq.symm
    obtain rfl : start = 0 := hstart
    exact ⟨hnode, Covers.found h.right.indexed .root h.right.indexed.expects_start hcovers⟩
  · obtain ⟨r, -, -, -, hrow⟩ := h.exists_row hnode.1 hnode.2 hway
    exact ⟨hnode.1.parts h.left.traced hway hpart, hrow.found part hpart⟩

/-- The chart without the rule reads alike. -/
theorem readAlike : ReadAlike g g' c d where
  left := h.left
  right := h.right
  isNonterminal_eq := h.without.isNonterminal
  rootSites_perm := by
    refine (List.perm_ext_iff_of_nodup (nodup_rootSites c g) (nodup_rootSites d g')).mpr fun site => ?_
    constructor
    · intro hroot
      have hfound := h.found (h.left.traced.explores_discover.2 site hroot)
      rw [h.left.mem_rootSites] at hroot
      rw [h.right.mem_rootSites, h.layout, h.input, h.without.start_eq]
      exact ⟨hroot.1, hroot.2.1, hroot.2.2.1, hfound⟩
    · intro hroot
      rw [h.right.mem_rootSites, h.layout, h.input, h.without.start_eq] at hroot
      exact h.left.mem_rootSites.mpr
        ⟨hroot.1, hroot.2.1, hroot.2.2.1, hroot.2.2.2.of_without h.without⟩
  waysOf_perm {site} hsite := by
    refine (List.perm_ext_iff_of_nodup (nodup_waysOf c g site) (nodup_waysOf d g' site)).mpr fun way => ?_
    obtain ⟨rule, origin, parts⟩ := way
    have hfound := h.found hsite
    have hfound' : site.Found g' d.input d.layout.last := by rwa [h.layout, h.input]
    cases hsymbol : g.isNonterminal site.category with
    | false => simp [Chart.mem_waysOf, hsymbol, h.without.isNonterminal]
    | true =>
      rw [h.right.mem_waysOf hfound' ((h.without.isNonterminal _).trans hsymbol), h.layout, h.input]
      constructor
      · exact h.exists_row hsite hfound
      · rintro ⟨r, hr, hlhs, horigin, hrow⟩
        refine (h.left.mem_waysOf (hfound.of_without h.without) hsymbol).mpr
          ⟨r, (h.without.mem_rules_iff.mp hr).1, hlhs, horigin, hrow.categories, hrow.adjacent, ?_⟩
        exact fun part hpart => (hrow.found part hpart).of_without h.without

end Spares

end Chart

/-- The forest without the rule has the same trees. -/
theorem Forest.trees_perm (h : Chart.Spares g id g' c d) (hg : g.WellFormed ∧ g.hasUnitCycle = false)
    (hg' : g'.WellFormed ∧ g'.hasUnitCycle = false) : (ofChart d g').trees.Perm (ofChart c g).trees := by
  cases hempty : g.start.isEpsilon with
  | true =>
    rw [trees_eq_nil h.left hempty, trees_eq_nil h.right (h.without.start_eq ▸ hempty)]
  | false =>
    obtain ⟨parses, hnodup, hparses, htrees⟩ := (lists_ofChart h.left hg.1 hg.2 hempty).trees
    obtain ⟨parses', hnodup', hparses', htrees'⟩ :=
      (lists_ofChart h.right hg'.1 hg'.2 (h.without.start_eq ▸ hempty)).trees
    have hwords : d.word? = c.word? := funext fun k => by rw [Chart.word?, h.input, Chart.word?]
    rw [htrees, htrees', hwords]
    refine List.Perm.map _ ((List.perm_ext_iff_of_nodup hnodup' hnodup).mpr fun t => ?_)
    rw [hparses', hparses, h.isSentence_iff]

end IndexedGrammar
