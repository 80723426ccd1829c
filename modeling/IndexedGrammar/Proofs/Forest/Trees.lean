import IndexedGrammar.Forest.Trees
import IndexedGrammar.Proofs.Choices
import IndexedGrammar.Proofs.Forest.Nodes
import Mathlib.Data.List.Perm.Subperm

/-!
# The trees of a forest

In a grammar without unit cycles the parts of a site are smaller than the site: they cover less, or they
cover the same and have a category of lower rank. So no tree comes back to a node above it, and by
induction on the size of a site the trees at its node are those that show its parses, each once.
-/

namespace IndexedGrammar

variable {g : Grammar} {input : Input} {last : Nat} {rank : Category → Nat}

/-! The sizes of sites -/

/-- The size of a site: how much it covers, and then the rank of its category. -/
def Site.size (rank : Category → Nat) (site : Site) : Nat ×ₗ Nat :=
  toLex (site.stop - site.start, rank site.category)

/-- A category that is found over nothing can be erased. -/
theorem Site.Found.erasable (hg : g.Indexed) (hunasked : g.RootUnasked) (hwell : g.WellFormed)
    {site : Site} (h : site.Found g input last) (hempty : site.stop = site.start) :
    g.Erasable site.category := by
  cases h with
  | nothing k hepsilon => exact .inl hepsilon
  | word => exact absurd hempty (Nat.succ_ne_self _)
  | @completed t c ht hcompletes hroot hsymbol =>
    obtain ⟨m, ht⟩ := ht
    obtain ⟨r, hr, -⟩ := ht.hasRule hg
    obtain ⟨r', hr', -, hlhs⟩ := Grammar.completes_iff.mp hcompletes
    obtain rfl := Option.some.inj (hr.rule?.symm.trans hr')
    obtain ⟨s, ⟨l, hs⟩, -, hexpects, -⟩ := ht.wanted_lhs hg hr hroot
    rw [hlhs] at hexpects
    exact hs.erasable_of_completes hg hunasked hwell ht hexpects
      (Grammar.isNonterminal_iff.mp hsymbol).1 hcompletes
      fun hq hi hc => ht.erasable hg hunasked hwell (Nat.le_of_eq hempty) hq hi hc

/-- The parts of what a rule makes up are smaller than the whole, unless they are empty. -/
theorem Row.size_lt (hg : g.Indexed) (hunasked : g.RootUnasked) (hwell : g.WellFormed)
    (hrank : g.Ranked rank) {rule start stop : Nat} {r : Rule} {parts : List Site}
    (h : Row (Site.Found g input last) start r.rhs stop parts) (hr : (rule, r) ∈ g.rules)
    {part : Site} (hpart : part ∈ parts) (hempty : part.category.isEpsilon = false) :
    part.size rank < Site.size rank ⟨r.lhs, start, stop⟩ := by
  have hwithin := h.within hpart
  have hle := (h.found part hpart).start_le_stop
  unfold Site.size
  by_cases hspan : part.stop - part.start < stop - start
  · exact Prod.Lex.toLex_lt_toLex.mpr (.inl hspan)
  · have hstart : part.start = start := by omega
    have hstop : part.stop = stop := by omega
    obtain ⟨i, hi⟩ := List.getElem?_of_mem hpart
    refine Prod.Lex.toLex_lt_toLex.mpr (.inr ⟨by simp only [hstart, hstop], ?_⟩)
    have hcategory {j : Nat} : r.rhs[j]? = parts[j]?.map Site.category := by
      rw [← h.categories, List.getElem?_map]
    refine hrank (i := i) hr (by rw [hcategory, hi, Option.map_some]) hempty fun j d hne hd => ?_
    rw [hcategory] at hd
    obtain ⟨other, hother, rfl⟩ := Option.map_eq_some_iff.mp hd
    have hfound := h.found other (List.mem_of_getElem? hother)
    exact hfound.erasable hg hunasked hwell (h.stop_eq_start hi hstart hstop hother hne)

namespace Forest

variable {c : Chart}

/-! Paths -/

/-- The nodes above a site, all different and all for larger sites. -/
structure Above (c : Chart) (g : Grammar) (rank : Category → Nat) (site : Site) (above : List Nat) :
    Prop where
  nodup : above.Nodup
  larger : ∀ id ∈ above, ∃ other, c.HasNode g other ∧ c.siteNumber g other = id ∧
    site.size rank < other.size rank

/-- A node is not above itself. -/
theorem Above.not_mem (h : c.Settled g) {site : Site} {above : List Nat}
    (habove : Above c g rank site above) (hsite : c.HasNode g site) :
    c.siteNumber g site ∉ above := by
  intro hmem
  obtain ⟨other, hother, hnumber, hlt⟩ := habove.larger _ hmem
  obtain rfl := Chart.HasNode.siteNumber_inj h.traced hother hsite hnumber
  exact lt_irrefl _ hlt

/-- The nodes above a site and its own are above every smaller site. -/
theorem Above.cons (h : c.Settled g) {site part : Site} {above : List Nat}
    (habove : Above c g rank site above) (hsite : c.HasNode g site)
    (hlt : part.size rank < site.size rank) :
    Above c g rank part (c.siteNumber g site :: above) where
  nodup := List.nodup_cons.mpr ⟨habove.not_mem h hsite, habove.nodup⟩
  larger id hid := by
    rcases List.mem_cons.mp hid with heq | hmem
    · exact ⟨site, hsite, heq.symm, hlt⟩
    · obtain ⟨other, hother, hnumber, hlt'⟩ := habove.larger id hmem
      exact ⟨other, hother, hnumber, lt_trans hlt hlt'⟩

/-- Different nodes are no more than there are nodes. -/
theorem length_le_size (h : c.Traced g) {ids : List Nat} (hnodup : ids.Nodup)
    (hids : ∀ id ∈ ids, ∃ site, c.HasNode g site ∧ c.siteNumber g site = id) :
    ids.length ≤ (ofChart c g).size := by
  have hsubset : ids ⊆ List.range (ofChart c g).size := by
    intro id hid
    obtain ⟨site, hsite, rfl⟩ := hids id hid
    exact List.mem_range.mpr (siteNumber_lt_size h hsite)
  have hlength := (hnodup.subperm hsubset).length_le
  rwa [List.length_range] at hlength

/-- There are fewer nodes above a node than there are nodes. -/
theorem Above.length_lt (h : c.Settled g) {site : Site} {above : List Nat}
    (habove : Above c g rank site above) (hsite : c.HasNode g site) :
    above.length < (ofChart c g).size := by
  have hnodup : (c.siteNumber g site :: above).Nodup :=
    List.nodup_cons.mpr ⟨habove.not_mem h hsite, habove.nodup⟩
  refine length_le_size h.traced hnodup fun id hid => ?_
  rcases List.mem_cons.mp hid with rfl | hmem
  · exact ⟨site, hsite, rfl⟩
  · obtain ⟨other, hother, hnumber, -⟩ := habove.larger id hmem
    exact ⟨other, hother, hnumber⟩

/-! Trees at a node -/

/-- The only tree at the node of a part of speech is a word. -/
theorem treesAt_word (h : c.Settled g) {site : Site} (hsite : c.HasNode g site)
    (hempty : site.category.isEpsilon = false) (hpos : g.isPartOfSpeech site.category = true)
    (depth : Nat) (above : List Nat) : (ofChart c g).treesAt (depth + 1) above (c.siteNumber g site) =
      [.leaf ((c.word? site.start).getD site.category.text) ⟨site.start, site.stop⟩] := by
  rw [treesAt, node?_siteNumber h.traced hsite]
  simp [kindOf, hempty, hpos]

/-- The trees at the node of a nonterminal take one way of making it up, and a tree for each part that is
not empty. -/
theorem treesAt_apply (h : c.Settled g) {site : Site} (hsite : c.HasNode g site)
    (hsymbol : g.isNonterminal site.category = true) (depth : Nat) {above : List Nat}
    (habove : c.siteNumber g site ∉ above) :
    (ofChart c g).treesAt (depth + 1) above (c.siteNumber g site) =
      (c.waysOf g site).flatMap fun way =>
        (((way.2.2.filter fun part => !part.category.isEpsilon).map fun part =>
          (ofChart c g).treesAt depth (c.siteNumber g site :: above)
            (c.siteNumber g part)).sections).map
          (.branch site.category ⟨site.start, site.stop⟩) := by
  obtain ⟨hempty, hpos⟩ := Grammar.isNonterminal_iff.mp hsymbol
  rw [treesAt, node?_siteNumber h.traced hsite]
  simp only [kindOf, hempty, hpos, Bool.false_eq_true, if_false, if_neg habove, List.flatMap_map]
  refine List.flatMap_congr fun way hway => ?_
  obtain ⟨rule, origin, parts⟩ := way
  -- the empty parts are those of the empty category
  have hparts : (parts.map (c.siteNumber g)).filter (fun child => !(ofChart c g).isEmptyNode child) =
      (parts.filter fun part => !part.category.isEpsilon).map (c.siteNumber g) := by
    rw [List.filter_map]
    refine congrArg (List.map _) (List.filter_congr fun part hpart => ?_)
    rw [Function.comp_apply, isEmptyNode_siteNumber h.traced (hsite.parts h.traced hway hpart)]
  simp only [hparts, List.map_map, Function.comp_def]
  split
  · next hnil =>
    rw [List.isEmpty_iff.mp hnil]
    rfl
  · next hne => rw [combinations_eq_sections fun hnil => hne (List.isEmpty_iff.mpr hnil)]

end Forest

end IndexedGrammar
