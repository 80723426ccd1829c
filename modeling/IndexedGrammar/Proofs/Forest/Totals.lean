import IndexedGrammar.Proofs.Forest.Tally

/-!
# Listing and counting trees

The trees of a forest can be listed, counted all at once, or counted up to a height. The trees listed show the
parses of the whole sentences, and either count is of the same parses, so the three agree.
-/

namespace IndexedGrammar

variable {g : Grammar} {c : Chart} {rank : Category → Nat} {site : Site} {parses : Site → List Parse}

/-- The parses that are no taller than a bound are found among all parses. -/
theorem EnumeratesWithin.length_eq {input : Input} {last depth : Nat} {within all : List Parse}
    (h : EnumeratesWithin g input last depth site within) (h' : Enumerates g input last site all) :
    within.length = all.countP fun t => t.height ≤ depth := by
  rw [List.countP_eq_length_filter]
  refine ((List.perm_ext_iff_of_nodup h.nodup (h'.nodup.filter _)).mpr fun t => ?_).length_eq
  rw [h.mem_iff, List.mem_filter, h'.mem_iff, decide_eq_true_eq]

namespace Forest

/-- The trees of a forest up to a height are counted as the parses of the whole sentences that are no taller. -/
theorem treeCountWithin_eq (h : c.Settled g)
    (hparses : ∀ site, c.HasNode g site → Enumerates g c.input c.layout.last site (parses site)) (depth : Nat) :
    (ofChart c g).treeCountWithin depth =
      capped (((c.rootSites g).flatMap parses).countP fun t => t.height ≤ depth) := by
  rw [treeCountWithin_ofChart h.traced, cappedSum_eq, List.countP_flatMap]
  refine capped_map_sum_congr fun site hsite => ?_
  have hnode := h.traced.explores_discover.2 site hsite
  obtain ⟨hfound, hlast⟩ := hnode.found h
  obtain ⟨within, hwithin, hcount⟩ := exists_countsWithin h hfound hlast depth
  rw [hcount, capped_capped, hwithin.length_eq (hparses site hnode)]
  rfl

/-- The trees of a forest are as tall as the parses that they show. -/
theorem countP_trees (h : c.Settled g) (hstart : g.start.isEpsilon = false)
    (hparses : ∀ site, c.HasNode g site → Shows c g rank site (parses site)) (depth : Nat) :
    ((ofChart c g).trees.countP fun t => t.height ≤ depth) =
      ((c.rootSites g).flatMap parses).countP fun t => t.height ≤ depth := by
  rw [trees_ofChart h hstart hparses, List.countP_map]
  refine List.countP_congr fun t ht => ?_
  obtain ⟨site, hsite, ht⟩ := List.mem_flatMap.mp ht
  have henumerates := (hparses site (h.traced.explores_discover.2 site hsite)).enumerates
  have hnothing : t.isNothing = false := by
    rw [((henumerates.mem_iff t).mp ht).isParse.isNothing_eq, (h.mem_rootSites.mp hsite).1, hstart]
  rw [Function.comp_apply, Parse.height_tree c.word? t 0 hnothing]

/-- No node of a forest is below itself, all its trees are counted, and so are its trees up to a height: more with
a greater height, and all of them from some height on. -/
structure Tallied (f : Forest) : Prop where
  acyclic : ∀ id, ¬Relation.TransGen f.HasChild id id
  treeCount_eq : f.treeCount = capped f.trees.length
  treeCountWithin_eq : ∀ depth, f.treeCountWithin depth = capped (f.trees.countP fun t => t.height ≤ depth)
  monotone : Monotone f.treeCountWithin
  exists_eq : ∃ depth, ∀ deeper, depth ≤ deeper → f.treeCountWithin deeper = f.treeCount

/-- Counts of the trees that are listed grow with the height until all trees are counted. -/
theorem tallied_of_counts {f : Forest} (hacyclic : ∀ id, ¬Relation.TransGen f.HasChild id id)
    (hcount : f.treeCount = capped f.trees.length)
    (hwithin : ∀ depth, f.treeCountWithin depth = capped (f.trees.countP fun t => t.height ≤ depth)) :
    f.Tallied where
  acyclic := hacyclic
  treeCount_eq := hcount
  treeCountWithin_eq := hwithin
  monotone depth deeper hle := by
    rw [hwithin, hwithin]
    refine min_le_min_right countCap (List.countP_mono_left fun t _ ht => ?_)
    exact decide_eq_true (Nat.le_trans (of_decide_eq_true ht) hle)
  exists_eq := by
    refine ⟨(f.trees.map Tree.height).sum, fun deeper hle => ?_⟩
    rw [hwithin, hcount, List.countP_eq_length.mpr fun t ht => decide_eq_true ?_]
    exact Nat.le_trans (List.le_sum_of_mem (List.mem_map_of_mem ht)) hle

/-- The trees of the forest of a settled chart are listed and counted alike. -/
theorem tallied_ofChart (h : c.Settled g) (hwell : g.WellFormed) (hcycle : g.hasUnitCycle = false)
    (hstart : g.start.isEpsilon = false) : (ofChart c g).Tallied := by
  obtain ⟨rank, hrank⟩ := Grammar.exists_ranked hwell hcycle
  obtain ⟨parses, hparses⟩ := exists_shows_nodes h hwell hrank
  have henumerates (site : Site) (hsite : c.HasNode g site) := (hparses site hsite).enumerates
  refine tallied_of_counts (not_below_itself h hwell hcycle) ?_ fun depth => ?_
  · rw [treeCount_ofChart h hwell hrank henumerates, trees_ofChart h hstart hparses, List.length_map]
  · rw [treeCountWithin_eq h henumerates, countP_trees h hstart hparses]

end Forest

namespace Grammar

/-- In a grammar without unit cycles, in which the synthetic name is used nowhere else, no node of the forest of a
sentence or of everything up to a length is below itself, its trees are as many as are counted, and those up to a
height are as many as are counted up to it. -/
theorem forest_tallied {g : Grammar} (hg : g.Reachable) (hwell : g.WellFormed) (hcycle : g.hasUnitCycle = false)
    (hunused : g.RootUnused) (hstart : g.start.isEpsilon = false) (lexicon : Lexicon) (budget : Budget) :
    (∀ words forest, g.parseForest lexicon budget words = .ok forest → forest.Tallied) ∧
      ∀ length forest, g.generate budget length = .ok forest → forest.Tallied := by
  refine ⟨fun words forest h => ?_, fun length forest h => ?_⟩
  · obtain ⟨c, hchart, rfl⟩ := parseForest_eq_ok.mp h
    obtain ⟨hc, -⟩ := Chart.settled_of_finished hg.indexed hunused.unasked hchart
    exact Forest.tallied_ofChart hc hwell hcycle hstart
  · obtain ⟨c, hchart, rfl⟩ := generate_eq_ok.mp h
    obtain ⟨hc, -⟩ := Chart.settled_of_finished hg.indexed hunused.unasked hchart
    exact Forest.tallied_ofChart hc hwell hcycle hstart

open Sample in
/-- The lists of at most three words have a tree for each length, and those of two words the tree of height 2. -/
theorem forest_tallied_lists : ∃ sentence all : Forest,
    lists.parseForest words ample ["a", "b"] = .ok sentence ∧ lists.generate ample 3 = .ok all ∧
    sentence.Tallied ∧ all.Tallied ∧ all.trees.length = 3 ∧ all.treeCount = 3 ∧
    sentence.treeCountWithin 1 = 0 ∧ sentence.treeCountWithin 2 = 1 := by
  have hsentence : ((lists.parseForest words ample ["a", "b"]).toOption.any fun sentence =>
      sentence.treeCountWithin 1 = 0 && sentence.treeCountWithin 2 = 1) = true := by
    decide +kernel
  have hall : ((lists.generate ample 3).toOption.any fun all =>
      all.trees.length = 3 && all.treeCount = 3) = true := by
    decide +kernel
  obtain ⟨sentence, hsentence, hcounts⟩ := exists_ok_of_any hsentence
  obtain ⟨all, hall, htrees⟩ := exists_ok_of_any hall
  obtain ⟨hshort, htaller⟩ := Bool.and_eq_true_iff.mp hcounts
  obtain ⟨hlisted, hcounted⟩ := Bool.and_eq_true_iff.mp htrees
  obtain ⟨hparse, hgenerate⟩ := forest_tallied (.insert longer reachable_singles) wellFormed_lists
    (by decide +kernel) rootUnused_lists (by decide) words ample
  exact ⟨sentence, all, hsentence, hall, hparse _ sentence hsentence, hgenerate _ all hall,
    of_decide_eq_true hlisted, of_decide_eq_true hcounted, of_decide_eq_true hshort, of_decide_eq_true htaller⟩

end Grammar

end IndexedGrammar
