import IndexedGrammar.Forest.Parsing
import IndexedGrammar.Proofs.Chart.Insertion
import IndexedGrammar.Proofs.Forest.Enumeration
import IndexedGrammar.Proofs.Forest.Reached
import IndexedGrammar.Proofs.Sample

/-!
# Forests list exactly the parses

By induction on the size of a site, the trees at its node show its parses, each once. The roots of a
forest are the whole sentences that were found, so the trees of the forest show the parses of the start
category that fit the input, and there is no root if there is no such parse.
-/

namespace IndexedGrammar

namespace Forest

variable {g : Grammar} {c : Chart} {rank : Category → Nat} {site : Site}

/-! Nodes -/

/-- The parts of a node's site are smaller than the site, unless they are empty. -/
theorem part_lt (h : c.Settled g) (hwell : g.WellFormed) (hrank : g.Ranked rank)
    (hfound : site.Found g c.input c.layout.last) {rule : Nat} {origin : Option Nat} {parts : List Site}
    (hway : (rule, origin, parts) ∈ c.waysOf g site) {part : Site} (hpart : part ∈ parts)
    (hempty : part.category.isEpsilon = false) : part.size rank < site.size rank := by
  obtain ⟨r, hr, hlhs, -, hrow⟩ := (h.mem_waysOf hfound (Chart.mem_waysOf.mp hway).1).mp hway
  have hlt := hrow.size_lt h.indexed h.rootUnasked hwell hrank hr hpart hempty
  rwa [hlhs] at hlt

/-- The parses of a site are listed, and the trees at its node show them. Empty sites are not shown. -/
structure Shows (c : Chart) (g : Grammar) (rank : Category → Nat) (site : Site) (parses : List Parse) :
    Prop where
  enumerates : Enumerates g c.input c.layout.last site parses
  treesAt : site.category.isEpsilon = false → ∀ (depth : Nat) (above : List Nat),
    Above c g rank site above → depth + above.length = (ofChart c g).size + 1 →
    (ofChart c g).treesAt depth above (c.siteNumber g site) =
      parses.map (Parse.tree c.word? site.start)

/-- The parse of an empty site is listed. -/
theorem shows_nothing (hfound : site.Found g c.input c.layout.last)
    (hlast : site.stop ≤ c.layout.last) (hempty : site.category.isEpsilon = true) :
    Shows c g rank site [.nothing] where
  enumerates := enumerates_nothing hempty hfound hlast
  treesAt hempty' := absurd (hempty'.symm.trans hempty) Bool.false_ne_true

/-- The tree at the node of a part of speech shows its parse. -/
theorem shows_word (h : c.Settled g) (hfound : site.Found g c.input c.layout.last)
    (hnode : c.HasNode g site) (hempty : site.category.isEpsilon = false)
    (hpos : g.isPartOfSpeech site.category = true) :
    Shows c g rank site [.word site.category] where
  enumerates := enumerates_word hempty hpos hfound
  treesAt _ depth above habove hdepth := by
    obtain ⟨depth, rfl⟩ : ∃ d, depth = d + 1 :=
      Nat.exists_eq_succ_of_ne_zero (by have hlt := habove.length_lt h hnode; omega)
    have hcovers := ((enumerates_word hempty hpos hfound).mem_iff _).mp List.mem_cons_self
    have hstop : site.stop = site.start + 1 := hcovers.stop_eq
    rw [treesAt_word h hnode hempty hpos, hstop]
    rfl

/-- The trees at the node of a nonterminal show its applications, if the trees at its parts show the
parses of the parts. -/
theorem shows_applications (h : c.Settled g) (hwell : g.WellFormed) (hrank : g.Ranked rank)
    (hfound : site.Found g c.input c.layout.last) (hlast : site.stop ≤ c.layout.last)
    (hnode : c.HasNode g site) (hsymbol : g.isNonterminal site.category = true)
    {parses : Site → List Parse} (hparts : ∀ way ∈ c.waysOf g site, ∀ part ∈ way.2.2,
      Shows c g rank part (parses part)) :
    Shows c g rank site (applications c g parses site) where
  enumerates := enumerates_applications h hfound hlast hsymbol
    fun way hway part hpart => (hparts way hway part hpart).enumerates
  treesAt _ depth above habove hdepth := by
    obtain ⟨depth, rfl⟩ : ∃ d, depth = d + 1 :=
      Nat.exists_eq_succ_of_ne_zero (by have hlt := habove.length_lt h hnode; omega)
    rw [treesAt_apply h hnode hsymbol depth (habove.not_mem h hnode), applications, List.map_flatMap]
    refine List.flatMap_congr fun way hway => ?_
    obtain ⟨rule, origin, parts⟩ := way
    obtain ⟨r, -, -, -, hrow⟩ := (h.mem_waysOf hfound hsymbol).mp hway
    have henumerates (part : Site) (hpart : part ∈ parts) := (hparts _ hway part hpart).enumerates
    have htrees : (parts.filter fun part => !part.category.isEpsilon).map (fun part =>
        (ofChart c g).treesAt depth (c.siteNumber g site :: above) (c.siteNumber g part)) =
        (parts.filter fun part => !part.category.isEpsilon).map fun part =>
          (parses part).map (Parse.tree c.word? part.start) := by
      refine List.map_congr_left fun part hpart => ?_
      obtain ⟨hpart, hempty⟩ := List.mem_filter.mp hpart
      simp only [Bool.not_eq_true'] at hempty
      -- a part that is not empty is smaller, so it is not among the sites above
      have hlt := part_lt h hwell hrank hfound hway hpart hempty
      refine (hparts _ hway part hpart).treesAt hempty depth _ (habove.cons h hnode hlt) ?_
      rw [List.length_cons]
      omega
    dsimp only
    rw [htrees, sections_trees hrow hlast henumerates, List.map_map, List.map_map]
    refine List.map_congr_left fun ts hts => ?_
    obtain ⟨-, hstop, -⟩ := hrow.areParses (Nat.le_trans hfound.start_le_stop hlast)
      ((mem_sections_iff henumerates).mp hts)
    simp only [Function.comp_apply, Parse.tree, hstop]

/-- In a grammar without unit cycles the trees at the node of a site that is found show its parses. -/
theorem exists_shows (h : c.Settled g) (hwell : g.WellFormed) (hrank : g.Ranked rank)
    (hfound : site.Found g c.input c.layout.last) (hlast : site.stop ≤ c.layout.last)
    (hnode : c.HasNode g site) : ∃ parses, Shows c g rank site parses := by
  induction hsize : site.size rank using WellFoundedLT.induction generalizing site with
  | ind size ih =>
    subst hsize
    cases hempty : site.category.isEpsilon with
    | true => exact ⟨_, shows_nothing hfound hlast hempty⟩
    | false =>
      cases hpos : g.isPartOfSpeech site.category with
      | true => exact ⟨_, shows_word h hfound hnode hempty hpos⟩
      | false =>
        have hsymbol := Grammar.isNonterminal_iff.mpr ⟨hempty, hpos⟩
        have hparts (part : Site) (hpart : ∃ way ∈ c.waysOf g site, part ∈ way.2.2) :
            ∃ parses, Shows c g rank part parses := by
          obtain ⟨⟨rule, origin, parts⟩, hway, hpart⟩ := hpart
          obtain ⟨r, -, -, -, hrow⟩ := (h.mem_waysOf hfound hsymbol).mp hway
          have hfound' := hrow.found part hpart
          have hlast' := Nat.le_trans (hrow.within hpart).2 hlast
          cases hempty' : part.category.isEpsilon with
          | true => exact ⟨_, shows_nothing hfound' hlast' hempty'⟩
          | false =>
            have hlt := part_lt h hwell hrank hfound hway hpart hempty'
            exact ih _ hlt hfound' hlast' (hnode.parts h.traced hway hpart) rfl
        choose! parses hparses using hparts
        exact ⟨_, shows_applications h hwell hrank hfound hlast hnode hsymbol
          fun way hway part hpart => hparses part ⟨way, hway, hpart⟩⟩

/-- In a grammar without unit cycles the trees at every node show the parses of its site. -/
theorem exists_shows_nodes (h : c.Settled g) (hwell : g.WellFormed) (hrank : g.Ranked rank) :
    ∃ parses : Site → List Parse, ∀ site, c.HasNode g site → Shows c g rank site (parses site) := by
  have hnodes (site : Site) (hnode : c.HasNode g site) : ∃ parses, Shows c g rank site parses := by
    obtain ⟨hfound, hlast⟩ := hnode.found h
    exact exists_shows h hwell hrank hfound hlast hnode
  choose! parses hparses using hnodes
  exact ⟨parses, hparses⟩

/-! Forests -/

/-- The trees of a forest show certain parses, each once, and the forest is empty if there are none. -/
structure Lists (f : Forest) (isParse : Parse → Prop) (word? : Nat → Option String) : Prop where
  trees : ∃ parses : List Parse, parses.Nodup ∧ (∀ t, t ∈ parses ↔ isParse t) ∧
    f.trees = parses.map (Parse.tree word? 0)
  isEmpty_iff : f.isEmpty = true ↔ ∀ t, ¬isParse t

/-- What a forest lists can be described in another way. -/
theorem Lists.congr {f : Forest} {isParse isParse' : Parse → Prop} {word? : Nat → Option String}
    (h : f.Lists isParse word?) (hiff : ∀ t, isParse t ↔ isParse' t) : f.Lists isParse' word? := by
  obtain rfl : isParse = isParse' := funext fun t => propext (hiff t)
  exact h

/-- The forest of a chart is empty if there are no whole sentences. -/
theorem isEmpty_ofChart : (ofChart c g).isEmpty = true ↔ c.rootSites g = [] := by
  rw [isEmpty, List.isEmpty_iff]
  exact List.map_eq_nil_iff

/-- The trees of a forest show the parses of the whole sentences. -/
theorem trees_ofChart (h : c.Settled g) (hstart : g.start.isEpsilon = false) {parses : Site → List Parse}
    (hparses : ∀ site, c.HasNode g site → Shows c g rank site (parses site)) :
    (ofChart c g).trees = ((c.rootSites g).flatMap parses).map (Parse.tree c.word? 0) := by
  have hroots : (ofChart c g).roots = (c.rootSites g).map (c.siteNumber g) := rfl
  rw [trees, hroots, List.flatMap_map, List.map_flatMap]
  refine List.flatMap_congr fun site hsite => ?_
  obtain ⟨hcategory, hzero, -, -⟩ := h.mem_rootSites.mp hsite
  have htop : Above c g rank site [] := ⟨List.nodup_nil, fun id hid => absurd hid List.not_mem_nil⟩
  have hshows := hparses site (h.traced.explores_discover.2 site hsite)
  rw [hshows.treesAt (hcategory ▸ hstart) _ [] htop (Nat.add_zero _), hzero]

/-- The forest of a chart lists the parses of the whole sentences. -/
theorem lists_ofChart (h : c.Settled g) (hwell : g.WellFormed) (hcycle : g.hasUnitCycle = false)
    (hstart : g.start.isEpsilon = false) : (ofChart c g).Lists (c.IsSentence g) c.word? := by
  obtain ⟨rank, hrank⟩ := Grammar.exists_ranked hwell hcycle
  obtain ⟨parses, hparses⟩ := exists_shows_nodes h hwell hrank
  have henumerates (site : Site) (hsite : site ∈ c.rootSites g) :
      Enumerates g c.input c.layout.last site (parses site) :=
    (hparses site (h.traced.explores_discover.2 site hsite)).enumerates
  have hmem (t : Parse) : t ∈ (c.rootSites g).flatMap parses ↔ c.IsSentence g t := by
    rw [List.mem_flatMap, ← h.covers_rootSites_iff]
    exact exists_congr fun site => and_congr_right fun hsite => (henumerates site hsite).mem_iff t
  refine ⟨⟨(c.rootSites g).flatMap parses, ?_, hmem, trees_ofChart h hstart hparses⟩, ?_⟩
  · refine nodup_flatMap_of_inj (Chart.nodup_rootSites c g) (fun site hsite => (henumerates site hsite).nodup)
      fun a ha b hb t hta htb => ?_
    -- a parse covers only one sentence
    obtain ⟨hcategory, hstart, -, -⟩ := h.mem_rootSites.mp ha
    obtain ⟨hcategory', hstart', -, -⟩ := h.mem_rootSites.mp hb
    have hstop := (((henumerates a ha).mem_iff t).mp hta).stop_eq
    have hstop' := (((henumerates b hb).mem_iff t).mp htb).stop_eq
    cases a
    cases b
    simp only at hcategory hstart hcategory' hstart' hstop hstop'
    subst hcategory hstart hcategory' hstart' hstop hstop'
    rfl
  · exact isEmpty_ofChart.trans h.rootSites_eq_nil_iff

end Forest

/-! Charts that are built -/

/-- A finished chart comes from a run that was not given up. -/
theorem Editor.finished_eq_ok {outcome : Except Breach (Editor × Option Fault)} {e : Editor} :
    Editor.finished outcome = .ok e ↔ outcome = .ok (e, none) := by
  unfold finished
  split
  · simp
  · simp
  · simp [eq_comm]

namespace Chart

variable {g : Grammar} {c : Chart}

/-- A chart that was built to the end was not given up. -/
theorem build_of_finished {layout : Layout} {input : Input} {budget : Budget}
    (h : (Editor.finished ((Editor.new (new layout input) budget).build g)).map Editor.chart = .ok c) :
    (new layout input).build g budget = .ok (c, none) := by
  unfold build
  cases hfinished : Editor.finished ((Editor.new (new layout input) budget).build g) with
  | error failure => simp [hfinished, Except.map] at h
  | ok e =>
    obtain rfl : e.chart = c := by simpa [hfinished, Except.map] using h
    rw [Editor.finished_eq_ok.mp hfinished]
    rfl

/-- A chart that was built to the end is readable. -/
theorem readable_of_finished (hg : g.Indexed) {layout : Layout} {input : Input} {budget : Budget}
    (h : (Editor.finished ((Editor.new (new layout input) budget).build g)).map Editor.chart = .ok c) :
    c.Readable g ∧ c.layout = layout ∧ c.input = input := by
  obtain ⟨-, hjustified, hfiled, hlayout, hinput⟩ := build_spec (build_of_finished h)
  exact ⟨⟨hg, hfiled, hjustified⟩, hlayout, hinput⟩

/-- A chart that was built to the end is settled. -/
theorem settled_of_finished (hg : g.Indexed) (hunasked : g.RootUnasked) {layout : Layout} {input : Input}
    {budget : Budget}
    (h : (Editor.finished ((Editor.new (new layout input) budget).build g)).map Editor.chart = .ok c) :
    c.Settled g ∧ c.layout = layout ∧ c.input = input := by
  obtain ⟨hholds, hfiled, hlayout, hinput⟩ := build_holds hg hunasked (build_of_finished h)
  exact ⟨⟨hg, hunasked, hfiled, hholds⟩, hlayout, hinput⟩

/-- A parse fits a sentence if its leaves are parts of speech that the words can have. -/
theorem isSentence_forSentence {lexicon : Lexicon} {words : List String}
    (hlayout : c.layout = (forSentence lexicon words).layout)
    (hinput : c.input = (forSentence lexicon words).input) {t : Parse} :
    c.IsSentence g t ↔ g.IsParse g.start t ∧
      List.Forall₂ (fun category word => category ∈ lexicon.categories word) t.yield words := by
  have hlast : c.layout.last = words.length := by rw [hlayout]; rfl
  have hfinal (k : Nat) : c.layout.isFinal k = true ↔ k = words.length := by
    rw [hlayout]
    exact decide_eq_true_iff
  have hallows (k : Nat) (category : Category) : c.input.allows k category = true ↔
      ∃ word, words[k]? = some word ∧ category ∈ lexicon.categories word := by
    rw [hinput]
    simp only [forSentence, new, Input.allows, List.getElem?_toArray, List.getElem?_map]
    cases words[k]? <;> simp
  constructor
  · intro hgiven
    obtain ⟨hparse, hend, hfits⟩ := hgiven
    refine ⟨hparse, List.forall₂_iff_get.mpr ⟨(hfinal _).mp hend, fun i hi hi' => ?_⟩⟩
    obtain ⟨word, hword, hmem⟩ :=
      (hallows _ _).mp (hfits.allows i _ (List.getElem?_eq_getElem hi))
    rw [Nat.zero_add, List.getElem?_eq_getElem hi'] at hword
    obtain rfl := Option.some.inj hword
    exact hmem
  · intro hgiven
    obtain ⟨hparse, hwords⟩ := hgiven
    obtain ⟨hlength, hmem⟩ := List.forall₂_iff_get.mp hwords
    refine ⟨hparse, (hfinal _).mpr hlength, by omega, fun i category hi => (hallows _ _).mpr ?_⟩
    obtain ⟨hlt, rfl⟩ := List.getElem?_eq_some_iff.mp hi
    have hlt' : i < words.length := hlength ▸ hlt
    exact ⟨words[i], by rw [Nat.zero_add, List.getElem?_eq_getElem hlt'], hmem i hlt hlt'⟩

/-- A parse fits what is generated if it is short enough. -/
theorem isSentence_forGeneration {length : Nat} (hlayout : c.layout = (forGeneration length).layout)
    (hinput : c.input = (forGeneration length).input) {t : Parse} :
    c.IsSentence g t ↔ g.IsParse g.start t ∧ t.yield.length ≤ length := by
  have hlast : c.layout.last = length := by rw [hlayout]; rfl
  have hfinal (k : Nat) : c.layout.isFinal k = true ↔ k ≤ length := by
    rw [hlayout]
    exact decide_eq_true_iff
  constructor
  · intro hgiven
    obtain ⟨hparse, hend, _⟩ := hgiven
    exact ⟨hparse, (hfinal _).mp hend⟩
  · intro hgiven
    obtain ⟨hparse, hlength⟩ := hgiven
    refine ⟨hparse, (hfinal _).mpr hlength, by omega, fun i category _ => ?_⟩
    rw [hinput]
    rfl

/-- The words of a sentence are known. -/
theorem word?_forSentence {lexicon : Lexicon} {words : List String}
    (hinput : c.input = (forSentence lexicon words).input) : c.word? = fun k => words[k]? := by
  funext k
  simp [word?, hinput, forSentence, new, Function.comp_def]

/-- What is generated has no words. -/
theorem word?_forGeneration (length : Nat) (hinput : c.input = (forGeneration length).input) :
    c.word? = fun _ => none := by
  funext k
  rw [word?, hinput]
  rfl

end Chart

namespace Grammar

/-- The forest of a sentence is that of its chart. -/
theorem parseForest_eq_ok {g : Grammar} {lexicon : Lexicon} {budget : Budget} {words : List String}
    {forest : Forest} : g.parseForest lexicon budget words = .ok forest ↔
      ∃ c, Chart.parse g lexicon budget words = .ok c ∧ Forest.ofChart c g = forest := by
  rw [parseForest]
  cases Chart.parse g lexicon budget words <;> simp [Except.map]

/-- The forest of everything up to a length is that of its chart. -/
theorem generate_eq_ok {g : Grammar} {budget : Budget} {length : Nat} {forest : Forest} :
    g.generate budget length = .ok forest ↔
      ∃ c, Chart.generate g budget length = .ok c ∧ Forest.ofChart c g = forest := by
  rw [generate]
  cases Chart.generate g budget length <;> simp [Except.map]

/-- In a grammar of well-formed rules without unit cycles, whose synthetic name stands nowhere else and
whose start category is not empty, a forest lists exactly the parses of the start category: those whose
leaves are categories of the words of a sentence, or those that are short enough. Parts of speech are not
expanded, even if there are rules for them. -/
theorem forest_lists {g : Grammar} (hg : g.Reachable) (hwell : g.WellFormed)
    (hcycle : g.hasUnitCycle = false) (hunused : g.RootUnused) (hstart : g.start.isEpsilon = false)
    (lexicon : Lexicon) (budget : Budget) :
    (∀ words forest, g.parseForest lexicon budget words = .ok forest →
      g.parse lexicon budget words = .ok forest.trees ∧
      forest.Lists (fun t => g.IsParse g.start t ∧
        List.Forall₂ (fun category word => category ∈ lexicon.categories word) t.yield words)
        (fun k => words[k]?)) ∧
    (∀ length forest, g.generate budget length = .ok forest →
      forest.Lists (fun t => g.IsParse g.start t ∧ t.yield.length ≤ length) (fun _ => none)) := by
  constructor
  · intro words forest h
    refine ⟨by rw [parse, h]; rfl, ?_⟩
    obtain ⟨c, hchart, rfl⟩ := parseForest_eq_ok.mp h
    obtain ⟨hc, hlayout, hinput⟩ := Chart.settled_of_finished hg.indexed hunused.unasked hchart
    have hlists := Forest.lists_ofChart hc hwell hcycle hstart
    rw [Chart.word?_forSentence hinput] at hlists
    exact hlists.congr fun t => Chart.isSentence_forSentence hlayout hinput
  · intro length forest h
    obtain ⟨c, hchart, rfl⟩ := generate_eq_ok.mp h
    obtain ⟨hc, hlayout, hinput⟩ := Chart.settled_of_finished hg.indexed hunused.unasked hchart
    have hlists := Forest.lists_ofChart hc hwell hcycle hstart
    rw [Chart.word?_forGeneration length hinput] at hlists
    exact hlists.congr fun t => Chart.isSentence_forGeneration hlayout hinput

open Sample in
/-- The forest of two words lists their parses as a list, and so does the forest of all lists of at most
three words. -/
theorem forest_lists_words : ∃ sentence all : Forest,
    lists.parseForest words ample ["a", "b"] = .ok sentence ∧ lists.generate ample 3 = .ok all ∧
    sentence.Lists (fun t => lists.IsParse list t ∧ List.Forall₂ (fun category word =>
      category ∈ words.categories word) t.yield ["a", "b"]) (fun k => ["a", "b"][k]?) ∧
    all.Lists (fun t => lists.IsParse list t ∧ t.yield.length ≤ 3) (fun _ => none) := by
  have hsentence : (lists.parseForest words ample ["a", "b"]).toOption.isSome = true := by
    decide +kernel
  have hall : (lists.generate ample 3).toOption.isSome = true := by
    decide +kernel
  obtain ⟨sentence, hsentence⟩ := Option.isSome_iff_exists.mp hsentence
  obtain ⟨all, hall⟩ := Option.isSome_iff_exists.mp hall
  have hsentence := ok_of_toOption hsentence
  have hall := ok_of_toOption hall
  obtain ⟨hparse, hgenerate⟩ := forest_lists (.insert longer reachable_singles) wellFormed_lists
    (by decide +kernel) rootUnused_lists (by decide) words ample
  exact ⟨sentence, all, hsentence, hall, (hparse _ sentence hsentence).2, hgenerate _ all hall⟩

end Grammar

end IndexedGrammar
