import IndexedGrammar.Forest.Count
import IndexedGrammar.Proofs.Counter.Overflow
import IndexedGrammar.Proofs.Forest.Alike
import IndexedGrammar.Proofs.Forest.Exact

/-!
# Forests count derivations

The trees counted at a site up to a height are the parses that cover the site and are no taller. So the
counts of a forest by the length of the sentence are the numbers of parses of whole sentences, and those of
the forest of everything up to a length are what a counter counts for the start category.
-/

namespace IndexedGrammar

variable {g : Grammar} {c : Chart} {site : Site}

/-! Trees at a site -/

/-- The parses that cover a site and are no taller than a bound, each once. -/
structure EnumeratesWithin (g : Grammar) (input : Input) (last depth : Nat) (site : Site)
    (parses : List Parse) : Prop where
  nodup : parses.Nodup
  mem_iff : ∀ t, t ∈ parses ↔ Covers g input last site t ∧ t.height ≤ depth

/-- A site that is not of a nonterminal has one parse, of height 0. -/
theorem exists_enumerates_flat (hsymbol : g.isNonterminal site.category = false)
    (hfound : site.Found g c.input c.layout.last) (hlast : site.stop ≤ c.layout.last) :
    ∃ t, Enumerates g c.input c.layout.last site [t] ∧ t.height = 0 := by
  cases hempty : site.category.isEpsilon with
  | true => exact ⟨_, enumerates_nothing hempty hfound hlast, rfl⟩
  | false =>
    have hpos : g.isPartOfSpeech site.category = true := by
      simpa [Grammar.isNonterminal, hempty] using hsymbol
    exact ⟨_, enumerates_word hempty hpos hfound, rfl⟩

/-- The parse of a site that is not of a nonterminal is no taller than any bound. -/
theorem enumeratesWithin_flat (hsymbol : g.isNonterminal site.category = false)
    (hfound : site.Found g c.input c.layout.last) (hlast : site.stop ≤ c.layout.last) (depth : Nat) :
    ∃ t, EnumeratesWithin g c.input c.layout.last depth site [t] := by
  obtain ⟨t, ht, hflat⟩ := exists_enumerates_flat hsymbol hfound hlast
  refine ⟨t, ht.nodup, fun s => (ht.mem_iff s).trans ⟨fun hcovers => ⟨hcovers, ?_⟩, And.left⟩⟩
  obtain rfl := List.mem_singleton.mp ((ht.mem_iff s).mpr hcovers)
  exact hflat ▸ Nat.zero_le depth

/-- The applications of parses that are no taller than a bound are the parses that are no taller than the
next one. -/
theorem enumeratesWithin_applications (hc : c.Settled g) (hfound : site.Found g c.input c.layout.last)
    (hlast : site.stop ≤ c.layout.last) (hsymbol : g.isNonterminal site.category = true)
    {parses : Site → List Parse} {depth : Nat} (h : ∀ way ∈ c.waysOf g site, ∀ part ∈ way.2.2,
      EnumeratesWithin g c.input c.layout.last depth part (parses part)) :
    EnumeratesWithin g c.input c.layout.last (depth + 1) site (applications c g parses site) where
  nodup := nodup_applications hc hfound hsymbol (fun _ _ hcovers => hcovers.1)
    fun way hway part hpart => ⟨(h way hway part hpart).nodup, (h way hway part hpart).mem_iff⟩
  mem_iff t := by
    rw [mem_applications fun way hway part hpart => (h way hway part hpart).mem_iff,
      covers_iff_exists_way hc hfound hlast hsymbol]
    constructor
    · intro hgiven
      obtain ⟨way, hway, ts, hts, rfl⟩ := hgiven
      obtain ⟨hcovers, hheights⟩ := Parse.forall₂_height_le.mp hts
      exact ⟨⟨way, hway, ts, hcovers, rfl⟩, Nat.succ_le_succ hheights⟩
    · intro hgiven
      obtain ⟨⟨way, hway, ts, hcovers, rfl⟩, hheight⟩ := hgiven
      exact ⟨way, hway, ts, Parse.forall₂_height_le.mpr ⟨hcovers, Nat.le_of_succ_le_succ hheight⟩, rfl⟩

/-- Applications are counted by adding over the ways and multiplying over the parts. -/
theorem length_applications (c : Chart) (g : Grammar) (parses : Site → List Parse) (site : Site) :
    (applications c g parses site).length = ((c.waysOf g site).map fun way =>
      (way.2.2.map fun part => (parses part).length).prod).sum := by
  simp [applications, List.length_flatMap, length_sections, Function.comp_def]

/-- If some parses are counted at each part of a site, their applications are counted by adding over the ways and
multiplying over the parts. -/
theorem cappedSum_applications {count : Site → Nat} {parses : Site → List Parse}
    (h : ∀ way ∈ c.waysOf g site, ∀ part ∈ way.2.2, count part = capped (parses part).length) :
    cappedSum ((c.waysOf g site).map fun way => cappedProduct (way.2.2.map count)) =
      capped (applications c g parses site).length := by
  rw [cappedSum_eq, length_applications]
  refine capped_map_sum_congr fun way hway => ?_
  rw [cappedProduct_eq, capped_capped]
  refine capped_map_prod_congr fun part hpart => ?_
  rw [h way hway part hpart, capped_capped]

/-- If the trees counted at the parts of a nonterminal are some parses, those counted at the nonterminal, one
level up, are their applications. -/
theorem treesWithin_succ_eq (hsymbol : g.isNonterminal site.category = true) {parses : Site → List Parse}
    {depth : Nat} (h : ∀ way ∈ c.waysOf g site, ∀ part ∈ way.2.2,
      c.treesWithin g depth part = capped (parses part).length) :
    c.treesWithin g (depth + 1) site = capped (applications c g parses site).length := by
  rw [Chart.treesWithin, if_pos hsymbol, cappedSum_applications h]

/-- The trees counted at a site are some parses: those that cover it and are no taller than a bound. -/
def CountsWithin (c : Chart) (g : Grammar) (depth : Nat) (site : Site) (parses : List Parse) : Prop :=
  EnumeratesWithin g c.input c.layout.last depth site parses ∧
    c.treesWithin g depth site = capped parses.length

/-- One tree is counted at a site that is not of a nonterminal. -/
theorem treesWithin_flat (hsymbol : g.isNonterminal site.category = false) (depth : Nat) :
    c.treesWithin g depth site = 1 := by
  cases depth <;> simp [Chart.treesWithin, hsymbol]

/-- The one tree counted at a site that is not of a nonterminal is its parse. -/
theorem countsWithin_flat (hsymbol : g.isNonterminal site.category = false)
    (hfound : site.Found g c.input c.layout.last) (hlast : site.stop ≤ c.layout.last) (depth : Nat) :
    ∃ parses, CountsWithin c g depth site parses := by
  obtain ⟨t, ht⟩ := enumeratesWithin_flat hsymbol hfound hlast depth
  exact ⟨[t], ht, treesWithin_flat hsymbol depth⟩

/-- No tree of height 0 is counted at the site of a nonterminal. -/
theorem countsWithin_zero (hsymbol : g.isNonterminal site.category = true) : CountsWithin c g 0 site [] := by
  refine ⟨⟨List.nodup_nil, fun t => ⟨fun ht => absurd ht List.not_mem_nil, fun hgiven => ?_⟩⟩, ?_⟩
  · obtain ⟨hcovers, hheight⟩ := hgiven
    obtain ⟨rule, r, ts, rfl, -⟩ := (covers_apply_iff hsymbol).mp hcovers
    exact absurd hheight (Nat.not_succ_le_zero _)
  · simp [Chart.treesWithin, hsymbol, capped]

/-- The trees counted at the site of a nonterminal apply its rules to those that are counted at the parts. -/
theorem countsWithin_applications (hc : c.Settled g) (hfound : site.Found g c.input c.layout.last)
    (hlast : site.stop ≤ c.layout.last) (hsymbol : g.isNonterminal site.category = true)
    {parses : Site → List Parse} {depth : Nat}
    (h : ∀ way ∈ c.waysOf g site, ∀ part ∈ way.2.2, CountsWithin c g depth part (parses part)) :
    CountsWithin c g (depth + 1) site (applications c g parses site) := by
  refine ⟨enumeratesWithin_applications hc hfound hlast hsymbol
    fun way hway part hpart => (h way hway part hpart).1, ?_⟩
  exact treesWithin_succ_eq hsymbol fun way hway part hpart => (h way hway part hpart).2

/-- The trees counted at a site that is found are the parses that cover it and are no taller. -/
theorem exists_countsWithin (hc : c.Settled g) (hfound : site.Found g c.input c.layout.last)
    (hlast : site.stop ≤ c.layout.last) (depth : Nat) : ∃ parses, CountsWithin c g depth site parses := by
  induction depth generalizing site with
  | zero =>
    cases hsymbol : g.isNonterminal site.category with
    | true => exact ⟨[], countsWithin_zero hsymbol⟩
    | false => exact countsWithin_flat hsymbol hfound hlast 0
  | succ depth ih =>
    cases hsymbol : g.isNonterminal site.category with
    | false => exact countsWithin_flat hsymbol hfound hlast (depth + 1)
    | true =>
      have hpart (part : Site) (hfound : part.Found g c.input c.layout.last)
          (hlast : part.stop ≤ c.layout.last) : ∃ parses, CountsWithin c g depth part parses :=
        ih hfound hlast
      choose! parses hparses using hpart
      refine ⟨applications c g parses site,
        countsWithin_applications hc hfound hlast hsymbol fun way hway part hmem => ?_⟩
      obtain ⟨rule, origin, parts⟩ := way
      obtain ⟨r, -, -, -, hrow⟩ := (hc.mem_waysOf hfound hsymbol).mp hway
      exact hparses part (hrow.found part hmem) (Nat.le_trans (hrow.within hmem).2 hlast)

/-! Whole sentences -/

namespace Forest

/-- The counts of a forest by length are those of the trees at the whole sentences. -/
theorem countsByLength_ofChart (hc : c.Settled g) (depth : Nat) : (ofChart c g).countsByLength depth =
    (c.rootSites g).foldl (fun byLength site =>
      if 0 < c.treesWithin g depth site then
        byLength.add (site.stop - site.start) (c.treesWithin g depth site)
      else byLength) ∅ := by
  unfold countsByLength countsWithin
  dsimp only
  rw [growCounts_eq]
  show ((c.rootSites g).map (c.siteNumber g)).foldl _ ∅ = _
  rw [List.foldl_map]
  refine List.foldl_ext _ _ _ fun byLength site hsite => ?_
  have hnode := hc.traced.explores_discover.2 site hsite
  rw [node?_siteNumber hc.traced hnode, Array.getD_eq_getD_getElem?, getElem?_iterate_tallerCounts hc.traced hnode,
    Option.getD_some]

/-- The counts of a forest by length report the trees at the whole sentences. -/
theorem reports_countsByLength (hc : c.Settled g) (depth : Nat) :
    Counts.Reports none ((ofChart c g).countsByLength depth)
      (Counts.listed ((c.rootSites g).map fun site => (site.stop, c.treesWithin g depth site))) := by
  rw [countsByLength_ofChart hc, Counts.listed, List.map_map, ← zero_add (List.sum _)]
  refine Counts.reports_empty.foldl fun site hsite counts sum hsum => ?_
  have hstart := (hc.mem_rootSites.mp hsite).2.1
  split
  · next hpos => simpa [hstart] using hsum.add fun _ => hpos
  · next hzero =>
    have hnone : c.treesWithin g depth site = 0 := Nat.eq_zero_of_not_pos hzero
    simpa [hnone] using hsum

/-- Different whole sentences end in different columns. -/
theorem pairwise_rootSites (hc : c.Settled g) (f : Site → Nat) :
    ((c.rootSites g).map fun site => (site.stop, f site)).Pairwise fun a b => a.1 ≠ b.1 := by
  refine List.pairwise_map.mpr ((Chart.nodup_rootSites c g).pairwise_of_forall_ne ?_)
  intro site hsite other hother hne hstop
  obtain ⟨hcategory, hstart, -⟩ := hc.mem_rootSites.mp hsite
  obtain ⟨hcategory', hstart', -⟩ := hc.mem_rootSites.mp hother
  apply hne
  obtain ⟨category, start, stop⟩ := site
  obtain ⟨category', start', stop'⟩ := other
  rw [Site.mk.injEq]
  exact ⟨hcategory.trans hcategory'.symm, hstart.trans hstart'.symm, hstop⟩

/-- The parses of whole sentences of some length cover the root over that length. -/
theorem isSentence_iff_covers (hc : c.Settled g) {t : Parse} {n : Nat} :
    c.IsSentence g t ∧ t.yield.length = n ↔
      ⟨g.start, 0, n⟩ ∈ c.rootSites g ∧ Covers g c.input c.layout.last ⟨g.start, 0, n⟩ t := by
  constructor
  · intro hgiven
    obtain ⟨hsentence, rfl⟩ := hgiven
    obtain ⟨⟨category, start, stop⟩, hsite, hcovers⟩ := hc.covers_rootSites_iff.mpr hsentence
    obtain ⟨rfl, rfl, -⟩ := hc.mem_rootSites.mp hsite
    obtain rfl : stop = t.yield.length := hcovers.stop_eq.trans (Nat.zero_add _)
    exact ⟨hsite, hcovers⟩
  · intro hgiven
    obtain ⟨hsite, hcovers⟩ := hgiven
    have hstop : n = t.yield.length := hcovers.stop_eq.trans (Nat.zero_add _)
    exact ⟨hc.covers_rootSites_iff.mp ⟨_, hsite, hcovers⟩, hstop.symm⟩

/-- The counts of a forest by length are the numbers of parses of whole sentences that are no taller. -/
theorem getElem?_countsByLength (hc : c.Settled g) (depth n : Nat) :
    ((ofChart c g).countsByLength depth)[n]? =
      reported {t | c.IsSentence g t ∧ t.height ≤ depth ∧ t.yield.length = n}.ncard := by
  have hiff (t : Parse) := isSentence_iff_covers hc (t := t) (n := n)
  rw [reports_countsByLength hc depth n (allowed_none n)]
  refine reported_congr ?_
  -- the roots of one length are one site, if there is any
  by_cases hroot : (⟨g.start, 0, n⟩ : Site) ∈ c.rootSites g
  · obtain ⟨-, -, hfinal, hfound⟩ := hc.mem_rootSites.mp hroot
    obtain ⟨parses, hparses, hcount⟩ :=
      exists_countsWithin hc hfound (Layout.le_last_of_isFinal hfinal) depth
    have hset : {t | c.IsSentence g t ∧ t.height ≤ depth ∧ t.yield.length = n} = {t | t ∈ parses} := by
      ext t
      rw [Set.mem_ofPred_eq, Set.mem_ofPred_eq, hparses.mem_iff, and_left_comm, hiff]
      tauto
    have hmem : (n, c.treesWithin g depth ⟨g.start, 0, n⟩) ∈
        (c.rootSites g).map fun site => (site.stop, c.treesWithin g depth site) :=
      List.mem_map.mpr ⟨_, hroot, rfl⟩
    rw [Counts.coeff_listed_of_mem (pairwise_rootSites hc _) hmem, hset, Parse.ncard_mem hparses.nodup,
      hcount, capped_capped]
  · have hset : {t | c.IsSentence g t ∧ t.height ≤ depth ∧ t.yield.length = n} = ∅ := by
      refine Set.eq_empty_of_forall_notMem fun t ht => hroot ?_
      exact ((hiff t).mp ⟨ht.1, ht.2.2⟩).1
    rw [hset, Set.ncard_empty, Counts.coeff_listed_of_forall_ne]
    intro entry hentry heq
    obtain ⟨⟨category, start, stop⟩, hsite, rfl⟩ := List.mem_map.mp hentry
    obtain rfl : stop = n := heq
    obtain ⟨rfl, rfl, -⟩ := hc.mem_rootSites.mp hsite
    exact hroot hsite

end Forest

/-! Parses and derivations -/

namespace Grammar

mutual

/-- Where the synthetic rule cannot be used, derivations are parses. -/
theorem isParse_iff_isDerivation {root : Rule} (hg : g.Indexed) (hunused : g.RootUnused)
    (hroot : g.rootRule? = some root) {c : Category} :
    (t : Parse) → c.name ≠ root.lhs.name → (g.IsParse c t ↔ g.IsDerivation c t)
  | .word d, hc => by
    rw [IsParse]
    constructor
    · intro hgiven
      obtain ⟨rfl, hempty, hpos⟩ := hgiven
      exact .word hempty hpos
    · intro h
      cases h with
      | word hempty hpos => exact ⟨rfl, hempty, hpos⟩
  | .nothing, hc => by
    rw [IsParse]
    constructor
    · exact .nothing
    · intro h
      cases h with
      | nothing hempty => exact hempty
  | .apply lhs id parts, hc => by
    rw [IsParse]
    constructor
    · intro hgiven
      obtain ⟨rfl, hsymbol, r, hr, rfl, hparts⟩ := hgiven
      have hrhs := ((hunused root hroot).2 id r hr).2
      exact .apply hsymbol (mem_rules_iff.mp hr).2
        ((areParses_iff_areDerivations hg hunused hroot parts hrhs).mp hparts)
    · intro h
      cases h with
      | @apply id r parts hsymbol hr hparts =>
        -- the synthetic rule is for a category of another name
        have hid : id ≠ rootId := by
          intro hid
          have hsame : g.rule? rootId = some r := hid ▸ hr.rule?
          exact hc (congrArg (fun r => r.lhs.name) (Option.some.inj (hsame.symm.trans hroot)))
        have hmem := mem_rules_iff.mpr ⟨hid, hr⟩
        have hrhs := ((hunused root hroot).2 id r hmem).2
        exact ⟨rfl, hsymbol, r, hmem, rfl,
          (areParses_iff_areDerivations hg hunused hroot parts hrhs).mpr hparts⟩

/-- Where the synthetic rule cannot be used, lists of derivations are lists of parses. -/
theorem areParses_iff_areDerivations {root : Rule} (hg : g.Indexed) (hunused : g.RootUnused)
    (hroot : g.rootRule? = some root) {cs : List Category} : (ts : List Parse) →
    (∀ c ∈ cs, c.name ≠ root.lhs.name) → (g.AreParses cs ts ↔ List.Forall₂ g.IsDerivation cs ts)
  | [], _ => by cases cs <;> simp [AreParses]
  | t :: ts, hcs => by
    cases cs with
    | nil => simp [AreParses]
    | cons c cs =>
      rw [AreParses, List.forall₂_cons,
        isParse_iff_isDerivation hg hunused hroot t (hcs c List.mem_cons_self),
        areParses_iff_areDerivations hg hunused hroot ts
          fun other hother => hcs other (List.mem_cons_of_mem _ hother)]

end

/-- The derivations of the start category are its parses, if the synthetic rule's name stands nowhere else. -/
theorem isParse_start_iff (hg : g.Indexed) (hunused : g.RootUnused) (t : Parse) :
    g.IsParse g.start t ↔ g.IsDerivation g.start t := by
  obtain ⟨name, -, hroot⟩ := hg.rootRule?
  exact isParse_iff_isDerivation hg hunused hroot t (hunused _ hroot).1

/-- If the start category is no part of speech and the synthetic rule's name stands nowhere else, the forest
of everything up to a length has the counts that a counter finds without a chart, for every height. Below half of
the largest length, the counter finds them. -/
theorem countsByLength_eq_countDerivations (hg : g.Reachable) (hunused : g.RootUnused)
    (hstart : g.isPartOfSpeech g.start = false) {budget : Budget} {length : Nat} {forest : Forest}
    (h : g.generate budget length = .ok forest) (depth : Nat) :
    forest.countsByLength depth = countDerivations g depth (some length) ∧
      (length < Nat.pow 2 63 → countDerivations? g depth (some length) = .ok (forest.countsByLength depth)) := by
  suffices heq : forest.countsByLength depth = countDerivations g depth (some length) from
    ⟨heq, fun hshort => heq ▸ Counter.countDerivations?_eq hg.indexed hg.ordered (not_overlong_of_short hshort)⟩
  obtain ⟨c, hchart, rfl⟩ := generate_eq_ok.mp h
  obtain ⟨hc, hlayout, hinput⟩ := Chart.settled_of_finished hg.indexed hunused.unasked hchart
  have hnew := Counter.sound_new g (some length)
  have hreports := (Counter.countsFor_categoryEntry hg.indexed hg.ordered depth g.start _ hnew).1.counts
  apply Std.ExtTreeMap.ext_getElem?
  intro n
  rw [Forest.getElem?_countsByLength hc depth n]
  -- up to the length both count the same derivations, beyond it neither counts any
  by_cases hn : n ≤ length
  · have hset : {t | c.IsSentence g t ∧ t.height ≤ depth ∧ t.yield.length = n} =
        {t | g.IsDerivation g.start t ∧ t.height ≤ depth ∧ t.yield.length = n} := by
      ext t
      have hsentence := Chart.isSentence_forGeneration (g := g) hlayout hinput (t := t)
      have hparse := isParse_start_iff hg.indexed hunused t
      rw [Set.mem_ofPred_eq, Set.mem_ofPred_eq, hsentence, hparse]
      constructor
      · exact fun hgiven => ⟨hgiven.1.1, hgiven.2⟩
      · exact fun hgiven => ⟨⟨hgiven.1, hgiven.2.2 ▸ hn⟩, hgiven.2⟩
    rw [hset]
    exact (hreports.getElem?_eq (nodup_derivations hg.indexed hg.ordered depth g.start)
      (fun _ => mem_derivations hg.indexed) (allowed_some.mpr hn)).2.symm
  · have hset : {t | c.IsSentence g t ∧ t.height ≤ depth ∧ t.yield.length = n} = ∅ := by
      refine Set.eq_empty_of_forall_notMem fun t ht => hn ?_
      exact ht.2.2 ▸ ((Chart.isSentence_forGeneration hlayout hinput).mp ht.1).2
    rw [hset, Set.ncard_empty]
    exact (hnew.within_categoryEntry hg.indexed hg.ordered hstart depth n (mt allowed_some.mp hn)).symm

open Sample in
/-- The forest of all lists of at most three words counts one list of each of the two lengths up to height
2. -/
theorem countsByLength_eq_countDerivations_lists : ∃ forest : Forest,
    lists.generate ample 3 = .ok forest ∧
    forest.countsByLength 2 = countDerivations lists 2 (some 3) ∧
    countDerivations? lists 2 (some 3) = .ok (forest.countsByLength 2) ∧
    (countDerivations lists 2 (some 3)).toList = [(1, 1), (2, 1)] := by
  have hall : (lists.generate ample 3).toOption.isSome = true := by decide +kernel
  obtain ⟨forest, hforest⟩ := Option.isSome_iff_exists.mp hall
  have hforest := ok_of_toOption hforest
  obtain ⟨heq, hanswered⟩ := countsByLength_eq_countDerivations (.insert longer reachable_singles)
    rootUnused_lists (by decide) hforest 2
  exact ⟨forest, hforest, heq, hanswered (by decide), by decide +kernel⟩

end Grammar

end IndexedGrammar
