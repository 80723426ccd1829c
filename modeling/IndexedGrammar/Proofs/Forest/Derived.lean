import IndexedGrammar.Proofs.Forest.Counted

/-!
# Found trees are derivations

Whatever rules use the name of the synthetic category, a chart that holds only what a grammar finds holds
only derivations: each tree counted at a site is a derivation of its category that is as long as the site.
This needs no more than that the synthetic category is no part of speech; for otherwise completing the
synthetic rule would move dots over a word that is as long as a sentence. So no more trees are found in a
sentence than the start category has derivations of its length.
-/

namespace IndexedGrammar

/-- The category of the synthetic rule is no part of speech. -/
def Grammar.RootApart (g : Grammar) : Prop :=
  ∀ root, g.rootRule? = some root → root.lhs.isEpsilon = true ∨ g.isPartOfSpeech root.lhs = false

/-- A site that is not of a nonterminal is as long as what its category stands for: one word, or nothing. -/
def Site.Fitting (g : Grammar) (site : Site) : Prop :=
  g.isNonterminal site.category = false →
    site.stop = site.start + if site.category.isEpsilon then 0 else 1

variable {g : Grammar} {input : Input} {last : Nat} {c : Chart} {site : Site}

/-! Sites that dots are moved over -/

/-- What completes a category that is not empty completes a nonterminal. -/
theorem Derivable.isNonterminal_lhs (hg : g.Indexed) (hroot : g.RootApart) {t : Spot} {m : Link}
    (ht : Derivable g input last t m) {symbol : Category} (hcompletes : g.Completes t.item symbol)
    (hempty : symbol.isEpsilon = false) : g.isNonterminal symbol = true := by
  obtain ⟨r, hr, -⟩ := ht.hasRule hg
  obtain ⟨r', hr', -, rfl⟩ := Grammar.completes_iff.mp hcompletes
  obtain rfl := Option.some.inj (hr.rule?.symm.trans hr')
  by_cases hid : t.item.rule = Grammar.rootId
  · rw [hid] at hr'
    have hpos := (hroot r hr').resolve_left (ne_true_of_eq_false hempty)
    exact Grammar.isNonterminal_iff.mpr ⟨hempty, hpos⟩
  · obtain ⟨-, -, -, -, hsymbol⟩ := ht.wanted_lhs hg hr hid
    exact hsymbol

/-- A dot is moved over a word at one position, over nothing at none, or over a nonterminal. -/
theorem Derivable.fitting (hg : g.Indexed) (hroot : g.RootApart) {s p : Spot} {l : Link}
    (h : Derivable g input last s l) (hp : l.predecessor = some p) {symbol : Category}
    (hexpects : g.Expects p.item symbol) : Site.Fitting g ⟨symbol, p.stop, s.stop⟩ := by
  intro hsymbol
  cases h with
  | root => contradiction
  | predict => contradiction
  | @skip q m symbol' hq hexpects' hempty =>
    obtain rfl : q = p := Option.some.inj hp
    obtain rfl := hexpects'.unique hexpects
    simp [hempty, Spot.step]
  | @scan q m symbol' hq hexpects' hempty hpos hlast hallows =>
    obtain rfl : q = p := Option.some.inj hp
    obtain rfl := hexpects'.unique hexpects
    simp [hempty, Spot.step]
  | @complete q t m m' symbol' hq ht hexpects' hempty hcompletes horigin =>
    obtain rfl : q = p := Option.some.inj hp
    obtain rfl := hexpects'.unique hexpects
    exact absurd (hsymbol.symm.trans (ht.isNonterminal_lhs hg hroot hcompletes hempty))
      Bool.false_ne_true

namespace Chart

/-- What a dot is moved over is as long as it should be, if nothing but nonterminals is completed. -/
theorem Crosses.fitting (h : c.Crosses g site) (hcompleted : ∀ {id s symbol}, c.Live id s →
    g.Completes s.item symbol → symbol.isEpsilon = false → g.isNonterminal symbol = true) : site.Fitting g := by
  intro hsymbol
  cases h with
  | nothing k hempty => simp [hempty]
  | word k hempty hpos => simp [hempty]
  | completed hs hcompletes hempty =>
    exact absurd (hsymbol.symm.trans (hcompleted hs hcompletes hempty)) Bool.false_ne_true

/-- What a readable chart completes is a nonterminal, unless it is empty. -/
theorem Readable.isNonterminal_of_completes (h : c.Readable g) (hroot : g.RootApart) {id : Nat} {s : Spot}
    {symbol : Category} (hs : c.Live id s) (hcompletes : g.Completes s.item symbol)
    (hempty : symbol.isEpsilon = false) : g.isNonterminal symbol = true := by
  obtain ⟨l, hl⟩ := h.justified.live hs
  exact hl.isNonterminal_lhs h.indexed hroot hcompletes hempty

/-- The ways of making up a site are rules for its category, with rows of sites as long as they should be. -/
theorem Readable.row_of_mem_waysOf (h : c.Readable g) (hroot : g.RootApart) {rule : Nat}
    {origin : Option Nat} {parts : List Site} (hway : (rule, origin, parts) ∈ c.waysOf g site) :
    ∃ r, g.HasRule rule r ∧ r.lhs = site.category ∧ r.origin = origin ∧
      Row (Site.Fitting g) site.start r.rhs site.stop parts := by
  obtain ⟨r, ⟨id, s, hs, rfl⟩, hr, hlhs, horigin, hrow⟩ := h.traced.row_of_mem_waysOf hway
  obtain ⟨l, hl⟩ := h.justified.live hs
  obtain ⟨r', hr', -⟩ := hl.hasRule h.indexed
  obtain rfl := Option.some.inj (hr'.rule?.symm.trans hr)
  exact ⟨r', hr', hlhs, horigin, hrow.imp fun _ hcrosses =>
    hcrosses.fitting (h.isNonterminal_of_completes hroot)⟩

end Chart

/-! Trees at a site -/

/-- Some derivations of the category of a site that are as long as the site and no taller than a bound, each
once. -/
structure DerivesWithin (g : Grammar) (depth : Nat) (site : Site) (ts : List Parse) : Prop where
  nodup : ts.Nodup
  isDerivation : ∀ t ∈ ts, g.IsDerivation site.category t
  length : ∀ t ∈ ts, site.stop = site.start + t.yield.length
  height : ∀ t ∈ ts, t.height ≤ depth

/-- A site that is not of a nonterminal has one derivation. -/
theorem exists_derivesWithin_flat (hsymbol : g.isNonterminal site.category = false)
    (hfitting : site.Fitting g) (depth : Nat) :
    ∃ ts, DerivesWithin g depth site ts ∧ c.treesWithin g depth site = capped ts.length := by
  have hone {t : Parse} (ht : g.IsDerivation site.category t)
      (hlength : site.stop = site.start + t.yield.length) :
      DerivesWithin g depth site [t] ∧ c.treesWithin g depth site = capped [t].length := by
    have hflat : t.height = 0 := ht.height_eq_zero hsymbol
    refine ⟨⟨List.nodup_singleton t, ?_, ?_, ?_⟩, treesWithin_flat hsymbol depth⟩
    · exact List.forall_mem_singleton.mpr ht
    · exact List.forall_mem_singleton.mpr hlength
    · exact List.forall_mem_singleton.mpr (hflat ▸ Nat.zero_le depth)
  have hstop := hfitting hsymbol
  cases hempty : site.category.isEpsilon with
  | true =>
    rw [hempty, if_pos rfl] at hstop
    exact ⟨_, hone (.nothing hempty) hstop⟩
  | false =>
    rw [hempty, if_neg Bool.false_ne_true] at hstop
    have hpos : g.isPartOfSpeech site.category = true := by
      simpa [Grammar.isNonterminal, hempty] using hsymbol
    exact ⟨_, hone (.word hempty hpos) hstop⟩

/-- Applications of derivations of the parts are derivations of the whole, one level up. -/
theorem derivesWithin_applications (hc : c.Readable g) (hroot : g.RootApart)
    (hsymbol : g.isNonterminal site.category = true) {derivations : Site → List Parse} {depth : Nat}
    (h : ∀ way ∈ c.waysOf g site, ∀ part ∈ way.2.2, DerivesWithin g depth part (derivations part)) :
    DerivesWithin g (depth + 1) site (applications c g derivations site) := by
  have hrows (rule : Nat) (origin : Option Nat) (row : List Site)
      (hway : (rule, origin, row) ∈ c.waysOf g site) : ∃ r, g.HasRule rule r ∧ r.origin = origin ∧
        Row (Site.Fitting g) site.start r.rhs site.stop row := by
    obtain ⟨r, hr, -, horigin, hrow⟩ := hc.row_of_mem_waysOf hroot hway
    exact ⟨r, hr, horigin, hrow⟩
  have happlied {t : Parse} (ht : t ∈ applications c g derivations site) :
      g.IsDerivation site.category t ∧ site.stop = site.start + t.yield.length ∧
        t.height ≤ depth + 1 := by
    obtain ⟨⟨rule, origin, parts⟩, hway, ts, hts, rfl⟩ :=
      (mem_applications fun way hway part hpart t => Iff.rfl).mp ht
    obtain ⟨r, hr, hlhs, -, hrow⟩ := hc.row_of_mem_waysOf hroot hway
    -- each part is derived over its own span, at most one level lower
    have hparts : List.Forall₂ (fun part t => (g.IsDerivation part.category t ∧
        part.stop = part.start + t.yield.length) ∧ t.height ≤ depth) parts ts := by
      refine List.forall₂_iff_zip.mpr ⟨hts.length_eq, fun {part t} hzip => ?_⟩
      have hmem := List.forall₂_zip hts hzip
      have hpart := h _ hway part (List.of_mem_zip hzip).1
      exact ⟨⟨hpart.isDerivation t hmem, hpart.length t hmem⟩, hpart.height t hmem⟩
    obtain ⟨hboth, hheights⟩ := Parse.forall₂_height_le.mp hparts
    have hderivations : List.Forall₂ g.IsDerivation r.rhs ts := by
      rw [← hrow.categories, List.forall₂_map_left_iff]
      exact hboth.imp fun part t hgiven => hgiven.1
    have hstop := hrow.length_yields (hboth.imp fun part t hgiven => hgiven.2)
    rw [← hlhs] at hsymbol ⊢
    exact ⟨.apply hsymbol hr hderivations, hstop, Nat.succ_le_succ hheights⟩
  exact {
    nodup := nodup_applications_of_rows hrows fun way hway part hpart =>
      ⟨(h way hway part hpart).nodup, (h way hway part hpart).length⟩
    isDerivation := fun t ht => (happlied ht).1
    length := fun t ht => (happlied ht).2.1
    height := fun t ht => (happlied ht).2.2 }

/-- The trees counted at a site are derivations of its category that are as long as the site. -/
theorem exists_derivesWithin (hc : c.Readable g) (hroot : g.RootApart) (hfitting : site.Fitting g)
    (depth : Nat) :
    ∃ ts, DerivesWithin g depth site ts ∧ c.treesWithin g depth site = capped ts.length := by
  induction depth generalizing site with
  | zero =>
    cases hsymbol : g.isNonterminal site.category with
    | true => exact ⟨[], ⟨List.nodup_nil, by simp, by simp, by simp⟩, by
        simp [Chart.treesWithin, hsymbol, capped]⟩
    | false => exact exists_derivesWithin_flat hsymbol hfitting 0
  | succ depth ih =>
    cases hsymbol : g.isNonterminal site.category with
    | false => exact exists_derivesWithin_flat hsymbol hfitting (depth + 1)
    | true =>
      have hpart (part : Site) (hpart : part.Fitting g) : ∃ ts, DerivesWithin g depth part ts ∧
          c.treesWithin g depth part = capped ts.length := ih hpart
      choose! derivations hderivations using hpart
      have hall (way : Nat × Option Nat × List Site) (hway : way ∈ c.waysOf g site) (part : Site)
          (hmem : part ∈ way.2.2) : DerivesWithin g depth part (derivations part) ∧
            c.treesWithin g depth part = capped (derivations part).length := by
        obtain ⟨r, -, -, -, hrow⟩ := hc.row_of_mem_waysOf hroot hway
        exact hderivations part (hrow.found part hmem)
      exact ⟨applications c g derivations site,
        derivesWithin_applications hc hroot hsymbol fun way hway part hmem => (hall way hway part hmem).1,
        treesWithin_succ_eq hsymbol fun way hway part hmem => (hall way hway part hmem).2⟩

/-! Whole sentences -/

/-- If the start category has no rules, only the synthetic rule is begun. -/
theorem Derivable.rule_eq_rootId (hg : g.Indexed) (hstart : g.isNonterminal g.start = false) {s : Spot}
    {l : Link} (h : Derivable g input last s l) : s.item.rule = Grammar.rootId := by
  induction h with
  | root => rfl
  | @predict s l symbol rule r hs hexpects hsymbol hrule ih =>
    obtain ⟨name, hroot⟩ := hg.root
    obtain ⟨r', hr', hgiven⟩ := Grammar.expects_iff.mp hexpects
    rw [ih] at hr'
    obtain rfl := Option.some.inj (hroot.rule?.symm.trans hr')
    have hmem := List.mem_of_getElem? hgiven
    obtain rfl : symbol = g.start := by simpa using hmem
    exact absurd (hstart.symm.trans hsymbol) Bool.false_ne_true
  | skip _ _ _ ih => exact ih
  | scan _ _ _ _ _ _ ih => exact ih
  | complete _ _ _ _ _ _ ih _ => exact ih

namespace Chart

/-- The whole sentences are of the start category, from the first column to one where a sentence may end, and
as long as they should be. -/
theorem Readable.fitting_of_mem_rootSites (h : c.Readable g) (hroot : g.RootApart)
    (hsite : site ∈ c.rootSites g) : site.category = g.start ∧ site.start = 0 ∧
      c.layout.isFinal site.stop = true ∧ site.Fitting g := by
  obtain ⟨name, hrule⟩ := h.indexed.root
  have hrule' : g.rootRule? = some ⟨Category.bare name, [g.start], none⟩ := hrule.rule?
  unfold rootSites at hsite
  rw [mem_addNew, or_iff_right List.not_mem_nil, List.mem_filterMap] at hsite
  obtain ⟨id, hid, hsite⟩ := hsite
  unfold accepted acceptedAs finalColumns at hid
  rw [hrule'] at hid
  simp only [List.mem_flatMap, List.mem_filter, List.mem_range, h.filed.mem_completed] at hid
  obtain ⟨k, ⟨-, hfinal⟩, s, hs, horigin, rfl, hcompletes⟩ := hid
  obtain ⟨l, hl⟩ := h.justified.live hs
  obtain ⟨state, hstate, -, rfl⟩ := hs
  rw [hstate, Option.map_some] at hsite
  obtain rfl := Option.some.inj hsite
  have horigin : state.item.origin = 0 := horigin
  refine ⟨rfl, horigin, hfinal, fun hsymbol => ?_⟩
  -- only the synthetic rule was begun, and its dot was moved over the start category
  have hid := hl.rule_eq_rootId h.indexed hsymbol
  obtain ⟨r, hr, hlength, -⟩ := Grammar.completes_iff.mp hcompletes
  rw [hid] at hr
  obtain rfl := Option.some.inj (hrule'.symm.trans hr)
  cases hpredecessor : l.predecessor with
  | none =>
    have hdot := hl.dot_eq_zero hpredecessor
    rw [hdot] at hlength
    exact absurd hlength (Nat.not_succ_le_zero 0)
  | some p =>
    obtain ⟨symbol, hexpects, hstep, -⟩ := hl.moved hpredecessor
    obtain ⟨m, hm⟩ := hl.findable_predecessor hpredecessor
    obtain ⟨r, hr, hgiven⟩ := Grammar.expects_iff.mp hexpects
    rw [hm.rule_eq_rootId h.indexed hsymbol] at hr
    obtain rfl := Option.some.inj (hrule'.symm.trans hr)
    have hdot : p.item.dot = 0 := by
      have hlt := (List.getElem?_eq_some_iff.mp hgiven).1
      simpa using hlt
    have hmem := List.mem_of_getElem? hgiven
    obtain rfl : symbol = g.start := by simpa using hmem
    have hporigin : state.item.origin = p.item.origin := congrArg (fun s : Spot => s.item.origin) hstep
    have hpstop : p.stop = state.item.origin := (hm.stop_eq_origin hdot).trans hporigin.symm
    have hfitting := hl.fitting h.indexed hroot hpredecessor hexpects
    rw [hpstop] at hfitting
    exact hfitting hsymbol

/-- No more trees are counted at a whole sentence than the start category has derivations of its length. -/
theorem Readable.treesWithin_le (h : c.Readable g) (hg : g.Ordered) (hroot : g.RootApart)
    (hsite : site ∈ c.rootSites g) (depth : Nat) {longest : Nat} (hlongest : site.stop ≤ longest) :
    c.treesWithin g depth site ≤ (countDerivations g depth (some longest)).count site.stop := by
  obtain ⟨hcategory, hstart, -, hfitting⟩ := h.fitting_of_mem_rootSites hroot hsite
  obtain ⟨ts, hts, hcount⟩ := exists_derivesWithin h hroot hfitting depth
  obtain ⟨hfinite, hpossible⟩ := Counter.count_countDerivations h.indexed hg depth hlongest
  rw [hcount, hpossible, ← Parse.ncard_mem hts.nodup]
  refine min_le_min_right countCap (Set.ncard_le_ncard (fun t ht => ⟨?_, hts.height t ht, ?_⟩) hfinite)
  · exact hcategory ▸ hts.isDerivation t ht
  · have hlength := hts.length t ht
    omega

end Chart

end IndexedGrammar
