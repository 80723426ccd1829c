import IndexedGrammar.Proofs.Forest.Ways

/-!
# Whole sentences

The roots of a forest are the sites of the start category that begin at the first column and end where a
sentence may end. A parse covers one of them exactly if it is a parse of the start category that fits the
input.
-/

namespace IndexedGrammar

variable {g : Grammar} {c : Chart}

/-- A sentence ends no later than at the last column. -/
theorem Layout.le_last_of_isFinal {layout : Layout} {k : Nat} (h : layout.isFinal k = true) :
    k ≤ layout.last := by
  cases layout with
  | sentence length => exact Nat.le_of_eq (of_decide_eq_true h)
  | upTo length => exact of_decide_eq_true h

/-- The synthetic rule expects the start category at first. -/
theorem Grammar.Indexed.expects_start (h : g.Indexed) : g.Expects ⟨rootId, 0, 0⟩ g.start := by
  obtain ⟨name, hroot⟩ := h.root
  exact expects_iff.mpr ⟨_, hroot.rule?, rfl⟩

namespace Chart

/-- A parse is one of a whole sentence: its leaves fit the input and end where a sentence may end. -/
structure IsSentence (c : Chart) (g : Grammar) (t : Parse) : Prop where
  isParse : g.IsParse g.start t
  isFinal : c.layout.isFinal t.yield.length = true
  fits : c.input.Fits c.layout.last 0 t.yield

/-- The accepted states are those of the synthetic rule behind the start category. -/
theorem Settled.mem_accepted (h : c.Settled g) {id : Nat} : id ∈ c.accepted g ↔
    ∃ k, c.layout.isFinal k = true ∧ c.Live id ⟨⟨Grammar.rootId, 1, 0⟩, k⟩ := by
  obtain ⟨name, hroot⟩ := h.indexed.root
  have hroot' : g.rootRule? = some ⟨Category.bare name, [g.start], none⟩ := hroot.rule?
  unfold accepted acceptedAs finalColumns
  rw [hroot']
  simp only [List.mem_flatMap, List.mem_filter, List.mem_range, h.filed.mem_completed]
  constructor
  · intro hgiven
    obtain ⟨k, ⟨_, hfinal⟩, s, hs, horigin, hstop, hcompletes⟩ := hgiven
    obtain ⟨l, hl⟩ := (h.holds.live s).mp ⟨id, hs⟩
    obtain ⟨r, hr, hdot⟩ := hl.hasRule h.indexed
    obtain ⟨r', hr', hlength, hlhs⟩ := Grammar.completes_iff.mp hcompletes
    obtain rfl := Option.some.inj (hr.rule?.symm.trans hr')
    -- only the synthetic rule is for its category, and a dot behind one symbol is at its end
    have hrule := h.rootUnasked.eq_rootId hroot' hr hlhs
    rw [hrule] at hr
    obtain rfl := hr.unique hroot
    have hone : s.item.dot = 1 := Nat.le_antisymm hdot hlength
    refine ⟨k, hfinal, ?_⟩
    obtain ⟨⟨rule, dot, origin⟩, stop⟩ := s
    obtain rfl : rule = Grammar.rootId := hrule
    obtain rfl : dot = 1 := hone
    obtain rfl : origin = 0 := horigin
    obtain rfl : stop = k := hstop
    exact hs
  · intro hgiven
    obtain ⟨k, hfinal, hs⟩ := hgiven
    refine ⟨k, ⟨?_, hfinal⟩, _, hs, rfl, rfl, ?_⟩
    · exact (h.filed.lt_columns hs).2
    · exact Grammar.completes_iff.mpr ⟨_, hroot.rule?, Nat.le_refl 1, rfl⟩

/-- The whole sentences are the sites of the start category, from the first column to one where a
sentence may end. -/
theorem Settled.mem_rootSites (h : c.Settled g) {site : Site} : site ∈ c.rootSites g ↔
    site.category = g.start ∧ site.start = 0 ∧ c.layout.isFinal site.stop = true ∧
      site.Found g c.input c.layout.last := by
  obtain ⟨name, hroot⟩ := h.indexed.root
  unfold rootSites
  rw [mem_addNew, or_iff_right List.not_mem_nil, List.mem_filterMap]
  constructor
  · intro hgiven
    obtain ⟨id, hid, hsite⟩ := hgiven
    obtain ⟨k, hfinal, hs⟩ := h.mem_accepted.mp hid
    obtain ⟨l, hl⟩ := (h.holds.live _).mp ⟨id, hs⟩
    obtain ⟨state, hstate, -, hspot⟩ := hs
    have horigin : state.item.origin = 0 := congrArg (fun s : Spot => s.item.origin) hspot
    have hstop : state.stop = k := congrArg Spot.stop hspot
    rw [hstate, Option.map_some, horigin, hstop] at hsite
    obtain rfl := Option.some.inj hsite
    -- the synthetic rule has one symbol, so its row has one part
    obtain ⟨sites, hrow⟩ := hl.exists_row h.indexed h.rootUnasked hroot
    rw [← List.nil_append (List.take _ _)] at hrow
    obtain ⟨rest, middle, hrest, hfound, -⟩ := row_concat.mp hrow
    obtain ⟨-, hmiddle⟩ := row_nil.mp hrest
    obtain rfl : 0 = middle := hmiddle
    exact ⟨rfl, rfl, hfinal, hfound⟩
  · intro hgiven
    obtain ⟨hcategory, hstart, hfinal, hfound⟩ := hgiven
    obtain ⟨category, start, stop⟩ := site
    obtain rfl : category = g.start := hcategory
    obtain rfl : start = 0 := hstart
    obtain ⟨l, hl, -⟩ := hfound.step .root h.indexed.expects_start rfl
    obtain ⟨id, hs⟩ := (h.holds.live _).mpr ⟨l, hl⟩
    refine ⟨id, h.mem_accepted.mpr ⟨stop, hfinal, hs⟩, ?_⟩
    obtain ⟨state, hstate, -, hspot⟩ := hs
    have horigin : state.item.origin = 0 := congrArg (fun s : Spot => s.item.origin) hspot
    have hstop : state.stop = stop := congrArg Spot.stop hspot
    rw [hstate, Option.map_some, horigin, hstop]

/-- The parses that cover whole sentences are the parses of the start category that fit the input. -/
theorem Settled.covers_rootSites_iff (h : c.Settled g) {t : Parse} :
    (∃ site ∈ c.rootSites g, Covers g c.input c.layout.last site t) ↔ c.IsSentence g t := by
  constructor
  · intro hgiven
    obtain ⟨site, hsite, hcovers⟩ := hgiven
    obtain ⟨hcategory, hstart, hfinal, -⟩ := h.mem_rootSites.mp hsite
    obtain ⟨hparse, hstop, hfits⟩ := hcovers
    rw [hcategory] at hparse
    rw [hstart] at hfits
    rw [hstop, hstart, Nat.zero_add] at hfinal
    exact ⟨hparse, hfinal, hfits⟩
  · intro hgiven
    obtain ⟨hparse, hfinal, hfits⟩ := hgiven
    have hcovers : Covers g c.input c.layout.last ⟨g.start, 0, t.yield.length⟩ t :=
      ⟨hparse, (Nat.zero_add _).symm, hfits⟩
    have hfound := Covers.found h.indexed .root h.indexed.expects_start hcovers
    exact ⟨_, h.mem_rootSites.mpr ⟨rfl, rfl, hfinal, hfound⟩, hcovers⟩

/-- There are no whole sentences if there is no parse of one. -/
theorem Settled.rootSites_eq_nil_iff (h : c.Settled g) : c.rootSites g = [] ↔ ∀ t, ¬c.IsSentence g t := by
  rw [List.eq_nil_iff_forall_not_mem]
  constructor
  · intro hnone t ht
    obtain ⟨site, hsite, -⟩ := h.covers_rootSites_iff.mpr ht
    exact hnone site hsite
  · intro hnone site hsite
    obtain ⟨-, -, hfinal, hfound⟩ := h.mem_rootSites.mp hsite
    obtain ⟨t, ht⟩ := hfound.exists_parse h.indexed h.rootUnasked (Layout.le_last_of_isFinal hfinal)
    exact hnone t (h.covers_rootSites_iff.mp ⟨site, hsite, ht⟩)

/-- Nothing is accepted if there are no whole sentences. -/
theorem Settled.accepted_eq_nil_iff (h : c.Settled g) : c.accepted g = [] ↔ c.rootSites g = [] := by
  constructor
  · intro hnil
    unfold rootSites
    rw [hnil]
    rfl
  · intro hnil
    refine List.eq_nil_iff_forall_not_mem.mpr fun id hid => ?_
    obtain ⟨k, -, state, hstate, -⟩ := h.mem_accepted.mp hid
    have hsite : (⟨g.start, state.item.origin, state.stop⟩ : Site) ∈ c.rootSites g := by
      unfold rootSites
      rw [mem_addNew, List.mem_filterMap]
      exact .inr ⟨id, hid, by rw [hstate, Option.map_some]⟩
    rw [hnil] at hsite
    exact absurd hsite List.not_mem_nil

end Chart

end IndexedGrammar
