import IndexedGrammar.Proofs.Chart.Weight
import IndexedGrammar.Proofs.Parse.Row

/-!
# What is found has a parse

A dot is moved over exactly the sites that are found. So a spot is found exactly if there is a row of
found sites for the symbols before its dot, and every site that is found is covered by some parse. The
other way round, every parse of an expected category is found.
-/

namespace IndexedGrammar

variable {g : Grammar} {input : Input} {last : Nat}

/-! Moving dots -/

/-- A dot can be moved over a site that is found behind it. -/
theorem Site.Found.step {site : Site} (h : site.Found g input last) {s : Spot} {l : Link}
    (hs : Derivable g input last s l) (hexpects : g.Expects s.item site.category)
    (hstart : site.start = s.stop) :
    ∃ l', Derivable g input last (s.step site.stop) l' ∧ l'.predecessor = some s := by
  cases h with
  | nothing k hempty =>
    obtain rfl : k = s.stop := hstart
    exact ⟨_, .skip hs hexpects hempty, rfl⟩
  | word hempty hpos hlast hallows =>
    subst hstart
    exact ⟨_, .scan hs hexpects hempty hpos hlast hallows, rfl⟩
  | @completed t c ht hcompletes hroot hsymbol =>
    obtain ⟨m, ht⟩ := ht
    have hempty := (Grammar.isNonterminal_iff.mp hsymbol).1
    exact ⟨_, .complete hs ht hexpects hempty hcompletes hstart, rfl⟩

/-- What a dot was moved over is found. -/
theorem Derivable.found (hg : g.Indexed) (hunasked : g.RootUnasked) {s p : Spot} {l : Link}
    (h : Derivable g input last s l) (hp : l.predecessor = some p) :
    ∃ c, g.Expects p.item c ∧ s = p.step s.stop ∧ Site.Found g input last ⟨c, p.stop, s.stop⟩ := by
  cases h with
  | root => contradiction
  | predict => contradiction
  | @skip q m symbol hq hexpects hempty =>
    obtain rfl : q = p := Option.some.inj hp
    exact ⟨symbol, hexpects, rfl, .nothing q.stop hempty⟩
  | @scan q m symbol hq hexpects hempty hpos hlast hallows =>
    obtain rfl : q = p := Option.some.inj hp
    exact ⟨symbol, hexpects, rfl, .word hempty hpos hlast hallows⟩
  | @complete q t m m' symbol hq ht hexpects hempty hcompletes horigin =>
    obtain rfl : q = p := Option.some.inj hp
    have hsymbol := hq.isNonterminal_of_completes hg (hunasked.unscanned hg) ht hexpects hempty hcompletes
    have hroot := hq.ne_rootId_of_completes hg hunasked hexpects hempty hcompletes
    have hfound := Site.Found.completed ⟨m', ht⟩ hcompletes hroot hsymbol
    rw [horigin] at hfound
    exact ⟨symbol, hexpects, rfl, hfound⟩

/-- The rule of a spot that is found was begun where the spot begins. -/
theorem Derivable.begun {s : Spot} {l : Link} (h : Derivable g input last s l) :
    Findable g input last ⟨⟨s.item.rule, 0, s.item.origin⟩, s.item.origin⟩ := by
  induction h with
  | root => exact ⟨_, .root⟩
  | predict hs hexpects hsymbol hrule _ => exact ⟨_, .predict hs hexpects hsymbol hrule⟩
  | skip _ _ _ ih => exact ih
  | scan _ _ _ _ _ _ ih => exact ih
  | complete _ _ _ _ _ _ ih _ => exact ih

/-- A nonterminal that is found is wanted where it begins, and some rule in use is for it. -/
theorem Site.Found.wanted (hg : g.Indexed) {site : Site} (h : site.Found g input last)
    (hsymbol : g.isNonterminal site.category = true) :
    Wanted g input last site.start site.category ∧
      ∃ rule r, (rule, r) ∈ g.rules ∧ r.lhs = site.category := by
  obtain ⟨hempty, hpos⟩ := Grammar.isNonterminal_iff.mp hsymbol
  cases h with
  | nothing k hempty' => exact absurd (hempty.symm.trans hempty') Bool.false_ne_true
  | word _ hpos' => exact absurd (hpos.symm.trans hpos') Bool.false_ne_true
  | completed hs hcompletes hroot =>
    obtain ⟨l, hl⟩ := hs
    obtain ⟨r, hr, -⟩ := hl.hasRule hg
    obtain ⟨r', hr', -, rfl⟩ := Grammar.completes_iff.mp hcompletes
    obtain rfl := Option.some.inj (hr.rule?.symm.trans hr')
    exact ⟨hl.wanted_lhs hg hr hroot, _, r, Grammar.mem_rules_iff.mpr ⟨hroot, hr⟩, rfl⟩

/-! Rows of found sites -/

/-- The symbols up to behind a position are those before it and the symbol there. -/
theorem take_succ_of_getElem? {α : Type} {as : List α} {i : Nat} {a : α} (h : as[i]? = some a) :
    as.take (i + 1) = as.take i ++ [a] := by
  rw [List.take_add_one, h, Option.toList_some]

/-- There is a row of found sites for the symbols before a dot. -/
theorem Derivable.exists_row (hg : g.Indexed) (hunasked : g.RootUnasked) {s : Spot} {l : Link}
    (h : Derivable g input last s l) {r : Rule} (hr : g.HasRule s.item.rule r) :
    ∃ sites, Row (Site.Found g input last) s.item.origin (r.rhs.take s.item.dot) s.stop sites := by
  have hstep {p s : Spot} {l : Link} (h : Derivable g input last s l) (hp : l.predecessor = some p)
      (hr : g.HasRule p.item.rule r)
      (ih : ∃ sites, Row (Site.Found g input last) p.item.origin (r.rhs.take p.item.dot) p.stop sites) :
      ∃ sites, Row (Site.Found g input last) p.item.origin (r.rhs.take (p.item.dot + 1)) s.stop
        sites := by
    obtain ⟨sites, hrow⟩ := ih
    obtain ⟨c, hexpects, -, hfound⟩ := h.found hg hunasked hp
    obtain ⟨r', hr', hc⟩ := Grammar.expects_iff.mp hexpects
    obtain rfl := Option.some.inj (hr.rule?.symm.trans hr')
    rw [take_succ_of_getElem? hc]
    exact ⟨_, row_concat.mpr ⟨sites, p.stop, hrow, hfound, rfl⟩⟩
  induction h with
  | root => exact ⟨[], row_nil.mpr ⟨rfl, rfl⟩⟩
  | predict => exact ⟨[], row_nil.mpr ⟨rfl, rfl⟩⟩
  | skip hs hexpects hempty ih => exact hstep (.skip hs hexpects hempty) rfl hr (ih hr)
  | scan hs hexpects hempty hpos hlast hallows ih =>
    exact hstep (.scan hs hexpects hempty hpos hlast hallows) rfl hr (ih hr)
  | complete hs ht hexpects hempty hcompletes horigin ih _ =>
    exact hstep (.complete hs ht hexpects hempty hcompletes horigin) rfl hr (ih hr)

/-- A rule that was begun is found up to where a row of found sites for its first symbols ends. -/
theorem Row.findable {rule k stop dot : Nat} {r : Rule} {sites : List Site}
    (h : Row (Site.Found g input last) k (r.rhs.take dot) stop sites) (hr : g.HasRule rule r)
    (hdot : dot ≤ r.rhs.length) (hbegun : Findable g input last ⟨⟨rule, 0, k⟩, k⟩) :
    Findable g input last ⟨⟨rule, dot, k⟩, stop⟩ := by
  induction dot generalizing stop sites with
  | zero =>
    obtain ⟨-, hstop⟩ := row_nil.mp h
    exact hstop ▸ hbegun
  | succ dot ih =>
    have hc : r.rhs[dot]? = some r.rhs[dot] := List.getElem?_eq_getElem hdot
    rw [take_succ_of_getElem? hc] at h
    obtain ⟨rest, middle, hrest, hfound, -⟩ := row_concat.mp h
    obtain ⟨l, hl⟩ := ih hrest (Nat.le_of_succ_le hdot)
    obtain ⟨l', hl', -⟩ := hfound.step hl (Grammar.expects_iff.mpr ⟨r, hr.rule?, hc⟩) rfl
    exact ⟨l', hl'⟩

/-! Parses of what is found -/

/-- The symbols of a rule before the dot of a spot have parses that can be found between the columns of the spot. -/
def Spot.HasParses (g : Grammar) (input : Input) (last : Nat) (r : Rule) (s : Spot) : Prop :=
  ∃ ts, g.AreParses (r.rhs.take s.item.dot) ts ∧ s.stop = s.item.origin + (Parse.yields ts).length ∧
    input.Fits last s.item.origin (Parse.yields ts)

/-- A parse of the symbol behind the dot is one more. -/
theorem Spot.HasParses.step {s : Spot} {symbol : Category} {stop : Nat} {t : Parse} {r : Rule}
    (h : s.HasParses g input last r) (hr : g.HasRule s.item.rule r) (hexpects : g.Expects s.item symbol)
    (ht : Covers g input last ⟨symbol, s.stop, stop⟩ t) : (s.step stop).HasParses g input last r := by
  obtain ⟨ts, hts, hstop, hfits⟩ := h
  obtain ⟨r', hr', hc⟩ := Grammar.expects_iff.mp hexpects
  obtain rfl := Option.some.inj (hr.rule?.symm.trans hr')
  have hlength : stop = s.stop + t.yield.length := ht.stop_eq
  have hfits' : input.Fits last s.stop t.yield := ht.fits
  refine ⟨ts ++ [t], ?_, ?_, ?_⟩
  · rw [Spot.step, Item.advance, take_succ_of_getElem? hc]
    exact Grammar.areParses_append hts ⟨ht.isParse, trivial⟩
  · rw [Parse.yields_append, Parse.yields_singleton, List.length_append]
    show stop = s.item.origin + _
    omega
  · rw [Parse.yields_append, Parse.yields_singleton]
    exact Input.fits_append.mpr ⟨hfits, hstop ▸ hfits'⟩

/-- Parses of all symbols of a rule make up one of the nonterminal that it completes. -/
theorem Spot.HasParses.exists_covers {t : Spot} {symbol : Category} {r : Rule} (h : t.HasParses g input last r)
    (hr : g.HasRule t.item.rule r) (hcompletes : g.Completes t.item symbol)
    (hroot : t.item.rule ≠ Grammar.rootId) (hsymbol : g.isNonterminal symbol = true) :
    ∃ parse, Covers g input last ⟨symbol, t.item.origin, t.stop⟩ parse := by
  obtain ⟨ts, hts, hstop, hfits⟩ := h
  obtain ⟨r', hr', hlength, rfl⟩ := Grammar.completes_iff.mp hcompletes
  obtain rfl := Option.some.inj (hr.rule?.symm.trans hr')
  rw [List.take_of_length_le hlength] at hts
  exact ⟨_, (covers_apply_iff hsymbol).mpr
    ⟨t.item.rule, r, ts, rfl, Grammar.mem_rules_iff.mpr ⟨hroot, hr⟩, rfl, hts, hstop, hfits⟩⟩

/-- The symbols before the dot of a spot that is found have parses. -/
theorem Derivable.hasParses (hg : g.Indexed) (hunasked : g.RootUnasked) {s : Spot} {l : Link}
    (h : Derivable g input last s l) {r : Rule} (hr : g.HasRule s.item.rule r) :
    s.HasParses g input last r := by
  induction h generalizing r with
  | root => exact ⟨[], trivial, rfl, Input.fits_nil (Nat.zero_le _)⟩
  | predict hs => exact ⟨[], trivial, rfl, Input.fits_nil hs.bounds.2⟩
  | skip hs hexpects hempty ih =>
    exact (ih hr).step hr hexpects ((covers_nothing_iff hempty).mpr ⟨rfl, rfl, hs.bounds.2⟩)
  | scan hs hexpects hempty hpos hlast hallows ih =>
    exact (ih hr).step hr hexpects ((covers_word_iff hempty hpos).mpr ⟨rfl, rfl, hlast, hallows⟩)
  | @complete s t l m symbol hs ht hexpects hempty hcompletes horigin ih iht =>
    obtain ⟨q, hq, -⟩ := ht.hasRule hg
    obtain ⟨parse, hcovers⟩ := (iht hq).exists_covers hq hcompletes
      (hs.ne_rootId_of_completes hg hunasked hexpects hempty hcompletes)
      (hs.isNonterminal_of_completes hg (hunasked.unscanned hg) ht hexpects hempty hcompletes)
    exact (ih hr).step hr hexpects (horigin ▸ hcovers)

/-- Every site that is found is covered by some parse. -/
theorem Site.Found.exists_parse (hg : g.Indexed) (hunasked : g.RootUnasked) {site : Site}
    (h : site.Found g input last) (hlast : site.stop ≤ last) :
    ∃ t, Covers g input last site t := by
  cases h with
  | nothing k hempty => exact ⟨.nothing, (covers_nothing_iff hempty).mpr ⟨rfl, rfl, hlast⟩⟩
  | @word c k hempty hpos hk hallows =>
    exact ⟨.word c, (covers_word_iff hempty hpos).mpr ⟨rfl, rfl, hk, hallows⟩⟩
  | completed hs hcompletes hroot hsymbol =>
    obtain ⟨l, hl⟩ := hs
    obtain ⟨r, hr, -⟩ := hl.hasRule hg
    exact (hl.hasParses hg hunasked hr).exists_covers hr hcompletes hroot hsymbol

/-! Finding parses -/

mutual

/-- A parse of an expected category is found behind the dot. -/
theorem Covers.found (hg : g.Indexed) {s : Spot} {l : Link} {c : Category}
    (hs : Derivable g input last s l) (hexpects : g.Expects s.item c) :
    ∀ {t stop}, Covers g input last ⟨c, s.stop, stop⟩ t → Site.Found g input last ⟨c, s.stop, stop⟩
  | .word d, stop, hcovers => by
    obtain ⟨hd, hempty, hpos⟩ := hcovers.isParse
    obtain ⟨-, hstop, hlast, hallows⟩ := (covers_word_iff hempty hpos).mp hcovers
    subst hstop
    exact .word hempty hpos hlast hallows
  | .nothing, stop, hcovers => by
    have hempty : c.isEpsilon = true := hcovers.isParse
    obtain ⟨-, hstop, -⟩ := (covers_nothing_iff hempty).mp hcovers
    subst hstop
    exact .nothing s.stop hempty
  | .apply d rule parts, stop, hcovers => by
    obtain ⟨hd, hsymbol, r, hr, hlhs, hparts⟩ := hcovers.isParse
    obtain ⟨hroot, hrule⟩ := Grammar.mem_rules_iff.mp hr
    have hbegun := Derivable.predict hs hexpects hsymbol (hg.mem_rulesFor.mpr ⟨hrule, hlhs⟩)
    have hfound := Covers.found_parts hg parts hbegun hrule hparts hcovers.fits
    have hrow := row_rowOf hparts hfound
    have hstop : stop = s.stop + (Parse.yields parts).length := hcovers.stop_eq
    rw [← hstop, ← List.take_length (l := r.rhs)] at hrow
    obtain ⟨l', hl'⟩ := hrow.findable hrule (Nat.le_refl _) ⟨_, hbegun⟩
    exact .completed ⟨l', hl'⟩
      (Grammar.completes_iff.mpr ⟨r, hrule.rule?, Nat.le_refl _, hlhs⟩) hroot hsymbol

/-- Parses of the symbols behind a dot are found one behind the other. -/
theorem Covers.found_parts (hg : g.Indexed) {rule dot k stop : Nat} {r : Rule} {l : Link} :
    ∀ ts, Derivable g input last ⟨⟨rule, dot, k⟩, stop⟩ l → g.HasRule rule r →
      g.AreParses (r.rhs.drop dot) ts → input.Fits last stop (Parse.yields ts) →
      ∀ site ∈ rowOf stop (r.rhs.drop dot) ts, site.Found g input last
  | [], _, _, _, _ => by
    intro site hsite
    simp [rowOf] at hsite
  | t :: ts, hs, hr, hparses, hfits => by
    intro site hsite
    cases hdrop : r.rhs.drop dot with
    | nil => simp [hdrop, Grammar.AreParses] at hparses
    | cons c cs =>
      rw [hdrop] at hparses hsite
      have hc : r.rhs[dot]? = some c := by
        rw [← List.head?_drop, hdrop, List.head?_cons]
      have hcs : r.rhs.drop (dot + 1) = cs := by
        rw [← List.tail_drop, hdrop, List.tail_cons]
      have hexpects : g.Expects ⟨rule, dot, k⟩ c := Grammar.expects_iff.mpr ⟨r, hr.rule?, hc⟩
      obtain ⟨hfirst, hrest⟩ := Input.fits_append.mp hfits
      have hcovers : Covers g input last ⟨c, stop, stop + t.yield.length⟩ t :=
        ⟨hparses.1, rfl, hfirst⟩
      have hfound := Covers.found hg hs hexpects hcovers
      rcases List.mem_cons.mp hsite with heq | hmem
      · exact heq ▸ hfound
      · -- the dot moves over the symbol, and the other parts are found behind it
        obtain ⟨l', hl', -⟩ := hfound.step hs hexpects rfl
        rw [← hcs] at hmem hparses
        exact Covers.found_parts hg ts hl' hr hparses.2 hrest site hmem

end

end IndexedGrammar
