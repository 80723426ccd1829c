import IndexedGrammar.Forest.Site
import IndexedGrammar.Proofs.Chart.Derivable
import IndexedGrammar.Proofs.Parse.Basic

/-!
# Sites side by side

The symbols of a rule are found at sites that lie side by side, each over the stretch that its parse
covers. A grammar finds a site if it finds a completed state over it, or the word or the nothing that
stands there.
-/

namespace IndexedGrammar

/-- The sites that a grammar finds in an input. -/
inductive Site.Found (g : Grammar) (input : Input) (last : Nat) : Site → Prop
  /-- The empty category is found anywhere. -/
  | nothing {c : Category} (k : Nat) : c.isEpsilon = true → Found g input last ⟨c, k, k⟩
  /-- A part of speech is found where it is allowed. -/
  | word {c : Category} {k : Nat} : c.isEpsilon = false → g.isPartOfSpeech c = true → k < last →
      input.allows k c = true → Found g input last ⟨c, k, k + 1⟩
  /-- A nonterminal is found where a rule for it was completed. -/
  | completed {s : Spot} {c : Category} : Findable g input last s → g.Completes s.item c →
      s.item.rule ≠ Grammar.rootId → g.isNonterminal c = true →
      Found g input last ⟨c, s.item.origin, s.stop⟩

/-- Sites that lie side by side between two columns. -/
def Adjacent (start : Nat) : List Site → Nat → Prop
  | [], stop => start = stop
  | site :: rest, stop => site.start = start ∧ Adjacent site.stop rest stop

/-- Sites of some categories that lie side by side and are found. -/
structure Row (found : Site → Prop) (start : Nat) (categories : List Category) (stop : Nat)
    (sites : List Site) : Prop where
  categories : sites.map Site.category = categories
  adjacent : Adjacent start sites stop
  found : ∀ site ∈ sites, found site

/-- A parse of the category of a site that covers it. -/
structure Covers (g : Grammar) (input : Input) (last : Nat) (site : Site) (t : Parse) : Prop where
  isParse : g.IsParse site.category t
  stop_eq : site.stop = site.start + t.yield.length
  fits : input.Fits last site.start t.yield

/-- The sites that parses of some categories cover, from a column on. -/
def rowOf (start : Nat) : List Category → List Parse → List Site
  | c :: cs, t :: ts => ⟨c, start, start + t.yield.length⟩ :: rowOf (start + t.yield.length) cs ts
  | _, _ => []

variable {g : Grammar} {input : Input} {last : Nat} {found : Site → Prop}

/-- A site is found over columns in order. -/
theorem Site.Found.start_le_stop {site : Site} (h : site.Found g input last) :
    site.start ≤ site.stop := by
  cases h with
  | nothing => exact Nat.le_refl _
  | word => exact Nat.le_succ _
  | completed hs =>
    obtain ⟨l, hl⟩ := hs
    exact hl.bounds.1

/-- One more site at the end. -/
theorem adjacent_concat {start stop : Nat} {sites : List Site} {site : Site} :
    Adjacent start (sites ++ [site]) stop ↔ Adjacent start sites site.start ∧ site.stop = stop := by
  induction sites generalizing start with
  | nil =>
    simp only [List.nil_append, Adjacent]
    exact and_congr_left fun _ => eq_comm
  | cons first rest ih =>
    simp only [List.cons_append, Adjacent, ih, and_assoc]

/-- A row of no sites is empty. -/
theorem row_nil {start stop : Nat} {sites : List Site} :
    Row found start [] stop sites ↔ sites = [] ∧ start = stop := by
  constructor
  · intro h
    have hnil := List.map_eq_nil_iff.mp h.categories
    subst hnil
    exact ⟨rfl, h.adjacent⟩
  · intro hgiven
    obtain ⟨hsites, hstop⟩ := hgiven
    subst hsites
    exact ⟨rfl, hstop, fun site hsite => absurd hsite List.not_mem_nil⟩

/-- A row with one more site at the end. -/
theorem row_concat {start stop : Nat} {cs : List Category} {c : Category} {sites : List Site} :
    Row found start (cs ++ [c]) stop sites ↔ ∃ rest middle, Row found start cs middle rest ∧
      found ⟨c, middle, stop⟩ ∧ sites = rest ++ [⟨c, middle, stop⟩] := by
  constructor
  · intro h
    obtain ⟨rest, final, hsites, hrest, hfinal⟩ := List.map_eq_append_iff.mp h.categories
    obtain ⟨site, hfinal, hc⟩ := List.map_eq_singleton_iff.mp hfinal
    subst hsites hfinal hrest hc
    obtain ⟨hadjacent, hstop⟩ := adjacent_concat.mp h.adjacent
    subst hstop
    refine ⟨rest, site.start, ⟨rfl, hadjacent, fun other hother => ?_⟩, ?_, rfl⟩
    · exact h.found other (List.mem_append_left _ hother)
    · exact h.found site (List.mem_append_right _ (List.mem_singleton.mpr rfl))
  · intro hgiven
    obtain ⟨rest, middle, hrest, hfound, hsites⟩ := hgiven
    subst hsites
    refine ⟨by simp [hrest.categories], adjacent_concat.mpr ⟨hrest.adjacent, rfl⟩, ?_⟩
    intro site hsite
    rcases List.mem_append.mp hsite with hsite | hsite
    · exact hrest.found site hsite
    · exact List.mem_singleton.mp hsite ▸ hfound

/-- Sites that are found in one way lie side by side if they are found in another. -/
theorem Row.imp {found' : Site → Prop} {start stop : Nat} {cs : List Category} {sites : List Site}
    (h : Row found start cs stop sites) (himp : ∀ site, found site → found' site) :
    Row found' start cs stop sites :=
  ⟨h.categories, h.adjacent, fun site hsite => himp site (h.found site hsite)⟩

/-- Every site of a row of found sites lies within the row. -/
theorem Row.within {start stop : Nat} {cs : List Category} {sites : List Site}
    (h : Row (Site.Found g input last) start cs stop sites) {site : Site} (hsite : site ∈ sites) :
    start ≤ site.start ∧ site.stop ≤ stop := by
  have hle {start : Nat} {sites : List Site} (hadjacent : Adjacent start sites stop)
      (hfound : ∀ site ∈ sites, site.Found g input last) : start ≤ stop := by
    induction sites generalizing start with
    | nil => exact Nat.le_of_eq hadjacent
    | cons first rest ih =>
      have hfirst := (hfound first List.mem_cons_self).start_le_stop
      have hrest := ih hadjacent.2 fun other hother => hfound other (List.mem_cons_of_mem _ hother)
      have hstart := hadjacent.1
      omega
  obtain ⟨-, hadjacent, hfound⟩ := h
  induction sites generalizing start with
  | nil => exact absurd hsite List.not_mem_nil
  | cons first rest ih =>
    have hrest : ∀ other ∈ rest, other.Found g input last :=
      fun other hother => hfound other (List.mem_cons_of_mem _ hother)
    have hfirst := (hfound first List.mem_cons_self).start_le_stop
    have hstart := hadjacent.1
    rcases List.mem_cons.mp hsite with heq | hmem
    · subst heq
      exact ⟨Nat.le_of_eq hstart.symm, hle hadjacent.2 hrest⟩
    · have hwithin := ih hmem hadjacent.2 hrest
      omega

/-- In a row of found sites, an earlier site ends where a later one begins, or before. -/
theorem Row.pairwise {start stop : Nat} {cs : List Category} {sites : List Site}
    (h : Row (Site.Found g input last) start cs stop sites) :
    sites.Pairwise fun a b => a.stop ≤ b.start := by
  obtain ⟨-, hadjacent, hfound⟩ := h
  induction sites generalizing start with
  | nil => exact .nil
  | cons first rest ih =>
    have hrest : ∀ other ∈ rest, other.Found g input last :=
      fun other hother => hfound other (List.mem_cons_of_mem _ hother)
    refine .cons (fun other hother => ?_) (ih hadjacent.2 hrest)
    exact (Row.within ⟨rfl, hadjacent.2, hrest⟩ hother).1

/-- If a site of a row of found sites covers the whole row, all others cover nothing. -/
theorem Row.stop_eq_start {start stop i j : Nat} {cs : List Category} {sites : List Site}
    (h : Row (Site.Found g input last) start cs stop sites) {site other : Site}
    (hsite : sites[i]? = some site) (hstart : site.start = start) (hstop : site.stop = stop)
    (hother : sites[j]? = some other) (hne : j ≠ i) : other.stop = other.start := by
  have hwithin := h.within (List.mem_of_getElem? hother)
  have hle := (h.found other (List.mem_of_getElem? hother)).start_le_stop
  obtain ⟨hi, rfl⟩ := List.getElem?_eq_some_iff.mp hsite
  obtain ⟨hj, rfl⟩ := List.getElem?_eq_some_iff.mp hother
  have hpairwise := List.pairwise_iff_getElem.mp h.pairwise
  rcases Nat.lt_or_gt_of_ne hne with hlt | hlt
  · have hbefore := hpairwise j i hj hi hlt
    omega
  · have hbehind := hpairwise i j hi hj hlt
    omega

/-! Parses of a site -/

/-- Nothing covers the empty category, over nothing. -/
theorem covers_nothing_iff {c : Category} {i j : Nat} {t : Parse} (hempty : c.isEpsilon = true) :
    Covers g input last ⟨c, i, j⟩ t ↔ t = .nothing ∧ j = i ∧ i ≤ last := by
  constructor
  · intro hgiven
    obtain ⟨hparse, hstop, hfits⟩ := hgiven
    cases t with
    | word d =>
      simp only [Grammar.IsParse] at hparse
      simp [hempty] at hparse
    | nothing => exact ⟨rfl, hstop, hfits.le_last⟩
    | apply d rule parts =>
      simp only [Grammar.IsParse, Grammar.isNonterminal] at hparse
      simp [hempty] at hparse
  · intro hgiven
    obtain ⟨ht, hstop, hlast⟩ := hgiven
    subst ht hstop
    exact ⟨hempty, rfl, Input.fits_nil hlast⟩

/-- A word covers a part of speech that is allowed where it stands. -/
theorem covers_word_iff {c : Category} {i j : Nat} {t : Parse} (hempty : c.isEpsilon = false)
    (hpos : g.isPartOfSpeech c = true) : Covers g input last ⟨c, i, j⟩ t ↔
      t = .word c ∧ j = i + 1 ∧ i < last ∧ input.allows i c = true := by
  constructor
  · intro hgiven
    obtain ⟨hparse, hstop, hfits⟩ := hgiven
    cases t with
    | word d =>
      obtain ⟨hd, -, -⟩ := hparse
      subst hd
      exact ⟨rfl, hstop, Input.fits_singleton.mp hfits⟩
    | nothing => exact absurd (hempty.symm.trans hparse) Bool.false_ne_true
    | apply d rule parts =>
      simp only [Grammar.IsParse, Grammar.isNonterminal] at hparse
      simp [hpos] at hparse
  · intro hgiven
    obtain ⟨ht, hstop, hword⟩ := hgiven
    subst ht hstop
    exact ⟨⟨rfl, hempty, hpos⟩, rfl, Input.fits_singleton.mpr hword⟩

/-- A rule covers a nonterminal where parses of the rule's symbols are found. -/
theorem covers_apply_iff {c : Category} {i j : Nat} {t : Parse} (hsymbol : g.isNonterminal c = true) :
    Covers g input last ⟨c, i, j⟩ t ↔ ∃ rule r ts, t = .apply c rule ts ∧ (rule, r) ∈ g.rules ∧
      r.lhs = c ∧ g.AreParses r.rhs ts ∧ j = i + (Parse.yields ts).length ∧
      input.Fits last i (Parse.yields ts) := by
  obtain ⟨hempty, hpos⟩ := Grammar.isNonterminal_iff.mp hsymbol
  constructor
  · intro hgiven
    obtain ⟨hparse, hstop, hfits⟩ := hgiven
    cases t with
    | word d => exact absurd (hpos.symm.trans hparse.2.2) Bool.false_ne_true
    | nothing => exact absurd (hempty.symm.trans hparse) Bool.false_ne_true
    | apply d rule parts =>
      obtain ⟨hd, -, r, hr, hlhs, hparts⟩ := hparse
      subst hd
      exact ⟨rule, r, parts, rfl, hr, hlhs, hparts, hstop, hfits⟩
  · intro hgiven
    obtain ⟨rule, r, ts, ht, hr, hlhs, hts, hstop, hfits⟩ := hgiven
    subst ht
    exact ⟨⟨rfl, hsymbol, r, hr, hlhs, hts⟩, hstop, hfits⟩

/-! Parses of a row -/

/-- Parses that cover a row are parses of its categories, and can be found where it lies. -/
theorem Row.areParses {start stop : Nat} {cs : List Category} {sites : List Site} {ts : List Parse}
    (h : Row found start cs stop sites) (hlast : start ≤ last)
    (hcovers : List.Forall₂ (Covers g input last) sites ts) :
    g.AreParses cs ts ∧ stop = start + (Parse.yields ts).length ∧
      input.Fits last start (Parse.yields ts) := by
  obtain ⟨hcategories, hadjacent, -⟩ := h
  induction hcovers generalizing start cs with
  | nil =>
    subst hcategories
    obtain rfl : start = stop := hadjacent
    exact ⟨trivial, rfl, Input.fits_nil hlast⟩
  | @cons site t sites ts hsite _ ih =>
    subst hcategories
    obtain ⟨hstart, hrest⟩ := hadjacent
    subst hstart
    have hstop := hsite.stop_eq
    have hle := hsite.fits.le_last
    have hle' : site.stop ≤ last := by omega
    obtain ⟨hparses, hlength, hfits⟩ := ih hle' rfl hrest
    refine ⟨⟨hsite.isParse, hparses⟩, ?_, ?_⟩
    · rw [Parse.yields, List.length_append]
      omega
    · rw [Parse.yields]
      exact Input.fits_append.mpr ⟨hsite.fits, hstop ▸ hfits⟩

/-- Parses of some categories cover the sites where they are found. -/
theorem covers_rowOf {start : Nat} {cs : List Category} {ts : List Parse} (h : g.AreParses cs ts)
    (hfits : input.Fits last start (Parse.yields ts)) :
    List.Forall₂ (Covers g input last) (rowOf start cs ts) ts := by
  induction ts generalizing start cs with
  | nil =>
    cases cs with
    | nil => exact .nil
    | cons c cs => simp [Grammar.AreParses] at h
  | cons t ts ih =>
    cases cs with
    | nil => simp [Grammar.AreParses] at h
    | cons c cs =>
      rw [Parse.yields] at hfits
      obtain ⟨hfirst, hrest⟩ := Input.fits_append.mp hfits
      exact .cons ⟨h.1, rfl, hfirst⟩ (ih h.2 hrest)

/-- The sites that parses cover form a row, if they are found. -/
theorem row_rowOf {start : Nat} {cs : List Category} {ts : List Parse} (h : g.AreParses cs ts)
    (hfound : ∀ site ∈ rowOf start cs ts, found site) :
    Row found start cs (start + (Parse.yields ts).length) (rowOf start cs ts) := by
  induction ts generalizing start cs with
  | nil =>
    cases cs with
    | nil => exact row_nil.mpr ⟨rfl, rfl⟩
    | cons c cs => simp [Grammar.AreParses] at h
  | cons t ts ih =>
    cases cs with
    | nil => simp [Grammar.AreParses] at h
    | cons c cs =>
      have hrest := ih h.2 fun site hsite => hfound site (List.mem_cons_of_mem _ hsite)
      refine ⟨by rw [rowOf, List.map_cons, hrest.categories], ⟨rfl, ?_⟩, hfound⟩
      have hadjacent := hrest.adjacent
      rwa [Parse.yields, List.length_append, ← Nat.add_assoc]

/-- Parses that are as long as the sites of a row determine the row. -/
theorem Row.eq_rowOf {start stop : Nat} {cs : List Category} {sites : List Site} {ts : List Parse}
    (h : Row found start cs stop sites)
    (hlengths : List.Forall₂ (fun site t => site.stop = site.start + t.yield.length) sites ts) :
    sites = rowOf start cs ts := by
  obtain ⟨hcategories, hadjacent, -⟩ := h
  induction hlengths generalizing start cs with
  | nil =>
    subst hcategories
    rfl
  | @cons site t sites ts hsite _ ih =>
    subst hcategories
    obtain ⟨hstart, hrest⟩ := hadjacent
    subst hstart
    rw [List.map_cons, rowOf, ← hsite, ← ih rfl hrest]

/-- Parses that are as long as the sites of a row are together as long as the row. -/
theorem Row.length_yields {start stop : Nat} {cs : List Category} {sites : List Site} {ts : List Parse}
    (h : Row found start cs stop sites)
    (hlengths : List.Forall₂ (fun site t => site.stop = site.start + t.yield.length) sites ts) :
    stop = start + (Parse.yields ts).length := by
  obtain ⟨hcategories, hadjacent, -⟩ := h
  clear hcategories
  induction hlengths generalizing start with
  | nil => exact hadjacent.symm
  | @cons site t sites ts hsite _ ih =>
    obtain ⟨hstart, hrest⟩ := hadjacent
    subst hstart
    rw [ih hrest, hsite, Parse.yields, List.length_append, Nat.add_assoc]

end IndexedGrammar
