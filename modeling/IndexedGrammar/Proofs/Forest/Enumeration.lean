import IndexedGrammar.Proofs.Forest.Trees

/-!
# The parses of a site

The parses of a site are listed along with the trees at its node. A way of making up a nonterminal gives
the parses that choose a parse for each of its parts; different ways give different parses, since the
parses of the parts determine what the parts cover.
-/

namespace IndexedGrammar

variable {g : Grammar} {input : Input} {last : Nat} {rank : Category → Nat} {found : Site → Prop}

/-- All parses that cover a site, each once. -/
structure Enumerates (g : Grammar) (input : Input) (last : Nat) (site : Site) (parses : List Parse) :
    Prop where
  nodup : parses.Nodup
  mem_iff : ∀ t, t ∈ parses ↔ Covers g input last site t

/-- The empty category is found over nothing. -/
theorem Site.Found.stop_eq_start {site : Site} (h : site.Found g input last)
    (hempty : site.category.isEpsilon = true) : site.stop = site.start := by
  cases h with
  | nothing => rfl
  | word hempty' => exact absurd (hempty'.symm.trans hempty) Bool.false_ne_true
  | completed _ _ _ hsymbol =>
    exact absurd ((Grammar.isNonterminal_iff.mp hsymbol).1.symm.trans hempty) Bool.false_ne_true

/-- The empty category has one parse. -/
theorem enumerates_nothing {site : Site} (hempty : site.category.isEpsilon = true)
    (hfound : site.Found g input last) (hlast : site.stop ≤ last) :
    Enumerates g input last site [.nothing] where
  nodup := List.nodup_singleton _
  mem_iff t := by
    have hstop := hfound.stop_eq_start hempty
    rw [List.mem_singleton]
    exact (((covers_nothing_iff hempty).trans (and_iff_left ⟨hstop, hstop ▸ hlast⟩))).symm

/-- A part of speech that is found has one parse. -/
theorem enumerates_word {site : Site} (hempty : site.category.isEpsilon = false)
    (hpos : g.isPartOfSpeech site.category = true) (hfound : site.Found g input last) :
    Enumerates g input last site [.word site.category] where
  nodup := List.nodup_singleton _
  mem_iff t := by
    rw [List.mem_singleton]
    refine ((covers_word_iff hempty hpos).trans (and_iff_left ?_)).symm
    cases hfound with
    | nothing _ hempty' => exact absurd (hempty.symm.trans hempty') Bool.false_ne_true
    | word _ _ hlast hallows => exact ⟨rfl, hlast, hallows⟩
    | completed _ _ _ hsymbol =>
      exact absurd ((Grammar.isNonterminal_iff.mp hsymbol).2.symm.trans hpos) Bool.false_ne_true

/-- Two lists of the parses of a site differ only in their order. -/
theorem Enumerates.perm {site : Site} {parses others : List Parse}
    (h : Enumerates g input last site parses) (h' : Enumerates g input last site others) :
    parses.Perm others :=
  (List.perm_ext_iff_of_nodup h.nodup h'.nodup).mpr fun t => (h.mem_iff t).trans (h'.mem_iff t).symm

section Parts

variable {parts : List Site} {parses : Site → List Parse}

/-- A choice of parses for some sites covers the sites. -/
theorem mem_sections_iff (h : ∀ part ∈ parts, Enumerates g input last part (parses part))
    {ts : List Parse} : ts ∈ (parts.map parses).sections ↔
      List.Forall₂ (Covers g input last) parts ts :=
  mem_sections_map fun part hpart => (h part hpart).mem_iff

/-- The trees that show a choice of parses are a choice of trees for the parts that are not empty. -/
theorem sections_trees {word? : Nat → Option String} {start stop : Nat} {cs : List Category}
    (hrow : Row (Site.Found g input last) start cs stop parts) (hstop : stop ≤ last)
    (h : ∀ part ∈ parts, Enumerates g input last part (parses part)) :
    ((parts.filter fun part => !part.category.isEpsilon).map fun part =>
      (parses part).map (Parse.tree word? part.start)).sections =
      ((parts.map parses).sections).map (Parse.trees word? start) := by
  induction parts generalizing start cs with
  | nil => simp [List.sections, Parse.trees]
  | cons part parts ih =>
    have hpart := h part List.mem_cons_self
    have hfound := hrow.found part List.mem_cons_self
    have hlast := Nat.le_trans (hrow.within List.mem_cons_self).2 hstop
    obtain ⟨-, ⟨rfl, hadjacent⟩, hall⟩ := hrow
    have hrest := ih ⟨rfl, hadjacent, fun other hother => hall other (List.mem_cons_of_mem _ hother)⟩
      fun other hother => h other (List.mem_cons_of_mem _ hother)
    have hcovers {t : Parse} (ht : t ∈ parses part) :
        part.start + t.yield.length = part.stop ∧ t.isNothing = part.category.isEpsilon := by
      have hcovers := (hpart.mem_iff t).mp ht
      exact ⟨hcovers.stop_eq.symm, hcovers.isParse.isNothing_eq⟩
    rw [List.map_cons, List.sections, List.map_flatMap]
    -- an empty part has one parse, which the trees do not show
    cases hempty : part.category.isEpsilon with
    | true =>
      have hnothing :=
        List.perm_singleton.mp (hpart.perm (enumerates_nothing hempty hfound hlast))
      obtain ⟨hstop', -⟩ := hcovers (hnothing ▸ List.mem_singleton.mpr rfl)
      rw [List.filter_cons_of_neg (by simp [hempty]), hrest, hnothing, List.map_eq_flatMap]
      refine List.flatMap_congr fun ts _ => ?_
      simp [Parse.trees, Parse.isNothing, hstop']
    | false =>
      rw [List.filter_cons_of_pos (by simp [hempty]), List.map_cons, List.sections, hrest,
        List.flatMap_map]
      refine List.flatMap_congr fun ts _ => ?_
      rw [List.map_map, List.map_map]
      refine List.map_congr_left fun t ht => ?_
      obtain ⟨hstop, hnothing⟩ := hcovers ht
      simp only [Function.comp_apply, Parse.trees, hnothing, hempty, hstop, Bool.false_eq_true,
        if_false]

end Parts

/-! Ways of making up a site -/

/-- The parses that apply a rule to a choice of parses for the parts of a site, for each way of making up
the site. -/
def applications (c : Chart) (g : Grammar) (parses : Site → List Parse) (site : Site) : List Parse :=
  (c.waysOf g site).flatMap fun way =>
    ((way.2.2.map parses).sections).map (.apply site.category way.1)

section Applications

variable {c : Chart} {parses : Site → List Parse} {site : Site} {kind : Site → Parse → Prop}

/-- An application chooses a parse for each part. -/
theorem mem_applications (h : ∀ way ∈ c.waysOf g site, ∀ part ∈ way.2.2, ∀ t,
      t ∈ parses part ↔ kind part t) {t : Parse} :
    t ∈ applications c g parses site ↔ ∃ way ∈ c.waysOf g site, ∃ ts,
      List.Forall₂ kind way.2.2 ts ∧ t = .apply site.category way.1 ts := by
  unfold applications
  rw [List.mem_flatMap]
  refine exists_congr fun way => and_congr_right fun hway => ?_
  rw [List.mem_map]
  refine exists_congr fun ts => ?_
  rw [mem_sections_map (h way hway), eq_comm (a := t)]

/-- No application is listed twice, if the ways of making up the site are rows for rules and the parses of
parts are as long as the parts and not listed twice. -/
theorem nodup_applications_of_rows {found : Site → Prop}
    (hrows : ∀ rule origin row, (rule, origin, row) ∈ c.waysOf g site →
      ∃ r, g.HasRule rule r ∧ r.origin = origin ∧ Row found site.start r.rhs site.stop row)
    (h : ∀ way ∈ c.waysOf g site, ∀ part ∈ way.2.2,
      (parses part).Nodup ∧ ∀ t ∈ parses part, part.stop = part.start + t.yield.length) :
    (applications c g parses site).Nodup := by
  have hlengths {way : Nat × Option Nat × List Site} (hway : way ∈ c.waysOf g site) {ts : List Parse}
      (hts : ts ∈ (way.2.2.map parses).sections) :
      List.Forall₂ (fun part t => part.stop = part.start + t.yield.length) way.2.2 ts := by
    have hboth : List.Forall₂ (fun part t => t ∈ parses part ∧
        part.stop = part.start + t.yield.length) way.2.2 ts :=
      (mem_sections_map fun part hpart t =>
        (and_iff_left_of_imp ((h way hway part hpart).2 t)).symm).mp hts
    exact hboth.imp fun part t => And.right
  refine nodup_flatMap_of_inj (Chart.nodup_waysOf c g site) (fun way hway => ?_)
    fun way hway other hother t ht ht' => ?_
  · refine (nodup_sections fun choices hchoices => ?_).map fun ts us heq => (Parse.apply.inj heq).2.2
    obtain ⟨part, hpart, rfl⟩ := List.mem_map.mp hchoices
    exact (h way hway part hpart).1
  · obtain ⟨ts, hts, rfl⟩ := List.mem_map.mp ht
    obtain ⟨us, hus, heq⟩ := List.mem_map.mp ht'
    obtain ⟨-, hrule, rfl⟩ := Parse.apply.inj heq
    have hts := hlengths hway hts
    have hus := hlengths hother hus
    obtain ⟨rule, origin, parts⟩ := way
    obtain ⟨rule', origin', parts'⟩ := other
    obtain rfl : rule' = rule := hrule
    obtain ⟨r, hr, horigin, hrow⟩ := hrows _ _ _ hway
    obtain ⟨r', hr', horigin', hrow'⟩ := hrows _ _ _ hother
    obtain rfl := hr.unique hr'
    -- both ways lie where the parses of the parts say
    rw [← horigin, ← horigin', hrow.eq_rowOf hts, hrow'.eq_rowOf hus]

/-- No application is listed twice, if the parses of parts cover them and are not listed twice. -/
theorem nodup_applications (hc : c.Settled g) (hsite : site.Found g c.input c.layout.last)
    (hsymbol : g.isNonterminal site.category = true)
    (hkind : ∀ part t, kind part t → Covers g c.input c.layout.last part t)
    (h : ∀ way ∈ c.waysOf g site, ∀ part ∈ way.2.2,
      (parses part).Nodup ∧ ∀ t, t ∈ parses part ↔ kind part t) :
    (applications c g parses site).Nodup := by
  have hrows (rule : Nat) (origin : Option Nat) (row : List Site)
      (hway : (rule, origin, row) ∈ c.waysOf g site) : ∃ r, g.HasRule rule r ∧ r.origin = origin ∧
        Row (Site.Found g c.input c.layout.last) site.start r.rhs site.stop row := by
    obtain ⟨r, hr, -, horigin, hrow⟩ := (hc.mem_waysOf hsite hsymbol).mp hway
    exact ⟨r, (Grammar.mem_rules_iff.mp hr).2, horigin, hrow⟩
  refine nodup_applications_of_rows hrows fun way hway part hpart => ?_
  obtain ⟨hnodup, hmem⟩ := h way hway part hpart
  exact ⟨hnodup, fun t ht => (hkind part t ((hmem t).mp ht)).stop_eq⟩

/-- The parses that cover a nonterminal that is found take one way of making it up, and parses that cover
the parts. -/
theorem covers_iff_exists_way (hc : c.Settled g) (hsite : site.Found g c.input c.layout.last)
    (hlast : site.stop ≤ c.layout.last) (hsymbol : g.isNonterminal site.category = true) {t : Parse} :
    Covers g c.input c.layout.last site t ↔ ∃ way ∈ c.waysOf g site, ∃ ts,
      List.Forall₂ (Covers g c.input c.layout.last) way.2.2 ts ∧ t = .apply site.category way.1 ts := by
  have hstart := Nat.le_trans hsite.start_le_stop hlast
  rw [covers_apply_iff hsymbol]
  constructor
  · intro hgiven
    obtain ⟨rule, r, ts, ht, hr, hlhs, hparses, hstop, hfits⟩ := hgiven
    obtain ⟨-, hrule⟩ := Grammar.mem_rules_iff.mp hr
    obtain ⟨l, hbegun⟩ := (hsite.wanted hc.indexed hsymbol).1.begun hc.indexed hrule hlhs
    have hrow := row_rowOf hparses (Covers.found_parts hc.indexed ts hbegun hrule hparses hfits)
    rw [← hstop] at hrow
    exact ⟨(rule, r.origin, _), (hc.mem_waysOf hsite hsymbol).mpr ⟨r, hr, hlhs, rfl, hrow⟩, ts,
      covers_rowOf hparses hfits, ht⟩
  · intro hgiven
    obtain ⟨way, hway, ts, hts, ht⟩ := hgiven
    obtain ⟨rule, origin, parts⟩ := way
    obtain ⟨r, hr, hlhs, -, hrow⟩ := (hc.mem_waysOf hsite hsymbol).mp hway
    obtain ⟨hparses, hstop, hfits⟩ := hrow.areParses hstart hts
    exact ⟨rule, r, ts, ht, hr, hlhs, hparses, hstop, hfits⟩

/-- The parses of a nonterminal that is found are the applications. -/
theorem enumerates_applications (hc : c.Settled g)
    (hsite : site.Found g c.input c.layout.last) (hlast : site.stop ≤ c.layout.last)
    (hsymbol : g.isNonterminal site.category = true)
    (h : ∀ way ∈ c.waysOf g site, ∀ part ∈ way.2.2,
      Enumerates g c.input c.layout.last part (parses part)) :
    Enumerates g c.input c.layout.last site (applications c g parses site) where
  nodup := nodup_applications hc hsite hsymbol (fun _ _ hcovers => hcovers)
    fun way hway part hpart => ⟨(h way hway part hpart).nodup, (h way hway part hpart).mem_iff⟩
  mem_iff t := by
    rw [mem_applications fun way hway part hpart => (h way hway part hpart).mem_iff,
      covers_iff_exists_way hc hsite hlast hsymbol]

end Applications

end IndexedGrammar
