import IndexedGrammar.Forest.Basic
import Mathlib.Data.List.Basic

/-!
# Discovering sites

A walk numbers the sites in the order in which it meets them. When it has met a site, it has also met
every site below those that it met on the way, provided that the depth allows for the sites that have not
been met: each step down meets one of them.
-/

namespace IndexedGrammar.Discovery

/-- Whether a site was met. -/
def Knows (found : Discovery) (site : Site) : Prop :=
  found.numbers.contains site = true

/-- The number of a site is its place. -/
def Consistent (found : Discovery) : Prop :=
  ∀ {site : Site} {n : Nat}, found.numbers[site]? = some n ↔ found.sites[n]? = some site

/-- What a walk does: it meets more sites, keeps their numbers, and meets everything below a site that it
meets. -/
structure Explores (below : Site → List Site) (found later : Discovery) : Prop where
  consistent : later.Consistent
  knows : ∀ {site}, found.Knows site → later.Knows site
  closed : ∀ {site}, later.Knows site → ¬found.Knows site → ∀ other ∈ below site, later.Knows other

/-- How many sites of a list have not been met. -/
def missing (sites : List Site) (found : Discovery) : Nat :=
  sites.countP fun site => !found.numbers.contains site

/-- The discovery of one more site. -/
def meet (found : Discovery) (site : Site) : Discovery :=
  ⟨found.sites.push site, found.numbers.insert site found.sites.size⟩

variable {below : Site → List Site} {found later : Discovery} {site : Site}

/-- A site is known if it has a number. -/
theorem knows_iff : found.Knows site ↔ ∃ n, found.numbers[site]? = some n := by
  rw [Knows, ← Std.ExtTreeMap.isSome_getElem?_eq_contains, Option.isSome_iff_exists]

/-- No site is known at first. -/
theorem not_knows_empty : ¬Discovery.empty.Knows site := by
  simp [Knows, Discovery.empty]

/-- At first all numbers are places. -/
theorem consistent_empty : Discovery.empty.Consistent := by
  intro site n
  simp [Discovery.empty]

/-- After meeting a site, it is known besides those that were known. -/
theorem knows_meet {other : Site} : (found.meet site).Knows other ↔ other = site ∨ found.Knows other := by
  simp only [Knows, meet, Std.ExtTreeMap.contains_insert, Bool.or_eq_true, beq_iff_eq,
    Std.compare_eq_iff_eq]
  exact or_congr_left eq_comm

/-- Meeting a site that was not known keeps numbers and places together. -/
theorem Consistent.meet (h : found.Consistent) (hsite : ¬found.Knows site) :
    (found.meet site).Consistent := by
  intro other n
  have hplace : found.sites[found.sites.size]? = none := Array.getElem?_eq_none (Nat.le_refl _)
  simp only [Discovery.meet, Std.ExtTreeMap.getElem?_insert, Std.compare_eq_iff_eq,
    Array.getElem?_push]
  by_cases hother : site = other
  · subst hother
    by_cases hn : n = found.sites.size
    · simp [hn]
    · simp only [if_true, if_neg hn, Option.some.injEq]
      constructor
      · intro heq
        exact absurd heq.symm hn
      · intro hmem
        exact absurd (knows_iff.mpr ⟨n, h.mpr hmem⟩) hsite
  · by_cases hn : n = found.sites.size
    · subst hn
      simp only [if_neg hother, if_true, Option.some.injEq]
      constructor
      · intro hmem
        rw [h, hplace] at hmem
        contradiction
      · intro heq
        exact absurd heq hother
    · simp only [if_neg hother, if_neg hn]
      exact h

/-- Doing nothing explores nothing. -/
theorem Explores.refl (h : found.Consistent) : Explores below found found :=
  ⟨h, id, fun hlater hfound => absurd hlater hfound⟩

/-- One exploration after another. -/
theorem Explores.trans {middle : Discovery} (h : Explores below found middle)
    (h' : Explores below middle later) : Explores below found later where
  consistent := h'.consistent
  knows hsite := h'.knows (h.knows hsite)
  closed {site} hlater hfound other hother := by
    by_cases hmiddle : middle.Knows site
    · exact h'.knows (h.closed hmiddle hfound other hother)
    · exact h'.closed hlater hmiddle other hother

/-- The more is known, the less is missing. -/
theorem missing_le {sites : List Site} (h : ∀ {site}, found.Knows site → later.Knows site) :
    missing sites later ≤ missing sites found := by
  refine List.countP_mono_left fun site _ hmissing => ?_
  simp only [Bool.not_eq_true', Bool.eq_false_iff] at hmissing ⊢
  exact fun hknown => hmissing (h hknown)

/-- Less is missing after meeting a site that was missing. -/
theorem missing_meet_lt {sites : List Site} (hmem : site ∈ sites) (hsite : ¬found.Knows site) :
    missing sites (found.meet site) < missing sites found := by
  induction sites with
  | nil => exact absurd hmem List.not_mem_nil
  | cons first rest ih =>
    have hrest : missing rest (found.meet site) ≤ missing rest found :=
      missing_le fun hknown => knows_meet.mpr (.inr hknown)
    unfold missing at ih hrest ⊢
    rw [List.countP_cons, List.countP_cons]
    by_cases hfirst : first = site
    · subst hfirst
      have hmet : (found.meet first).numbers.contains first = true := knows_meet.mpr (.inl rfl)
      have hnot : found.numbers.contains first = false := Bool.eq_false_iff.mpr hsite
      simp only [hmet, hnot, Bool.not_true, Bool.not_false, if_true, Bool.false_eq_true, if_false]
      omega
    · have hlt := ih ((List.mem_cons.mp hmem).resolve_left fun heq => hfirst heq.symm)
      have hsame : (found.meet site).numbers.contains first = found.numbers.contains first := by
        rw [Bool.eq_iff_iff]
        exact knows_meet.trans (or_iff_right hfirst)
      rw [hsame]
      omega

/-- A walk to several sites meets all of them. -/
theorem explores_foldl {sites : List Site} {step : Discovery → Site → Discovery} {all : List Site}
    {depth : Nat} (hstep : ∀ found site, found.Consistent → site ∈ all → missing all found < depth →
      Explores below found (step found site) ∧ (step found site).Knows site)
    (hsites : ∀ site ∈ sites, site ∈ all) (hfound : found.Consistent)
    (hdepth : missing all found < depth) :
    Explores below found (sites.foldl step found) ∧
      ∀ site ∈ sites, (sites.foldl step found).Knows site := by
  induction sites generalizing found with
  | nil => exact ⟨.refl hfound, fun site hsite => absurd hsite List.not_mem_nil⟩
  | cons first rest ih =>
    obtain ⟨hfirst, hknows⟩ := hstep found first hfound (hsites first List.mem_cons_self) hdepth
    obtain ⟨hrest, hall⟩ := ih (fun site hsite => hsites site (List.mem_cons_of_mem _ hsite))
      hfirst.consistent (Nat.lt_of_le_of_lt (missing_le hfirst.knows) hdepth)
    refine ⟨hfirst.trans hrest, fun site hsite => ?_⟩
    rcases List.mem_cons.mp hsite with heq | hmem
    · exact heq ▸ hrest.knows hknows
    · exact hall site hmem

/-- Visiting a site meets it and explores what is below, if the depth exceeds the number of sites that
have not been met. -/
theorem visit_spec {all : List Site} (hbelow : ∀ site ∈ all, ∀ other ∈ below site, other ∈ all)
    {depth : Nat} (hfound : found.Consistent) (hsite : site ∈ all) (hdepth : missing all found < depth) :
    Explores below found (visit below depth found site) ∧ (visit below depth found site).Knows site := by
  induction depth generalizing found site with
  | zero => exact absurd hdepth (Nat.not_lt_zero _)
  | succ depth ih =>
    unfold visit
    by_cases hknown : found.numbers.contains site = true
    · rw [if_pos hknown]
      exact ⟨.refl hfound, hknown⟩
    · rw [if_neg hknown]
      have hmeet : (found.meet site).Consistent := Consistent.meet hfound hknown
      have hless : missing all (found.meet site) < depth :=
        Nat.lt_of_lt_of_le (missing_meet_lt hsite hknown) (Nat.le_of_lt_succ hdepth)
      obtain ⟨hexplores, hall⟩ := explores_foldl
        (fun found site hfound hsite hdepth => ih hfound hsite hdepth) (hbelow site hsite) hmeet hless
      have hself := hexplores.knows (knows_meet.mpr (.inl rfl))
      refine ⟨⟨hexplores.consistent, fun hother => ?_, fun {other} hother hnot => ?_⟩, hself⟩
      · exact hexplores.knows (knows_meet.mpr (.inr hother))
      · by_cases heq : other = site
        · subst heq
          exact hall
        · exact hexplores.closed hother fun hmet => (knows_meet.mp hmet).elim heq hnot

/-- Walks to several sites meet the same sites in the same order, if the walks to each site do. -/
theorem foldl_visit_eq {all sites : List Site} (hbelow : ∀ site ∈ all, ∀ other ∈ below site, other ∈ all)
    {depth more : Nat} (hsame : ∀ {found site}, Consistent found → site ∈ all → missing all found < depth →
      missing all found < more → visit below depth found site = visit below more found site)
    (hsites : ∀ site ∈ sites, site ∈ all) (hfound : found.Consistent) (hdepth : missing all found < depth)
    (hmore : missing all found < more) :
    sites.foldl (visit below depth) found = sites.foldl (visit below more) found := by
  induction sites generalizing found with
  | nil => rfl
  | cons first rest ih =>
    have hfirst := hsites first List.mem_cons_self
    obtain ⟨hexplores, -⟩ := visit_spec hbelow hfound hfirst hdepth
    have hless : missing all _ ≤ missing all found := missing_le hexplores.knows
    rw [List.foldl_cons, List.foldl_cons, ← hsame hfound hfirst hdepth hmore]
    exact ih (fun site hsite => hsites site (List.mem_cons_of_mem _ hsite)) hexplores.consistent
      (Nat.lt_of_le_of_lt hless hdepth) (Nat.lt_of_le_of_lt hless hmore)

/-- However much deeper it may go, a walk meets the same sites in the same order, if the depth exceeds the number of
sites that have not been met. -/
theorem visit_eq {all : List Site} (hbelow : ∀ site ∈ all, ∀ other ∈ below site, other ∈ all) {depth more : Nat}
    (hfound : found.Consistent) (hsite : site ∈ all) (hdepth : missing all found < depth)
    (hmore : missing all found < more) : visit below depth found site = visit below more found site := by
  induction depth generalizing found site more with
  | zero => exact absurd hdepth (Nat.not_lt_zero _)
  | succ depth ih =>
    obtain ⟨more, rfl⟩ := Nat.exists_eq_succ_of_ne_zero (Nat.ne_of_gt (Nat.lt_of_le_of_lt (Nat.zero_le _) hmore))
    unfold visit
    by_cases hknown : found.numbers.contains site = true
    · rw [if_pos hknown, if_pos hknown]
    · rw [if_neg hknown, if_neg hknown]
      have hmeet : (found.meet site).Consistent := Consistent.meet hfound hknown
      have hless : missing all (found.meet site) < missing all found := missing_meet_lt hsite hknown
      exact foldl_visit_eq hbelow (fun hfound hsite hdepth hmore => ih hfound hsite hdepth hmore) (hbelow site hsite)
        hmeet (Nat.lt_of_lt_of_le hless (Nat.le_of_lt_succ hdepth))
        (Nat.lt_of_lt_of_le hless (Nat.le_of_lt_succ hmore))

end IndexedGrammar.Discovery
