import IndexedGrammar.Counter
import IndexedGrammar.Proofs.Counts.Reported
import IndexedGrammar.Proofs.Parse.Height
import IndexedGrammar.Proofs.Sample

/-!
# Counters count derivations

Everything a counter keeps reports the derivations up to the bound it was counted for; and if nothing was cut
off, it reports those up to every bound from its height on. So what was counted for another bound can answer,
and a counter answers as if it were new, whatever it was asked before.
-/

namespace IndexedGrammar

open Polynomial

namespace Grammar

/-- The polynomials that count the derivations of a category, by bound. -/
noncomputable def lengthsOf (g : Grammar) (c : Category) (depth : Nat) : ℕ[X] :=
  Parse.lengths (g.derivations depth c)

/-- The polynomials that count the derivations that begin with a rule, by bound. -/
noncomputable def lengthsBy (g : Grammar) (id : Nat) (r : Rule) (depth : Nat) : ℕ[X] :=
  Parse.lengths (g.derivationsBy id r depth)

variable {g : Grammar} {c : Category}

/-- The empty category has one derivation, which covers nothing. -/
theorem lengthsOf_epsilon (hempty : c.isEpsilon = true) : g.lengthsOf c = fun _ => X ^ 0 := by
  funext depth
  cases depth <;> simp [lengthsOf, derivations, flatDerivations, isNonterminal, hempty, Parse.lengths, Parse.yield]

/-- A part of speech has one derivation, which covers a word. -/
theorem lengthsOf_partOfSpeech (hempty : c.isEpsilon = false) (hpos : g.isPartOfSpeech c = true) :
    g.lengthsOf c = fun _ => X ^ 1 := by
  funext depth
  cases depth <;>
    simp [lengthsOf, derivations, flatDerivations, isNonterminal, hempty, hpos, Parse.lengths, Parse.yield]

/-- A nonterminal has no derivations of height 0. -/
theorem lengthsOf_zero (hsymbol : g.isNonterminal c = true) : g.lengthsOf c 0 = 0 := by
  obtain ⟨hempty, hpos⟩ := isNonterminal_iff.mp hsymbol
  simp [lengthsOf, derivations, flatDerivations, hempty, hpos, Parse.lengths]

/-- The derivations of a nonterminal are counted by adding those of its rules. -/
theorem lengthsOf_nonterminal (hsymbol : g.isNonterminal c = true) (depth : Nat) :
    g.lengthsOf c depth = ((g.rulesFor c).map fun numbered => g.lengthsBy numbered.1 numbered.2 depth).sum := by
  cases depth with
  | zero => simp [lengthsOf_zero hsymbol, lengthsBy, derivationsBy, Parse.lengths]
  | succ depth =>
    rw [lengthsOf, derivations, if_pos hsymbol, Parse.lengths_flatMap]
    rfl

/-- The derivations that begin with a rule are counted by multiplying along its right-hand side, one level
below. -/
theorem lengthsBy_succ (id : Nat) (r : Rule) (depth : Nat) :
    g.lengthsBy id r (depth + 1) = (r.rhs.map fun c => g.lengthsOf c depth).prod :=
  lengths_applied (g.derivations depth) id r

end Grammar

namespace CountEntry

/-- An entry reports the polynomial of its bound; and if nothing was cut off, those of all bounds from its
height on. -/
structure Reports (longest : Option Nat) (series : Nat → ℕ[X]) (depth : Nat) (entry : CountEntry) : Prop where
  counts : entry.counts.Reports longest (series depth)
  steady : entry.truncated = false → ∀ deeper, entry.height ≤ deeper →
    entry.counts.Reports longest (series deeper)

variable {longest : Option Nat} {series series' : Nat → ℕ[X]} {depth : Nat} {entry front total : CountEntry}

/-- An entry without derivations that was cut off reports zero. -/
theorem reports_cut (hzero : series depth = 0) : Reports longest series depth ⟨∅, true, 0⟩ where
  counts := hzero ▸ Counts.reports_empty
  steady h := absurd h Bool.noConfusion

/-- The one derivation of height 0 is the same for all bounds. -/
theorem reports_flat (length : Nat) : Reports longest (fun _ => X ^ length) depth (flat length) where
  counts := Counts.reports_single length
  steady _ _ _ := Counts.reports_single length

/-- An entry that answers for a bound reports it. -/
theorem Reports.of_answers (h : entry.Reports longest series depth) {asked : Nat}
    (hanswers : entry.answers asked = true) : entry.Reports longest series asked := by
  simp only [answers, Bool.and_eq_true, Bool.not_eq_true', decide_eq_true_eq] at hanswers
  exact ⟨h.steady hanswers.1 asked hanswers.2, h.steady⟩

/-- Derivations side by side multiply. -/
theorem Reports.append (hfront : front.Reports longest series depth)
    (h : entry.Reports longest series' depth) :
    (append longest front entry).Reports longest (fun depth => series depth * series' depth) depth where
  counts := hfront.counts.product h.counts
  steady hcut deeper hdeeper := by
    obtain ⟨hfrontCut, hcut⟩ := Bool.or_eq_false_iff.mp hcut
    obtain ⟨hfrontDeeper, hdeeper⟩ := Nat.max_le.mp hdeeper
    exact (hfront.steady hfrontCut deeper hfrontDeeper).product (h.steady hcut deeper hdeeper)

/-- A rule adds one level. -/
theorem Reports.raise (h : entry.Reports longest series depth) (series' : Nat → ℕ[X])
    (hraised : ∀ depth, series' (depth + 1) = series depth) :
    entry.raise.Reports longest series' (depth + 1) where
  counts := (hraised depth).symm ▸ h.counts
  steady hcut deeper hdeeper := by
    cases deeper with
    | zero => exact absurd hdeeper (Nat.not_succ_le_zero _)
    | succ deeper => exact (hraised deeper).symm ▸ h.steady hcut deeper (Nat.le_of_succ_le_succ hdeeper)

/-- Alternatives add. Where there are none up to its height, an entry does not count for the height: there
are none for any lower bound either. -/
theorem Reports.merge (htotal : total.Reports longest series depth)
    (h : entry.Reports longest series' depth)
    (hmono : ∀ n {depth deeper : Nat}, depth ≤ deeper → (series' depth).coeff n ≤ (series' deeper).coeff n) :
    (merge total entry).Reports longest (fun depth => series depth + series' depth) depth where
  counts := htotal.counts.merge h.counts
  steady hcut deeper hdeeper := by
    obtain ⟨htotalCut, hcut⟩ := Bool.or_eq_false_iff.mp hcut
    unfold CountEntry.merge at hdeeper
    split at hdeeper
    · next hempty =>
      refine (htotal.steady htotalCut deeper hdeeper).merge fun n hn => ?_
      have hnone : entry.counts[n]? = none := by
        rw [Std.ExtTreeMap.isEmpty_iff.mp hempty]
        exact Std.ExtTreeMap.getElem?_empty
      have hreported := h.steady hcut (max deeper entry.height) (Nat.le_max_right _ _) n hn
      rw [hnone, eq_comm, reported_eq_none] at hreported
      rw [hnone, eq_comm, reported_eq_none]
      exact Nat.le_zero.mp (hreported ▸ hmono n (Nat.le_max_left deeper entry.height))
    · obtain ⟨htotalDeeper, hdeeper⟩ := Nat.max_le.mp hdeeper
      exact (htotal.steady htotalCut deeper htotalDeeper).merge (h.steady hcut deeper hdeeper)

end CountEntry

/-! What is kept -/

/-- An entry that may be kept: it reports the polynomial of its bound, and only lengths of interest. -/
structure CountEntry.Kept (longest : Option Nat) (series : Nat → ℕ[X]) (depth : Nat) (entry : CountEntry) :
    Prop extends entry.Reports longest series depth where
  within : entry.counts.Within longest

/-- Before any symbol there is one derivation, which covers nothing. -/
theorem CountEntry.kept_front {longest : Option Nat} {depth : Nat} :
    (flat 0).Kept longest (fun _ => X ^ 0) depth where
  counts := Counts.reports_single 0
  steady _ _ _ := Counts.reports_single 0
  within := Counts.within_single

/-- Before any rule there are no derivations. -/
theorem CountEntry.kept_none {longest : Option Nat} {depth : Nat} :
    Kept longest (fun _ => 0) depth ⟨∅, false, 0⟩ where
  counts := Counts.reports_empty
  steady _ _ _ := Counts.reports_empty
  within := Counts.within_empty

namespace CountCache

/-- A cache is sound if everything in it may be kept. -/
def Sound (longest : Option Nat) (series : Nat → ℕ[X]) (cache : CountCache) : Prop :=
  ∀ (depth : Nat) (entry : CountEntry), cache[depth]? = some entry → entry.Kept longest series depth

variable {longest : Option Nat} {series : Nat → ℕ[X]} {cache : CountCache} {depth : Nat} {entry : CountEntry}

/-- Nothing is kept at first. -/
theorem sound_empty : Sound longest series ∅ :=
  fun depth entry h => by simp at h

/-- What may be kept is kept. -/
theorem Sound.insert (h : Sound longest series cache) (hentry : entry.Kept longest series depth) :
    Sound longest series (cache.insert depth entry) := by
  intro bound found hfound
  simp only [Std.ExtTreeMap.getElem?_insert, Std.compare_eq_iff_eq] at hfound
  split at hfound
  · next hbound =>
    subst hbound
    exact Option.some.inj hfound ▸ hentry
  · exact h bound found hfound

/-- What is found for a bound may be kept for it. -/
theorem Sound.kept_of_find (h : Sound longest series cache) (hfind : cache.find depth = some entry) :
    entry.Kept longest series depth := by
  unfold find at hfind
  split at hfind
  · next found hfound =>
    obtain rfl := Option.some.inj hfind
    exact h depth found hfound
  · obtain ⟨⟨bound, found⟩, hfirst, rfl⟩ := Option.map_eq_some_iff.mp hfind
    have hmem := Std.ExtTreeMap.mem_toList_iff_getElem?_eq_some.mp (List.mem_of_find?_eq_some hfirst)
    have hkept := h bound found hmem
    have hanswers := List.find?_some hfirst
    exact ⟨hkept.toReports.of_answers hanswers, hkept.within⟩

end CountCache

namespace Counter

/-- A counter is sound if everything that it keeps may be kept. -/
structure Sound (g : Grammar) (longest : Option Nat) (counter : Counter) : Prop where
  longest_eq : counter.longest = longest
  categories : ∀ c, CountCache.Sound longest (g.lengthsOf c) (counter.categories.getD c ∅)
  rules : ∀ id r, g.rule? id = some r →
    CountCache.Sound longest (g.lengthsBy id r) (counter.rules.getD id ∅)

/-- What was counted may be kept, and the counter is sound. -/
structure Counted (g : Grammar) (longest : Option Nat) (series : Nat → ℕ[X]) (depth : Nat)
    (result : CountEntry × Counter) : Prop where
  entry : result.1.Kept longest series depth
  sound : result.2.Sound g longest

/-- Every category is counted for a bound, and the counter stays sound. A part of speech counts even if it
is longer than the longest length. -/
def CountsFor (g : Grammar) (longest : Option Nat) (depth : Nat)
    (count : Category → Counter → CountEntry × Counter) : Prop :=
  ∀ c (counter : Counter), counter.Sound g longest →
    (count c counter).1.Reports longest (g.lengthsOf c) depth ∧ (count c counter).2.Sound g longest

variable {g : Grammar} {longest : Option Nat} {counter : Counter} {series : Nat → ℕ[X]} {depth id : Nat}
  {c : Category} {r : Rule} {entry : CountEntry}

/-- A new counter is sound. -/
theorem sound_new (g : Grammar) (longest : Option Nat) : (new longest).Sound g longest where
  longest_eq := rfl
  categories c := by simpa [new] using CountCache.sound_empty
  rules id r _ := by simpa [new] using CountCache.sound_empty

/-- Noting a use keeps a counter sound. -/
theorem Sound.hit (h : counter.Sound g longest) : counter.hit.Sound g longest :=
  ⟨h.longest_eq, h.categories, h.rules⟩

/-- Noting an overflow keeps a counter sound. -/
theorem Sound.note (h : counter.Sound g longest) (overflow : Bool) : (counter.note overflow).Sound g longest :=
  ⟨h.longest_eq, h.categories, h.rules⟩

/-- Keeping an entry for a category keeps a counter sound. -/
theorem Sound.keepCategory (h : counter.Sound g longest) (hentry : entry.Kept longest (g.lengthsOf c) depth) :
    (counter.keepCategory c depth entry).Sound g longest where
  longest_eq := h.longest_eq
  categories other := by
    simp only [Counter.keepCategory, Std.ExtTreeMap.getD_insert, Std.compare_eq_iff_eq]
    split
    · next heq => exact heq ▸ (h.categories c).insert hentry
    · exact h.categories other
  rules := h.rules

/-- Keeping an entry for a rule keeps a counter sound. -/
theorem Sound.keepRule (h : counter.Sound g longest) (hr : g.rule? id = some r)
    (hentry : entry.Kept longest (g.lengthsBy id r) depth) :
    (counter.keepRule id depth entry).Sound g longest where
  longest_eq := h.longest_eq
  categories := h.categories
  rules other s hs := by
    simp only [Counter.keepRule, Std.ExtTreeMap.getD_insert, Std.compare_eq_iff_eq]
    split
    · next heq =>
      subst heq
      obtain rfl := Option.some.inj (hr.symm.trans hs)
      exact (h.rules id r hr).insert hentry
    · exact h.rules other s hs

/-- What is kept, or counted anew, may be kept. -/
theorem Sound.keptOrCount (h : counter.Sound g longest) {cache : CountCache}
    (hcache : CountCache.Sound longest series cache) {count : Counter → CountEntry × Counter}
    (hcount : Counted g longest series depth (count counter)) :
    Counted g longest series depth (counter.keptOrCount cache depth count) := by
  unfold Counter.keptOrCount
  split
  · next entry hfind => exact ⟨hcache.kept_of_find hfind, h.hit⟩
  · exact hcount

variable {below : Category → Counter → CountEntry × Counter}

/-- The right-hand categories of a rule are counted one by one, and their polynomials multiply. -/
theorem Counted.children (hbelow : CountsFor g longest depth below) (children : List Category)
    {front : CountEntry × Counter} (hfront : Counted g longest series depth front) :
    Counted g longest (fun depth => series depth * (children.map fun c => g.lengthsOf c depth).prod) depth
      (children.foldl (fun state child =>
        (CountEntry.append (below child state.2).2.longest state.1 (below child state.2).1,
          (below child state.2).2.note (state.1.counts.overflows (below child state.2).1.counts))) front) := by
  induction children generalizing front series with
  | nil => simpa using hfront
  | cons child children ih =>
    obtain ⟨hentry, hsound⟩ := hbelow child front.2 hfront.sound
    have happend : (CountEntry.append (below child front.2).2.longest front.1
        (below child front.2).1).Kept longest (fun depth => series depth * g.lengthsOf child depth) depth := by
      rw [hsound.longest_eq]
      exact ⟨hfront.entry.toReports.append hentry, Counts.within_product⟩
    simp only [List.map_cons, List.prod_cons, ← mul_assoc]
    exact ih ⟨happend, hsound.note _⟩

/-- The derivations that begin with a rule are counted from those of its right-hand categories. -/
theorem Sound.ruleEntry (h : counter.Sound g longest) (hr : g.rule? id = some r)
    (hbelow : CountsFor g longest depth below) :
    Counted g longest (g.lengthsBy id r) (depth + 1) (ruleEntry below (depth + 1) id r counter) := by
  refine h.keptOrCount (h.rules id r hr) ?_
  have hfront : Counted g longest (fun _ => X ^ 0) depth (CountEntry.flat 0, counter) :=
    ⟨CountEntry.kept_front, h⟩
  have hcounted := hfront.children hbelow r.rhs
  have hraised := hcounted.entry.toReports.raise (g.lengthsBy id r) fun depth => by
    rw [Grammar.lengthsBy_succ, pow_zero, one_mul]
  have hkept := CountEntry.Kept.mk hraised hcounted.entry.within
  exact ⟨hkept, hcounted.sound.keepRule hr hkept⟩

/-- The rules of a category are counted one by one, and their polynomials add. -/
theorem Counted.rules (hg : g.Indexed) (hordered : g.Ordered) (hbelow : CountsFor g longest depth below)
    {rules : List (Nat × Rule)} (hrules : ∀ numbered ∈ rules, g.rule? numbered.1 = some numbered.2)
    {total : CountEntry × Counter} (htotal : Counted g longest series (depth + 1) total) :
    Counted g longest
      (fun depth => series depth + (rules.map fun numbered => g.lengthsBy numbered.1 numbered.2 depth).sum)
      (depth + 1) (rules.foldl (fun state numbered =>
        (CountEntry.merge state.1 (Counter.ruleEntry below (depth + 1) numbered.1 numbered.2 state.2).1,
          (Counter.ruleEntry below (depth + 1) numbered.1 numbered.2 state.2).2)) total) := by
  induction rules generalizing total series with
  | nil => simpa using htotal
  | cons numbered rules ih =>
    have hcounted := htotal.sound.ruleEntry (hrules numbered List.mem_cons_self) hbelow
    have hmono n {depth deeper : Nat} (hle : depth ≤ deeper) :=
      Grammar.coeff_lengths_mono hg hordered numbered.1 numbered.2 hle n
    have hmerged := htotal.entry.toReports.merge hcounted.entry.toReports hmono
    simp only [List.map_cons, List.sum_cons, ← add_assoc]
    exact ih (fun other hother => hrules other (List.mem_cons_of_mem _ hother))
      ⟨⟨hmerged, htotal.entry.within.merge hcounted.entry.within⟩, hcounted.sound⟩

/-- Up to height 0 a nonterminal has no derivations, and all of them are cut off, unless it has no rules. -/
theorem kept_flat (hsymbol : g.isNonterminal c = true) :
    CountEntry.Kept longest (g.lengthsOf c) 0 ⟨∅, !(g.rulesFor c).isEmpty, 0⟩ where
  counts := (Grammar.lengthsOf_zero hsymbol).symm ▸ Counts.reports_empty
  steady hcut deeper _ := by
    have hnil : g.rulesFor c = [] := by simpa using hcut
    rw [Grammar.lengthsOf_nonterminal hsymbol, hnil]
    exact Counts.reports_empty
  within := Counts.within_empty

/-- The derivations of a nonterminal are counted from those of its rules. -/
theorem Sound.nonterminalEntry (hg : g.Indexed) (hordered : g.Ordered) (h : counter.Sound g longest)
    (hsymbol : g.isNonterminal c = true)
    (hbelow : ∀ below, depth = below + 1 → CountsFor g longest below (categoryEntry g below)) :
    Counted g longest (g.lengthsOf c) depth (categoryEntry g depth c counter) := by
  obtain ⟨hempty, hpos⟩ := Grammar.isNonterminal_iff.mp hsymbol
  unfold Counter.categoryEntry
  simp only [hempty, hpos, Bool.false_eq_true, if_false]
  refine h.keptOrCount (h.categories c) ?_
  cases depth with
  | zero => exact ⟨kept_flat hsymbol, h.keepCategory (kept_flat hsymbol)⟩
  | succ depth =>
    have hrules numbered (hmem : numbered ∈ g.rulesFor c) : g.rule? numbered.1 = some numbered.2 :=
      (hg.mem_rulesFor.mp hmem).1.rule?
    have hnone : Counted g longest (fun _ => 0) (depth + 1) (⟨∅, false, 0⟩, counter) :=
      ⟨CountEntry.kept_none, h⟩
    have hcounted := hnone.rules hg hordered (hbelow depth rfl) hrules
    have hseries : (fun depth => 0 + ((g.rulesFor c).map fun numbered =>
        g.lengthsBy numbered.1 numbered.2 depth).sum) = g.lengthsOf c := by
      funext depth
      rw [zero_add, Grammar.lengthsOf_nonterminal hsymbol]
    rw [hseries] at hcounted
    exact ⟨hcounted.entry, hcounted.sound.keepCategory hcounted.entry⟩

/-- Words and the empty category are counted without being kept. -/
theorem categoryEntry_flat (hsymbol : g.isNonterminal c = false) (depth : Nat) (counter : Counter) :
    (categoryEntry g depth c counter).1.Reports longest (g.lengthsOf c) depth ∧
      (categoryEntry g depth c counter).2 = counter := by
  unfold Counter.categoryEntry
  cases hempty : c.isEpsilon with
  | true =>
    rw [Grammar.lengthsOf_epsilon hempty]
    exact ⟨CountEntry.reports_flat 0, rfl⟩
  | false =>
    have hpos : g.isPartOfSpeech c = true := by simpa [Grammar.isNonterminal, hempty] using hsymbol
    rw [Grammar.lengthsOf_partOfSpeech hempty hpos]
    simp only [hpos, Bool.false_eq_true, if_false, if_true]
    exact ⟨CountEntry.reports_flat 1, trivial⟩

/-- Every category is counted for every bound. -/
theorem countsFor_categoryEntry (hg : g.Indexed) (hordered : g.Ordered) (depth : Nat) :
    CountsFor g longest depth (categoryEntry g depth) := by
  have hlevel {depth : Nat} (hbelow : ∀ below, depth = below + 1 →
      CountsFor g longest below (categoryEntry g below)) :
      CountsFor g longest depth (categoryEntry g depth) := by
    intro c counter h
    cases hsymbol : g.isNonterminal c with
    | true =>
      have hcounted := h.nonterminalEntry hg hordered hsymbol hbelow
      exact ⟨hcounted.entry.toReports, hcounted.sound⟩
    | false =>
      obtain ⟨hentry, hsame⟩ := categoryEntry_flat hsymbol depth counter
      exact ⟨hentry, hsame.symm ▸ h⟩
  induction depth with
  | zero => exact hlevel fun below heq => absurd heq (Nat.succ_ne_zero below).symm
  | succ depth ih => exact hlevel fun below heq => Nat.succ.inj heq ▸ ih

/-- What is counted for anything but a part of speech stays within bounds. -/
theorem Sound.within_categoryEntry (hg : g.Indexed) (hordered : g.Ordered) (h : counter.Sound g longest)
    (hpos : g.isPartOfSpeech c = false) (depth : Nat) :
    (categoryEntry g depth c counter).1.counts.Within longest := by
  cases hempty : c.isEpsilon with
  | true =>
    have hentry : categoryEntry g depth c counter = (CountEntry.flat 0, counter) := by
      unfold Counter.categoryEntry
      rw [if_pos hempty]
    rw [hentry]
    exact Counts.within_single
  | false =>
    exact (h.nonterminalEntry hg hordered (Grammar.isNonterminal_iff.mpr ⟨hempty, hpos⟩)
      fun below _ => countsFor_categoryEntry hg hordered below).entry.within

/-! Questions -/

/-- Counters that questions about a grammar lead to, when they were answered. -/
inductive Reachable (g : Grammar) (longest : Option Nat) : Counter → Prop
  | new : Reachable g longest (new longest)
  | category {counter after : Counter} {c : Category} {depth : Nat} {counts : Counts} :
      Reachable g longest counter → counter.countCategory g c depth = .ok (counts, after) →
      Reachable g longest after
  | start {counter after : Counter} {depth : Nat} {counts : Counts} :
      Reachable g longest counter → counter.countStart g depth = .ok (counts, after) →
      Reachable g longest after
  | rule {counter after : Counter} {id depth : Nat} {counts : Counts} : Reachable g longest counter →
      counter.countRule g id depth = .ok (counts, after) → Reachable g longest after

/-- There is an answer if lengths have not overflowed, and it is what was counted. -/
theorem answer_eq_ok {result : CountEntry × Counter} {counts : Counts} {after : Counter} :
    answer result = .ok (counts, after) ↔
      result.2.overflowed = false ∧ result.1.counts = counts ∧ result.2 = after := by
  unfold answer
  split
  · next hoverflow => simp [hoverflow]
  · next hoverflow => simp [Bool.eq_false_iff.mpr hoverflow, Prod.ext_iff]

/-- There is no answer only if lengths have overflowed. -/
theorem answer_eq_error {result : CountEntry × Counter} {breach : Breach} :
    answer result = .error breach ↔ breach = .lengthOverflow ∧ result.2.overflowed = true := by
  unfold answer
  split
  · next hoverflow => simp [hoverflow, eq_comm]
  · next hoverflow => simp [hoverflow]

/-- Up to height 0 all derivations that begin with a rule are cut off. -/
theorem kept_cut : CountEntry.Kept longest (g.lengthsBy id r) 0 ⟨∅, true, 0⟩ where
  toReports := CountEntry.reports_cut rfl
  within := Counts.within_empty

/-- The derivations that begin with a rule are counted. -/
theorem Sound.entryForRule (hg : g.Indexed) (hordered : g.Ordered) (h : counter.Sound g longest)
    (hr : g.rule? id = some r) (depth : Nat) :
    Counted g longest (g.lengthsBy id r) depth (entryForRule g id r depth counter) := by
  cases depth with
  | zero =>
    rw [Counter.entryForRule]
    exact h.keptOrCount (h.rules id r hr) ⟨kept_cut, h.keepRule hr kept_cut⟩
  | succ depth => exact h.ruleEntry hr (countsFor_categoryEntry hg hordered depth)

/-- A question about a rule is answered by what is counted for it. -/
theorem countRule_eq (hr : g.rule? id = some r) (counter : Counter) (depth : Nat) :
    counter.countRule g id depth = answer (entryForRule g id r depth counter) := by
  rw [Counter.countRule, hr]

/-- What has no number as a rule is not counted. -/
theorem countRule_unknown (hr : g.rule? id = none) (counter : Counter) (depth : Nat) :
    counter.countRule g id depth = .error .indexOutOfBounds := by
  rw [Counter.countRule, hr]

/-- Answered questions keep a counter sound. -/
theorem Reachable.sound (hg : g.Indexed) (hordered : g.Ordered) (h : Reachable g longest counter) :
    counter.Sound g longest := by
  induction h with
  | new => exact sound_new g longest
  | @category counter after c depth counts _ hcount ih =>
    obtain ⟨-, -, rfl⟩ := answer_eq_ok.mp hcount
    exact (countsFor_categoryEntry hg hordered depth c counter ih).2
  | @start counter after depth counts _ hcount ih =>
    obtain ⟨-, -, rfl⟩ := answer_eq_ok.mp hcount
    exact (countsFor_categoryEntry hg hordered depth g.start counter ih).2
  | @rule counter after id depth counts _ hcount ih =>
    cases hr : g.rule? id with
    | none =>
      rw [countRule_unknown hr] at hcount
      contradiction
    | some r =>
      obtain ⟨-, -, rfl⟩ := answer_eq_ok.mp ((countRule_eq hr counter depth).symm.trans hcount)
      exact (ih.entryForRule hg hordered hr depth).sound

/-- Lengths have not overflowed while the questions were answered. -/
theorem Reachable.overflowed_eq (h : Reachable g longest counter) : counter.overflowed = false := by
  induction h with
  | new => rfl
  | category _ hcount _ =>
    obtain ⟨hfits, -, rfl⟩ := answer_eq_ok.mp hcount
    exact hfits
  | start _ hcount _ =>
    obtain ⟨hfits, -, rfl⟩ := answer_eq_ok.mp hcount
    exact hfits
  | @rule counter after id depth counts _ hcount _ =>
    unfold Counter.countRule at hcount
    split at hcount
    · contradiction
    · obtain ⟨hfits, -, rfl⟩ := answer_eq_ok.mp hcount
      exact hfits

end Counter

/-! Answers -/

namespace Counts

variable {counts : Counts} {longest : Option Nat} {kind : Parse → Prop} {depth : Nat}

/-- Counts that report the derivations of some kind up to a height hold how many there are of each length. -/
theorem Reports.getElem?_eq {ts : List Parse} (h : counts.Reports longest (Parse.lengths ts))
    (hnodup : ts.Nodup) (hmem : ∀ t, t ∈ ts ↔ kind t ∧ t.height ≤ depth) {n : Nat}
    (hn : Allowed longest n) : {t | kind t ∧ t.height ≤ depth ∧ t.yield.length = n}.Finite ∧
      counts[n]? = reported {t | kind t ∧ t.height ≤ depth ∧ t.yield.length = n}.ncard := by
  have hset : {t | kind t ∧ t.height ≤ depth ∧ t.yield.length = n} = {t | t ∈ ts ∧ t.yield.length = n} := by
    ext t
    simp [hmem, and_assoc]
  rw [hset, h n hn, Parse.coeff_lengths hnodup]
  exact ⟨(List.finite_toSet ts).subset fun t ht => ht.1, rfl⟩

/-- Counts hold, for every length, how many derivations of some kind cover as much and are no taller than a
bound: their number cut down to the cap, and nothing where there are none. -/
def Numbers (kind : Parse → Prop) (depth : Nat) (counts : Counts) : Prop :=
  ∀ n, {t | kind t ∧ t.height ≤ depth ∧ t.yield.length = n}.Finite ∧
    counts[n]? = reported {t | kind t ∧ t.height ≤ depth ∧ t.yield.length = n}.ncard

/-- Counts that hold the numbers of the same derivations are the same. -/
theorem Numbers.unique {others : Counts} (h : Numbers kind depth counts) (h' : Numbers kind depth others) :
    counts = others :=
  Std.ExtTreeMap.ext_getElem? fun {n} => (h n).2.trans (h' n).2.symm

end Counts

namespace Counter

variable {g : Grammar} {counter : Counter}

/-- Up to a length, the derivations of the start category are counted that are no taller than a bound. -/
theorem count_countDerivations (hg : g.Indexed) (hordered : g.Ordered) (depth : Nat) {longest n : Nat}
    (hn : n ≤ longest) : {t | g.IsDerivation g.start t ∧ t.height ≤ depth ∧ t.yield.length = n}.Finite ∧
      (countDerivations g depth (some longest)).count n =
        capped {t | g.IsDerivation g.start t ∧ t.height ≤ depth ∧ t.yield.length = n}.ncard := by
  have hreports := (countsFor_categoryEntry hg hordered depth g.start _ (sound_new g (some longest))).1.counts
  obtain ⟨hfinite, hcount⟩ := hreports.getElem?_eq (Grammar.nodup_derivations hg hordered depth g.start)
    (fun _ => Grammar.mem_derivations hg) (allowed_some.mpr hn)
  exact ⟨hfinite, Counts.count_eq_of_reported hcount⟩

end Counter

/-! Counting without a rule -/

namespace Grammar.Without

variable {g g' : Grammar} {id : Nat}

/-- Without a rule no more derivations are counted. -/
theorem count_countDerivations_le (h : g.Without id g') (hg : g.Ordered) (hg' : g'.Ordered) (depth : Nat)
    {longest n : Nat} (hn : n ≤ longest) :
    (countDerivations g' depth (some longest)).count n ≤ (countDerivations g depth (some longest)).count n := by
  obtain ⟨hfinite, hcount⟩ := Counter.count_countDerivations h.indexed hg depth hn
  obtain ⟨-, hcount'⟩ := Counter.count_countDerivations h.indexed' hg' depth hn
  rw [hcount, hcount', h.start_eq]
  refine min_le_min_right countCap (Set.ncard_le_ncard (fun t ht => ?_) hfinite)
  exact ⟨ht.1.of_rules h.partsOfSpeech.symm (fun other r _ hr _ => ((h.hasRule other r).mp hr).1) t, ht.2⟩

end Grammar.Without

end IndexedGrammar
