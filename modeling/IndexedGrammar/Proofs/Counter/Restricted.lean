import IndexedGrammar.Proofs.Counter.Overflow

/-!
# Counting short sentences

A counter with a longest length leaves longer sentences out while it counts. What it keeps reports the same
polynomials as what a counter without one keeps, at the lengths of interest, and holds no other lengths. So it
answers as the other one does, with the longer sentences left out afterwards, whatever either of them was asked
before, unless lengths overflow for one of them. A part of speech is the exception: it counts as one word even
where no word is short enough.
-/

namespace IndexedGrammar

namespace Counts

variable {counts others : Counts} {longest : Nat}

/-- The counts of sentences no longer than a length. -/
def upTo (longest : Nat) (counts : Counts) : Counts :=
  counts.filter fun length _ => length ≤ longest

/-- Lengths of interest keep their counts, and others are left out. -/
theorem getElem?_upTo (counts : Counts) (longest n : Nat) :
    (counts.upTo longest)[n]? = if n ≤ longest then counts[n]? else none := by
  rw [upTo, Std.ExtTreeMap.getElem?_filter']
  cases counts[n]? with
  | none => simp
  | some count => simp [Option.filter_some]

/-- Counts within bounds that report a polynomial are what is left of any counts that report it. -/
theorem Within.eq_upTo (hwithin : counts.Within (some longest)) {p : Polynomial Nat}
    (h : counts.Reports (some longest) p) (hothers : others.Reports none p) : counts = others.upTo longest := by
  refine Std.ExtTreeMap.ext_getElem? fun {n} => ?_
  rw [getElem?_upTo]
  split
  · next hshort => rw [h n (allowed_some.mpr hshort), hothers n (allowed_none n)]
  · next hlong => exact hwithin n (mt allowed_some.mp hlong)

/-- A word stays within bounds if words are short enough. -/
theorem within_word (hlongest : 0 < longest) : (single 1).Within (some longest) :=
  within_empty.add (allowed_some.mpr hlongest) 1

end Counts

namespace Counter

variable {g : Grammar} {counter full : Counter} {longest depth id : Nat} {c : Category} {r : Rule}

/-- A part of speech counts as one word. -/
theorem categoryEntry_partOfSpeech (hempty : c.isEpsilon = false) (hpos : g.isPartOfSpeech c = true) :
    categoryEntry g depth c counter = (CountEntry.flat 1, counter) := by
  unfold Counter.categoryEntry
  simp only [hempty, hpos, Bool.false_eq_true, if_false, if_true]

/-- What a sound counter counts for a category stays within bounds, unless not even a word does. -/
theorem Sound.within_of_word (hg : g.Indexed) (hordered : g.Ordered) (h : counter.Sound g (some longest))
    (hc : c.isEpsilon = false → g.isPartOfSpeech c = true → 0 < longest) :
    (categoryEntry g depth c counter).1.counts.Within (some longest) := by
  cases hpos : g.isPartOfSpeech c with
  | false => exact h.within_categoryEntry hg hordered hpos depth
  | true =>
    cases hempty : c.isEpsilon with
    | false =>
      rw [categoryEntry_partOfSpeech hempty hpos]
      exact Counts.within_word (hc hempty hpos)
    | true =>
      have hentry : categoryEntry g depth c counter = (CountEntry.flat 0, counter) := by
        unfold Counter.categoryEntry
        rw [if_pos hempty]
      rw [hentry]
      exact Counts.within_single

/-- The answer of a counter with a longest length is that of one without it, with the longer sentences left out,
if both answer. One of them does not answer only if lengths overflow for it. -/
structure Restricted (g : Grammar) (longest depth : Nat) (answer full : Except Breach (Counts × Counter)) : Prop where
  eq_upTo : ∀ counts after, answer = .ok (counts, after) → ∀ others rest, full = .ok (others, rest) →
    counts = others.upTo longest
  fails : ∀ breach, answer = .error breach → breach = .lengthOverflow ∧ g.Overlong (some longest) depth
  full_fails : ∀ breach, full = .error breach → breach = .lengthOverflow ∧ g.Overlong none depth

/-- What both counted for the same derivations are such answers. -/
theorem restricted_answer {series : Nat → Polynomial Nat} {result fullResult : CountEntry × Counter}
    (hwithin : result.1.counts.Within (some longest)) (h : result.1.Reports (some longest) series depth)
    (hfull : fullResult.1.Reports none series depth) (hfits : result.2.Fits g (some longest) depth)
    (hfullFits : fullResult.2.Fits g none depth) :
    Restricted g longest depth (answer result) (answer fullResult) where
  eq_upTo counts after hanswer others rest hfullAnswer := by
    obtain ⟨-, rfl, -⟩ := answer_eq_ok.mp hanswer
    obtain ⟨-, rfl, -⟩ := answer_eq_ok.mp hfullAnswer
    exact hwithin.eq_upTo h.counts hfull.counts
  fails breach hanswer := by
    obtain ⟨rfl, hoverflow⟩ := answer_eq_error.mp hanswer
    exact ⟨rfl, hfits hoverflow⟩
  full_fails breach hanswer := by
    obtain ⟨rfl, hoverflow⟩ := answer_eq_error.mp hanswer
    exact ⟨rfl, hfullFits hoverflow⟩

/-- A counter with a longest length answers for a category as one without it does. -/
theorem Reachable.restricted_countCategory (hg : g.Indexed) (hordered : g.Ordered)
    (h : Reachable g (some longest) counter) (hfull : Reachable g none full)
    (hc : c.isEpsilon = false → g.isPartOfSpeech c = true → 0 < longest) :
    Restricted g longest depth (counter.countCategory g c depth) (full.countCategory g c depth) := by
  have hsound := h.sound hg hordered
  have hfullSound := hfull.sound hg hordered
  exact restricted_answer (hsound.within_of_word hg hordered hc)
    (countsFor_categoryEntry hg hordered depth c counter hsound).1
    (countsFor_categoryEntry hg hordered depth c full hfullSound).1
    (fitsFor_categoryEntry hg hordered (Nat.le_refl depth) c counter hsound (h.fits depth))
    (fitsFor_categoryEntry hg hordered (Nat.le_refl depth) c full hfullSound (hfull.fits depth))

/-- It answers for a rule as one without it does. -/
theorem Reachable.restricted_countRule (hg : g.Indexed) (hordered : g.Ordered)
    (h : Reachable g (some longest) counter) (hfull : Reachable g none full) (hr : g.rule? id = some r) :
    Restricted g longest depth (counter.countRule g id depth) (full.countRule g id depth) := by
  have hsound := h.sound hg hordered
  have hfullSound := hfull.sound hg hordered
  have hkept := (hsound.entryForRule hg hordered hr depth).entry
  rw [countRule_eq hr, countRule_eq hr]
  exact restricted_answer hkept.within hkept.toReports
    (hfullSound.entryForRule hg hordered hr depth).entry.toReports
    (Fits.entryForRule hg hordered hr hsound (h.fits depth))
    (Fits.entryForRule hg hordered hr hfullSound (hfull.fits depth))

/-- Whatever they were asked before, a counter with a longest length answers as one without it does, with the
longer sentences left out: for every category, unless it is a part of speech and no word is short enough, for
the start category and for every rule. Neither answers for what is no rule. -/
theorem restricted_of_reachable (hg : g.Reachable) (h : Reachable g (some longest) counter)
    (hfull : Reachable g none full) (depth : Nat) :
    (∀ c, (c.isEpsilon = false → g.isPartOfSpeech c = true → 0 < longest) →
      Restricted g longest depth (counter.countCategory g c depth) (full.countCategory g c depth)) ∧
    ((g.start.isEpsilon = false → g.isPartOfSpeech g.start = true → 0 < longest) →
      Restricted g longest depth (counter.countStart g depth) (full.countStart g depth)) ∧
    (∀ id r, g.rule? id = some r →
      Restricted g longest depth (counter.countRule g id depth) (full.countRule g id depth)) ∧
    (∀ id, g.rule? id = none → counter.countRule g id depth = .error .indexOutOfBounds ∧
      full.countRule g id depth = .error .indexOutOfBounds) :=
  ⟨fun _ hc => h.restricted_countCategory hg.indexed hg.ordered hfull hc,
    fun hstart => h.restricted_countCategory hg.indexed hg.ordered hfull hstart,
    fun _ _ hr => h.restricted_countRule hg.indexed hg.ordered hfull hr,
    fun _ hr => ⟨countRule_unknown hr counter depth, countRule_unknown hr full depth⟩⟩

open Sample in
/-- A counter for lists of up to two words, asked for height 4 and then for 3, leaves out the list of three
words, which a counter without a longest length, asked for height 5 and then for 3, counts. -/
theorem restricted_of_reachable_lists : ∃ counter full counts after others rest, lists.Reachable ∧
    Reachable lists (some 2) counter ∧ Reachable lists none full ∧
    counter.countStart lists 3 = .ok (counts, after) ∧ full.countStart lists 3 = .ok (others, rest) ∧
    counts = others.upTo 2 ∧ counts.toList = [(1, 1), (2, 1)] ∧ others.toList = [(1, 1), (2, 1), (3, 1)] := by
  have hruns : ((new (some 2)).countStart lists 4).toOption.any (fun first =>
      (first.2.countStart lists 3).toOption.any fun second => second.1.toList == [(1, 1), (2, 1)]) = true := by
    decide +kernel
  have hfullRuns : ((new none).countStart lists 5).toOption.any (fun first =>
      (first.2.countStart lists 3).toOption.any fun second =>
        second.1.toList == [(1, 1), (2, 1), (3, 1)]) = true := by
    decide +kernel
  obtain ⟨⟨_, counter⟩, hfirst, hruns⟩ := exists_ok_of_any hruns
  obtain ⟨⟨counts, after⟩, hcounts, hshort⟩ := exists_ok_of_any hruns
  obtain ⟨⟨_, full⟩, hfullFirst, hfullRuns⟩ := exists_ok_of_any hfullRuns
  obtain ⟨⟨others, rest⟩, hothers, hlong⟩ := exists_ok_of_any hfullRuns
  have hlists : lists.Reachable := .insert longer reachable_singles
  have hcounter : Reachable lists (some 2) counter := .start .new hfirst
  have hfull : Reachable lists none full := .start .new hfullFirst
  have hrestricted := (restricted_of_reachable hlists hcounter hfull 3).2.1 fun _ _ => Nat.two_pos
  exact ⟨counter, full, counts, after, others, rest, hlists, hcounter, hfull, hcounts, hothers,
    hrestricted.eq_upTo counts after hcounts others rest hothers, eq_of_beq hshort, eq_of_beq hlong⟩

open Sample in
/-- Where no word is short enough, a part of speech still counts as one word. -/
theorem exists_countCategory_ne_upTo : ∃ (g : Grammar) (counter full : Counter) (longest : Nat) (c : Category)
    (counts others : Counts), g.Reachable ∧ Reachable g (some longest) counter ∧ Reachable g none full ∧
      (counter.countCategory g c 0).map Prod.fst = .ok counts ∧
      (full.countCategory g c 0).map Prod.fst = .ok others ∧
      counts.toList = [(1, 1)] ∧ (others.upTo longest).toList = [] := by
  have hcount (longest : Option Nat) :
      ((new longest).countCategory singles noun 0).map Prod.fst = .ok (Counts.single 1) := by
    rw [countCategory, categoryEntry_partOfSpeech (by decide) (by decide)]
    rfl
  exact ⟨singles, new (some 0), new none, 0, noun, Counts.single 1, Counts.single 1, reachable_singles, .new, .new,
    hcount _, hcount _, by decide +kernel, by decide +kernel⟩

end Counter

end IndexedGrammar
