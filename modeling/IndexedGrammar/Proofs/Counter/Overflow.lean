import IndexedGrammar.Proofs.Counter

/-!
# Lengths that overflow

A counter adds the lengths that it has counted for the first symbols of a rule to those that it has counted for
the next symbol. Both are lengths of derivations lower than the bound asked for. So lengths overflow only if there
are such derivations which are together longer than the largest length; then there is no answer. All other
questions are answered with the numbers of the derivations, whatever was asked before.
-/

namespace IndexedGrammar

open Polynomial

/-- If some parses of a length are counted, there is one. -/
theorem Parse.exists_of_coeff_lengths {ts : List Parse} {n : Nat} (h : (lengths ts).coeff n ≠ 0) :
    ∃ t ∈ ts, t.yield.length = n := by
  induction ts with
  | nil => simp [lengths] at h
  | cons t ts ih =>
    have hcons : lengths (t :: ts) = X ^ t.yield.length + lengths ts := by simp [lengths]
    by_cases heq : t.yield.length = n
    · exact ⟨t, List.mem_cons_self, heq⟩
    · rw [hcons, coeff_add, coeff_X_pow, if_neg (Ne.symm heq), zero_add] at h
      obtain ⟨other, hother, hlength⟩ := ih h
      exact ⟨other, List.mem_cons_of_mem t hother, hlength⟩

/-- Lengths on the left and on the right overflow if two of them do. -/
theorem Counts.overflows_iff {left right : Counts} : left.overflows right = true ↔
    ∃ l r m n, left[l]? = some m ∧ right[r]? = some n ∧ lengthCap < l + r := by
  simp only [Counts.overflows, List.any_eq_true, Prod.exists, Std.ExtTreeMap.mem_toList_iff_getElem?_eq_some,
    decide_eq_true_eq]
  constructor
  · rintro ⟨l, m, hl, r, n, hr, hlong⟩
    exact ⟨l, r, m, n, hl, hr, hlong⟩
  · rintro ⟨l, r, m, n, hl, hr, hlong⟩
    exact ⟨l, m, hl, r, n, hr, hlong⟩

/-- What is kept was counted. -/
theorem coeff_ne_zero_of_reported {n count : Nat} (h : reported n = some count) : n ≠ 0 := by
  rintro rfl
  exact absurd h (by simp [reported])

namespace Grammar

variable {g : Grammar} {longest : Option Nat} {depth : Nat}

/-- If some derivations of a category of a length are counted, there is one. -/
theorem exists_of_coeff_lengthsOf (hg : g.Indexed) {c : Category} {n : Nat}
    (h : (g.lengthsOf c depth).coeff n ≠ 0) :
    ∃ t, g.IsDerivation c t ∧ t.height ≤ depth ∧ t.yield.length = n := by
  obtain ⟨t, ht, hlength⟩ := Parse.exists_of_coeff_lengths h
  obtain ⟨hderivation, hheight⟩ := (mem_derivations hg).mp ht
  exact ⟨t, hderivation, hheight, hlength⟩

/-- If some derivations of categories side by side of a length are counted, there are such derivations. -/
theorem exists_of_coeff_prod (hg : g.Indexed) {cs : List Category} {n : Nat}
    (h : ((cs.map fun c => g.lengthsOf c depth).prod).coeff n ≠ 0) :
    ∃ ts, List.Forall₂ g.IsDerivation cs ts ∧ Parse.heights ts ≤ depth ∧ (Parse.yields ts).length = n := by
  have hprod := lengths_applied (g.derivations depth) rootId ⟨.epsilon, cs, none⟩
  obtain ⟨t, ht, hlength⟩ := Parse.exists_of_coeff_lengths (hprod ▸ h)
  obtain ⟨⟨parts, hparts, rfl⟩, hheight⟩ := (mem_applied fun c t => mem_derivations hg).mp ht
  exact ⟨parts, hparts, Nat.le_of_succ_le_succ hheight, hlength⟩

/-- Derivations of the first symbols of some rule, which are lower than a bound and no longer than the longest
length of interest, and one of the next symbol are together longer than the largest length. -/
def Overlong (g : Grammar) (longest : Option Nat) (depth : Nat) : Prop :=
  ∃ id r first next rest parts t, g.rule? id = some r ∧ r.rhs = first ++ next :: rest ∧
    List.Forall₂ g.IsDerivation first parts ∧ g.IsDerivation next t ∧
    Parse.heights (t :: parts) < depth ∧ Allowed longest (Parse.yields parts).length ∧
    Allowed (longest.map (max 1)) t.yield.length ∧ lengthCap < (Parse.yields parts).length + t.yield.length

/-- If lengths overflow for a bound, they do so for greater ones. -/
theorem Overlong.mono (h : g.Overlong longest depth) {deeper : Nat} (hle : depth ≤ deeper) :
    g.Overlong longest deeper := by
  obtain ⟨id, r, first, next, rest, parts, t, hr, hrhs, hparts, ht, hheight, hshort⟩ := h
  exact ⟨id, r, first, next, rest, parts, t, hr, hrhs, hparts, ht, hheight.trans_le hle, hshort⟩

/-- Lengths do not overflow if the longest length of interest is less than half of what is possible. -/
theorem not_overlong_of_short {bound : Nat} (hbound : bound < Nat.pow 2 63) : ¬g.Overlong (some bound) depth := by
  rintro ⟨-, -, -, -, -, parts, t, -, -, -, -, -, hparts, ht, hlong⟩
  have hcap : lengthCap = 2 * Nat.pow 2 63 - 1 := by decide
  have hfirst := allowed_some.mp hparts
  have hnext := allowed_some.mp ht
  omega

mutual

/-- If no rule has more than two symbols, a derivation covers at most twice as much as what is below it. -/
theorem IsDerivation.length_yield_le (hbinary : ∀ id r, g.rule? id = some r → r.rhs.length ≤ 2) {c : Category} :
    (t : Parse) → g.IsDerivation c t → t.yield.length ≤ 2 ^ t.height
  | .word _, _ => Nat.le_refl 1
  | .nothing, _ => Nat.zero_le _
  | .apply _ rule parts, h => by
    cases h with
    | @apply _ r _ hsymbol hr hparts =>
      calc (Parse.yields parts).length ≤ parts.length * 2 ^ Parse.heights parts :=
            IsDerivation.length_yields_le hbinary parts hparts
        _ ≤ 2 * 2 ^ Parse.heights parts :=
            Nat.mul_le_mul_right _ (hparts.length_eq ▸ hbinary rule r hr.rule?)
        _ = 2 ^ (Parse.heights parts + 1) := by rw [Nat.pow_succ, Nat.mul_comm]

/-- Derivations side by side cover at most as much as that many of the tallest. -/
theorem IsDerivation.length_yields_le (hbinary : ∀ id r, g.rule? id = some r → r.rhs.length ≤ 2)
    {cs : List Category} : (ts : List Parse) → List.Forall₂ g.IsDerivation cs ts →
      (Parse.yields ts).length ≤ ts.length * 2 ^ Parse.heights ts
  | [], _ => Nat.zero_le _
  | t :: ts, h => by
    cases h with
    | cons ht hts =>
      have hfirst := IsDerivation.length_yield_le hbinary t ht
      have hrest := IsDerivation.length_yields_le hbinary ts hts
      have hleft : 2 ^ t.height ≤ 2 ^ Parse.heights (t :: ts) := Nat.pow_le_pow_right Nat.two_pos (Nat.le_max_left ..)
      have hright : 2 ^ Parse.heights ts ≤ 2 ^ Parse.heights (t :: ts) :=
        Nat.pow_le_pow_right Nat.two_pos (Nat.le_max_right ..)
      rw [Parse.yields, List.length_append, List.length_cons, Nat.succ_mul, Nat.add_comm]
      exact Nat.add_le_add (hrest.trans (Nat.mul_le_mul_left _ hright)) (hfirst.trans hleft)

end

/-- Words and the empty category cover at most one word. -/
theorem IsDerivation.length_yield_le_one {c : Category} {t : Parse} (h : g.IsDerivation c t)
    (hsymbol : g.isNonterminal c = false) : t.yield.length ≤ 1 := by
  cases h with
  | word => exact Nat.le_refl 1
  | nothing => exact Nat.zero_le 1
  | apply hnonterminal => exact absurd hnonterminal (by rw [hsymbol]; exact Bool.false_ne_true)

/-- Lengths do not overflow for bounds up to 63 if no rule has more than two symbols. -/
theorem not_overlong_of_low (hbinary : ∀ id r, g.rule? id = some r → r.rhs.length ≤ 2) (hdepth : depth < 64) :
    ¬g.Overlong longest depth := by
  rintro ⟨id, r, first, next, rest, parts, t, hr, hrhs, hparts, ht, hheight, -, -, hlong⟩
  have hlength := hbinary id r hr
  rw [hrhs, List.length_append, List.length_cons, hparts.length_eq] at hlength
  have hyields := IsDerivation.length_yields_le hbinary (t :: parts) (.cons ht hparts)
  have hpow : 2 ^ Parse.heights (t :: parts) ≤ Nat.pow 2 62 :=
    Nat.pow_le_pow_right Nat.two_pos (by omega)
  have hcap : lengthCap = 4 * Nat.pow 2 62 - 1 := by decide
  have hmul : (t :: parts).length * 2 ^ Parse.heights (t :: parts) ≤ 2 * Nat.pow 2 62 :=
    Nat.mul_le_mul (by rw [List.length_cons]; omega) hpow
  rw [Parse.yields, List.length_append] at hyields
  omega

end Grammar

namespace Counter

variable {g : Grammar} {longest : Option Nat} {counter : Counter} {depth bound id : Nat} {c : Category} {r : Rule}

/-- Lengths that have overflowed are explained by derivations lower than a bound. -/
def Fits (g : Grammar) (longest : Option Nat) (bound : Nat) (counter : Counter) : Prop :=
  counter.overflowed = true → g.Overlong longest bound

/-- Counting categories keeps to this. -/
def FitsFor (g : Grammar) (longest : Option Nat) (bound : Nat)
    (count : Category → Counter → CountEntry × Counter) : Prop :=
  ∀ c (counter : Counter), counter.Sound g longest → counter.Fits g longest bound →
    (count c counter).2.Fits g longest bound

/-- The lengths that are counted for a category are those of its derivations, and they are of interest, unless a
word is too long. -/
theorem Sound.exists_of_mem_categoryEntry (hg : g.Indexed) (hordered : g.Ordered) (h : counter.Sound g longest)
    {n count : Nat} (hn : (categoryEntry g depth c counter).1.counts[n]? = some count) :
    (∃ t, g.IsDerivation c t ∧ t.height ≤ depth ∧ t.yield.length = n) ∧ Allowed (longest.map (max 1)) n := by
  cases hsymbol : g.isNonterminal c with
  | true =>
    obtain ⟨-, hpos⟩ := Grammar.isNonterminal_iff.mp hsymbol
    have hallowed : Allowed longest n := by
      by_contra hlong
      rw [h.within_categoryEntry hg hordered hpos depth n hlong] at hn
      contradiction
    have hreports := (countsFor_categoryEntry hg hordered depth c counter h).1.counts n hallowed
    refine ⟨Grammar.exists_of_coeff_lengthsOf hg (coeff_ne_zero_of_reported (hreports.symm.trans hn)),
      fun bound hbound => ?_⟩
    obtain ⟨short, hshort, rfl⟩ := Option.mem_map.mp hbound
    exact (hallowed short hshort).trans (Nat.le_max_right _ _)
  | false =>
    have hreports := (categoryEntry_flat hsymbol depth counter).1.counts n (allowed_none n)
    obtain ⟨t, ht, hheight, rfl⟩ :=
      Grammar.exists_of_coeff_lengthsOf hg (coeff_ne_zero_of_reported (hreports.symm.trans hn))
    refine ⟨⟨t, ht, hheight, rfl⟩, fun bound hbound => ?_⟩
    obtain ⟨short, -, rfl⟩ := Option.mem_map.mp hbound
    exact (ht.length_yield_le_one hsymbol).trans (Nat.le_max_left _ _)

/-- Whether something was kept does not matter. -/
theorem Fits.keptOrCount (h : counter.Fits g longest bound) {cache : CountCache}
    {count : Counter → CountEntry × Counter} (hcount : (count counter).2.Fits g longest bound) :
    (counter.keptOrCount cache depth count).2.Fits g longest bound := by
  unfold Counter.keptOrCount
  split
  · exact h
  · exact hcount

/-- Counting the right-hand categories of a rule, from some category on, keeps to this. -/
theorem Counted.fits_children (hg : g.Indexed) (hordered : g.Ordered) (hr : g.rule? id = some r)
    (hdepth : depth < bound) (hbelow : FitsFor g longest bound (categoryEntry g depth))
    {first rest : List Category} (hrhs : r.rhs = first ++ rest) {front : CountEntry × Counter}
    (hfront : Counted g longest (fun depth => (first.map fun c => g.lengthsOf c depth).prod) depth front)
    (hfits : front.2.Fits g longest bound) :
    (rest.foldl (fun state child =>
      (CountEntry.append (categoryEntry g depth child state.2).2.longest state.1
          (categoryEntry g depth child state.2).1,
        (categoryEntry g depth child state.2).2.note
          (state.1.counts.overflows (categoryEntry g depth child state.2).1.counts)))
      front).2.Fits g longest bound := by
  induction rest generalizing first front with
  | nil => exact hfits
  | cons child rest ih =>
    have hnext := hfront.children (countsFor_categoryEntry hg hordered depth) [child]
    have hsplit : r.rhs = (first ++ [child]) ++ rest := by simpa using hrhs
    refine ih hsplit (by simpa using hnext) fun hoverflow => ?_
    rcases Bool.or_eq_true_iff.mp hoverflow with hbefore | hnow
    · exact hbelow child front.2 hfront.sound hfits hbefore
    · obtain ⟨l, r', m, n, hl, hn, hlong⟩ := Counts.overflows_iff.mp hnow
      have hallowed : Allowed longest l := by
        by_contra hnot
        rw [hfront.entry.within l hnot] at hl
        contradiction
      have hcoeff := coeff_ne_zero_of_reported ((hfront.entry.counts l hallowed).symm.trans hl)
      obtain ⟨parts, hparts, hheights, rfl⟩ := Grammar.exists_of_coeff_prod hg hcoeff
      obtain ⟨⟨t, ht, hheight, rfl⟩, hshort⟩ := hfront.sound.exists_of_mem_categoryEntry hg hordered hn
      exact ⟨id, r, first, child, rest, parts, t, hr, hrhs, hparts, ht,
        (Nat.max_le.mpr ⟨hheight, hheights⟩).trans_lt hdepth, hallowed, hshort, hlong⟩

/-- Counting a rule keeps to this. -/
theorem Fits.ruleEntry (hg : g.Indexed) (hordered : g.Ordered) (hr : g.rule? id = some r)
    (hdepth : depth < bound) (hbelow : FitsFor g longest bound (categoryEntry g depth))
    (h : counter.Sound g longest) (hfits : counter.Fits g longest bound) :
    (ruleEntry (categoryEntry g depth) (depth + 1) id r counter).2.Fits g longest bound := by
  refine hfits.keptOrCount ?_
  have hfront : Counted g longest (fun depth => (([] : List Category).map fun c => g.lengthsOf c depth).prod) depth
      (CountEntry.flat 0, counter) := ⟨by simpa using CountEntry.kept_front, h⟩
  exact hfront.fits_children hg hordered hr hdepth hbelow rfl hfits

/-- Counting rules one by one keeps to this. -/
theorem Fits.rules (hg : g.Indexed) (hordered : g.Ordered) (hdepth : depth < bound)
    (hbelow : FitsFor g longest bound (categoryEntry g depth)) {rules : List (Nat × Rule)}
    (hrules : ∀ numbered ∈ rules, g.rule? numbered.1 = some numbered.2) {total : CountEntry × Counter}
    (h : total.2.Sound g longest) (hfits : total.2.Fits g longest bound) :
    (rules.foldl (fun state numbered =>
      (CountEntry.merge state.1
          (Counter.ruleEntry (categoryEntry g depth) (depth + 1) numbered.1 numbered.2 state.2).1,
        (Counter.ruleEntry (categoryEntry g depth) (depth + 1) numbered.1 numbered.2 state.2).2))
      total).2.Fits g longest bound := by
  induction rules generalizing total with
  | nil => exact hfits
  | cons numbered rules ih =>
    have hr := hrules numbered List.mem_cons_self
    exact ih (fun other hother => hrules other (List.mem_cons_of_mem _ hother))
      (h.ruleEntry hr (countsFor_categoryEntry hg hordered depth)).sound
      (Fits.ruleEntry hg hordered hr hdepth hbelow h hfits)

/-- Counting for heights up to the bound keeps to this. -/
theorem fitsFor_categoryEntry (hg : g.Indexed) (hordered : g.Ordered) (hdepth : depth ≤ bound) :
    FitsFor g longest bound (categoryEntry g depth) := by
  induction depth with
  | zero =>
    intro c counter _ hfits
    unfold Counter.categoryEntry
    split
    · exact hfits
    · split
      · exact hfits
      · exact hfits.keptOrCount hfits
  | succ depth ih =>
    intro c counter h hfits
    unfold Counter.categoryEntry
    split
    · exact hfits
    · split
      · exact hfits
      · refine hfits.keptOrCount ?_
        exact Fits.rules hg hordered hdepth (ih (Nat.le_of_succ_le hdepth))
          (fun numbered hmem => (hg.mem_rulesFor.mp hmem).1.rule?) h hfits

/-- Counting the derivations that begin with a rule keeps to this. -/
theorem Fits.entryForRule (hg : g.Indexed) (hordered : g.Ordered) (hr : g.rule? id = some r)
    (h : counter.Sound g longest) (hfits : counter.Fits g longest depth) :
    (entryForRule g id r depth counter).2.Fits g longest depth := by
  cases depth with
  | zero => exact hfits.keptOrCount hfits
  | succ depth =>
    have hbelow : FitsFor g longest (depth + 1) (categoryEntry g depth) :=
      fitsFor_categoryEntry hg hordered (Nat.le_succ depth)
    exact Fits.ruleEntry hg hordered hr (Nat.lt_succ_self depth) hbelow h hfits

/-! Answers -/

/-- The derivations of the start category are counted if lengths do not overflow. -/
theorem countDerivations?_eq (hg : g.Indexed) (hordered : g.Ordered) (hshort : ¬g.Overlong longest depth) :
    countDerivations? g depth longest = .ok (countDerivations g depth longest) := by
  have hnew : (new longest).Fits g longest depth := fun hoverflow => absurd hoverflow Bool.false_ne_true
  have hfits := fitsFor_categoryEntry hg hordered (Nat.le_refl depth) g.start (new longest) (sound_new g longest) hnew
  have hnone : (categoryEntry g depth g.start (new longest)).2.overflowed = false :=
    Bool.eq_false_iff.mpr (mt hfits hshort)
  rw [countDerivations?, countStart, countCategory, answer_eq_ok.mpr ⟨hnone, rfl, rfl⟩]
  rfl

/-- An answer about derivations of some kind, no taller than a bound, holds their numbers; and it is what
another counter answers, if that answers. There is none only if lengths overflow. -/
structure Answered (g : Grammar) (kind : Parse → Prop) (depth : Nat)
    (answer other : Except Breach (Counts × Counter)) : Prop where
  numbers : ∀ counts after, answer = .ok (counts, after) → counts.Numbers kind depth
  agrees : ∀ counts after, answer = .ok (counts, after) → ∀ counts' after', other = .ok (counts', after') →
    counts = counts'
  fails : ∀ breach, answer = .error breach → breach = .lengthOverflow ∧ g.Overlong none depth

/-- What was counted is an answer, unless lengths have overflowed. -/
theorem answered_answer {kind : Parse → Prop} {result : CountEntry × Counter}
    {other : Except Breach (Counts × Counter)} (hfits : result.2.Fits g none depth)
    (hnumbers : result.1.counts.Numbers kind depth)
    (hother : ∀ counts after, other = .ok (counts, after) → counts.Numbers kind depth) :
    Answered g kind depth (answer result) other where
  numbers counts after hanswer := by
    obtain ⟨-, rfl, -⟩ := answer_eq_ok.mp hanswer
    exact hnumbers
  agrees counts after hanswer counts' after' hanswer' := by
    obtain ⟨-, rfl, -⟩ := answer_eq_ok.mp hanswer
    exact hnumbers.unique (hother counts' after' hanswer')
  fails breach hanswer := by
    obtain ⟨rfl, hoverflow⟩ := answer_eq_error.mp hanswer
    exact ⟨rfl, hfits hoverflow⟩

/-- Nothing has to be explained for a counter that has answered all questions so far. -/
theorem Reachable.fits (h : Reachable g longest counter) (bound : Nat) : counter.Fits g longest bound :=
  fun hoverflow => absurd hoverflow (by rw [h.overflowed_eq]; exact Bool.false_ne_true)

/-- A sound counter counts the derivations of a category. -/
theorem Sound.numbers_categoryEntry (hg : g.Indexed) (hordered : g.Ordered) (h : counter.Sound g none)
    (c : Category) (depth : Nat) : Counts.Numbers (g.IsDerivation c) depth (categoryEntry g depth c counter).1.counts :=
  fun n => (countsFor_categoryEntry hg hordered depth c counter h).1.counts.getElem?_eq
    (Grammar.nodup_derivations hg hordered depth c) (fun _ => Grammar.mem_derivations hg) (allowed_none n)

/-- What is counted for a rule numbers the derivations that begin with it. -/
theorem Counted.numbers (hg : g.Indexed) (hordered : g.Ordered) {result : CountEntry × Counter}
    (h : Counted g none (g.lengthsBy id r) depth result) :
    Counts.Numbers (g.BeginsWith id r) depth result.1.counts :=
  fun n => h.entry.counts.getElem?_eq (Grammar.nodup_derivationsBy hg hordered id r depth)
    (fun _ => Grammar.mem_derivationsBy hg) (allowed_none n)

/-- Whatever two counters were asked before, they answer with the same numbers of derivations of a category. -/
theorem Reachable.answered_countCategory (hg : g.Indexed) (hordered : g.Ordered) {other : Counter}
    (h : Reachable g none counter) (hother : Reachable g none other) (c : Category) (depth : Nat) :
    Answered g (g.IsDerivation c) depth (counter.countCategory g c depth) (other.countCategory g c depth) := by
  have hsound := h.sound hg hordered
  refine answered_answer (fitsFor_categoryEntry hg hordered (Nat.le_refl depth) c counter hsound (h.fits depth))
    (hsound.numbers_categoryEntry hg hordered c depth) fun counts after hanswer => ?_
  obtain ⟨-, rfl, -⟩ := answer_eq_ok.mp hanswer
  exact (hother.sound hg hordered).numbers_categoryEntry hg hordered c depth

/-- Whatever two counters were asked before, they answer with the same numbers of derivations that begin with a
rule. -/
theorem Reachable.answered_countRule (hg : g.Indexed) (hordered : g.Ordered) {other : Counter}
    (h : Reachable g none counter) (hother : Reachable g none other) (hr : g.rule? id = some r) (depth : Nat) :
    Answered g (g.BeginsWith id r) depth (counter.countRule g id depth) (other.countRule g id depth) := by
  have hsound := h.sound hg hordered
  rw [countRule_eq hr, countRule_eq hr]
  refine answered_answer (Fits.entryForRule hg hordered hr hsound (h.fits depth))
    ((hsound.entryForRule hg hordered hr depth).numbers hg hordered) fun counts after hanswer => ?_
  obtain ⟨-, rfl, -⟩ := answer_eq_ok.mp hanswer
  exact ((hother.sound hg hordered).entryForRule hg hordered hr depth).numbers hg hordered

/-- Whatever a counter was asked before, it answers with the number of derivations of each length, for a
category, for the start category and for a rule; and it answers as a new one does. The only questions without an
answer are those where lengths overflow. -/
theorem numbers_of_reachable (hg : g.Reachable) (h : Reachable g none counter) (depth : Nat) :
    (∀ c, Answered g (g.IsDerivation c) depth (counter.countCategory g c depth)
      ((new none).countCategory g c depth)) ∧
    Answered g (g.IsDerivation g.start) depth (counter.countStart g depth) ((new none).countStart g depth) ∧
    (∀ id r, g.rule? id = some r → Answered g (g.BeginsWith id r) depth (counter.countRule g id depth)
      ((new none).countRule g id depth)) :=
  ⟨fun c => h.answered_countCategory hg.indexed hg.ordered .new c depth,
    h.answered_countCategory hg.indexed hg.ordered .new g.start depth,
    fun _ _ hr => h.answered_countRule hg.indexed hg.ordered .new hr depth⟩

open Sample in
/-- A counter that was asked for height 3 answers for height 2: one list of one word and one of two. -/
theorem numbers_of_reachable_lists : ∃ first used counts after, lists.Reachable ∧
    (new none).countStart lists 3 = .ok (first, used) ∧ Reachable lists none used ∧
    used.countStart lists 2 = .ok (counts, after) ∧ Counts.Numbers (lists.IsDerivation lists.start) 2 counts ∧
    counts.toList = [(1, 1), (2, 1)] := by
  have hruns : ((new none).countStart lists 3).toOption.any (fun first =>
      (first.2.countStart lists 2).toOption.any fun second => second.1.toList == [(1, 1), (2, 1)]) = true := by
    decide +kernel
  obtain ⟨⟨first, used⟩, hfirst, hruns⟩ := exists_ok_of_any hruns
  obtain ⟨⟨counts, after⟩, hcounts, hlist⟩ := exists_ok_of_any hruns
  have hlists : lists.Reachable := .insert longer reachable_singles
  have hused : Reachable lists none used := .start .new hfirst
  exact ⟨first, used, counts, after, hlists, hfirst, hused, hcounts,
    (numbers_of_reachable hlists hused 2).2.1.numbers counts after hcounts, eq_of_beq hlist⟩

open Sample in
/-- A list is a word, or two categories at the top of 64 levels: each level is two of the level below, and the
lowest level is a word. -/
def doubling : Grammar :=
  let level (n : Nat) : Category := .bare ("A" ++ toString n)
  let rules : List Rule := single :: ⟨list, [level 63, level 63], none⟩ :: ⟨level 0, [noun], none⟩ ::
    (List.range 63).map fun n => ⟨level (n + 1), [level n, level n], none⟩
  rules.foldl Grammar.insert (Grammar.new list "γ" (Std.ExtTreeSet.ofList ["n"]))

open Sample in
/-- One sentence no taller than 65 is a word and the other one is longer than the largest length. A new counter
does not count them. -/
theorem countStart_doubling : doubling.Reachable ∧
    (∃ id, doubling.IsDerivation doubling.start (.apply doubling.start id [.word noun])) ∧
    (new none).countStart doubling 65 = .error .lengthOverflow := by
  have hreachable : doubling.Reachable := .insertAll (.new list "γ" _) _
  have hnoun : doubling.IsDerivation noun (.word noun) := .word (by decide +kernel) (by decide +kernel)
  have hrule : doubling.HasRule 1 ⟨doubling.start, [noun], none⟩ := by
    rw [Grammar.HasRule]
    decide +kernel
  have hoverflow : (categoryEntry doubling 65 doubling.start (new none)).2.overflowed = true := by decide +kernel
  refine ⟨hreachable, ⟨1, .apply (by decide +kernel) hrule (.cons hnoun .nil)⟩, ?_⟩
  unfold countStart countCategory
  exact answer_eq_error.mpr ⟨rfl, hoverflow⟩

end Counter

end IndexedGrammar
