import IndexedGrammar.Counts
import Mathlib.Algebra.Polynomial.Coeff

/-!
# What counts report

How many derivations there are of each length is written as a polynomial, whose coefficient at a length is
their number. Alternatives add, and derivations side by side multiply. Counts report a polynomial if they
hold its coefficients, cut down to the cap, and have no entry where the coefficient is zero. Adding, merging
and multiplying counts reports sums and products: cutting down on the way does not change what is cut down
in the end. Lengths beyond the longest one of interest do not matter.
-/

namespace IndexedGrammar

open Polynomial

/-! Numbers cut down to the cap -/

/-- Only nothing is cut down to nothing. -/
theorem capped_eq_zero {n : Nat} : capped n = 0 ↔ n = 0 := by
  have hcap : 0 < countCap := by decide
  unfold capped
  omega

/-- A number is cut down once. -/
theorem capped_capped (n : Nat) : capped (capped n) = capped n := by
  unfold capped
  omega

/-- Sums of numbers cut down alike are cut down alike. -/
theorem capped_add_congr {m m' n n' : Nat} (hm : capped m = capped m') (hn : capped n = capped n') :
    capped (m + n) = capped (m' + n') := by
  unfold capped at *
  omega

/-- A product with a number that is at the cap is at the cap, or zero. -/
theorem capped_mul_of_le {m n : Nat} (hm : countCap ≤ m) (hn : 0 < n) : capped (m * n) = countCap :=
  Nat.min_eq_right (hm.trans (Nat.le_mul_of_pos_right m hn))

/-- A factor may be cut down before a product is. -/
theorem capped_mul_capped (m n : Nat) : capped (m * capped n) = capped (m * n) := by
  rcases Nat.eq_zero_or_pos m with hzero | hpos
  · rw [hzero, Nat.zero_mul, Nat.zero_mul]
  · rcases Nat.le_total n countCap with hle | hle
    · rw [show capped n = n from Nat.min_eq_left hle]
    · rw [show capped n = countCap from Nat.min_eq_right hle, Nat.mul_comm, Nat.mul_comm m,
        capped_mul_of_le (Nat.le_refl _) hpos, capped_mul_of_le hle hpos]

/-- Products of numbers cut down alike are cut down alike. -/
theorem capped_mul_congr {m m' n n' : Nat} (hm : capped m = capped m') (hn : capped n = capped n') :
    capped (m * n) = capped (m' * n') := by
  calc capped (m * n) = capped (m * capped n) := (capped_mul_capped m n).symm
    _ = capped (m * n') := by rw [hn, capped_mul_capped]
    _ = capped (n' * capped m) := by rw [Nat.mul_comm, capped_mul_capped]
    _ = capped (m' * n') := by rw [hm, capped_mul_capped, Nat.mul_comm]

/-- Sums over a range are cut down alike if what is added is. -/
theorem capped_sum_congr {ι : Type} {s : Finset ι} {f f' : ι → Nat}
    (h : ∀ i ∈ s, capped (f i) = capped (f' i)) : capped (∑ i ∈ s, f i) = capped (∑ i ∈ s, f' i) := by
  induction s using Finset.cons_induction with
  | empty => rfl
  | cons i s hi ih =>
    rw [Finset.sum_cons, Finset.sum_cons]
    exact capped_add_congr (h i (Finset.mem_cons_self i s))
      (ih fun j hj => h j (Finset.mem_cons_of_mem hj))

/-- Sums over a list are cut down alike if what is added is. -/
theorem capped_map_sum_congr {α : Type} {as : List α} {f f' : α → Nat}
    (h : ∀ a ∈ as, capped (f a) = capped (f' a)) :
    capped (as.map f).sum = capped (as.map f').sum := by
  induction as with
  | nil => rfl
  | cons a as ih =>
    exact capped_add_congr (h a List.mem_cons_self) (ih fun b hb => h b (List.mem_cons_of_mem _ hb))

/-- Products over a list are cut down alike if the factors are. -/
theorem capped_map_prod_congr {α : Type} {as : List α} {f f' : α → Nat}
    (h : ∀ a ∈ as, capped (f a) = capped (f' a)) :
    capped (as.map f).prod = capped (as.map f').prod := by
  induction as with
  | nil => rfl
  | cons a as ih =>
    exact capped_mul_congr (h a List.mem_cons_self) (ih fun b hb => h b (List.mem_cons_of_mem _ hb))

/-- A capped sum is the sum, cut down. -/
theorem cappedSum_eq (ns : List Nat) : cappedSum ns = capped ns.sum := by
  have hfold (start : Nat) : ns.foldl cappedAdd (capped start) = capped (start + ns.sum) := by
    induction ns generalizing start with
    | nil => rfl
    | cons n ns ih =>
      rw [List.foldl_cons, List.sum_cons, ← Nat.add_assoc, ← ih (start + n), cappedAdd,
        capped_add_congr (capped_capped start) rfl]
  exact (hfold 0).trans (by rw [Nat.zero_add])

/-- A capped product is the product, cut down. -/
theorem cappedProduct_eq (ns : List Nat) : cappedProduct ns = capped ns.prod := by
  have hfold (start : Nat) : ns.foldl cappedMul (capped start) = capped (start * ns.prod) := by
    induction ns generalizing start with
    | nil => rw [List.foldl_nil, List.prod_nil, Nat.mul_one]
    | cons n ns ih =>
      rw [List.foldl_cons, List.prod_cons, ← Nat.mul_assoc, ← ih (start * n), cappedMul,
        capped_mul_congr (capped_capped start) rfl]
  exact (hfold 1).trans (by rw [Nat.one_mul])

/-! Polynomials -/

/-- Whether a length is of interest. -/
def Allowed (longest : Option Nat) (length : Nat) : Prop :=
  ∀ bound ∈ longest, length ≤ bound

/-- Whether two polynomials have the same coefficients when these are cut down. -/
def Agree (longest : Option Nat) (p q : ℕ[X]) : Prop :=
  ∀ n, Allowed longest n → capped (p.coeff n) = capped (q.coeff n)

variable {longest : Option Nat} {p p' q q' : ℕ[X]}

/-- Parts of a length of interest are of interest. -/
theorem Allowed.of_le {m n : Nat} (h : Allowed longest n) (hle : m ≤ n) : Allowed longest m :=
  fun bound hbound => hle.trans (h bound hbound)

/-- Without a longest length, every length is of interest. -/
theorem allowed_none (n : Nat) : Allowed none n :=
  fun bound hbound => absurd hbound (Option.not_mem_none bound)

/-- Lengths up to the longest one are of interest. -/
theorem allowed_some {bound n : Nat} : Allowed (some bound) n ↔ n ≤ bound :=
  ⟨fun h => h bound rfl, fun h _ hbound => Option.some.inj hbound ▸ h⟩

/-- A length is left out exactly if it is not of interest. -/
theorem any_lt_iff {n : Nat} : (longest.any fun bound => bound < n) = true ↔ ¬Allowed longest n := by
  cases longest with
  | none => simp [allowed_none]
  | some bound => simp [allowed_some]

/-- Every polynomial agrees with itself. -/
theorem Agree.refl (p : ℕ[X]) : Agree longest p p :=
  fun _ _ => rfl

/-- Sums of polynomials that agree do. -/
theorem Agree.add (hp : Agree longest p p') (hq : Agree longest q q') :
    Agree longest (p + q) (p' + q') := by
  intro n hn
  rw [coeff_add, coeff_add]
  exact capped_add_congr (hp n hn) (hq n hn)

/-- Products of polynomials that agree do. -/
theorem Agree.mul (hp : Agree longest p p') (hq : Agree longest q q') :
    Agree longest (p * q) (p' * q') := by
  intro n hn
  rw [coeff_mul, coeff_mul]
  refine capped_sum_congr fun split hsplit => ?_
  have hsum := Finset.HasAntidiagonal.mem_antidiagonal.mp hsplit
  exact capped_mul_congr (hp _ (hn.of_le (by omega))) (hq _ (hn.of_le (by omega)))

/-! What is reported -/

/-- What is kept for a number of derivations. -/
def reported (n : Nat) : Option Nat :=
  if n = 0 then none else some (capped n)

/-- The same is kept for numbers that are cut down alike. -/
theorem reported_congr {m n : Nat} (h : capped m = capped n) : reported m = reported n := by
  have hzero : m = 0 ↔ n = 0 := by rw [← capped_eq_zero, h, capped_eq_zero]
  simp only [reported, hzero, h]

/-- Nothing is kept for no derivations alone. -/
theorem reported_eq_none {n : Nat} : reported n = none ↔ n = 0 := by
  unfold reported
  split
  · simp [*]
  · simp [*]

/-- What is kept is greater than zero, and the number cut down. -/
theorem reported_eq_some {m n : Nat} (h : reported m = some n) : 0 < n ∧ n = capped m := by
  unfold reported at h
  split at h
  · contradiction
  · next hm =>
    obtain rfl := Option.some.inj h
    exact ⟨Nat.pos_of_ne_zero (mt capped_eq_zero.mp hm), rfl⟩

namespace Counts

/-- Counts report a polynomial if they hold its coefficients at the lengths of interest. -/
def Reports (longest : Option Nat) (counts : Counts) (p : ℕ[X]) : Prop :=
  ∀ n, Allowed longest n → counts[n]? = reported (p.coeff n)

variable {counts left right : Counts}

/-- What reports a polynomial reports all that agree with it. -/
theorem Reports.congr (h : counts.Reports longest p) (hp : Agree longest p q) :
    counts.Reports longest q :=
  fun n hn => (h n hn).trans (reported_congr (hp n hn))

/-- No counts report zero. -/
theorem reports_empty : Reports longest ∅ 0 := by
  intro n _
  simp [reported]

/-- One derivation is reported as a single power. -/
theorem reports_single (length : Nat) : Reports longest (single length) (X ^ length) := by
  intro n _
  rw [single, Std.ExtTreeMap.getElem?_insert, coeff_X_pow]
  by_cases heq : length = n
  · subst heq
    simp [reported, show capped 1 = 1 by decide]
  · simp [reported, heq, Ne.symm heq]

/-- What is counted for a length is what is reported, cut down. -/
theorem count_eq_of_reported {n k : Nat} (h : counts[n]? = reported k) : counts.count n = capped k := by
  rw [count, Std.ExtTreeMap.getD_eq_getD_getElem?, h]
  unfold reported
  split
  · next hzero => rw [hzero]; rfl
  · rfl

/-- What is counted for a length of interest is the coefficient, cut down. -/
theorem Reports.count_eq (h : counts.Reports longest p) {n : Nat} (hn : Allowed longest n) :
    counts.count n = capped (p.coeff n) :=
  count_eq_of_reported (h n hn)

/-- Adding to the count of a length adds a monomial. -/
theorem Reports.add (h : counts.Reports longest p) {length n : Nat}
    (hn : Allowed longest length → 0 < n) :
    (counts.add length n).Reports longest (p + monomial length n) := by
  intro k hk
  rw [Counts.add, Std.ExtTreeMap.getElem?_insert, coeff_add, coeff_monomial]
  by_cases heq : length = k
  · subst heq
    have hpos := hn hk
    simp only [Std.compare_eq_iff_eq, if_true, h.count_eq hk, cappedAdd]
    rw [reported, if_neg (by omega)]
    exact congrArg some (capped_add_congr (capped_capped _) rfl)
  · simp only [Std.compare_eq_iff_eq, if_neg heq, Nat.add_zero, h k hk]

/-- If every step of a fold reports one more polynomial, the fold reports their sum. -/
theorem Reports.foldl {α : Type} {as : List α} {step : Counts → α → Counts} {value : α → ℕ[X]}
    (hstep : ∀ a ∈ as, ∀ counts p, counts.Reports longest p →
      (step counts a).Reports longest (p + value a)) (h : counts.Reports longest p) :
    (as.foldl step counts).Reports longest (p + (as.map value).sum) := by
  induction as generalizing counts p with
  | nil => simpa using h
  | cons a as ih =>
    rw [List.foldl_cons, List.map_cons, List.sum_cons, ← add_assoc]
    exact ih (fun other hother => hstep other (List.mem_cons_of_mem _ hother))
      (hstep a List.mem_cons_self counts p h)

/-! Reading counts back -/

/-- The polynomial whose coefficients are listed with their lengths. -/
noncomputable def listed (entries : List (Nat × Nat)) : ℕ[X] :=
  (entries.map fun entry => monomial entry.1 entry.2).sum

/-- One more length adds a monomial. -/
theorem listed_cons (entry : Nat × Nat) (entries : List (Nat × Nat)) :
    listed (entry :: entries) = monomial entry.1 entry.2 + listed entries := by
  simp [listed]

/-- A length that is not listed has the coefficient zero. -/
theorem coeff_listed_of_forall_ne {entries : List (Nat × Nat)} {length : Nat}
    (h : ∀ entry ∈ entries, entry.1 ≠ length) : (listed entries).coeff length = 0 := by
  induction entries with
  | nil => simp [listed]
  | cons entry entries ih =>
    rw [listed_cons, coeff_add, coeff_monomial, if_neg (h entry List.mem_cons_self), Nat.zero_add]
    exact ih fun other hother => h other (List.mem_cons_of_mem _ hother)

/-- A length that is listed once has the coefficient beside it. -/
theorem coeff_listed_of_mem {entries : List (Nat × Nat)} (hkeys : entries.Pairwise fun a b => a.1 ≠ b.1)
    {length n : Nat} (hmem : (length, n) ∈ entries) : (listed entries).coeff length = n := by
  induction hkeys with
  | nil => exact absurd hmem List.not_mem_nil
  | @cons entry entries hentry _ ih =>
    rw [listed_cons, coeff_add, coeff_monomial]
    rcases List.mem_cons.mp hmem with heq | hrest
    · subst heq
      rw [coeff_listed_of_forall_ne fun other hother => (hentry other hother).symm, if_pos rfl,
        Nat.add_zero]
    · rw [if_neg (hentry _ hrest), Nat.zero_add]
      exact ih hrest

/-- The entries of counts list the counts. -/
theorem coeff_listed_toList (counts : Counts) (length : Nat) :
    (listed counts.toList).coeff length = counts.count length := by
  rw [count, Std.ExtTreeMap.getD_eq_getD_getElem?]
  cases hget : counts[length]? with
  | none =>
    refine coeff_listed_of_forall_ne fun entry hentry heq => ?_
    rw [← heq, Std.ExtTreeMap.mem_toList_iff_getElem?_eq_some.mp hentry] at hget
    contradiction
  | some n =>
    refine coeff_listed_of_mem ?_ (Std.ExtTreeMap.mem_toList_iff_getElem?_eq_some.mpr hget)
    exact Std.ExtTreeMap.distinct_keys_toList.imp fun hne heq => hne (by rw [heq]; exact Std.ReflCmp.compare_self)

/-- The entries of counts list what the counts report. -/
theorem Reports.agree_listed (h : counts.Reports longest p) : Agree longest (listed counts.toList) p := by
  intro n hn
  rw [coeff_listed_toList, h.count_eq hn, capped_capped]

/-- The entry for a length of interest is greater than zero. -/
theorem Reports.pos (h : counts.Reports longest p) {length n : Nat}
    (hmem : (length, n) ∈ counts.toList) (hlength : Allowed longest length) : 0 < n := by
  have hget := Std.ExtTreeMap.mem_toList_iff_getElem?_eq_some.mp hmem
  exact (reported_eq_some ((h length hlength).symm.trans hget)).1

/-! Sums and products -/

/-- Merging counts reports the sum. -/
theorem Reports.merge (hleft : left.Reports longest p) (hright : right.Reports longest q) :
    (left.merge right).Reports longest (p + q) := by
  refine (hleft.foldl fun entry hentry counts sum hsum => ?_).congr ((Agree.refl p).add hright.agree_listed)
  exact hsum.add fun hlength => hright.pos hentry hlength

/-- Multiplying one entry with all others adds their products. -/
theorem Reports.scaled (h : counts.Reports longest p) (hright : right.Reports longest q) {l m : Nat}
    (hm : Allowed longest l → 0 < m) : (right.toList.foldl (fun counts entry =>
      if longest.any fun bound => bound < l + entry.1 then counts
      else counts.add (l + entry.1) (cappedMul m entry.2)) counts).Reports longest
        (p + monomial l m * listed right.toList) := by
  rw [listed, ← List.sum_map_mul_left]
  refine h.foldl fun entry hentry counts sum hsum => ?_
  rw [monomial_mul_monomial]
  by_cases hlength : Allowed longest (l + entry.1)
  · rw [if_neg (mt any_lt_iff.mp (not_not_intro hlength))]
    have hleftPos := hm (hlength.of_le (Nat.le_add_right _ _))
    have hrightPos := hright.pos hentry (hlength.of_le (Nat.le_add_left _ _))
    refine (hsum.add fun _ => ?_).congr ((Agree.refl sum).add fun n _ => ?_)
    · exact Nat.pos_of_ne_zero (mt capped_eq_zero.mp (Nat.mul_pos hleftPos hrightPos).ne')
    · rw [coeff_monomial, coeff_monomial]
      split
      · exact capped_capped _
      · rfl
  · rw [if_pos (any_lt_iff.mpr hlength)]
    refine hsum.congr fun n hn => ?_
    rw [coeff_add, coeff_monomial, if_neg fun heq : l + entry.1 = n => hlength (heq ▸ hn),
      Nat.add_zero]

/-- Multiplying counts reports the product. -/
theorem Reports.product (hleft : left.Reports longest p) (hright : right.Reports longest q) :
    (Counts.product longest left right).Reports longest (p * q) := by
  refine Reports.congr (p := 0 + listed left.toList * listed right.toList) ?_ ?_
  · rw [listed, ← List.sum_map_mul_right]
    refine reports_empty.foldl fun entry hentry counts sum hsum => ?_
    exact hsum.scaled hright fun hlength => hleft.pos hentry hlength
  · rw [zero_add]
    exact hleft.agree_listed.mul hright.agree_listed

/-! Counts without other lengths -/

/-- Counts stay within bounds if they hold lengths of interest only. -/
def Within (longest : Option Nat) (counts : Counts) : Prop :=
  ∀ n, ¬Allowed longest n → counts[n]? = none

/-- No counts are within all bounds. -/
theorem within_empty : Within longest ∅ :=
  fun _ _ => by simp

/-- The count of a length of interest stays within bounds. -/
theorem Within.add (h : counts.Within longest) {length : Nat} (hlength : Allowed longest length) (n : Nat) :
    (counts.add length n).Within longest := by
  intro k hk
  have hne : length ≠ k := fun heq => hk (heq ▸ hlength)
  rw [Counts.add, Std.ExtTreeMap.getElem?_insert]
  simp only [Std.compare_eq_iff_eq, if_neg hne, h k hk]

/-- A derivation that covers nothing stays within bounds. -/
theorem within_single : (single 0).Within longest :=
  within_empty.add (fun _ _ => Nat.zero_le _) 1

/-- Steps that stay within bounds do so together. -/
theorem Within.foldl {entries : List (Nat × Nat)} {step : Counts → Nat × Nat → Counts}
    (hstep : ∀ entry ∈ entries, ∀ counts : Counts, counts.Within longest →
      (step counts entry).Within longest) (h : counts.Within longest) :
    (entries.foldl step counts).Within longest :=
  List.foldlRecOn entries step h fun counts hcounts entry hentry => hstep entry hentry counts hcounts

/-- Merged counts stay within bounds. -/
theorem Within.merge (hleft : left.Within longest) (hright : right.Within longest) :
    (left.merge right).Within longest := by
  refine hleft.foldl fun entry hentry counts hcounts => hcounts.add ?_ _
  by_contra hlength
  have hget := Std.ExtTreeMap.mem_toList_iff_getElem?_eq_some.mp hentry
  rw [hright _ hlength] at hget
  contradiction

/-- Products stay within bounds. -/
theorem within_product : (Counts.product longest left right).Within longest := by
  refine within_empty.foldl fun ⟨l, m⟩ _ counts hcounts => hcounts.foldl fun ⟨r, n⟩ _ counts hcounts => ?_
  by_cases hlength : Allowed longest (l + r)
  · simp only [if_neg (mt any_lt_iff.mp (not_not_intro hlength))]
    exact hcounts.add hlength _
  · simp only [if_pos (any_lt_iff.mpr hlength)]
    exact hcounts

end Counts

end IndexedGrammar
