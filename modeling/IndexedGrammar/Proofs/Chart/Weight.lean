import IndexedGrammar.Proofs.Chart.Derivable
import IndexedGrammar.Proofs.Grammar.UnitCycle
import Mathlib.Data.Prod.Lex
import Mathlib.Order.WellFounded

/-!
# Ways back

Going back from a spot along a way of finding it leads to an earlier column, or to a spot of the same
column that has a shorter span, a dot further to the left, or a left-hand side of lower rank. So in a
grammar without unit cycles no way back leads in a circle, and what holds of a spot as soon as it holds
of all spots it was found through holds of every spot.
-/

namespace IndexedGrammar

variable {g : Grammar} {input : Input} {last : Nat}

/-- The symbol at an item's dot is the one that the item expects. -/
theorem Grammar.Expects.eq_symbol {item : Item} {symbol c : Category} {r : Rule}
    (h : g.Expects item symbol) (hr : g.HasRule item.rule r) (hc : r.rhs[item.dot]? = some c) :
    c = symbol := by
  obtain ⟨r', hr', hc'⟩ := Grammar.expects_iff.mp h
  obtain rfl := Option.some.inj (hr.rule?.symm.trans hr')
  exact Option.some.inj (hc.symm.trans hc')

/-- What a dot moves over can be erased if it is completed by a rule whose symbols can all be erased. -/
theorem Derivable.erasable_of_completes (hg : g.Indexed) (hunasked : g.RootUnasked)
    (hwell : g.WellFormed) {s t : Spot} {l m : Link} {symbol : Category}
    (hs : Derivable g input last s l) (ht : Derivable g input last t m)
    (hexpects : g.Expects s.item symbol) (hempty : symbol.isEpsilon = false)
    (hcompletes : g.Completes t.item symbol)
    (herasable : ∀ {r i c}, g.HasRule t.item.rule r → i < t.item.dot → r.rhs[i]? = some c →
      g.Erasable c) : g.Erasable symbol := by
  have hroot := hs.ne_rootId_of_completes hg hunasked hexpects hempty hcompletes
  obtain ⟨q, hq, hlength, rfl⟩ := Grammar.completes_iff.mp hcompletes
  obtain ⟨q', hq', -⟩ := ht.hasRule hg
  obtain rfl := Option.some.inj (hq'.rule?.symm.trans hq)
  have hmem := Grammar.mem_rules_iff.mpr ⟨hroot, hq'⟩
  refine .inr (Grammar.lhs_mem_nullables_of_erasable hmem (hwell.plain _ _ hmem) fun d hd => ?_)
  obtain ⟨j, hj⟩ := List.getElem?_of_mem hd
  have hlt := (List.getElem?_eq_some_iff.mp hj).1
  exact herasable hq' (Nat.lt_of_lt_of_le hlt hlength) hj

/-- The symbols before a dot that has moved over nothing can be erased. -/
theorem Derivable.erasable (hg : g.Indexed) (hunasked : g.RootUnasked) (hwell : g.WellFormed) {s : Spot}
    {l : Link} (h : Derivable g input last s l) (hempty : s.stop ≤ s.item.origin) {r : Rule}
    (hr : g.HasRule s.item.rule r) {i : Nat} {c : Category} (hi : i < s.item.dot)
    (hc : r.rhs[i]? = some c) : g.Erasable c := by
  induction h generalizing r i c with
  | root => exact absurd hi (Nat.not_lt_zero _)
  | predict => exact absurd hi (Nat.not_lt_zero _)
  | skip _ hexpects hsymbol ih =>
    rcases Nat.lt_succ_iff_lt_or_eq.mp hi with hi | rfl
    · exact ih hempty hr hi hc
    · exact .inl (hexpects.eq_symbol hr hc ▸ hsymbol)
  | scan hs => exact absurd (Nat.le_trans hempty hs.bounds.1) (Nat.not_succ_le_self _)
  | @complete s t l m symbol hs ht hexpects hsymbol hcompletes horigin ih iht =>
    rcases Nat.lt_succ_iff_lt_or_eq.mp hi with hi | rfl
    · have hempty' : s.stop ≤ s.item.origin :=
        Nat.le_trans (Nat.le_of_eq horigin.symm) (Nat.le_trans ht.bounds.1 hempty)
      exact ih hempty' hr hi hc
    · have hstop : t.stop ≤ t.item.origin :=
        Nat.le_trans hempty (Nat.le_trans hs.bounds.1 (Nat.le_of_eq horigin.symm))
      rw [hexpects.eq_symbol hr hc]
      exact hs.erasable_of_completes hg hunasked hwell ht hexpects hsymbol hcompletes
        fun hq hj hd => iht hstop hq hj hd

/-! Weights -/

/-- Everything behind the dot of an item can be erased, and the item is not on the synthetic rule. -/
def Grammar.EndsErasable (g : Grammar) (item : Item) : Prop :=
  item.rule ≠ Grammar.rootId ∧ ∀ r i c, g.HasRule item.rule r → item.dot ≤ i → r.rhs[i]? = some c →
    g.Erasable c

/-- The rank of the left-hand side of an item. -/
def Grammar.lhsRank (g : Grammar) (rank : Category → Nat) (item : Item) : Nat :=
  match g.rule? item.rule with
  | some r => rank r.lhs
  | none => 0

open scoped Classical in
/-- What decreases on every way back: the column, the span, whether something is left that cannot be
erased, the rank of the left-hand side, and the dot. -/
noncomputable def Grammar.weight (g : Grammar) (rank : Category → Nat) (s : Spot) :
    Nat ×ₗ Nat ×ₗ Nat ×ₗ Nat ×ₗ Nat :=
  toLex (s.stop, toLex (s.stop - s.item.origin, toLex (if g.EndsErasable s.item then 0 else 1,
    toLex (g.lhsRank rank s.item, s.item.dot))))

open scoped Classical in
/-- A spot that differs only in what its dot has moved over has a lower weight if its dot is further to
the left. -/
theorem weight_lt_of_dot {rank : Category → Nat} {s t : Spot} (hstop : s.stop = t.stop)
    (horigin : s.item.origin = t.item.origin) (hrule : s.item.rule = t.item.rule)
    (herasable : g.EndsErasable s.item ↔ g.EndsErasable t.item) (hdot : s.item.dot < t.item.dot) :
    g.weight rank s < g.weight rank t := by
  have hrank : g.lhsRank rank s.item = g.lhsRank rank t.item := by
    rw [Grammar.lhsRank, hrule, Grammar.lhsRank]
  simp only [Grammar.weight, Prod.Lex.toLex_lt_toLex, hstop, horigin, hrank, true_and]
  exact .inr (.inr (.inr ⟨if_congr herasable rfl rfl, .inr hdot⟩))

/-- A spot in an earlier column has a lower weight. -/
theorem weight_lt_of_stop {rank : Category → Nat} {s t : Spot} (hstop : s.stop < t.stop) :
    g.weight rank s < g.weight rank t :=
  Prod.Lex.toLex_lt_toLex.mpr (.inl hstop)

/-- A spot of the same column with a shorter span has a lower weight. -/
theorem weight_lt_of_span {rank : Category → Nat} {s t : Spot} (hstop : s.stop = t.stop)
    (horigin : t.item.origin < s.item.origin) (hspan : s.item.origin ≤ s.stop) :
    g.weight rank s < g.weight rank t := by
  refine Prod.Lex.toLex_lt_toLex.mpr (.inr ⟨hstop, Prod.Lex.toLex_lt_toLex.mpr (.inl ?_)⟩)
  show s.stop - s.item.origin < t.stop - t.item.origin
  omega

/-- A spot over the same columns behind which everything can be erased has a lower weight if that does
not hold of the other, or if its left-hand side has a lower rank. -/
theorem weight_lt_of_rank {rank : Category → Nat} {s t : Spot} (hstop : s.stop = t.stop)
    (horigin : s.item.origin = t.item.origin) (hs : g.EndsErasable s.item)
    (hrank : g.EndsErasable t.item → g.lhsRank rank s.item < g.lhsRank rank t.item) :
    g.weight rank s < g.weight rank t := by
  simp only [Grammar.weight, Prod.Lex.toLex_lt_toLex, hstop, horigin, hs, if_true, true_and]
  refine .inr (.inr ?_)
  by_cases ht : g.EndsErasable t.item
  · simp only [ht, if_true, true_and]
    exact .inr (.inl (hrank ht))
  · simp only [ht, if_false]
    exact .inl Nat.zero_lt_one

/-- A complete item not on the synthetic rule has nothing left behind its dot. -/
theorem Grammar.Completes.endsErasable {item : Item} {symbol : Category}
    (h : g.Completes item symbol) (hroot : item.rule ≠ Grammar.rootId) : g.EndsErasable item := by
  refine ⟨hroot, fun r i c hr hi hc => ?_⟩
  obtain ⟨r', hr', hlength, -⟩ := Grammar.completes_iff.mp h
  obtain rfl := Option.some.inj (hr.rule?.symm.trans hr')
  exact absurd (List.getElem?_eq_some_iff.mp hc).1 (Nat.not_lt_of_le (Nat.le_trans hlength hi))

/-- Moving a dot over what can be erased leaves as much behind it that cannot. -/
theorem Grammar.Expects.endsErasable_iff {s : Spot} {symbol : Category} (k : Nat)
    (h : g.Expects s.item symbol) (herasable : g.Erasable symbol) :
    g.EndsErasable s.item ↔ g.EndsErasable (s.step k).item := by
  refine and_congr_right fun _ => ⟨fun hall r i c hr hi => ?_, fun hall r i c hr hi hc => ?_⟩
  · exact hall r i c hr (Nat.le_of_succ_le hi)
  · rcases Nat.eq_or_lt_of_le hi with rfl | hlt
    · rwa [h.eq_symbol hr hc]
    · exact hall r i c hr hlt hc

/-- What a dot has moved over has a lower weight than the spot after the move. -/
theorem Derivable.weight_reductor_lt (hg : g.Indexed) (hunasked : g.RootUnasked) (hwell : g.WellFormed)
    {rank : Category → Nat} (hrank : g.Ranked rank) {s t : Spot} {l : Link}
    (h : Derivable g input last s l) (ht : l.reductor = some t) : g.weight rank t < g.weight rank s := by
  cases h with
  | root => contradiction
  | predict => contradiction
  | skip => contradiction
  | scan => contradiction
  | @complete p t' m m' symbol hp ht' hexpects hsymbol hcompletes horigin =>
    obtain rfl : t' = t := Option.some.inj ht
    obtain ⟨r, hr, hc⟩ := Grammar.expects_iff.mp hexpects
    obtain ⟨r', hr', -⟩ := hp.hasRule hg
    obtain rfl := Option.some.inj (hr'.rule?.symm.trans hr)
    obtain ⟨q, hq, -, hlhs⟩ := Grammar.completes_iff.mp hcompletes
    have hroot := hp.ne_rootId_of_completes hg hunasked hexpects hsymbol hcompletes
    rcases Nat.eq_or_lt_of_le hp.bounds.1 with heq | hlt
    · refine weight_lt_of_rank rfl (horigin.trans heq.symm) (hcompletes.endsErasable hroot)
        fun hends => ?_
      -- everything beside the completed category can be erased, so its rank is lower
      have hlower : rank symbol < rank r'.lhs := by
        refine hrank (Grammar.mem_rules_iff.mpr ⟨hends.1, hr'⟩) hc hsymbol fun j d hj hd => ?_
        rcases Nat.lt_or_gt_of_ne hj with hj | hj
        · exact hp.erasable hg hunasked hwell (Nat.le_of_eq heq.symm) hr' hj hd
        · exact hends.2 r' j d hr' hj hd
      have hlhsRank : g.lhsRank rank (p.step t'.stop).item = rank r'.lhs := by
        show g.lhsRank rank p.item.advance = rank r'.lhs
        simp only [Grammar.lhsRank, Item.advance, hr]
      rw [hlhsRank]
      simp only [Grammar.lhsRank, hq, hlhs]
      exact hlower
    · exact weight_lt_of_span rfl (horigin ▸ hlt) ht'.bounds.1

/-- What a dot was moved from has a lower weight than the spot after the move. -/
theorem Derivable.weight_predecessor_lt (hg : g.Indexed) (hunasked : g.RootUnasked)
    (hwell : g.WellFormed) (rank : Category → Nat) {s p : Spot} {l : Link}
    (h : Derivable g input last s l) (hp : l.predecessor = some p) :
    g.weight rank p < g.weight rank s := by
  cases h with
  | root => contradiction
  | predict => contradiction
  | @skip p' m symbol hp' hexpects hsymbol =>
    obtain rfl : p' = p := Option.some.inj hp
    exact weight_lt_of_dot rfl rfl rfl (hexpects.endsErasable_iff _ (.inl hsymbol))
      (Nat.lt_succ_self _)
  | @scan p' =>
    obtain rfl : p' = p := Option.some.inj hp
    exact weight_lt_of_stop (Nat.lt_succ_self _)
  | @complete p' t m m' symbol hp' ht hexpects hsymbol hcompletes horigin =>
    obtain rfl : p' = p := Option.some.inj hp
    rcases Nat.eq_or_lt_of_le ht.bounds.1 with heq | hlt
    · have herasable := hp'.erasable_of_completes hg hunasked hwell ht hexpects hsymbol hcompletes
        fun hr hi hc => ht.erasable hg hunasked hwell (Nat.le_of_eq heq.symm) hr hi hc
      exact weight_lt_of_dot (horigin.symm.trans heq) rfl rfl (hexpects.endsErasable_iff _ herasable)
        (Nat.lt_succ_self _)
    · exact weight_lt_of_stop (horigin ▸ hlt)

end IndexedGrammar
