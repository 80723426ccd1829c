import IndexedGrammar.Counts
import IndexedGrammar.Forest.Usage

/-!
# Counts in any order

Neither a capped sum nor a usage depends on the order in which counts are added: the steps of either fold
commute.
-/

namespace IndexedGrammar

/-- Counts are added in any order. -/
theorem cappedAdd_right_comm (sum m n : Nat) :
    cappedAdd (cappedAdd sum m) n = cappedAdd (cappedAdd sum n) m := by
  unfold cappedAdd capped
  omega

/-- A capped sum does not depend on the order of what is added. -/
theorem cappedSum_perm {ms ns : List Nat} (h : ms.Perm ns) : cappedSum ms = cappedSum ns :=
  h.foldl_eq' (fun m _ n _ sum => cappedAdd_right_comm sum m n) 0

/-- Uses are counted in any order. -/
theorem Usage.add_right_comm (usage : Usage) (rule other m n : Nat) :
    (usage.add rule m).add other n = (usage.add other n).add rule m := by
  unfold Usage.add
  apply Std.ExtTreeMap.ext_getElem?
  intro key
  by_cases heq : rule = other
  · subst heq
    simp only [Std.ExtTreeMap.getD_insert_self, Std.ExtTreeMap.getElem?_insert, Nat.add_right_comm]
    split <;> rfl
  · have hne : other ≠ rule := Ne.symm heq
    simp only [Std.ExtTreeMap.getD_insert, Std.ExtTreeMap.getElem?_insert, Std.compare_eq_iff_eq,
      if_neg heq, if_neg hne]
    by_cases hrule : rule = key
    · simp [hrule, hrule ▸ hne]
    · simp [hrule]

end IndexedGrammar
