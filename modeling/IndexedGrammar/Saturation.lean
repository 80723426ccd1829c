import Std.Data.ExtTreeSet

/-!
# Saturation

Adding to a finite set whatever a pass finds, until a pass finds nothing more. A pass may look at
what it has added itself, so few passes are needed; how many can be needed at most is given as a
bound.
-/

namespace IndexedGrammar

variable {α : Type} [Ord α] [Std.TransOrd α]

/-- Taking a member out of a set makes it smaller. -/
theorem size_erase_lt {set : Std.ExtTreeSet α} {a : α} (h : a ∈ set) :
    (set.erase a).size < set.size := by
  have hpos : set.size ≠ 0 := fun hzero =>
    Std.ExtTreeSet.not_mem_empty (Std.ExtTreeSet.eq_empty_iff_size_eq_zero.mpr hzero ▸ h)
  rw [Std.ExtTreeSet.size_erase, if_pos (Std.ExtTreeSet.mem_iff_contains.mp h)]
  omega

/-- Repeats a pass that only adds, at most `bound` times, until the set stays as it is. -/
def saturate (pass : Std.ExtTreeSet α → Std.ExtTreeSet α) :
    Nat → Std.ExtTreeSet α → Std.ExtTreeSet α
  | 0, found => found
  | bound + 1, found =>
    let more := pass found
    if more.size = found.size then found else saturate pass bound more

/-- Adds the target of every edge whose source is in the set. -/
def followEdges (edges : List (α × α)) (found : Std.ExtTreeSet α) : Std.ExtTreeSet α :=
  edges.foldl (fun found (source, target) =>
    if found.contains source then found.insert target else found) found

/-- Everything that can be reached from a set along edges. -/
def reachable (edges : List (α × α)) (found : Std.ExtTreeSet α) : Std.ExtTreeSet α :=
  saturate (followEdges edges) (edges.length + 1) found

end IndexedGrammar
