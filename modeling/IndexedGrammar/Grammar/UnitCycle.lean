import IndexedGrammar.Grammar.Nullable
import Std.Data.ExtTreeMap

/-!
# Unit cycles

A unit step expands a category to one symbol, everything beside it being nullable. A grammar in
which unit steps lead from a category back to itself gives some sentences infinitely many
derivations.

Cycles are looked for depth first, from every left-hand side that was not met before. The categories
on the path that is being searched are marked open, those from which everything was searched are
marked done, and a step to an open category closes a cycle.
-/

namespace IndexedGrammar

/-- The symbols to which unit steps lead by a rule, given the nullable categories. -/
def Rule.unitTargets (nullables : CategorySet) (r : Rule) : List Category :=
  if r.isEpsilon then []
  else match r.rhs with
    | [c] => [c]
    | [first, second] =>
      (if nullables.contains second then [first] else []) ++
        (if nullables.contains first then [second] else [])
    | _ => []

/-- The symbols to which unit steps lead from each left-hand side. -/
abbrev UnitGraph := Std.ExtTreeMap Category (List Category)

/-- How far a search has come with a category. -/
inductive Mark where
  /-- It is on the path that is being searched. -/
  | opened
  /-- Everything to which it leads was searched. -/
  | done
deriving DecidableEq

/-- The marks of the categories that a search has met. -/
abbrev Marks := Std.ExtTreeMap Category Mark

namespace UnitGraph

/-- The symbols to which unit steps lead from a category. -/
def targets (graph : UnitGraph) (c : Category) : List Category :=
  graph.getD c []

/-- How many of some unit steps lead from categories that a search has not met. -/
def unmetAmong (marks : Marks) : List (Category × List Category) → Nat
  | [] => 0
  | (c, targets) :: steps => (if marks.contains c then 0 else targets.length) + unmetAmong marks steps

/-- How many unit steps lead from categories that a search has not met. -/
def unmet (graph : UnitGraph) (marks : Marks) : Nat :=
  unmetAmong marks graph.toList

/-- Meeting one more category leaves no more steps. -/
theorem unmetAmong_insert_le (marks : Marks) (c : Category) (mark : Mark)
    (steps : List (Category × List Category)) :
    unmetAmong (marks.insert c mark) steps ≤ unmetAmong marks steps := by
  induction steps with
  | nil => exact Nat.le_refl 0
  | cons step steps ih =>
    refine Nat.add_le_add ?_ ih
    rw [Std.ExtTreeMap.contains_insert]
    cases marks.contains step.1 <;> cases compare c step.1 == .eq <;> simp

/-- Meeting a category leaves fewer steps by those that lead from it. -/
theorem unmetAmong_insert {marks : Marks} {c : Category} (hc : marks.contains c = false) (mark : Mark)
    {targets : List Category} {steps : List (Category × List Category)} (hmem : (c, targets) ∈ steps) :
    unmetAmong (marks.insert c mark) steps + targets.length ≤ unmetAmong marks steps := by
  induction steps with
  | nil => exact absurd hmem List.not_mem_nil
  | cons step steps ih =>
    rcases List.mem_cons.mp hmem with rfl | hmem
    · have hrest := unmetAmong_insert_le marks c mark steps
      simp only [unmetAmong, Std.ExtTreeMap.contains_insert_self, hc, if_true, Bool.false_eq_true, if_false]
      omega
    · have hrest := ih hmem
      have hfirst := unmetAmong_insert_le marks c mark [step]
      simp only [unmetAmong] at hfirst ⊢
      omega

/-- Meeting a category leaves fewer unit steps by those that lead from it. -/
theorem unmet_insert (graph : UnitGraph) {marks : Marks} {c : Category} (hc : marks[c]? = none) (mark : Mark) :
    graph.unmet (marks.insert c mark) + (graph.targets c).length ≤ graph.unmet marks := by
  rw [targets, Std.ExtTreeMap.getD_eq_getD_getElem?]
  cases hgraph : graph[c]? with
  | none => exact unmetAmong_insert_le ..
  | some targets =>
    refine unmetAmong_insert ?_ mark (Std.ExtTreeMap.mem_toList_iff_getElem?_eq_some.mpr hgraph)
    rw [Std.ExtTreeMap.contains_eq_isSome_getElem?, hc]
    rfl

/-- A bound on how many steps are still to be taken along a path. -/
def untriedAlong : List (Category × List Category) → Nat
  | [] => 0
  | (_, rest) :: path => 2 * rest.length + 1 + untriedAlong path

/-- A bound on how many turns a search still takes. -/
def turnsLeft (graph : UnitGraph) (marks : Marks) (path : List (Category × List Category)) : Nat :=
  2 * graph.unmet marks + untriedAlong path

section Turns

variable (graph : UnitGraph) (marks : Marks) (c : Category) (path : List (Category × List Category))

/-- Finishing the end of a path is a turn. -/
theorem turnsLeft_finish :
    graph.turnsLeft (marks.insert c .done) path < graph.turnsLeft marks ((c, []) :: path) := by
  have hunmet : graph.unmet (marks.insert c .done) ≤ graph.unmet marks :=
    unmetAmong_insert_le marks c .done graph.toList
  simp only [turnsLeft, untriedAlong, List.length_nil]
  omega

/-- Leaving out a step is a turn. -/
theorem turnsLeft_skip (target : Category) (rest : List Category) :
    graph.turnsLeft marks ((c, rest) :: path) < graph.turnsLeft marks ((c, target :: rest) :: path) := by
  simp only [turnsLeft, untriedAlong, List.length_cons]
  omega

/-- Taking a step to a category that was not met is a turn. -/
theorem turnsLeft_descend {target : Category} (htarget : marks[target]? = none) (rest : List Category) :
    graph.turnsLeft (marks.insert target .opened) ((target, graph.targets target) :: (c, rest) :: path) <
      graph.turnsLeft marks ((c, target :: rest) :: path) := by
  have hunmet := graph.unmet_insert htarget .opened
  simp only [turnsLeft, untriedAlong, List.length_cons]
  omega

end Turns

/-- Searches on from a path, the end of which comes first, where each category on it has the steps that are still
to be tried. Gives the marks when the path was searched, or nothing when a step closes a cycle. -/
def search (graph : UnitGraph) (marks : Marks) : List (Category × List Category) → Option Marks
  | [] => some marks
  | (c, []) :: path => search graph (marks.insert c .done) path
  | (c, target :: rest) :: path =>
    match _ : marks[target]? with
    | some .opened => none
    | some .done => search graph marks ((c, rest) :: path)
    | none =>
      search graph (marks.insert target .opened) ((target, graph.targets target) :: (c, rest) :: path)
termination_by path => graph.turnsLeft marks path
decreasing_by
  · exact graph.turnsLeft_finish marks c path
  · exact graph.turnsLeft_skip marks c path target rest
  · exact graph.turnsLeft_descend marks c path ‹_› rest

/-- Searches from a category, unless it was met before. -/
def visit (graph : UnitGraph) (marks : Marks) (c : Category) : Option Marks :=
  if marks.contains c then some marks
  else graph.search (marks.insert c .opened) [(c, graph.targets c)]

/-- Whether unit steps lead from some category back to itself. -/
def hasCycle (graph : UnitGraph) : Bool :=
  (graph.keys.foldlM graph.visit ∅).isNone

end UnitGraph

namespace Grammar

/-- The unit steps of the live rules. -/
def unitGraph (g : Grammar) : UnitGraph :=
  let nullables := g.nullables
  g.rules.foldl (fun (graph : UnitGraph) (_, r) =>
    graph.insert r.lhs (graph.targets r.lhs ++ r.unitTargets nullables)) ∅

/-- Whether some category can be expanded to itself with everything beside it erased. -/
def hasUnitCycle (g : Grammar) : Bool :=
  g.unitGraph.hasCycle

end Grammar

end IndexedGrammar
