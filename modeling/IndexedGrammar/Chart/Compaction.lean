import IndexedGrammar.Chart.Basic

/-!
# Compacting charts

Compacting drops the states that were taken out and numbers the others anew, in the same order.
What is left refers to states that are left; a state, or an index, that refers to one taken out is
a breach. Only lists of parents may still name states that were taken out, and forget them.
-/

namespace IndexedGrammar.Chart

/-- The new number of each state; a state taken out has none. -/
def renumbering (c : Chart) : Array (Option Nat) :=
  (c.states.foldl (fun (numbers, next) state =>
    if state.removed then (numbers.push none, next) else (numbers.push (some next), next + 1))
    ((#[] : Array (Option Nat)), 0)).1

/-- Whether a state, or an index of a column, refers to a state taken out. -/
def refersToRemoved (c : Chart) (renumbered : Nat → Option Nat) : Bool :=
  let gone := fun id => (renumbered id).isNone
  (c.states.any fun state => !state.removed && state.derivations.any fun d => d.links.any gone) ||
    c.columns.any fun column =>
      column.lookup.toList.any (fun (_, id) => gone id) ||
        column.expecting.toList.any (fun (_, ids) => ids.any gone) ||
        column.reductors.toList.any fun (_, ids) => ids.any gone

/-- A state under new numbers. -/
def renumberState (renumbered : Nat → Option Nat) (state : State) : State :=
  { state with
    derivations := state.derivations.map fun d =>
      ⟨d.predecessor.bind renumbered, d.reductor.bind renumbered⟩
    parents := state.parents.filterMap renumbered }

/-- A column under new numbers. -/
def renumberColumn (renumbered : Nat → Option Nat) (column : Column) : Column :=
  { column with
    states := column.states.filterMap renumbered
    lookup := column.lookup.filterMap fun _ id => renumbered id
    expecting := column.expecting.renumber renumbered
    reductors := column.reductors.renumber renumbered }

/-- Whether some state was taken out. -/
def hasRemoved (c : Chart) : Bool :=
  c.states.any State.removed

/-- The chart without the states that were taken out. -/
def compact (c : Chart) : Except Breach Chart :=
  let numbers := c.renumbering
  let renumbered := fun id => (numbers[id]?).join
  if c.refersToRemoved renumbered then .error .linkedToRemoved
  else .ok { c with
    states := (c.states.filter fun state => !state.removed).map (renumberState renumbered)
    columns := c.columns.map (renumberColumn renumbered)
    byRule := c.byRule.renumber renumbered }

end IndexedGrammar.Chart
