import IndexedGrammar.Chart.Basic

/-!
# Journals

A journal says how to take back what was changed in a chart: for each change, how to undo it, and how
many states there were before. Changes are taken back from the latest to the first. A change that
does not fit the chart it is taken back from is a breach.
-/

namespace IndexedGrammar

/-- How to take back one change of a chart. -/
inductive Undo where
  /-- An item was filed at a column. -/
  | filedItem (column : Nat) (item : Item)
  /-- The state of an item was forgotten at a column. -/
  | unfiledItem (column : Nat) (item : Item) (id : Nat)
  /-- A state was filed under the category it waits for. -/
  | filedExpecting (column : Nat) (symbol : Category)
  /-- A waiting state was forgotten; it stood at this place among those waiting for the category. -/
  | unfiledExpecting (column : Nat) (symbol : Category) (place id : Nat)
  /-- A completed state was filed under its left-hand side. -/
  | filedReductor (column : Nat) (lhs : Category)
  /-- A completed state was forgotten; it stood at this place among those of its category. -/
  | unfiledReductor (column : Nat) (lhs : Category) (place id : Nat)
  /-- A category's rules were begun at a column. -/
  | predicted (column : Nat) (symbol : Category)
  /-- A category is no longer predicted at a column. -/
  | unpredicted (column : Nat) (symbol : Category)
  /-- A state was listed at the column it ends at. -/
  | listed (column : Nat)
  /-- A state was filed under its rule. -/
  | filedRule (rule : Nat)
  /-- A state was given one more derivation. -/
  | derived (id : Nat)
  /-- A derivation was taken away from this place among those of a state. -/
  | underived (id place : Nat) (d : Derivation)
  /-- A state was given one more parent. -/
  | parented (id : Nat)
  /-- A state was taken out. -/
  | struck (id : Nat)
deriving DecidableEq

namespace Chart

/-- Changes a column. -/
def editColumn (c : Chart) (k : Nat) (f : Column → Except Breach Column) : Except Breach Chart :=
  match c.columns[k]? with
  | none => .error .indexOutOfBounds
  | some column => (f column).map fun column =>
      { c with columns := c.columns.setIfInBounds k column }

/-- Changes a state. -/
def editState (c : Chart) (id : Nat) (f : State → State) : Except Breach Chart :=
  match c.states[id]? with
  | none => .error .indexOutOfBounds
  | some state => .ok { c with states := c.states.setIfInBounds id (f state) }

/-- An index with the latest number under a key taken out. -/
def popIndex {κ : Type} [Ord κ] [Std.TransOrd κ] (index : Index κ) (key : κ) :
    Except Breach (Index κ) :=
  match index.pop? key with
  | none => .error .indexOutOfSync
  | some index => .ok index

/-- Takes back a change. -/
def undo (c : Chart) : Undo → Except Breach Chart
  | .filedItem k item => c.editColumn k fun column =>
      .ok { column with lookup := column.lookup.erase item }
  | .unfiledItem k item id => c.editColumn k fun column =>
      .ok { column with lookup := column.lookup.insert item id }
  | .filedExpecting k symbol => c.editColumn k fun column =>
      (popIndex column.expecting symbol).map fun index => { column with expecting := index }
  | .unfiledExpecting k symbol place id => c.editColumn k fun column =>
      .ok { column with expecting := column.expecting.insertAt symbol place id }
  | .filedReductor k lhs => c.editColumn k fun column =>
      (popIndex column.reductors lhs).map fun index => { column with reductors := index }
  | .unfiledReductor k lhs place id => c.editColumn k fun column =>
      .ok { column with reductors := column.reductors.insertAt lhs place id }
  | .predicted k symbol => c.editColumn k fun column =>
      .ok { column with predicted := column.predicted.erase symbol }
  | .unpredicted k symbol => c.editColumn k fun column =>
      .ok { column with predicted := column.predicted.insert symbol }
  | .listed k => c.editColumn k fun column => .ok { column with states := column.states.pop }
  | .filedRule rule => (popIndex c.byRule rule).map fun index => { c with byRule := index }
  | .derived id => c.editState id fun state =>
      { state with derivations := state.derivations.dropLast }
  | .underived id place d => c.editState id fun state =>
      { state with derivations := state.derivations.insertIdx place d }
  | .parented id => c.editState id fun state => { state with parents := state.parents.dropLast }
  | .struck id => c.editState id fun state => { state with removed := false }

/-- Takes back changes, the latest first. -/
def undoAll (c : Chart) : List Undo → Except Breach Chart
  | [] => .ok c
  | change :: earlier =>
    match c.undo change with
    | .error breach => .error breach
    | .ok c => c.undoAll earlier

end Chart

/-- What is needed to go back to an earlier chart. -/
structure Journal where
  /-- How many states the chart had. -/
  size : Nat
  /-- How to take back what was changed since, the latest change first. -/
  changes : List Undo

namespace Journal

/-- The journal in which nothing has been changed yet. -/
def start (c : Chart) : Journal :=
  ⟨c.states.size, []⟩

/-- The journal after further changes, the latest of them first. -/
def record (journal : Journal) (changes : List Undo) : Journal :=
  { journal with changes := changes ++ journal.changes }

/-- The chart as it was when the journal was started. -/
def rollBack (journal : Journal) (c : Chart) : Except Breach Chart :=
  (c.undoAll journal.changes).map fun c => { c with states := c.states.take journal.size }

end Journal

end IndexedGrammar
