import IndexedGrammar.Chart.Build
import IndexedGrammar.Chart.Compaction
import IndexedGrammar.Chart.Removal

/-!
# Editing charts

An editor holds a chart that follows the changes of a grammar. Changes can be grouped in a
transaction, which is accepted or rejected as a whole: while it is open, a journal notes how to take
back each change, and rejecting takes them back from the latest to the first. Rules are only inserted
in a transaction, since an insertion that has to be given up leaves the chart half built. States that
were taken out are dropped at the end of the transaction, or at once outside of one.
-/

namespace IndexedGrammar

/-- A chart with what waits at its columns, what its runs may cost, and how to go back to the chart
as it was when the transaction was opened. -/
structure Editor where
  chart : Chart
  agendas : Array Agenda
  budget : Budget
  /-- The changes of the transaction, if one is open. -/
  journal : Option Journal

namespace Editor

/-- An editor outside a transaction, where nothing waits. -/
def new (chart : Chart) (budget : Budget) : Editor :=
  ⟨chart, .replicate chart.columns.size .empty, budget, none⟩

/-- Whether a transaction is open. -/
def inTransaction (e : Editor) : Bool :=
  e.journal.isSome

/-- Sets when a request for cancellation is found: by the later runs from a column on, or by none. A request
that comes while a run is under way is found at the next column. -/
def requestAt (e : Editor) (column : Option Nat) : Editor :=
  { e with budget := { e.budget with cancelledAt := column } }

/-- Requests cancellation of all later runs. -/
def cancel (e : Editor) : Editor :=
  e.requestAt (some 0)

/-- Leaves nothing waiting. -/
def clear (e : Editor) : Editor :=
  { e with agendas := e.agendas.map fun _ => .empty }

/-- The editor after a run. -/
def afterRun (e : Editor) (outcome : Run × Option Fault) : Except Breach (Editor × Option Fault) :=
  match outcome.1.breach with
  | some breach => .error breach
  | none => .ok ({ e with
      chart := outcome.1.chart
      agendas := outcome.1.agendas
      journal := e.journal.map fun journal => journal.record outcome.1.changes }, outcome.2)

/-- Finds everything that can be found by the rules of a grammar. A run that had to be given up
leaves what it found. -/
def build (e : Editor) (g : Grammar) : Except Breach (Editor × Option Fault) :=
  if !e.chart.states.isEmpty then .error .alreadyBuilt
  else if g.rootRule?.isNone then .error .indexOutOfBounds
  else e.afterRun ((Run.on e.chart e.agendas).build g e.budget)

/-- Drops the states that were taken out. -/
def compact (e : Editor) : Except Breach Editor :=
  if e.chart.hasRemoved then do
    let chart ← e.chart.compact
    return { e.clear with chart := chart }
  else .ok e

/-- Opens a transaction. -/
def begin (e : Editor) : Except Breach Editor :=
  if e.inTransaction then .error .transactionOpen
  else .ok { e with journal := some (.start e.chart) }

/-- Keeps the changes of the transaction and ends it. -/
def accept (e : Editor) : Except Breach Editor :=
  if !e.inTransaction then .error .nothingToAccept
  else { e with journal := none }.compact

/-- Takes back the changes of the transaction and ends it. -/
def reject (e : Editor) : Except Breach Editor :=
  match e.journal with
  | none => .error .nothingToReject
  | some journal => do
    let chart ← journal.rollBack e.chart
    return { e.clear with chart := chart, journal := none }

/-- Adds what a rule newly inserted into the grammar gives rise to. A run that had to be given up
leaves what it found. -/
def insertRule (e : Editor) (g : Grammar) (rule : Nat) :
    Except Breach (Editor × Option Fault) :=
  if !e.inTransaction then .error .insertOutsideTransaction
  else match g.isLive rule, g.rule? rule with
    | true, some r => e.afterRun ((Run.on e.chart e.agendas).insertRule g e.budget rule r.lhs)
    | _, _ => .error .insertingDeadRule

/-- Takes out what was found only through a rule. -/
def removeRule (e : Editor) (g : Grammar) (rule : Nat) : Except Breach Editor :=
  let removal := (Removal.on e.chart).removeRule g rule
  match removal.breach with
  | some breach => .error breach
  | none =>
    let e := { e with
      chart := removal.chart
      journal := e.journal.map fun journal => journal.record removal.changes }
    if e.inTransaction then .ok e else e.compact

end Editor

namespace Chart

/-- Finds everything that can be found in a chart. -/
def build (c : Chart) (g : Grammar) (budget : Budget) : Except Breach (Chart × Option Fault) :=
  ((Editor.new c budget).build g).map fun (e, fault) => (e.chart, fault)

end Chart

end IndexedGrammar
