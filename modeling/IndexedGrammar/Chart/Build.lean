import IndexedGrammar.Chart.Agenda
import IndexedGrammar.Chart.Journal

/-!
# Building charts

A column is worked off until nothing waits there: a completed state moves the dots of the states
that wait for it at its origin, a state before a nonterminal begins its rules there and moves over
what has already been completed, and a state before a part of speech moves into the next column if
the part of speech can be found. A state found again only gets one more derivation.

Every state taken off the agenda and every attempt to add one counts as work. A column that takes
more work than its limit ends the run. So does cancellation, which is asked for anew at every column,
and can be requested at any time; either leaves nothing waiting. A
rule that the grammar does not have is a breach; once there is one, the rest of the run does not
matter. A run notes how to take back each of its changes.
-/

namespace IndexedGrammar

/-- What a run may cost, and how long it is wanted. -/
structure Budget where
  /-- How much work a column may take. -/
  limit : Nat
  /-- The column from which on a run finds that cancellation was requested, if it was. -/
  cancelledAt : Option Nat := none

/-- Whether a run finds at a column that cancellation was requested. -/
def Budget.isCancelledAt (budget : Budget) (k : Nat) : Bool :=
  budget.cancelledAt.any (· ≤ k)

/-- Without a request, a run finds none. -/
@[simp] theorem Budget.isCancelledAt_none (limit k : Nat) : Budget.isCancelledAt ⟨limit, none⟩ k = false :=
  rfl

namespace Chart

/-- Notes a derivation with the states it goes through. -/
def linkParents (c : Chart) (id : Nat) (d : Derivation) : Chart :=
  { c with states := d.links.foldl (fun states link =>
      states.modify link fun state => { state with parents := state.parents ++ [id] }) c.states }

/-- Gives a state one more derivation, unless it has it. -/
def pack (c : Chart) (id : Nat) (d : Derivation) : Chart :=
  match c.states[id]? with
  | none => c
  | some state =>
    if d ∈ state.derivations then c
    else linkParents { c with states := c.states.modify id fun state =>
      { state with derivations := state.derivations ++ [d] } } id d

/-- How to take back that a derivation was noted with the states it goes through. -/
def undoLinks (d : Derivation) : List Undo :=
  (d.links.map .parented).reverse

/-- How to take back that a state was given one more derivation. -/
def undoPack (c : Chart) (id : Nat) (d : Derivation) : List Undo :=
  match c.states[id]? with
  | none => []
  | some state => if d ∈ state.derivations then [] else undoLinks d ++ [.derived id]

/-- Adds a state with its first derivation, and files it under its item and its rule. -/
def record (c : Chart) (item : Item) (stop : Nat) (d : Derivation) : Chart :=
  let id := c.states.size
  let c := linkParents { c with states := c.states.push ⟨item, stop, [d], [], false⟩ } id d
  { c with
    columns := c.columns.modify stop fun column =>
      { column with lookup := column.lookup.insert item id, states := column.states.push id }
    byRule := c.byRule.push item.rule id }

/-- How to take back that a state was filed under its item and its rule. The state itself goes when
the chart gets its old size back. -/
def undoRecord (item : Item) (stop : Nat) (d : Derivation) : List Undo :=
  .filedRule item.rule :: .listed stop :: .filedItem stop item :: undoLinks d

/-- Files a completed state under its left-hand side at its origin. -/
def fileReductor (c : Chart) (origin : Nat) (lhs : Category) (id : Nat) : Chart :=
  { c with columns := c.columns.modify origin fun column =>
      { column with reductors := column.reductors.push lhs id } }

/-- Files a state under the category it waits for; the empty category is not waited for. -/
def fileExpecting (c : Chart) (stop : Nat) (symbol : Category) (id : Nat) : Chart :=
  if symbol.isEpsilon then c
  else { c with columns := c.columns.modify stop fun column =>
      { column with expecting := column.expecting.push symbol id } }

/-- How to take back that a state was filed under the category it waits for. -/
def undoFileExpecting (stop : Nat) (symbol : Category) : List Undo :=
  if symbol.isEpsilon then [] else [.filedExpecting stop symbol]

/-- Notes that a category's rules are begun at a column. -/
def predict (c : Chart) (k : Nat) (symbol : Category) : Chart :=
  { c with columns := c.columns.modify k fun column =>
      { column with predicted := column.predicted.insert symbol } }

/-- The columns at which a category's rules were begun. -/
def predictedAt (c : Chart) (category : Category) : List Nat :=
  (List.range c.columns.size).filter fun k => c.isPredicted k category

end Chart

/-- A run under way. -/
structure Run where
  chart : Chart
  /-- What waits at each column. -/
  agendas : Array Agenda
  /-- The work done at the current column. -/
  work : Nat
  /-- How to take back what the run changed, the latest change first. -/
  changes : List Undo
  /-- The first breach met. -/
  breach : Option Breach

namespace Run

variable (g : Grammar)

/-- The run in which nothing has been done to a chart. -/
def on (c : Chart) (agendas : Array Agenda) : Run :=
  ⟨c, agendas, 0, [], none⟩

/-- Notes a breach, unless there was one before. -/
def fail (run : Run) (breach : Breach) : Run :=
  { run with breach := run.breach.or (some breach) }

/-- Goes on with a changed chart. -/
def change (run : Run) (chart : Chart) (undo : List Undo) : Run :=
  { run with chart := chart, changes := undo ++ run.changes }

/-- Leaves nothing waiting. -/
def clear (run : Run) : Run :=
  { run with agendas := run.agendas.map fun _ => .empty }

/-- Files a new state under what stands behind its dot, and puts it on the agenda. -/
def enter (run : Run) (item : Item) (stop id : Nat) : Run :=
  match g.ahead item.rule item.dot with
  | .unknown => run.fail .indexOutOfBounds
  | .complete lhs =>
    { run.change (run.chart.fileReductor item.origin lhs id) [.filedReductor item.origin lhs] with
      agendas := run.agendas.modify stop (·.pushCompleted item.origin id) }
  | .expects symbol =>
    { run.change (run.chart.fileExpecting stop symbol id) (Chart.undoFileExpecting stop symbol) with
      agendas := run.agendas.modify stop (·.pushActive id) }

/-- Adds a state, or one more derivation to the state of that item. -/
def add (run : Run) (item : Item) (stop : Nat) (d : Derivation) : Run :=
  let run := { run with work := run.work + 1 }
  match run.chart.find? item stop with
  | some id => run.change (run.chart.pack id d) (run.chart.undoPack id d)
  | none =>
    enter g (run.change (run.chart.record item stop d) (Chart.undoRecord item stop d)) item stop
      run.chart.states.size

/-- Moves the dot of every state that waits at the origin of a completed state for its category. -/
def complete (run : Run) (id : Nat) (origin k : Nat) (lhs : Category) : Run :=
  (run.chart.expecting origin lhs).foldl (fun run waiting =>
    match run.chart.states[waiting]? with
    | none => run
    | some state => add g run state.item.advance k ⟨some waiting, some id⟩) run

/-- Begins the rules of a category at a column, once. -/
def begin (run : Run) (k : Nat) (symbol : Category) : Run :=
  if run.chart.isPredicted k symbol then run
  else
    let run := run.change (run.chart.predict k symbol) [.predicted k symbol]
    let run := if g.knowsRulesFor symbol then run else run.fail .indexOutOfBounds
    (g.rulesFor symbol).foldl (fun run (rule, _) => add g run ⟨rule, 0, k⟩ k .predicted) run

/-- Begins the rules of the category behind a state's dot, and moves the dot over everything of that
category that has already been completed from here. -/
def predict (run : Run) (id : Nat) (item : Item) (k : Nat) (symbol : Category) : Run :=
  let run := begin g run k symbol
  (run.chart.reductors k symbol).foldl (fun run reductor =>
    match run.chart.states[reductor]? with
    | none => run
    | some state => add g run item.advance state.stop ⟨some id, some reductor⟩) run

/-- Moves a state's dot over a part of speech, if it can be found here. -/
def scan (run : Run) (id : Nat) (item : Item) (k : Nat) (symbol : Category) : Run :=
  if k + 1 < run.chart.columns.size && run.chart.allows k symbol then
    add g run item.advance (k + 1) ⟨some id, none⟩
  else run

/-- Does what a state asks for. -/
def process (run : Run) (k id : Nat) : Run :=
  match run.chart.states[id]? with
  | none => run
  | some state =>
    match g.ahead state.item.rule state.item.dot with
    | .unknown => run.fail .indexOutOfBounds
    | .complete lhs => complete g run id state.item.origin k lhs
    | .expects symbol =>
      if symbol.isEpsilon then add g run state.item.advance k ⟨some id, none⟩
      else if g.isPartOfSpeech symbol then scan g run id state.item k symbol
      else predict g run id state.item k symbol

/-- Whether a state was taken out. -/
def isRemoved (run : Run) (id : Nat) : Bool :=
  match run.chart.states[id]? with
  | none => false
  | some state => state.removed

/-- Takes the next state off a column's agenda that was not taken out. -/
def next (run : Run) (k : Nat) : Option Nat × Run :=
  match run.agendas[k]? with
  | none => (none, run)
  | some agenda =>
    let (id, rest) := agenda.next run.isRemoved
    (id, { run with agendas := run.agendas.setIfInBounds k rest })

/-- Works off a column, and tells whether that stayed within the limit. Each state taken off the
agenda is a unit of work, so the limit is exceeded before the steps run out. -/
def drain (limit k : Nat) : Nat → Run → Run × Bool
  | 0, run => (run, false)
  | steps + 1, run =>
    match run.next k with
    | (none, run) => (run, true)
    | (some id, run) =>
      let run := process g { run with work := run.work + 1 } k id
      if limit < run.work then (run, false) else drain limit k steps run

/-- Works off columns in turn. -/
def columns (budget : Budget) : List Nat → Run → Run × Option Fault
  | [], run => (run, none)
  | k :: rest, run =>
    if budget.isCancelledAt k then (run.clear, some .cancelled)
    else match drain g budget.limit k (budget.limit + 1) { run with work := 0 } with
      | (run, true) => columns budget rest run
      | (run, false) => (run.clear, some (.unbounded k budget.limit))

/-- Works off the columns from one on. -/
def onwards (budget : Budget) (first : Nat) (run : Run) : Run × Option Fault :=
  columns g budget (List.range' first (run.chart.columns.size - first)) run

/-- Finds everything that can be found, beginning with the synthetic rule at the first column. -/
def build (budget : Budget) (run : Run) : Run × Option Fault :=
  (add g run ⟨Grammar.rootId, 0, 0⟩ 0 .predicted).onwards g budget 0

/-- Begins a rule at columns. -/
def beginRule (rule : Nat) (begun : List Nat) (run : Run) : Run :=
  begun.foldl (fun run k => add g run ⟨rule, 0, k⟩ k .predicted) run

/-- Finds everything that a new rule adds, beginning where the rules of its category were begun. -/
def insertRule (budget : Budget) (rule : Nat) (lhs : Category) (run : Run) : Run × Option Fault :=
  let begun := run.chart.predictedAt lhs
  let run := run.beginRule g rule begun
  match begun with
  | [] => (run, none)
  | first :: _ => run.onwards g budget first

end Run

end IndexedGrammar
