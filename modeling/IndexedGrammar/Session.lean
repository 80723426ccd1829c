import IndexedGrammar.Grammar.UnitCycle
import IndexedGrammar.Score

/-!
# Sessions

A session holds a grammar with a chart for every different sentence of a corpus, and changes them
together, one rule at a time. Changes are made in a transaction, which is accepted or rejected as a
whole; rejecting takes back the changes of every chart and then those of the grammar, the latest
first. After a change that failed, the transaction is to be rejected.
-/

namespace IndexedGrammar

/-- A change of the grammar of a session. -/
inductive Change where
  | inserted (rule : Nat)
  | removed (rule : Nat)
deriving DecidableEq

/-- A grammar with the charts of a corpus. -/
structure Session where
  grammar : Grammar
  charts : List (Parsed Editor)
  settings : Settings
  /-- Whether runs can be cancelled. -/
  cancellable : Bool
  /-- The changes of the transaction, the latest first, if one is open. -/
  changes : Option (List Change)

namespace Session

/-- Parses a corpus. A session that cannot be cancelled takes no notice of a request. -/
def ofCorpus (g : Grammar) (lexicon : Lexicon) (settings : Settings) (cancellable cancelled : Bool)
    (corpus : Corpus) : Except Failure Session := do
  let charts ← corpus.parse g lexicon (settings.budget (cancellable && cancelled))
  return ⟨g, charts, settings, cancellable, none⟩

/-- The session with every chart changed, unless a change fails. -/
def mapChartsM (s : Session) (change : Editor → Except Breach Editor) : Except Breach Session := do
  let charts ← s.charts.mapM fun parsed => do
    return { parsed with outcome := ← change parsed.outcome }
  return { s with charts := charts }

/-- Sets when the later runs in each chart, counted from 0, find that cancellation was requested. -/
def requestAt (s : Session) (columns : Nat → Option Nat) : Session :=
  { s with charts := s.charts.mapIdx fun n parsed =>
      { parsed with outcome := parsed.outcome.requestAt (columns n) } }

/-- Requests cancellation of all later runs, which a session that cannot be cancelled takes no notice of. -/
def cancel (s : Session) : Session :=
  if s.cancellable then s.requestAt fun _ => some 0 else s

/-- Whether a transaction is open. -/
def inTransaction (s : Session) : Bool :=
  s.changes.isSome

/-- The forests of the charts. -/
def forests (s : Session) : List (Parsed Forest) :=
  Corpus.readForests s.grammar s.charts

/-- The score of the grammar on the corpus. -/
def score (s : Session) : Score :=
  Score.tally s.grammar s.settings s.forests

/-- Opens a transaction. -/
def begin (s : Session) : Except Breach Session :=
  if s.inTransaction then .error .transactionOpen
  else do
    let s ← s.mapChartsM Editor.begin
    return { s with changes := some [] }

/-- Notes a change of the grammar. -/
def note (s : Session) (change : Change) : Session :=
  { s with changes := s.changes.map (change :: ·) }

/-- Changes the charts in order. The first run that has to be given up leaves what it found, and
the charts behind it as they are. -/
def changeCharts (change : Editor → Except Breach (Editor × Option Fault)) :
    List (Parsed Editor) → Except Breach (List (Parsed Editor) × Option Fault)
  | [] => .ok ([], none)
  | parsed :: rest => do
    let (chart, fault) ← change parsed.outcome
    let first : Parsed Editor := { parsed with outcome := chart }
    match fault with
    | some fault => return (first :: rest, some fault)
    | none =>
      let (rest, fault) ← changeCharts change rest
      return (first :: rest, fault)

/-- What is wrong with a rule that is to be inserted: it has to be well formed and concrete. -/
def ruleDefect? (r : Rule) : Option Defect :=
  match r.defect? with
  | some defect => some defect
  | none => if r.isSchema then some (.wildcardLeft r) else none

/-- Adds a rule to the grammar and to every chart, and gives its number. A rule that would close a
unit cycle is refused. -/
def insertRule (s : Session) (r : Rule) : Except Breach (Session × Except Fault Nat) :=
  if !s.inTransaction then .error .changeOutsideTransaction
  else match ruleDefect? r with
    | some defect => .ok (s, .error (.malformed defect))
    | none =>
      let id := s.grammar.size
      let grammar := s.grammar.insert r
      if grammar.hasUnitCycle then do
        return ({ s with grammar := ← grammar.retract id }, .error (.malformed .cyclicUnit))
      else do
        let s := { s with grammar := grammar }.note (.inserted id)
        let (charts, fault) ← changeCharts (fun e => e.insertRule grammar id) s.charts
        let s := { s with charts := charts }
        return match fault with
          | some fault => (s, .error fault)
          | none => (s, .ok id)

/-- Takes a rule out of the grammar and every chart, and tells whether it was in use. -/
def removeRule (s : Session) (id : Nat) : Except Breach (Session × Bool) :=
  if !s.inTransaction then .error .changeOutsideTransaction
  else match s.grammar.remove? id with
    | none => .ok (s, false)
    | some grammar => do
      let s ← ({ s with grammar := grammar }.note (.removed id)).mapChartsM
        fun e => e.removeRule grammar id
      return (s, true)

/-- Takes out every rule that no parse uses, and gives their numbers. -/
def pruneUnused (s : Session) : Except Breach (Session × List Nat) := do
  let usage := s.score.usage
  let unused := (s.grammar.rules.filter fun (id, _) => !usage.contains id).map Prod.fst
  let s ← unused.foldlM (fun s id => do return (← s.removeRule id).1) s
  return (s, unused)

/-- Keeps the changes of the transaction and ends it. -/
def accept (s : Session) : Except Breach Session :=
  if !s.inTransaction then .error .nothingToAccept
  else { s with changes := none }.mapChartsM Editor.accept

/-- Takes back a change of the grammar. A rule that cannot be put back stays as it is. -/
def takeBack (g : Grammar) : Change → Except Breach Grammar
  | .inserted id => g.retract id
  | .removed id => .ok ((g.restore? id).getD g)

/-- Takes back the changes of the transaction and ends it. -/
def reject (s : Session) : Except Breach Session :=
  match s.changes with
  | none => .error .nothingToReject
  | some changes => do
    let s ← s.mapChartsM Editor.reject
    let grammar ← changes.foldlM takeBack s.grammar
    return { s with grammar := grammar, changes := none }

end Session

end IndexedGrammar
