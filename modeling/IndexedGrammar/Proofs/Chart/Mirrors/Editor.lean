import IndexedGrammar.Proofs.Chart.Balance
import IndexedGrammar.Proofs.Chart.Mirrors.Compaction
import IndexedGrammar.Proofs.Chart.Mirrors.Removal
import IndexedGrammar.Proofs.Chart.Mirrors.Run

/-!
# Editors under new numbers

A transaction can also be accepted, and a rule taken out, in place: the states that were taken out stay in the chart,
and all keep their numbers. Two editors whose charts mirror each other answer any further requests in the same way,
although the one drops such states while the other one keeps them.

Nothing is asked of the grammar about states that were taken out. So the first editor need not be sound; what makes
both go on alike is that its chart mirrors that of the second one, which is reachable.
-/

namespace IndexedGrammar.Editor

variable {f : Nat → Option Nat} {g : Grammar} {e e' : Editor}

/-! Changes in place -/

/-- Keeps the changes of the transaction and ends it. The states that were taken out stay where they are. -/
def acceptInPlace (e : Editor) : Except Breach Editor :=
  if !e.inTransaction then .error .nothingToAccept else .ok { e with journal := none }

/-- Takes out what was found only through a rule. The states that were taken out stay where they are. -/
def removeInPlace (e : Editor) (g : Grammar) (rule : Nat) : Except Breach Editor :=
  let removal := (Removal.on e.chart).removeRule g rule
  match removal.breach with
  | some breach => .error breach
  | none => .ok (e.afterRemoval removal)

/-- To accept is to accept in place and then to compact. -/
theorem accept_eq_bind (e : Editor) : e.accept = e.acceptInPlace.bind compact := by
  unfold Editor.accept acceptInPlace
  split <;> rfl

/-- To remove a rule is to remove it in place and then, outside of a transaction, to compact. -/
theorem removeRule_eq_bind (e : Editor) (g : Grammar) (rule : Nat) :
    e.removeRule g rule = (e.removeInPlace g rule).bind fun e => if e.inTransaction then .ok e else e.compact := by
  unfold Editor.removeRule removeInPlace
  cases hbreach : ((Removal.on e.chart).removeRule g rule).breach with
  | some breach => simp only [hbreach, Except.bind]
  | none =>
    simp only [hbreach, Except.bind]
    rfl

/-- A removal that meets no breach is made in place. -/
theorem removeInPlace_eq {rule : Nat} (hbreach : ((Removal.on e.chart).removeRule g rule).breach = none) :
    e.removeInPlace g rule = .ok (e.afterRemoval ((Removal.on e.chart).removeRule g rule)) := by
  unfold removeInPlace
  simp only [hbreach]

/-! Requests -/

/-- What can be asked of an editor after its chart was built. -/
inductive Request where
  | begin
  | insertRule (rule : Nat)
  | removeRule (rule : Nat)
  | accept
  | reject
deriving DecidableEq

/-- The editor after a request under a grammar, and with what fault an insertion was given up. In place, the states that
were taken out stay where they are. -/
def serve (inPlace : Bool) (e : Editor) (g : Grammar) : Request → Except Breach (Editor × Option Fault)
  | .begin => e.begin.map (·, none)
  | .insertRule rule => e.insertRule g rule
  | .removeRule rule => (if inPlace then e.removeInPlace g rule else e.removeRule g rule).map (·, none)
  | .accept => (if inPlace then e.acceptInPlace else e.accept).map (·, none)
  | .reject => e.reject.map (·, none)

/-- The answers to requests, each under the grammar that there is by then: whether it was served, with what fault, and
what is live afterwards. The first breach is the last answer. -/
def answers (inPlace : Bool) (e : Editor) :
    List (Grammar × Request) → List (Except Breach (Option Fault × List (Item × Nat)))
  | [] => []
  | (g, request) :: later =>
    match e.serve inPlace g request with
    | .error breach => [.error breach]
    | .ok (e', fault) => .ok (fault, e'.chart.liveStates) :: e'.answers inPlace later

/-- Whether the grammars of all requests keep the rules that the chart knows by then. -/
def KeepsRules (e : Editor) (g : Grammar) : List (Grammar × Request) → Prop
  | [] => True
  | (g', request) :: later => SameRules e.chart g g' ∧
    ∀ e' fault, e.serve false g' request = .ok (e', fault) → e'.KeepsRules g' later

/-- A served request leads from a reachable editor to a reachable one. -/
theorem Reachable.serve (h : Reachable e g) {request : Request} {fault : Option Fault}
    (hok : e.serve false g request = .ok (e', fault)) : Reachable e' g := by
  have hmap {outcome : Except Breach Editor} (hmap : outcome.map (·, (none : Option Fault)) = .ok (e', fault)) :
      outcome = .ok e' := by
    cases outcome with
    | error breach => contradiction
    | ok served => exact congrArg Except.ok (Prod.mk.inj (Except.ok.inj hmap)).1
  cases request with
  | begin => exact h.begin (hmap hok)
  | insertRule rule => exact h.insertRule hok
  | removeRule rule => exact h.removeRule (hmap hok)
  | accept => exact h.accept (hmap hok)
  | reject => exact h.reject (hmap hok)

/-- A grammar that keeps the rules of the chart is followed through all requests. -/
theorem keepsRules_map {g' : Grammar} (requests : List Request) (hsame : SameRules e.chart g g') :
    e.KeepsRules g (requests.map fun request => (g', request)) := by
  induction requests generalizing e g with
  | nil => trivial
  | cons request later ih => exact ⟨hsame, fun e' _ _ => ih fun _ _ _ => rfl⟩

/-! Compacting -/

/-- The states of a reachable editor list only states as their parents. -/
theorem Reachable.parentsInRange (h : Reachable e g) : e.chart.ParentsInRange := by
  obtain ⟨severed, before, hhistory⟩ := reachable_iff_history.mp h
  exact hhistory.balanced.booked.parentsInRange

/-- Taking out a rule leaves a chart whose states list only states as their parents. -/
theorem Reachable.parentsInRange_removeRule (h : Reachable e g) (rule : Nat) :
    ((Removal.on e.chart).removeRule g rule).chart.ParentsInRange := by
  obtain ⟨severed, before, hhistory⟩ := reachable_iff_history.mp h
  have hsheds := Removal.sheds_removeRule (g := g) (Removal.on e.chart) rule
  exact (hhistory.balanced.booked.sheds hsheds).parentsInRange

/-- Where nothing waits, there is nothing to clear. -/
theorem Sound.clear_eq (h : Sound g e) : e.clear = e := by
  have hagendas : (e.agendas.map fun _ => Agenda.empty) = e.agendas := by
    conv_rhs => rw [← Array.map_id e.agendas]
    exact Array.map_congr_left fun agenda hagenda => (h.idle agenda hagenda).symm
  rw [Editor.clear, hagendas]

/-- Compacting a sound editor numbers its states anew, and changes nothing if none was taken out. -/
theorem Sound.compact_renumbered (h : Sound g e) (hparents : e.chart.ParentsInRange) :
    e.compact = .ok { e with chart := e.chart.renumbered } := by
  unfold Editor.compact
  split
  · rw [h.filed.compact, h.clear_eq]
    rfl
  · next hwhole => rw [h.filed.renumbered_eq_self hparents (Bool.eq_false_iff.mpr hwhole)]

/-! Editors that mirror each other -/

/-- The second editor is the first one under new numbers. If a transaction is open, rejecting it leads to charts that
mirror each other too. -/
structure Mirrors (f : Nat → Option Nat) (e e' : Editor) : Prop where
  chart : e.chart.Mirrors f e'.chart
  agendas : e'.agendas = e.agendas
  budget : e'.budget = e.budget
  inTransaction : e'.inTransaction = e.inTransaction
  base : e.inTransaction = true →
    ∃ base base' : Chart, base.Mirrors f base' ∧ e.RollsBackTo base ∧ e'.LeadsBackTo base'

/-- The same breach, or the same fault and editors that mirror each other. -/
inductive Agree : Except Breach (Editor × Option Fault) → Except Breach (Editor × Option Fault) → Prop
  | breach (breach : Breach) : Agree (.error breach) (.error breach)
  | served {f : Nat → Option Nat} {e e' : Editor} (fault : Option Fault) :
      e.Mirrors f e' → Agree (.ok (e, fault)) (.ok (e', fault))

/-- What a change rolls back to is what was rolled back to before. -/
theorem RollsBackTo.record {base c : Chart} (h : e.RollsBackTo base) {agendas : Array Agenda} {changes : List Undo}
    (hsize : c.columns.size = e.chart.columns.size) (hrestores : c.Restores changes e.chart) :
    RollsBackTo { e with chart := c, agendas := agendas, journal := e.journal.map (·.record changes) } base where
  journal := by
    obtain ⟨earlier, hjournal, hbase⟩ := h.journal
    exact ⟨changes ++ earlier, by rw [hjournal]; rfl, hrestores.trans hbase⟩
  size_columns := hsize.trans h.size_columns

namespace Mirrors

/-- Both editors open a transaction, or both have one open. -/
theorem begin (h : e.Mirrors f e') : Agree (e.begin.map (·, none)) (e'.begin.map (·, none)) := by
  unfold Editor.begin
  rw [h.inTransaction]
  split
  · exact .breach _
  · refine .served (f := f) none ⟨h.chart, h.agendas, h.budget, rfl, fun _ => ?_⟩
    exact ⟨e.chart, e'.chart, h.chart, ⟨⟨[], rfl, .refl _⟩, rfl⟩, ⟨⟨[], rfl, .refl _⟩, id, rfl⟩⟩

/-- A change that the journals of both editors note. -/
theorem noted (h : e.Mirrors f e') {c : Chart} {agendas : Array Agenda} {changes : List Undo} {later : Editor}
    (hnoted : Noted g e' later) (hchart : c.Mirrors f later.chart) (hagendas : later.agendas = agendas)
    (hbudget : later.budget = e'.budget) (hsize : c.columns.size = e.chart.columns.size)
    (hrestores : c.Restores changes e.chart) :
    Mirrors f { e with chart := c, agendas := agendas, journal := e.journal.map (·.record changes) } later where
  chart := hchart
  agendas := hagendas
  budget := hbudget.trans h.budget
  inTransaction := by
    rw [hnoted.inTransaction_eq, h.inTransaction, Editor.inTransaction, Editor.inTransaction, Option.isSome_map]
  base hopen := by
    rw [Editor.inTransaction, Option.isSome_map] at hopen
    obtain ⟨base, base', hbase, hback, hback'⟩ := h.base hopen
    exact ⟨base, base', hbase, hback.record hsize hrestores, hnoted.leadsBackTo hback'⟩

/-- After runs that mirror each other both editors end alike. -/
theorem afterRun (h : e.Mirrors f e') {outcome outcome' : Run × Option Fault}
    (hrun : outcome.1.Mirrors f e.chart outcome'.1) (hfault : outcome'.2 = outcome.2)
    (hfinished : outcome'.1.breach = none → outcome'.1.Finished g e'.chart) :
    Agree (e.afterRun outcome) (e'.afterRun outcome') := by
  cases hbreach : outcome'.1.breach with
  | some breach =>
    have hbreach' := hrun.breach.symm.trans hbreach
    unfold Editor.afterRun
    simp only [hbreach, hbreach']
    exact .breach breach
  | none =>
    have hbreach' := hrun.breach.symm.trans hbreach
    have hnoted {later : Editor} {fault : Option Fault} (hok : e'.afterRun outcome' = .ok (later, fault)) :
        Noted g e' later := (noted_afterRun hfinished hok).1
    unfold Editor.afterRun at hnoted ⊢
    simp only [hbreach, hbreach', hfault] at hnoted ⊢
    have hnoted := hnoted rfl
    exact .served _ (h.noted hnoted hrun.chart (hrun.agendas_eq hnoted.idle) rfl hrun.size_columns hrun.restores)

/-- A rule is inserted in both editors, which meet the same breach or end with the same fault. -/
theorem insertRule (h : e.Mirrors f e') (hsound : Sound g e') (rule : Nat) :
    Agree (e.insertRule g rule) (e'.insertRule g rule) := by
  -- nothing waits in a sound editor, so there is nothing to number in its agendas
  have hon : Run.Mirrors f e.chart (Run.on e.chart e.agendas) (Run.on e'.chart e'.agendas) := by
    refine ⟨h.chart, fun k => ?_, rfl, rfl, rfl, .refl _⟩
    show Option.Rel _ e.agendas[k]? e'.agendas[k]?
    rw [← h.agendas]
    cases hagenda : e'.agendas[k]? with
    | none => exact .none
    | some agenda =>
      rw [hsound.idle agenda (Array.mem_of_getElem? hagenda)]
      exact .some (Agenda.mirrors_empty f)
  unfold Editor.insertRule
  rw [h.inTransaction]
  split
  · exact .breach _
  · cases hlive : g.isLive rule with
    | false => exact .breach _
    | true =>
      cases hrule : g.rule? rule with
      | none => exact .breach _
      | some r =>
        obtain ⟨hrun, hfault⟩ := hon.insertRule (g := g) e.budget rule r.lhs
        dsimp only
        rw [h.budget]
        exact h.afterRun hrun hfault
          (Run.insertRule_finished e.budget hsound.filed hsound.size_agendas hsound.idle)

/-- Both editors end their transaction with the charts as they are. -/
theorem closed (h : e.Mirrors f e') : Mirrors f { e with journal := none } { e' with journal := none } where
  chart := h.chart
  agendas := h.agendas
  budget := h.budget
  inTransaction := rfl
  base hopen := absurd hopen (by simp [Editor.inTransaction])

/-- The second editor is compacted outside of a transaction, and the first one stays as it is. -/
theorem compact (h : e.Mirrors f e') (hsound : Sound g e') (hclosed : e'.inTransaction = false)
    (hparents : e'.chart.ParentsInRange) : Agree (.ok (e, none)) (e'.compact.map (·, none)) := by
  rw [hsound.compact_renumbered hparents]
  exact .served none {
    chart := h.chart.trans (hsound.filed.mirrors_renumbered hparents)
    agendas := h.agendas
    budget := h.budget
    inTransaction := h.inTransaction
    base := fun hopen => absurd (hclosed.symm.trans (h.inTransaction.trans hopen)) (by simp) }

/-- A rule is taken out of both editors. The one keeps the states in place, the other one drops them outside of a
transaction. -/
theorem removeRule (h : e.Mirrors f e') (hreachable : Reachable e' g) (rule : Nat) :
    Agree ((e.removeInPlace g rule).map (·, none)) ((e'.removeRule g rule).map (·, none)) := by
  have hsound := hreachable.sound
  have hon : Removal.Mirrors f e.chart (Removal.on e.chart) (Removal.on e'.chart) :=
    ⟨h.chart, rfl, rfl, fun _ => .refl _⟩
  have hremoval := hon.removeRule (g := g) rule
  have hbreach : ((Removal.on e.chart).removeRule g rule).breach = none :=
    hremoval.breach.symm.trans (Removal.removeRule_orderly hsound.filed rule).breach
  obtain ⟨hnoted, heq⟩ := hsound.removeRule_eq rule
  have hsize : ((Removal.on e.chart).removeRule g rule).chart.columns.size = e.chart.columns.size :=
    hremoval.chart.size_columns.symm.trans (hnoted.size_columns.trans h.chart.size_columns)
  have hkept := h.noted hnoted hremoval.chart h.agendas rfl hsize (hremoval.restores hbreach)
  rw [removeInPlace_eq hbreach, heq]
  split
  · exact .served none hkept
  · next hclosed =>
    have hclosed' := hnoted.inTransaction_eq.trans (Bool.eq_false_iff.mpr hclosed)
    exact hkept.compact (hnoted.sound hsound) hclosed' (hreachable.parentsInRange_removeRule rule)

/-- Both editors accept their transaction, the first one in place, or neither has one. -/
theorem accept (h : e.Mirrors f e') (hreachable : Reachable e' g) :
    Agree (e.acceptInPlace.map (·, none)) (e'.accept.map (·, none)) := by
  rw [accept_eq_bind]
  unfold acceptInPlace
  rw [h.inTransaction]
  split
  · exact .breach _
  · exact h.closed.compact hreachable.sound.closed rfl hreachable.parentsInRange

/-- Both editors reject their transaction, or neither has one. -/
theorem reject (h : e.Mirrors f e') (hsound : Sound g e') :
    Agree (e.reject.map (·, none)) (e'.reject.map (·, none)) := by
  cases hopen : e.inTransaction with
  | false =>
    have hjournal : e.journal = none := Option.isNone_iff_eq_none.mp (by simpa [Editor.inTransaction] using hopen)
    have hjournal' : e'.journal = none :=
      Option.isNone_iff_eq_none.mp (by simpa [Editor.inTransaction] using h.inTransaction.trans hopen)
    unfold Editor.reject
    rw [hjournal, hjournal']
    exact .breach _
  | true =>
    obtain ⟨base, base', hbase, hback, hback'⟩ := h.base hopen
    have hsize : e.agendas.size = e.chart.columns.size := by
      rw [← h.agendas, hsound.size_agendas, h.chart.size_columns]
    rw [hback.reject hsize, hback'.reject hsound.size_agendas]
    refine .served (f := f) none ⟨hbase, ?_, h.budget, rfl, fun hended => by contradiction⟩
    rw [hbase.size_columns]

/-- Both editors serve a request, the first one in place, and end alike. -/
theorem serve (h : e.Mirrors f e') (hreachable : Reachable e' g) (request : Request) :
    Agree (e.serve true g request) (e'.serve false g request) := by
  cases request with
  | begin => exact h.begin
  | insertRule rule => exact h.insertRule hreachable.sound rule
  | removeRule rule => exact h.removeRule hreachable rule
  | accept => exact h.accept hreachable
  | reject => exact h.reject hreachable.sound

/-- Both editors give the same answers to any requests, although only the second one drops the states that are taken
out. -/
theorem answers (h : e.Mirrors f e') (hreachable : Reachable e' g) {turns : List (Grammar × Request)}
    (hkeeps : e'.KeepsRules g turns) : e'.answers false turns = e.answers true turns := by
  -- the numbering is a new one each time that the second editor drops states
  induction turns generalizing f e e' g with
  | nil => rfl
  | cons turn later ih =>
    obtain ⟨g', request⟩ := turn
    obtain ⟨hsame, hlater⟩ := hkeeps
    have hregrammar := hreachable.regrammar hsame
    have hagree := h.serve hregrammar request
    unfold Editor.answers
    generalize hkept : e.serve true g' request = kept at hagree ⊢
    generalize hserved : e'.serve false g' request = served at hagree ⊢
    cases hagree with
    | breach breach => rfl
    | served fault hmirrors =>
      dsimp only
      rw [hmirrors.chart.liveStates, ih hmirrors (hregrammar.serve hserved) (hlater _ _ hserved)]

end Mirrors

end IndexedGrammar.Editor
