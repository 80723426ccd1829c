import IndexedGrammar.Chart.Editor
import IndexedGrammar.Proofs.Chart.Columns
import IndexedGrammar.Proofs.Chart.Compaction
import IndexedGrammar.Proofs.Chart.Sweep
import IndexedGrammar.Proofs.Sample

/-!
# Editors as they come about

An editor begins with an empty chart and is changed by building, by inserting and removing rules, and
by opening and ending transactions. Between these the grammar may change, as long as it keeps the rules
that the chart knows. Every such editor holds a filed chart on which nothing waits, and the journal of
an open transaction leads back to a filed chart.

Rejecting a transaction gives back the chart as it was when the transaction was opened, whatever was
inserted and removed in between, and whether or not every insertion could be finished.
-/

namespace IndexedGrammar.Editor

/-- A grammar with the same rules for all states of a chart. -/
def SameRules (c : Chart) (g g' : Grammar) : Prop :=
  ∀ id s, c.spot? id = some s → g'.rule? s.item.rule = g.rule? s.item.rule

/-- A grammar with one more rule has the same rules for a chart that is filed without it. -/
theorem sameRules_insert {c : Chart} {g : Grammar} (hc : c.Filed g) (r : Rule) : SameRules c g (g.insert r) := by
  intro id s hs
  have hknown := hc.known hs
  have hne : s.item.rule ≠ g.slots.size := by
    intro heq
    simp [Grammar.rule?, heq] at hknown
  simp only [Grammar.rule?, Grammar.insert, Array.getElem?_push, if_neg hne]

/-- A grammar from which a rule is removed has the same rules for every chart. -/
theorem sameRules_remove {c : Chart} {g g' : Grammar} {rule : Nat}
    (hremove : g.remove? rule = some g') : SameRules c g g' :=
  fun _ s _ => Grammar.rule?_remove hremove s.item.rule

/-- Editors that the operations lead to, with the grammar they follow. A request for cancellation can be found at
any column of a run, which then leaves the chart half built. -/
inductive Reachable : Editor → Grammar → Prop
  | new (layout : Layout) (input : Input) (budget : Budget) (g : Grammar) :
      Reachable (.new (.new layout input) budget) g
  | regrammar {e : Editor} {g g' : Grammar} :
      Reachable e g → SameRules e.chart g g' → Reachable e g'
  | request {e : Editor} {g : Grammar} (column : Option Nat) : Reachable e g → Reachable (e.requestAt column) g
  | build {e e' : Editor} {g : Grammar} {fault : Option Fault} :
      Reachable e g → e.build g = .ok (e', fault) → Reachable e' g
  | insertRule {e e' : Editor} {g : Grammar} {rule : Nat} {fault : Option Fault} :
      Reachable e g → e.insertRule g rule = .ok (e', fault) → Reachable e' g
  | removeRule {e e' : Editor} {g : Grammar} {rule : Nat} :
      Reachable e g → e.removeRule g rule = .ok e' → Reachable e' g
  | begin {e e' : Editor} {g : Grammar} : Reachable e g → e.begin = .ok e' → Reachable e' g
  | accept {e e' : Editor} {g : Grammar} : Reachable e g → e.accept = .ok e' → Reachable e' g
  | reject {e e' : Editor} {g : Grammar} : Reachable e g → e.reject = .ok e' → Reachable e' g

/-- What can be done in a transaction, step by step: rules are inserted and removed, runs may be given
up, or cancelled at any column, and the grammar may change around the rules of the chart. -/
inductive Edits : Editor → Grammar → Editor → Grammar → Prop
  | refl (e : Editor) (g : Grammar) : Edits e g e g
  | regrammar {e e' : Editor} {g g' g'' : Grammar} :
      Edits e g e' g' → SameRules e'.chart g' g'' → Edits e g e' g''
  | request {e e' : Editor} {g g' : Grammar} (column : Option Nat) :
      Edits e g e' g' → Edits e g (e'.requestAt column) g'
  | build {e e' e'' : Editor} {g g' : Grammar} {fault : Option Fault} :
      Edits e g e' g' → e'.build g' = .ok (e'', fault) → Edits e g e'' g'
  | insertRule {e e' e'' : Editor} {g g' : Grammar} {rule : Nat} {fault : Option Fault} :
      Edits e g e' g' → e'.insertRule g' rule = .ok (e'', fault) → Edits e g e'' g'
  | removeRule {e e' e'' : Editor} {g g' : Grammar} {rule : Nat} :
      Edits e g e' g' → e'.removeRule g' rule = .ok e'' → Edits e g e'' g'

/-- The journal of an editor leads back to an earlier chart, whose states are still there. -/
structure LeadsBackTo (e : Editor) (base : Chart) : Prop where
  journal : ∃ changes, e.journal = some ⟨base.states.size, changes⟩ ∧ e.chart.Restores changes base
  spot? : ∀ {id s}, base.spot? id = some s → e.chart.spot? id = some s
  size_columns : e.chart.columns.size = base.columns.size

/-- Rolling back the journal of an editor gives an earlier chart, which need not be filed. -/
structure RollsBackTo (e : Editor) (base : Chart) : Prop where
  journal : ∃ changes, e.journal = some ⟨base.states.size, changes⟩ ∧ e.chart.Restores changes base
  size_columns : e.chart.columns.size = base.columns.size

/-- What holds of every editor: its chart is filed, nothing waits, and the journal of an open
transaction leads back to a filed chart. -/
structure Sound (g : Grammar) (e : Editor) : Prop where
  filed : e.chart.Filed g
  size_agendas : e.agendas.size = e.chart.columns.size
  idle : ∀ agenda ∈ e.agendas, agenda = .empty
  base : e.inTransaction = true → ∃ base, base.Filed g ∧ e.LeadsBackTo base

/-- A change of an editor that its journal notes: states keep their numbers, and the changes lead
back. -/
structure Noted (g : Grammar) (e e' : Editor) : Prop where
  filed : e'.chart.Filed g
  size_agendas : e'.agendas.size = e'.chart.columns.size
  idle : ∀ agenda ∈ e'.agendas, agenda = .empty
  spot? : ∀ {id s}, e.chart.spot? id = some s → e'.chart.spot? id = some s
  size_columns : e'.chart.columns.size = e.chart.columns.size
  journal : ∃ changes, e'.journal = e.journal.map (·.record changes) ∧
    e'.chart.Restores changes e.chart

variable {g : Grammar} {e e' : Editor}

/-- What is noted leads back as far as before. -/
theorem Noted.leadsBackTo (h : Noted g e e') {base : Chart} (hbase : e.LeadsBackTo base) :
    e'.LeadsBackTo base where
  journal := by
    obtain ⟨changes, hjournal, hrestores⟩ := hbase.journal
    obtain ⟨later, hjournal', hrestores'⟩ := h.journal
    refine ⟨later ++ changes, ?_, hrestores'.trans hrestores⟩
    rw [hjournal', hjournal]
    rfl
  spot? hs := h.spot? (hbase.spot? hs)
  size_columns := h.size_columns.trans hbase.size_columns

/-- What is noted opens and ends no transaction. -/
theorem Noted.inTransaction_eq (h : Noted g e e') : e'.inTransaction = e.inTransaction := by
  obtain ⟨changes, hjournal, -⟩ := h.journal
  rw [inTransaction, hjournal, Option.isSome_map, inTransaction]

/-- What is noted leaves a sound editor. -/
theorem Noted.sound (h : Noted g e e') (he : Sound g e) : Sound g e' where
  filed := h.filed
  size_agendas := h.size_agendas
  idle := h.idle
  base htransaction := by
    obtain ⟨base, hfiled, hbase⟩ := he.base (h.inTransaction_eq ▸ htransaction)
    exact ⟨base, hfiled, h.leadsBackTo hbase⟩

/-- A finished run is noted. -/
theorem noted_afterRun {outcome : Run × Option Fault} {fault : Option Fault}
    (hrun : outcome.1.breach = none → outcome.1.Finished g e.chart)
    (hok : e.afterRun outcome = .ok (e', fault)) :
    Noted g e e' ∧ outcome.1.breach = none ∧ e'.chart = outcome.1.chart ∧ fault = outcome.2 := by
  unfold afterRun at hok
  split at hok
  · contradiction
  · next hbreach =>
    obtain ⟨rfl, rfl⟩ := Prod.mk.inj (Except.ok.inj hok)
    have hfinished := hrun hbreach
    refine ⟨⟨hfinished.filed, hfinished.size_agendas, fun _ => hfinished.idle, hfinished.grows.spot?,
      hfinished.grows.size_columns, _, rfl, hfinished.restores⟩, hbreach, rfl, rfl⟩

/-- A build is noted. -/
theorem Sound.noted_build (h : Sound g e) {fault : Option Fault}
    (hok : e.build g = .ok (e', fault)) : Noted g e e' := by
  unfold build at hok
  split at hok
  · contradiction
  · split at hok
    · contradiction
    · exact (noted_afterRun (Run.build_finished e.budget h.filed h.size_agendas h.idle) hok).1

/-- An insertion that meets no breach is a run for a rule in use, which is noted with the fault it ends with. -/
theorem Sound.insertRule_spec (h : Sound g e) {rule : Nat} {fault : Option Fault}
    (hok : e.insertRule g rule = .ok (e', fault)) : ∃ r run, g.HasRule rule r ∧
      (Run.on e.chart e.agendas).insertRule g e.budget rule r.lhs = (run, fault) ∧ run.breach = none ∧
      run.Finished g e.chart ∧ e'.chart = run.chart ∧ Noted g e e' := by
  unfold insertRule at hok
  split at hok
  · contradiction
  · split at hok
    · next r hlive hr =>
      have hfinished : _ → Run.Finished g e.chart
          ((Run.on e.chart e.agendas).insertRule g e.budget rule r.lhs).1 :=
        Run.insertRule_finished e.budget h.filed h.size_agendas h.idle
      obtain ⟨hnoted, hbreach, hchart, rfl⟩ := noted_afterRun hfinished hok
      exact ⟨r, _, Grammar.hasRule_iff.mpr ⟨hr, hlive⟩, rfl, hbreach, hfinished hbreach, hchart, hnoted⟩
    · contradiction

/-- An insertion is noted. -/
theorem Sound.noted_insertRule (h : Sound g e) {rule : Nat} {fault : Option Fault}
    (hok : e.insertRule g rule = .ok (e', fault)) : Noted g e e' := by
  obtain ⟨-, -, -, -, -, -, -, hnoted⟩ := h.insertRule_spec hok
  exact hnoted

/-- The editor after a removal, before it is compacted. -/
def afterRemoval (e : Editor) (removal : Removal) : Editor :=
  { e with
    chart := removal.chart
    journal := e.journal.map fun journal => journal.record removal.changes }

/-- A removal is noted, and compacted outside a transaction. It meets no breach. -/
theorem Sound.removeRule_eq (h : Sound g e) (rule : Nat) :
    Noted g e (e.afterRemoval ((Removal.on e.chart).removeRule g rule)) ∧
      e.removeRule g rule =
        if e.inTransaction then .ok (e.afterRemoval ((Removal.on e.chart).removeRule g rule))
        else (e.afterRemoval ((Removal.on e.chart).removeRule g rule)).compact := by
  have horderly := Removal.removeRule_orderly (r := Removal.on e.chart) h.filed rule
  have hbreach : ((Removal.on e.chart).removeRule g rule).breach = none := horderly.breach
  obtain ⟨changes, hchanges, hrestores⟩ := horderly.back
  have hchanges' : ((Removal.on e.chart).removeRule g rule).changes = changes := by
    rw [hchanges]
    exact List.append_nil changes
  have hnoted : Noted g e (e.afterRemoval ((Removal.on e.chart).removeRule g rule)) := {
    filed := horderly.filed
    size_agendas := h.size_agendas.trans horderly.size_columns.symm
    idle := h.idle
    spot? := fun {id s} hs => (horderly.spot? id).trans hs
    size_columns := horderly.size_columns
    journal := ⟨changes, by rw [← hchanges']; rfl, hrestores⟩ }
  refine ⟨hnoted, ?_⟩
  rw [← hnoted.inTransaction_eq, removeRule]
  simp only [hbreach]
  rfl

/-- An editor that is not in a transaction stays sound when it is compacted. -/
theorem Sound.compact_eq (h : Sound g e) (htransaction : e.inTransaction = false) :
    ∃ e', e.compact = .ok e' ∧ Sound g e' ∧ e'.inTransaction = false ∧
      (e'.chart = e.chart ∨ e'.chart = e.chart.renumbered) := by
  unfold compact
  split
  · rw [h.filed.compact]
    refine ⟨{ e.clear with chart := e.chart.renumbered }, rfl, ?_, htransaction, .inr rfl⟩
    refine ⟨h.filed.renumbered, ?_, fun agenda hagenda => ?_, fun hopen => ?_⟩
    · show (e.agendas.map _).size = (e.chart.columns.map _).size
      rw [Array.size_map, Array.size_map, h.size_agendas]
    · obtain ⟨-, -, rfl⟩ := Array.mem_map.mp hagenda
      rfl
    · exact absurd (htransaction.symm.trans hopen) (by simp)
  · exact ⟨e, rfl, h, htransaction, .inl rfl⟩

/-- An accepted transaction was open. -/
theorem inTransaction_of_accept (h : e.accept = .ok e') : e.inTransaction = true := by
  unfold Editor.accept at h
  split at h
  · contradiction
  · next hopen => simpa using hopen

/-- A rejected transaction was open. -/
theorem inTransaction_of_reject (h : e.reject = .ok e') : e.inTransaction = true := by
  unfold Editor.reject at h
  split at h
  · contradiction
  · next journal hjournal => rw [inTransaction, hjournal, Option.isSome_some]

/-- A sound editor whose journal is dropped is sound. -/
theorem Sound.closed (h : Sound g e) : Sound g { e with journal := none } :=
  ⟨h.filed, h.size_agendas, h.idle, fun hopen => absurd hopen (by simp [inTransaction])⟩

/-- Accepting an open transaction drops its journal and compacts the chart. -/
theorem accept_eq_compact (hopen : e.inTransaction = true) :
    e.accept = Editor.compact { e with journal := none } := by
  rw [Editor.accept, hopen]
  rfl

/-- Accepting the transaction of a sound editor leaves a sound one, with the chart as it is or under new
numbers. -/
theorem Sound.accept_eq (h : Sound g e) (hopen : e.inTransaction = true) :
    ∃ e', e.accept = .ok e' ∧ Sound g e' ∧ e'.inTransaction = false ∧
      (e'.chart = e.chart ∨ e'.chart = e.chart.renumbered) := by
  rw [accept_eq_compact hopen]
  exact h.closed.compact_eq rfl

/-- What is accepted is the sound editor without its transaction. -/
theorem Sound.accept (h : Sound g e) (haccept : e.accept = .ok e') :
    Sound g e' ∧ e'.inTransaction = false ∧ (e'.chart = e.chart ∨ e'.chart = e.chart.renumbered) := by
  obtain ⟨accepted, heq, hsound⟩ := h.accept_eq (inTransaction_of_accept haccept)
  obtain rfl := Except.ok.inj (heq.symm.trans haccept)
  exact hsound

/-- A removal leaves a sound editor. -/
theorem Sound.removeRule (h : Sound g e) (rule : Nat) :
    ∃ e', e.removeRule g rule = .ok e' ∧ Sound g e' := by
  obtain ⟨hnoted, heq⟩ := h.removeRule_eq rule
  rw [heq]
  cases htransaction : e.inTransaction with
  | true => exact ⟨_, rfl, hnoted.sound h⟩
  | false =>
    obtain ⟨e', hcompact, hsound, -⟩ :=
      (hnoted.sound h).compact_eq (hnoted.inTransaction_eq.trans htransaction)
    exact ⟨e', hcompact, hsound⟩

/-- Rejecting a transaction gives back the chart that rolling back the journal gives, with nothing waiting. -/
theorem RollsBackTo.reject {base : Chart} (h : e.RollsBackTo base) (hsize : e.agendas.size = e.chart.columns.size) :
    e.reject = .ok ⟨base, .replicate base.columns.size .empty, e.budget, none⟩ := by
  obtain ⟨changes, hjournal, hrestores⟩ := h.journal
  have hagendas : (e.agendas.map fun _ => Agenda.empty) =
      .replicate base.columns.size Agenda.empty := by
    refine Array.ext_getElem? fun j => ?_
    rw [Array.getElem?_map, Array.getElem?_replicate, ← h.size_columns, ← hsize]
    split
    · next hj => rw [Array.getElem?_eq_getElem hj, Option.map_some]
    · next hj => rw [Array.getElem?_eq_none (Nat.not_lt.mp hj), Option.map_none]
  unfold Editor.reject
  rw [hjournal]
  simp only [hrestores.rollBack]
  show Except.ok _ = Except.ok _
  rw [← hagendas]
  rfl

/-- Rejecting a transaction gives back the chart that the journal leads back to, with nothing
waiting. -/
theorem LeadsBackTo.reject {base : Chart} (h : e.LeadsBackTo base)
    (hsize : e.agendas.size = e.chart.columns.size) :
    e.reject = .ok ⟨base, .replicate base.columns.size .empty, e.budget, none⟩ :=
  RollsBackTo.reject ⟨h.journal, h.size_columns⟩ hsize

/-- A grammar with the same rules finds the same editor sound, since the states of the chart it leads
back to are still there. -/
theorem Sound.regrammar {g' : Grammar} (h : Sound g e) (hsame : SameRules e.chart g g') :
    Sound g' e where
  filed := h.filed.regrammar hsame
  size_agendas := h.size_agendas
  idle := h.idle
  base htransaction := by
    obtain ⟨base, hfiled, hbase⟩ := h.base htransaction
    exact ⟨base, hfiled.regrammar fun id s hs => hsame id s (hbase.spot? hs), hbase⟩

/-- An editor is sound when nothing has been found yet. -/
theorem sound_new (layout : Layout) (input : Input) (budget : Budget) (g : Grammar) :
    Sound g (.new (.new layout input) budget) where
  filed := Chart.filed_new g layout input
  size_agendas := Array.size_replicate
  idle agenda hagenda := (Array.mem_replicate.mp hagenda).2
  base h := absurd h (by simp [inTransaction, new])

/-- Opening a transaction leads back to the chart as it is. -/
theorem Sound.begin (h : Sound g e) (hbegin : e.begin = .ok e') :
    Sound g e' ∧ e'.LeadsBackTo e.chart := by
  unfold Editor.begin at hbegin
  split at hbegin
  · contradiction
  · obtain rfl := Except.ok.inj hbegin
    have hback : LeadsBackTo { e with journal := some (.start e.chart) } e.chart :=
      ⟨⟨[], rfl, .refl e.chart⟩, id, rfl⟩
    exact ⟨⟨h.filed, h.size_agendas, h.idle, fun _ => ⟨e.chart, h.filed, hback⟩⟩, hback⟩

/-- Requesting cancellation leads back as far as before. -/
theorem LeadsBackTo.requestAt {base : Chart} (h : e.LeadsBackTo base) (column : Option Nat) :
    (e.requestAt column).LeadsBackTo base :=
  ⟨h.journal, h.spot?, h.size_columns⟩

/-- Requesting cancellation leaves a sound editor. -/
theorem Sound.requestAt (h : Sound g e) (column : Option Nat) : Sound g (e.requestAt column) where
  filed := h.filed
  size_agendas := h.size_agendas
  idle := h.idle
  base htransaction := by
    obtain ⟨base, hfiled, hbase⟩ := h.base htransaction
    exact ⟨base, hfiled, hbase.requestAt column⟩

/-- Every editor that comes about is sound. -/
theorem Reachable.sound (h : Reachable e g) : Sound g e := by
  induction h with
  | new layout input budget g => exact sound_new layout input budget g
  | regrammar _ hsame ih => exact ih.regrammar hsame
  | request column _ ih => exact ih.requestAt column
  | build _ hok ih => exact (ih.noted_build hok).sound ih
  | insertRule _ hok ih => exact (ih.noted_insertRule hok).sound ih
  | removeRule _ hok ih =>
    obtain ⟨e', hok', hsound⟩ := ih.removeRule _
    obtain rfl := Except.ok.inj (hok'.symm.trans hok)
    exact hsound
  | begin _ hbegin ih => exact (ih.begin hbegin).1
  | accept _ haccept ih => exact (ih.accept haccept).1
  | reject _ hreject ih =>
    obtain ⟨base, hfiled, hbase⟩ := ih.base (inTransaction_of_reject hreject)
    rw [hbase.reject ih.size_agendas] at hreject
    obtain rfl := Except.ok.inj hreject
    exact ⟨hfiled, Array.size_replicate, fun _ h => (Array.mem_replicate.mp h).2,
      fun hopen => absurd hopen (by simp [inTransaction])⟩

/-- An editor whose journal leads back is in a transaction. -/
theorem LeadsBackTo.inTransaction {base : Chart} (h : e.LeadsBackTo base) : e.inTransaction = true := by
  obtain ⟨changes, hjournal, -⟩ := h.journal
  rw [Editor.inTransaction, hjournal, Option.isSome_some]

/-- Edits of a sound editor leave a sound one, and lead back as far as before. -/
theorem Edits.sound {g' : Grammar} {base : Chart} (h : Edits e g e' g') (he : Sound g e)
    (hbase : e.LeadsBackTo base) : Sound g' e' ∧ e'.LeadsBackTo base := by
  induction h with
  | refl => exact ⟨he, hbase⟩
  | regrammar _ hsame ih =>
    obtain ⟨hsound, hback⟩ := ih he
    exact ⟨hsound.regrammar hsame, hback⟩
  | request column _ ih =>
    obtain ⟨hsound, hback⟩ := ih he
    exact ⟨hsound.requestAt column, hback.requestAt column⟩
  | build _ hok ih =>
    obtain ⟨hsound, hback⟩ := ih he
    have hnoted := hsound.noted_build hok
    exact ⟨hnoted.sound hsound, hnoted.leadsBackTo hback⟩
  | insertRule _ hok ih =>
    obtain ⟨hsound, hback⟩ := ih he
    have hnoted := hsound.noted_insertRule hok
    exact ⟨hnoted.sound hsound, hnoted.leadsBackTo hback⟩
  | removeRule _ hok ih =>
    obtain ⟨hsound, hback⟩ := ih he
    obtain ⟨hnoted, heq⟩ := hsound.removeRule_eq _
    rw [heq, hback.inTransaction, if_pos rfl] at hok
    obtain rfl := Except.ok.inj hok
    exact ⟨hnoted.sound hsound, hnoted.leadsBackTo hback⟩

/-- Whatever is done in a transaction, rejecting it gives back the chart as it was when the transaction
was opened; nothing waits, and no transaction is open. -/
theorem reject_of_edits {e₁ e₂ : Editor} {g' : Grammar} (h : Reachable e g)
    (hbegin : e.begin = .ok e₁) (hedits : Edits e₁ g e₂ g') :
    ∃ e₃, e₂.reject = .ok e₃ ∧ e₃.chart = e.chart ∧
      e₃.agendas = .replicate e.chart.columns.size .empty ∧ e₃.inTransaction = false := by
  obtain ⟨hsound, hback⟩ := h.sound.begin hbegin
  obtain ⟨hsound', hback'⟩ := hedits.sound hsound hback
  exact ⟨_, hback'.reject hsound'.size_agendas, rfl, rfl, rfl⟩

open Sample in
/-- Inserting a rule for longer lists is cancelled at the second column, when it has added states. Removing the
rule strikes them, and rejecting drops them. -/
theorem reject_of_edits_lists : ∃ e e₁ e₂ e₃ e₄ : Editor,
    (new blank ample).build singles = .ok (e, none) ∧ e.begin = .ok e₁ ∧
    (e₁.requestAt (some 1)).insertRule lists 2 = .ok (e₂, some .cancelled) ∧
    e.chart.states.size + 1 < e₂.chart.states.size ∧
    e₂.removeRule lists 2 = .ok e₃ ∧ e₃.reject = .ok e₄ ∧ e₄.chart = e.chart := by
  have hrun : ((completed? ((new blank ample).build singles)).bind fun e => e.begin.toOption.bind
      fun e₁ => ((e₁.requestAt (some 1)).insertRule lists 2).toOption.filter fun outcome =>
        outcome.2 = some .cancelled && e.chart.states.size + 1 < outcome.1.chart.states.size).isSome =
          true := by
    decide +kernel
  obtain ⟨⟨e₂, fault⟩, hrun⟩ := Option.isSome_iff_exists.mp hrun
  simp only [Option.bind_eq_some_iff, Option.filter_eq_some_iff, Bool.and_eq_true, decide_eq_true_eq] at hrun
  obtain ⟨e, hbuild, e₁, hbegin, hinsert, hfault, hsize⟩ := hrun
  obtain rfl : fault = some .cancelled := hfault
  have hbuild := ok_of_completed? hbuild
  have hbegin := ok_of_toOption hbegin
  have hinsert := ok_of_toOption hinsert
  have hsingles : Reachable e singles := .build (.new _ _ ample singles) hbuild
  have he : Reachable e lists := .regrammar hsingles (sameRules_insert hsingles.sound.filed longer)
  obtain ⟨e₃, hremove, -⟩ :=
    (Reachable.insertRule (.request (some 1) (.begin he hbegin)) hinsert).sound.removeRule 2
  obtain ⟨e₄, hreject, hchart, -, -⟩ := reject_of_edits he hbegin
    (.removeRule (.insertRule (.request (some 1) (.refl e₁ lists)) hinsert) hremove)
  exact ⟨e, e₁, e₂, e₃, e₄, hbuild, hbegin, hinsert, hsize, hremove, hreject, hchart⟩

end IndexedGrammar.Editor
