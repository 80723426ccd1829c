import IndexedGrammar.Proofs.Chart.Arising
import IndexedGrammar.Proofs.Chart.Parents
import IndexedGrammar.Proofs.Sample
import Mathlib

/-!
# Severed states

However an editor came about, a live state lists every live state as a parent at least as often as that has links to
it. The two numbers agree as long as no removal severs states, that is, takes a derivation through a state that
stays away from another one that stays; a removal that was rejected does not count. Then the lists of parents have
as many entries as the derivations have links, so that a chart stores nothing beside what was derived.

A removal that severs states leaves entries behind which nothing takes away later.
-/

namespace IndexedGrammar

namespace Chart

variable {g : Grammar} {c : Chart}

/-- The chart in which nothing has been found is whole. -/
theorem whole_new (layout : Layout) (input : Input) : (new layout input).Whole := by
  intro id s hs
  simp [spot?, new] at hs

/-- A chart is whole under new numbers. -/
theorem whole_renumbered (c : Chart) : c.renumbered.Whole :=
  fun _ _ => spot?_renumbered.mp

/-- A chart without states that were taken out is whole. -/
theorem whole_of_hasRemoved (h : c.hasRemoved = false) : c.Whole := by
  intro id s hs
  obtain ⟨state, hstate, rfl⟩ := Option.map_eq_some_iff.mp hs
  rw [hasRemoved, Array.any_eq_false'] at h
  exact ⟨state, hstate, by simpa using h state (Array.mem_of_getElem? hstate), rfl⟩

end Chart

/-- Being whole is carried along. -/
theorem Run.carried_whole (g : Grammar) (parts : Category → Prop) :
    Run.Carried g parts fun c => c.Whole where
  add {run item stop d} _ h _ hok := by
    obtain ⟨-, -, ⟨id, -, hchart, -⟩ | ⟨-, -, hchart, -⟩⟩ := Run.add_spec hok
    · intro j s hs
      rw [hchart, Chart.spot?_pack] at hs
      rw [hchart, Chart.live_pack]
      exact h j s hs
    · intro j s hs
      rw [hchart, Chart.spot?_grow] at hs
      rw [hchart, Chart.live_grow]
      split at hs
      · next hnew => exact .inr ⟨hnew, (Option.some.inj hs).symm⟩
      · exact .inl (h j s hs)
  of_states {c later} h hstates _ := by
    intro id s hs
    rw [Chart.spot?, hstates] at hs
    have hlive := h id s hs
    rwa [Chart.Live, hstates]

namespace Editor

/-- Whether taking a rule out of the chart severs states. -/
def Severs (g : Grammar) (rule : Nat) (e : Editor) : Prop :=
  e.chart.Severs ((Removal.on e.chart).removeRule g rule).chart

/-- How an editor came about, and whether states were severed on the way: in the chart as it is, and, if a
transaction is open, in the chart as it was when it was opened. -/
inductive History : Prop → Prop → Editor → Grammar → Prop
  | new (layout : Layout) (input : Input) (budget : Budget) (g : Grammar) :
      History False False (.new (.new layout input) budget) g
  | regrammar {severed before : Prop} {e : Editor} {g g' : Grammar} :
      History severed before e g → SameRules e.chart g g' → History severed before e g'
  | request {severed before : Prop} {e : Editor} {g : Grammar} (column : Option Nat) :
      History severed before e g → History severed before (e.requestAt column) g
  | build {severed before : Prop} {e e' : Editor} {g : Grammar} {fault : Option Fault} :
      History severed before e g → e.build g = .ok (e', fault) → History severed before e' g
  | insertRule {severed before : Prop} {e e' : Editor} {g : Grammar} {rule : Nat} {fault : Option Fault} :
      History severed before e g → e.insertRule g rule = .ok (e', fault) → History severed before e' g
  | removeRule {severed before : Prop} {e e' : Editor} {g : Grammar} {rule : Nat} :
      History severed before e g → e.removeRule g rule = .ok e' →
      History (severed ∨ e.Severs g rule) before e' g
  | begin {severed before : Prop} {e e' : Editor} {g : Grammar} :
      History severed before e g → e.begin = .ok e' → History severed severed e' g
  | accept {severed before : Prop} {e e' : Editor} {g : Grammar} :
      History severed before e g → e.accept = .ok e' → History severed before e' g
  | reject {severed before : Prop} {e e' : Editor} {g : Grammar} :
      History severed before e g → e.reject = .ok e' → History before before e' g

variable {severed before : Prop} {g : Grammar} {e e' : Editor}

/-- Every editor that comes about has a history. -/
theorem reachable_iff_history : Reachable e g ↔ ∃ severed before, History severed before e g := by
  constructor
  · intro h
    induction h with
    | new layout input budget g => exact ⟨_, _, .new layout input budget g⟩
    | regrammar _ hsame ih =>
      obtain ⟨_, _, ih⟩ := ih
      exact ⟨_, _, .regrammar ih hsame⟩
    | request column _ ih =>
      obtain ⟨_, _, ih⟩ := ih
      exact ⟨_, _, .request column ih⟩
    | build _ hok ih =>
      obtain ⟨_, _, ih⟩ := ih
      exact ⟨_, _, .build ih hok⟩
    | insertRule _ hok ih =>
      obtain ⟨_, _, ih⟩ := ih
      exact ⟨_, _, .insertRule ih hok⟩
    | removeRule _ hok ih =>
      obtain ⟨_, _, ih⟩ := ih
      exact ⟨_, _, .removeRule ih hok⟩
    | begin _ hok ih =>
      obtain ⟨_, _, ih⟩ := ih
      exact ⟨_, _, .begin ih hok⟩
    | accept _ hok ih =>
      obtain ⟨_, _, ih⟩ := ih
      exact ⟨_, _, .accept ih hok⟩
    | reject _ hok ih =>
      obtain ⟨_, _, ih⟩ := ih
      exact ⟨_, _, .reject ih hok⟩
  · rintro ⟨_, _, h⟩
    induction h with
    | new layout input budget g => exact .new layout input budget g
    | regrammar _ hsame ih => exact .regrammar ih hsame
    | request column _ ih => exact .request column ih
    | build _ hok ih => exact .build ih hok
    | insertRule _ hok ih => exact .insertRule ih hok
    | removeRule _ hok ih => exact .removeRule ih hok
    | begin _ hok ih => exact .begin ih hok
    | accept _ hok ih => exact .accept ih hok
    | reject _ hok ih => exact .reject ih hok

/-- The chart of an editor is booked, and whole outside of a transaction. So is the chart to which the journal
leads back. -/
structure Balanced (severed before : Prop) (e : Editor) : Prop where
  booked : e.chart.Booked severed
  whole : e.inTransaction = false → e.chart.Whole
  base : e.inTransaction = true → ∃ base : Chart, base.Booked before ∧ base.Whole ∧ e.LeadsBackTo base

/-- A balanced editor stays so by what the journal notes, if the new chart is booked and whole. -/
theorem Balanced.noted {severed' : Prop} (h : Balanced severed before e) (hnoted : Noted g e e')
    (hbooked : e'.chart.Booked severed') (hwhole : e.inTransaction = false → e'.chart.Whole) :
    Balanced severed' before e' where
  booked := hbooked
  whole hclosed := hwhole (hnoted.inTransaction_eq ▸ hclosed)
  base hopen := by
    obtain ⟨base, hbase, hwhole, hback⟩ := h.base (hnoted.inTransaction_eq ▸ hopen)
    exact ⟨base, hbase, hwhole, hnoted.leadsBackTo hback⟩

/-- An editor outside of a transaction is balanced if its chart is booked and whole. -/
theorem balanced_of_closed (hbooked : e.chart.Booked severed) (hwhole : e.chart.Whole)
    (hclosed : e.inTransaction = false) : Balanced severed before e :=
  ⟨hbooked, fun _ => hwhole, fun hopen => absurd (hclosed.symm.trans hopen) (by simp)⟩

/-- Compacting leaves a whole chart. -/
theorem Sound.whole_compact (h : Sound g e) (hok : e.compact = .ok e') : e'.chart.Whole := by
  unfold Editor.compact at hok
  split at hok
  · rw [h.filed.compact] at hok
    obtain rfl := Except.ok.inj hok
    exact Chart.whole_renumbered e.chart
  · next hremoved =>
    obtain rfl := Except.ok.inj hok
    exact Chart.whole_of_hasRemoved (Bool.eq_false_iff.mpr hremoved)

/-- Compacting an editor outside of a transaction leaves a balanced one if its chart is booked. -/
theorem Sound.balanced_compact (h : Sound g e) (hbooked : e.chart.Booked severed)
    (hclosed : e.inTransaction = false) (hok : e.compact = .ok e') : Balanced severed before e' := by
  have hwhole := h.whole_compact hok
  obtain ⟨compacted, hcompact, -, hended, hsame⟩ := h.compact_eq hclosed
  obtain rfl := Except.ok.inj (hcompact.symm.trans hok)
  refine balanced_of_closed ?_ hwhole hended
  rcases hsame with hsame | hsame
  · exact hsame ▸ hbooked
  · exact hsame ▸ hbooked.renumbered

/-- A build leaves a balanced editor. -/
theorem Balanced.build (h : Balanced severed before e) (hsound : Sound g e) {fault : Option Fault}
    (hok : e.build g = .ok (e', fault)) : Balanced severed before e' := by
  have hparts : g.PartsWithin fun _ => True := fun _ _ => trivial
  exact h.noted (hsound.noted_build hok)
    (hsound.upheld_build ((Run.carried_booked g _ severed).upheld hparts) h.booked hok)
    fun hclosed => hsound.upheld_build ((Run.carried_whole g _).upheld hparts) (h.whole hclosed) hok

/-- An insertion leaves a balanced editor. -/
theorem Balanced.insertRule (h : Balanced severed before e) (hsound : Sound g e) {rule : Nat}
    {fault : Option Fault} (hok : e.insertRule g rule = .ok (e', fault)) : Balanced severed before e' := by
  have hparts : g.PartsWithin fun _ => True := fun _ _ => trivial
  have hbooked := Run.carried_booked g (fun _ => True) severed
  have hwhole := Run.carried_whole g fun _ => True
  exact h.noted (hsound.noted_insertRule hok)
    (hsound.upheld_insertRule (hbooked.upheld hparts) h.booked hbooked.beginRule hok)
    fun hclosed => hsound.upheld_insertRule (hwhole.upheld hparts) (h.whole hclosed) hwhole.beginRule hok

/-- A removal leaves a balanced editor, in which states may have been severed. -/
theorem Balanced.removeRule (h : Balanced severed before e) (hsound : Sound g e) {rule : Nat}
    (hok : e.removeRule g rule = .ok e') : Balanced (severed ∨ e.Severs g rule) before e' := by
  obtain ⟨hnoted, heq⟩ := hsound.removeRule_eq rule
  have hbooked := h.booked.sheds (Removal.sheds_removeRule (g := g) (Removal.on e.chart) rule)
  rw [heq] at hok
  split at hok
  · next hopen =>
    obtain rfl := Except.ok.inj hok
    exact h.noted hnoted hbooked fun hclosed => absurd (hclosed.symm.trans hopen) (by simp)
  · next hclosed =>
    exact (hnoted.sound hsound).balanced_compact hbooked
      (hnoted.inTransaction_eq.trans (Bool.eq_false_iff.mpr hclosed)) hok

/-- Every editor with a history is balanced. -/
theorem History.balanced (h : History severed before e g) : Balanced severed before e := by
  induction h with
  | new layout input budget g =>
    exact balanced_of_closed (Chart.booked_new layout input) (Chart.whole_new layout input) rfl
  | regrammar _ _ ih => exact ih
  | request column _ ih =>
    refine ⟨ih.booked, ih.whole, fun hopen => ?_⟩
    obtain ⟨base, hbooked, hwhole, hback⟩ := ih.base hopen
    exact ⟨base, hbooked, hwhole, hback.requestAt column⟩
  | build h hok ih => exact ih.build (reachable_iff_history.mpr ⟨_, _, h⟩).sound hok
  | insertRule h hok ih => exact ih.insertRule (reachable_iff_history.mpr ⟨_, _, h⟩).sound hok
  | removeRule h hok ih => exact ih.removeRule (reachable_iff_history.mpr ⟨_, _, h⟩).sound hok
  | begin h hok ih =>
    have hback := ((reachable_iff_history.mpr ⟨_, _, h⟩).sound.begin hok).2
    unfold Editor.begin at hok
    split at hok
    · contradiction
    · next hclosed =>
      obtain rfl := Except.ok.inj hok
      have hwhole := ih.whole (Bool.eq_false_iff.mpr hclosed)
      exact ⟨ih.booked, fun hended => by contradiction, fun _ => ⟨_, ih.booked, hwhole, hback⟩⟩
  | accept h hok ih =>
    rw [accept_eq_compact (inTransaction_of_accept hok)] at hok
    exact (reachable_iff_history.mpr ⟨_, _, h⟩).sound.closed.balanced_compact ih.booked rfl hok
  | reject h hok ih =>
    -- the chart that the transaction began with is back, whatever was severed since
    obtain ⟨base, hbooked, hwhole, hback⟩ := ih.base (inTransaction_of_reject hok)
    rw [hback.reject (reachable_iff_history.mpr ⟨_, _, h⟩).sound.size_agendas] at hok
    obtain rfl := Except.ok.inj hok
    exact balanced_of_closed hbooked hwhole rfl

/-- However an editor came about, each live state lists each live state as a parent at least as often as that has
links to it, and exactly as often if no removal severed states but for those that were rejected. Then, outside of
a transaction, there are as many entries as links altogether. -/
theorem History.parentCount_eq_linkCount (h : History severed before e g) :
    (∀ x p, e.chart.IsLive x → e.chart.IsLive p → e.chart.linkCount p x ≤ e.chart.parentCount x p) ∧
      (¬severed → (∀ x p, e.chart.IsLive x → e.chart.IsLive p →
        e.chart.parentCount x p = e.chart.linkCount p x) ∧
        (e.inTransaction = false → e.chart.parentTotal = e.chart.linkTotal)) := by
  have hbalanced := h.balanced
  have hfiled := (reachable_iff_history.mpr ⟨_, _, h⟩).sound.filed
  refine ⟨fun x p hx hp => (hbalanced.booked.compares hx hp).le, fun hnot => ⟨fun x p hx hp => ?_, ?_⟩⟩
  · exact ((hbalanced.booked.compares hx hp).eq hnot).symm
  · exact fun hclosed => hbalanced.booked.total_eq hnot hfiled (hbalanced.whole hclosed)

open Sample in
/-- In a chart of two words the rule for pairs packs further derivations into states that stay when it is removed
again. Rejecting both changes leaves as many entries as links. -/
theorem parentCount_eq_linkCount_rejected : ∃ (e e₁ e₂ e₃ e₄ : Editor) (g : Grammar),
    (new blank ample).build lists = .ok (e, none) ∧ e.begin = .ok e₁ ∧
    e₁.insertRule (lists.insert pair) 3 = .ok (e₂, none) ∧ (lists.insert pair).remove? 3 = some g ∧
    e₂.removeRule g 3 = .ok e₃ ∧ e₃.reject = .ok e₄ ∧ e₄.chart.IsLive 0 ∧ e₄.chart.IsLive 7 ∧
    e₄.chart.parentCount 0 7 = e₄.chart.linkCount 7 0 ∧ e₄.chart.parentTotal = e₄.chart.linkTotal := by
  have hrun : ((completed? ((new blank ample).build lists)).bind fun e => e.begin.toOption.bind fun e₁ =>
      (completed? (e₁.insertRule (lists.insert pair) 3)).bind fun _ =>
        ((lists.insert pair).remove? 3).filter fun _ => e.chart.IsLive 0 && e.chart.IsLive 7).isSome = true := by
    decide +kernel
  obtain ⟨g, hrun⟩ := Option.isSome_iff_exists.mp hrun
  simp only [Option.bind_eq_some_iff, Option.filter_eq_some_iff, Bool.and_eq_true, decide_eq_true_eq] at hrun
  obtain ⟨e, hbuild, e₁, hbegin, e₂, hinsert, hremove, hx, hp⟩ := hrun
  have hbuild := ok_of_completed? hbuild
  have hbegin := ok_of_toOption hbegin
  have hinsert := ok_of_completed? hinsert
  have he : History False False e lists := .build (.new _ _ ample lists) hbuild
  have he₁ : History False False e₁ (lists.insert pair) := .regrammar (.begin he hbegin)
    (sameRules_insert (reachable_iff_history.mpr ⟨_, _, .begin he hbegin⟩).sound.filed pair)
  have he₂ : History False False e₂ g := .regrammar (.insertRule he₁ hinsert) (sameRules_remove hremove)
  obtain ⟨e₃, htaken, -⟩ := (reachable_iff_history.mpr ⟨_, _, he₂⟩).sound.removeRule 3
  obtain ⟨e₄, hreject, hchart, -, hclosed⟩ := reject_of_edits (reachable_iff_history.mpr ⟨_, _, he⟩) hbegin
    (.removeRule (.regrammar (.insertRule (.regrammar (.refl e₁ lists)
      (sameRules_insert (reachable_iff_history.mpr ⟨_, _, .begin he hbegin⟩).sound.filed pair)) hinsert)
      (sameRules_remove hremove)) htaken)
  have he₄ : History False False e₄ g := .reject (.removeRule he₂ htaken) hreject
  obtain ⟨hcounts, htotals⟩ := he₄.parentCount_eq_linkCount.2 not_false
  rw [← hchart] at hx hp
  exact ⟨e, e₁, e₂, e₃, e₄, g, hbuild, hbegin, hinsert, hremove, htaken, hreject, hx, hp, hcounts 0 7 hx hp,
    htotals hclosed⟩

/-- A removal for which no column has to be reviewed takes out what a sweep does. -/
theorem removeRule_of_isEmpty {rule : Nat}
    (hreview : ((Removal.on e.chart).sweepRule g rule).review.isEmpty = true)
    (hbreach : ((Removal.on e.chart).sweepRule g rule).breach = none) :
    e.removeRule g rule =
      let swept : Editor := { e with
        chart := ((Removal.on e.chart).sweepRule g rule).chart
        journal := e.journal.map fun journal =>
          journal.record ((Removal.on e.chart).sweepRule g rule).changes }
      if swept.inTransaction then .ok swept else swept.compact := by
  simp only [removeRule, Removal.removeRule_of_isEmpty hreview, hbreach]

open Sample in
/-- If a rule for longer backs is kept before it is removed again, the state behind the first front still lists the
whole sentence as a parent, which has no derivation through it any more. The chart has as many states as before
but stores more. -/
theorem exists_parent_without_link : ∃ (e e₁ e₂ e₃ e₄ : Editor) (g : Grammar),
    (new three ample).build halves = .ok (e, none) ∧ e.begin = .ok e₁ ∧
    e₁.insertRule (halves.insert longBack) 5 = .ok (e₂, none) ∧ e₂.accept = .ok e₃ ∧
    (halves.insert longBack).remove? 5 = some g ∧ e₃.removeRule g 5 = .ok e₄ ∧ e₄.inTransaction = false ∧
    e₄.chart.IsLive 6 ∧ e₄.chart.IsLive 15 ∧ e₄.chart.linkCount 15 6 = 0 ∧ e₄.chart.parentCount 6 15 = 1 ∧
    e₄.chart.states.size = e.chart.states.size ∧ e.chart.parentTotal < e₄.chart.parentTotal := by
  have hrun : ((completed? ((new three ample).build halves)).bind fun e => e.begin.toOption.bind fun e₁ =>
      (completed? (e₁.insertRule (halves.insert longBack) 5)).bind fun e₂ => e₂.accept.toOption.bind fun e₃ =>
        ((halves.insert longBack).remove? 5).bind fun g =>
          (some ((Removal.on e₃.chart).sweepRule g 5)).bind fun swept =>
            ({ e₃ with chart := swept.chart } : Editor).compact.toOption.filter fun e₄ =>
              swept.review.isEmpty && (swept.breach.isNone && (e₃.journal.isNone && (!e₄.inTransaction &&
                (e₄.chart.IsLive 6 && (e₄.chart.IsLive 15 && (e₄.chart.linkCount 15 6 = 0 &&
                  (e₄.chart.parentCount 6 15 = 1 && (e₄.chart.states.size = e.chart.states.size &&
                    decide (e.chart.parentTotal < e₄.chart.parentTotal)))))))))).isSome = true := by
    -- the sweep is not structural, so the kernel alone does not get through it
    cbv
  obtain ⟨e₄, hrun⟩ := Option.isSome_iff_exists.mp hrun
  simp only [Option.bind_eq_some_iff, Option.filter_eq_some_iff, Bool.and_eq_true, decide_eq_true_eq,
    Bool.not_eq_true', Option.isNone_iff_eq_none] at hrun
  obtain ⟨e, hbuild, e₁, hbegin, e₂, hinsert, e₃, haccept, g, hremove, swept, hswept, hcompact, hreview,
    hbreach, hjournal, hstale⟩ := hrun
  have htaken : e₃.removeRule g 5 = .ok e₄ := by
    obtain rfl := Option.some.inj hswept
    rw [removeRule_of_isEmpty hreview hbreach]
    simp only [hjournal, inTransaction, Option.map_none, Option.isSome_none, Bool.false_eq_true, if_false]
    rw [← ok_of_toOption hcompact, ← hjournal]
  exact ⟨e, e₁, e₂, e₃, e₄, g, ok_of_completed? hbuild, ok_of_toOption hbegin, ok_of_completed? hinsert,
    ok_of_toOption haccept, hremove, htaken, hstale⟩

end Editor

end IndexedGrammar
