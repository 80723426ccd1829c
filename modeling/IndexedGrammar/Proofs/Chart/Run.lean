import IndexedGrammar.Proofs.Chart.Agenda
import IndexedGrammar.Proofs.Chart.Growth
import IndexedGrammar.Proofs.Chart.Journal

/-!
# What a run keeps

A run adds states and predicts categories, and nothing else. What it keeps from beginning to end: the
chart stays filed, only live states wait, each at the column it ends at, the columns before the current
one are idle, and the noted changes lead back to the chart at the beginning. A run that met a breach is
of no interest, so all of this is shown for runs without one.
-/

namespace IndexedGrammar

namespace Run

variable {g : Grammar}

/-- A state on the agenda of a column. -/
def Waits (run : Run) (k id : Nat) : Prop :=
  ∃ agenda, run.agendas[k]? = some agenda ∧ id ∈ agenda.toList

/-- How to take back that a state was filed under what stands behind its dot. -/
def undoFile (g : Grammar) (item : Item) (stop : Nat) : List Undo :=
  match g.ahead item.rule item.dot with
  | .unknown => []
  | .complete lhs => [.filedReductor item.origin lhs]
  | .expects symbol => Chart.undoFileExpecting stop symbol

/-- A new state waits once it was put on the agenda of a column. -/
theorem waits_modify {agendas : Array Agenda} {stop k id other : Nat} {f : Agenda → Agenda}
    (hstop : stop < agendas.size) (hf : ∀ agenda : Agenda, (f agenda).toList.Perm (id :: agenda.toList)) :
    (∃ agenda, (agendas.modify stop f)[k]? = some agenda ∧ other ∈ agenda.toList) ↔
      (∃ agenda, agendas[k]? = some agenda ∧ other ∈ agenda.toList) ∨ k = stop ∧ other = id := by
  rw [Array.getElem?_modify]
  by_cases hk : stop = k
  · subst hk
    simp [hstop, (hf _).mem_iff, or_comm]
  · simp [hk, Ne.symm hk]

/-- Entering a state without a breach files it and has it wait. -/
theorem enter_spec {run : Run} {item : Item} {stop id : Nat}
    (hok : (enter g run item stop id).breach = none) :
    run.breach = none ∧ (g.rule? item.rule).isSome ∧
      (enter g run item stop id).chart = run.chart.file g item stop id ∧
      (enter g run item stop id).agendas.size = run.agendas.size ∧
      (enter g run item stop id).changes = undoFile g item stop ++ run.changes ∧
      (stop < run.agendas.size → ∀ {k other}, (enter g run item stop id).Waits k other ↔
        run.Waits k other ∨ k = stop ∧ other = id) := by
  have hknown : g.ahead item.rule item.dot ≠ .unknown → (g.rule? item.rule).isSome := by
    unfold Grammar.ahead
    cases g.rule? item.rule <;> simp
  unfold enter at hok ⊢
  unfold Chart.file undoFile
  cases hahead : g.ahead item.rule item.dot with
  | unknown => simp [hahead, fail] at hok
  | complete lhs =>
    simp only [hahead] at hok ⊢
    refine ⟨hok, hknown (by simp [hahead]), by simp [change], by simp, by simp [change], fun hstop => ?_⟩
    intro k other
    exact waits_modify hstop fun agenda => agenda.perm_pushCompleted item.origin id
  | expects symbol =>
    simp only [hahead] at hok ⊢
    refine ⟨hok, hknown (by simp [hahead]), by simp [change], by simp, by simp [change], fun hstop => ?_⟩
    intro k other
    exact waits_modify hstop fun agenda => agenda.perm_pushActive id

/-- What an addition without a breach does: it packs a derivation, or adds a state that waits. -/
theorem add_spec {run : Run} {item : Item} {stop : Nat} {d : Derivation}
    (hok : (add g run item stop d).breach = none) :
    run.breach = none ∧ (add g run item stop d).agendas.size = run.agendas.size ∧
      ((∃ id, run.chart.find? item stop = some id ∧
        (add g run item stop d).chart = run.chart.pack id d ∧
        (add g run item stop d).changes = run.chart.undoPack id d ++ run.changes ∧
        ∀ {k other}, (add g run item stop d).Waits k other ↔ run.Waits k other) ∨
      run.chart.find? item stop = none ∧ (g.rule? item.rule).isSome ∧
        (add g run item stop d).chart = run.chart.grow g item stop d ∧
        (add g run item stop d).changes =
          undoFile g item stop ++ (Chart.undoRecord item stop d ++ run.changes) ∧
        (stop < run.agendas.size → ∀ {k other}, (add g run item stop d).Waits k other ↔
          run.Waits k other ∨ k = stop ∧ other = run.chart.states.size)) := by
  unfold add at hok ⊢
  dsimp only at hok ⊢
  split at hok
  · next id hfind =>
    exact ⟨hok, rfl, .inl ⟨id, hfind, rfl, rfl, Iff.rfl⟩⟩
  · next hfind =>
    obtain ⟨hbreach, hknown, hchart, hsize, hchanges, hwaits⟩ := enter_spec hok
    exact ⟨hbreach, hsize, .inr ⟨hfind, hknown, hchart, hchanges, hwaits⟩⟩

/-- What a run without a breach keeps while it works at a column: what waits is live and ends where
it waits, the columns before are idle, and the changes lead back to the chart at the beginning. -/
structure Orderly (g : Grammar) (start : Chart) (k : Nat) (run : Run) : Prop where
  filed : run.chart.Filed g
  grows : start.Grows run.chart
  size_agendas : run.agendas.size = run.chart.columns.size
  waiting : ∀ {j id}, run.Waits j id → ∃ s, run.chart.Live id s ∧ s.stop = j
  idle : ∀ {j id}, j < k → ¬run.Waits j id
  restores : run.chart.Restores run.changes start

variable {start : Chart} {k : Nat} {run : Run}

/-- An addition that a chart has room for lets it grow, and is in it afterwards. -/
theorem grows_add (h : run.chart.Filed g) {item : Item} {stop : Nat} {d : Derivation}
    (hok : (add g run item stop d).breach = none) :
    run.chart.Grows (add g run item stop d).chart ∧ (add g run item stop d).chart.Has item stop d := by
  obtain ⟨-, -, ⟨id, hfind, hchart, -⟩ | ⟨-, -, hchart, -⟩⟩ := add_spec hok
  · have hlive := h.find?_iff.mp hfind
    rw [hchart]
    exact ⟨Chart.grows_pack hlive, id, Chart.live_pack.mpr hlive,
      (Chart.derives_pack hlive).mpr (.inr ⟨rfl, rfl⟩)⟩
  · rw [hchart]
    exact ⟨Chart.grows_grow, run.chart.states.size, Chart.live_grow.mpr (.inr ⟨rfl, rfl⟩),
      Chart.derives_grow.mpr (.inr ⟨rfl, rfl⟩)⟩

/-- An addition predicts nothing. -/
theorem isPredicted_add {item : Item} {stop : Nat} {d : Derivation}
    (hok : (add g run item stop d).breach = none) (j : Nat) (symbol : Category) :
    (add g run item stop d).chart.isPredicted j symbol = run.chart.isPredicted j symbol := by
  obtain ⟨-, -, ⟨id, -, hchart, -⟩ | ⟨-, -, hchart, -⟩⟩ := add_spec hok
  · rw [hchart, Chart.isPredicted, Chart.columns_pack, Chart.isPredicted]
  · rw [hchart, Chart.isPredicted_grow]

/-- What is filed after a new state is taken back. -/
theorem restores_file {c : Chart} (h : c.Filed g) {item : Item} {stop : Nat} {d : Derivation}
    (horigin : item.origin < c.columns.size) (hstop : stop < c.columns.size) :
    Chart.Restores (undoFile g item stop) (c.grow g item stop d) (c.record item stop d) := by
  unfold undoFile Chart.grow Chart.file
  cases g.ahead item.rule item.dot with
  | unknown => exact .refl _
  | complete lhs =>
    have hcolumn : (c.record item stop d).columns[item.origin]? = _ :=
      Chart.columns_record item.origin
    rw [Array.getElem?_eq_getElem horigin, Option.map_some] at hcolumn
    refine Chart.restores_fileReductor hcolumn ?_
    have htidy := (h.tidy_columns (Array.getElem?_eq_getElem horigin)).2
    split <;> exact htidy
  | expects symbol =>
    have hcolumn : (c.record item stop d).columns[stop]? = _ := Chart.columns_record stop
    rw [Array.getElem?_eq_getElem hstop, Option.map_some] at hcolumn
    refine Chart.restores_fileExpecting hcolumn ?_
    have htidy := (h.tidy_columns (Array.getElem?_eq_getElem hstop)).1
    split <;> exact htidy

/-- An addition that the chart has room for keeps a run orderly. -/
theorem Orderly.add (h : run.Orderly g start k) {item : Item} {stop : Nat} {d : Derivation}
    (hadmits : run.chart.Admits k item stop d) (hok : (add g run item stop d).breach = none) :
    (add g run item stop d).Orderly g start k := by
  have hlinks : ∀ link ∈ d.links, link < run.chart.states.size := by
    intro link hlink
    obtain ⟨t, ht⟩ := hadmits.linked link hlink
    exact ht.lt_size
  have hgrows := (grows_add h.filed hok).1
  -- either the state is there and gets one more derivation, or it is a new one
  obtain ⟨-, hsize, ⟨id, hfind, hchart, hchanges, hwaits⟩ |
    ⟨hfind, hknown, hchart, hchanges, hwaits⟩⟩ := add_spec hok
  · have hlive := h.filed.find?_iff.mp hfind
    constructor
    · rw [hchart]
      exact h.filed.pack hlive hadmits.linked
    · exact h.grows.trans hgrows
    · rw [hsize, h.size_agendas, hgrows.size_columns]
    · intro j other hother
      obtain ⟨s, hs, hstop⟩ := h.waiting (hwaits.mp hother)
      exact ⟨s, hgrows.live hs, hstop⟩
    · intro j other hj hother
      exact h.idle hj (hwaits.mp hother)
    · rw [hchart, hchanges]
      exact (Chart.restores_pack hlinks).trans h.restores
  · have hwaits {j other : Nat} : (Run.add g run item stop d).Waits j other ↔ _ :=
      hwaits (h.size_agendas ▸ hadmits.stop_lt)
    constructor
    · rw [hchart]
      exact h.filed.grow hfind hadmits.origin_le hadmits.stop_lt hknown hadmits.linked
    · exact h.grows.trans hgrows
    · rw [hsize, h.size_agendas, hgrows.size_columns]
    · intro j other hother
      rcases hwaits.mp hother with hold | ⟨rfl, rfl⟩
      · obtain ⟨s, hs, hstop⟩ := h.waiting hold
        exact ⟨s, hgrows.live hs, hstop⟩
      · rw [hchart]
        exact ⟨_, Chart.live_grow.mpr (.inr ⟨rfl, rfl⟩), rfl⟩
    · intro j other hj hother
      rcases hwaits.mp hother with hold | ⟨rfl, -⟩
      · exact h.idle hj hold
      · exact absurd hj (Nat.not_lt.mpr hadmits.le_stop)
    · rw [hchart, hchanges]
      have horigin := Nat.lt_of_le_of_lt hadmits.origin_le hadmits.stop_lt
      exact (restores_file h.filed horigin hadmits.stop_lt).trans
        ((Chart.restores_record h.filed.tidy_byRule hfind hadmits.stop_lt hlinks).trans h.restores)

/-- Predicting a category that is not predicted keeps a run orderly. -/
theorem Orderly.predict {first : Nat} (h : run.Orderly g start first) {symbol : Category}
    (hk : k < run.chart.columns.size) (hnot : run.chart.isPredicted k symbol = false) :
    (run.change (run.chart.predict k symbol) [.predicted k symbol]).Orderly g start first where
  filed := h.filed.predict k symbol
  grows := h.grows.trans Chart.grows_predict
  size_agendas := h.size_agendas.trans Chart.grows_predict.size_columns.symm
  waiting := h.waiting
  idle := h.idle
  restores := (Chart.restores_predict hk hnot).trans h.restores

end Run

end IndexedGrammar
