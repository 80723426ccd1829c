import IndexedGrammar.Chart.Journal
import IndexedGrammar.Saturation
import IndexedGrammar.Total

/-!
# Taking rules out of charts

When a rule is taken out, every state on it goes, and with a state go the derivations through it
and then the states left without a derivation. A column that loses a state before a nonterminal is
reviewed: categories that nothing there asks for any more are no longer predicted, and the states
begun for them go too. What a review takes out lies at its column or to the right, so columns are
reviewed from the left; a review that changes anything takes a prediction away, which ends the work.

The states stay in the chart, flagged as removed, until it is compacted. A removal notes how to take
back each of its changes.
-/

namespace IndexedGrammar

/-- A removal under way. -/
structure Removal where
  chart : Chart
  /-- The columns still to be reviewed. -/
  review : Std.ExtTreeSet Nat
  /-- How to take back what was changed, the latest change first. -/
  changes : List Undo
  /-- The first breach met. -/
  breach : Option Breach

namespace Chart

/-- The number of states not taken out. -/
def liveCount (c : Chart) : Nat :=
  c.states.toList.countP fun state => !state.removed

/-- Flags a state as taken out. -/
def strike (c : Chart) (id : Nat) : Chart :=
  { c with states := c.states.modify id fun state => { state with removed := true } }

/-- Takes away a state's derivations through another one. -/
def dropLinks (c : Chart) (id through : Nat) : Chart :=
  { c with states := c.states.modify id fun state =>
      { state with derivations := state.derivations.filter fun d => through ∉ d.links } }

/-- How to take back that a state lost its derivations through another one. They are put back from
the first place to the last. -/
def undoDropLinks (id through : Nat) (derivations : List Derivation) : List Undo :=
  (derivations.zipIdx.filter fun (d, _) => through ∈ d.links).map fun (d, place) =>
    .underived id place d

/-- How many categories are predicted, over all columns. -/
def predictionCount (c : Chart) : Nat :=
  total (fun column => column.predicted.size) c.columns.toList

end Chart

namespace Removal

/-- The removal in which nothing has been taken out of a chart. -/
def on (c : Chart) : Removal :=
  ⟨c, ∅, [], none⟩

/-- Notes a breach, unless there was one before. -/
def fail (r : Removal) (breach : Breach) : Removal :=
  { r with breach := r.breach.or (some breach) }

/-- Changes a column. -/
def modifyColumn (r : Removal) (k : Nat) (f : Column → Column) (undo : Undo) : Removal :=
  { r with
    chart := { r.chart with columns := r.chart.columns.modify k f }
    changes := undo :: r.changes }

/-- Forgets the state of an item. -/
def unfileItem (r : Removal) (id : Nat) (state : State) : Removal :=
  let r := if r.chart.find? state.item state.stop = some id then r else r.fail .lookupOutOfSync
  r.modifyColumn state.stop (fun column => { column with lookup := column.lookup.erase state.item })
    (.unfiledItem state.stop state.item id)

/-- Forgets a completed state of a category. -/
def unfileReductor (r : Removal) (origin : Nat) (lhs : Category) (id : Nat) : Removal :=
  match r.chart.columns[origin]?.bind fun column => column.reductors.erase? lhs id with
  | none => r.fail .indexOutOfSync
  | some reductors =>
    r.modifyColumn origin (fun column => { column with reductors := reductors })
      (.unfiledReductor origin lhs ((r.chart.reductors origin lhs).idxOf id) id)

/-- Forgets a state that waits for a category. -/
def unfileExpecting (r : Removal) (stop : Nat) (symbol : Category) (id : Nat) : Removal :=
  match r.chart.columns[stop]?.bind fun column => column.expecting.erase? symbol id with
  | none => r.fail .indexOutOfSync
  | some expecting =>
    r.modifyColumn stop (fun column => { column with expecting := expecting })
      (.unfiledExpecting stop symbol ((r.chart.expecting stop symbol).idxOf id) id)

/-- Forgets a state wherever it is filed. Its column is to be reviewed if it asked for rules. -/
def unfile (g : Grammar) (r : Removal) (id : Nat) (state : State) : Removal :=
  let r := r.unfileItem id state
  match g.ahead state.item.rule state.item.dot with
  | .unknown => r.fail .indexOutOfBounds
  | .complete lhs => r.unfileReductor state.item.origin lhs id
  | .expects symbol =>
    if symbol.isEpsilon then r
    else
      let r := r.unfileExpecting state.stop symbol id
      if g.isNonterminal symbol then { r with review := r.review.insert state.stop } else r

/-! Neither step brings a state back or predicts anything. -/

/-- A change of a column that keeps its predictions keeps their number. -/
theorem predictionCount_modifyColumn (r : Removal) (k : Nat) (f : Column → Column) (undo : Undo)
    (h : ∀ column, (f column).predicted = column.predicted) :
    (r.modifyColumn k f undo).chart.predictionCount = r.chart.predictionCount := by
  simp only [modifyColumn, Chart.predictionCount, Array.toList_modify]
  exact total_modify_eq (fun column : Column => column.predicted.size)
    (fun column => by rw [h column]) k _

/-- Forgetting the state of an item leaves the states alone. -/
theorem states_unfileItem (r : Removal) (id : Nat) (state : State) :
    (r.unfileItem id state).chart.states = r.chart.states := by
  unfold unfileItem
  dsimp only
  split <;> rfl

/-- Forgetting a completed state leaves the states alone. -/
theorem states_unfileReductor (r : Removal) (origin : Nat) (lhs : Category) (id : Nat) :
    (r.unfileReductor origin lhs id).chart.states = r.chart.states := by
  unfold unfileReductor
  split <;> rfl

/-- Forgetting a waiting state leaves the states alone. -/
theorem states_unfileExpecting (r : Removal) (stop : Nat) (symbol : Category) (id : Nat) :
    (r.unfileExpecting stop symbol id).chart.states = r.chart.states := by
  unfold unfileExpecting
  split <;> rfl

/-- Forgetting a state wherever it is filed leaves the states alone. -/
theorem states_unfile (g : Grammar) (r : Removal) (id : Nat) (state : State) :
    (r.unfile g id state).chart.states = r.chart.states := by
  have hitem := states_unfileItem r id state
  unfold unfile
  dsimp only
  split
  · exact hitem
  · exact (states_unfileReductor _ _ _ _).trans hitem
  · split
    · exact hitem
    · split <;> exact (states_unfileExpecting _ _ _ _).trans hitem

/-- Forgetting the state of an item keeps every prediction. -/
theorem predictionCount_unfileItem (r : Removal) (id : Nat) (state : State) :
    (r.unfileItem id state).chart.predictionCount = r.chart.predictionCount := by
  unfold unfileItem
  dsimp only
  split <;> exact predictionCount_modifyColumn _ _ _ _ fun _ => rfl

/-- Forgetting a completed state keeps every prediction. -/
theorem predictionCount_unfileReductor (r : Removal) (origin : Nat) (lhs : Category) (id : Nat) :
    (r.unfileReductor origin lhs id).chart.predictionCount = r.chart.predictionCount := by
  unfold unfileReductor
  split
  · rfl
  · exact predictionCount_modifyColumn _ _ _ _ fun _ => rfl

/-- Forgetting a waiting state keeps every prediction. -/
theorem predictionCount_unfileExpecting (r : Removal) (stop : Nat) (symbol : Category) (id : Nat) :
    (r.unfileExpecting stop symbol id).chart.predictionCount = r.chart.predictionCount := by
  unfold unfileExpecting
  split
  · rfl
  · exact predictionCount_modifyColumn _ _ _ _ fun _ => rfl

/-- Forgetting a state wherever it is filed keeps every prediction. -/
theorem predictionCount_unfile (g : Grammar) (r : Removal) (id : Nat) (state : State) :
    (r.unfile g id state).chart.predictionCount = r.chart.predictionCount := by
  have hitem := predictionCount_unfileItem r id state
  unfold unfile
  dsimp only
  split
  · exact hitem
  · exact (predictionCount_unfileReductor _ _ _ _).trans hitem
  · split
    · exact hitem
    · split <;> exact (predictionCount_unfileExpecting _ _ _ _).trans hitem

end Removal

namespace Chart

/-- A change that keeps the flag of a state keeps the number of live states. -/
theorem countP_modify_eq {states : List State} {f : State → State} (id : Nat)
    (h : ∀ state, (f state).removed = state.removed) :
    ((states.modify id f).countP fun state => !state.removed) =
      states.countP fun state => !state.removed := by
  induction states generalizing id with
  | nil => simp
  | cons state rest ih => cases id <;> simp [List.countP_cons, h, ih]

/-- Flagging a live state leaves fewer live states. -/
theorem countP_strike_lt {states : List State} {id : Nat} {state : State}
    (hstate : states[id]? = some state) (hlive : state.removed = false) :
    ((states.modify id fun state => { state with removed := true }).countP
        fun state => !state.removed) < states.countP fun state => !state.removed := by
  induction states generalizing id with
  | nil => simp at hstate
  | cons first rest ih =>
    cases id with
    | zero =>
      simp only [List.getElem?_cons_zero, Option.some.injEq] at hstate
      subst hstate
      simp [hlive]
    | succ id =>
      have := ih (show rest[id]? = some state by simpa using hstate)
      simp only [List.modify_succ_cons, List.countP_cons]
      omega

/-- Striking a live state leaves fewer live states in the chart. -/
theorem liveCount_strike_lt {c : Chart} {id : Nat} {state : State}
    (hstate : c.states[id]? = some state) (hlive : state.removed = false) :
    (c.strike id).liveCount < c.liveCount := by
  simp only [liveCount, strike, Array.toList_modify]
  exact countP_strike_lt (by simpa using hstate) hlive

/-- Taking derivations away strikes no state. -/
theorem liveCount_dropLinks (c : Chart) (id through : Nat) :
    (c.dropLinks id through).liveCount = c.liveCount := by
  simp only [liveCount, dropLinks, Array.toList_modify]
  exact countP_modify_eq id fun _ => rfl

end Chart

namespace Removal

variable (g : Grammar)

/-- Takes a state's derivations through another one away. -/
def dropLinks (r : Removal) (id through : Nat) (derivations : List Derivation) : Removal :=
  { r with
    chart := r.chart.dropLinks id through
    changes := Chart.undoDropLinks id through derivations ++ r.changes }

/-- Takes the derivations through a state away from its parents. Also gives the parents left
without any, the last one first. -/
def release (r : Removal) (id : Nat) (parents : List Nat) : Removal × List Nat :=
  parents.foldl (fun (r, orphans) parent =>
    match r.chart.states[parent]? with
    | none => (r, orphans)
    | some state =>
      if state.removed then (r, orphans)
      else if state.derivations.all fun d => id ∈ d.links then
        (r.dropLinks parent id state.derivations, parent :: orphans)
      else (r.dropLinks parent id state.derivations, orphans)) (r, [])

/-- What a step keeps, a fold over the parents of a state keeps. -/
theorem release_induction {motive : Removal → Prop} {r : Removal} (id : Nat) (parents : List Nat)
    (hr : motive r)
    (hstep : ∀ r parent derivations, motive r → motive (r.dropLinks parent id derivations)) :
    motive (r.release id parents).1 := by
  unfold release
  suffices h : ∀ orphans : List Nat, motive (parents.foldl (fun (acc : Removal × List Nat) parent =>
      match acc.1.chart.states[parent]? with
      | none => (acc.1, acc.2)
      | some state =>
        if state.removed then (acc.1, acc.2)
        else if state.derivations.all fun d => id ∈ d.links then
          (acc.1.dropLinks parent id state.derivations, parent :: acc.2)
        else (acc.1.dropLinks parent id state.derivations, acc.2)) (r, orphans)).1 from h []
  induction parents generalizing r with
  | nil => exact fun _ => hr
  | cons parent rest ih =>
    intro orphans
    simp only [List.foldl_cons]
    split
    · exact ih hr _
    · split
      · exact ih hr _
      · split
        · exact ih (hstep _ _ _ hr) _
        · exact ih (hstep _ _ _ hr) _

/-- Releasing the parents of a state strikes no state. -/
theorem liveCount_release (r : Removal) (id : Nat) (parents : List Nat) :
    (r.release id parents).1.chart.liveCount = r.chart.liveCount :=
  release_induction (motive := fun s => s.chart.liveCount = r.chart.liveCount) id parents rfl
    fun s parent _ h => (Chart.liveCount_dropLinks s.chart parent id).trans h

/-- Releasing the parents of a state leaves the columns alone. -/
theorem columns_release (r : Removal) (id : Nat) (parents : List Nat) :
    (r.release id parents).1.chart.columns = r.chart.columns :=
  release_induction (motive := fun s => s.chart.columns = r.chart.columns) id parents rfl
    fun _ _ _ h => h

/-- Takes a live state out: it is flagged, forgotten wherever it is filed, and its parents lose
their derivations through it. Also gives the parents left without any. -/
def takeOut (r : Removal) (id : Nat) (state : State) : Removal × List Nat :=
  (unfile g { r with chart := r.chart.strike id, changes := .struck id :: r.changes } id
    state).release id state.parents

/-- Taking a live state out leaves fewer live states. -/
theorem liveCount_takeOut_lt {r : Removal} {id : Nat} {state : State}
    (hstate : r.chart.states[id]? = some state) (hlive : state.removed = false) :
    (r.takeOut g id state).1.chart.liveCount < r.chart.liveCount := by
  rw [takeOut, liveCount_release]
  simp only [Chart.liveCount, states_unfile]
  exact Chart.liveCount_strike_lt hstate hlive

/-- Taking a state out keeps every prediction. -/
theorem predictionCount_takeOut (r : Removal) (id : Nat) (state : State) :
    (r.takeOut g id state).1.chart.predictionCount = r.chart.predictionCount := by
  rw [takeOut, Chart.predictionCount, columns_release]
  exact predictionCount_unfile g _ id state

/-- Takes states out, and after each the states it leaves without a derivation. -/
def sweep (r : Removal) : List Nat → Removal
  | [] => r
  | id :: pending =>
    match _ : r.chart.states[id]? with
    | none => sweep r pending
    | some state =>
      if _ : state.removed then sweep r pending
      else sweep (r.takeOut g id state).1 ((r.takeOut g id state).2 ++ pending)
termination_by pending => (r.chart.liveCount, pending.length)
decreasing_by
  · exact Prod.Lex.right _ (Nat.lt_succ_self _)
  · exact Prod.Lex.right _ (Nat.lt_succ_self _)
  · exact Prod.Lex.left _ _ (liveCount_takeOut_lt g ‹_› (Bool.eq_false_iff.mpr ‹_›))

/-- A sweep keeps every prediction. -/
theorem predictionCount_sweep (r : Removal) (pending : List Nat) :
    (r.sweep g pending).chart.predictionCount = r.chart.predictionCount := by
  fun_induction sweep g r pending with
  | case1 => rfl
  | case2 r id pending _ ih => exact ih
  | case3 r id pending state _ _ ih => exact ih
  | case4 r id pending state _ _ ih => exact ih.trans (predictionCount_takeOut g r id state)

/-- The states at a column that were begun there, with their left-hand sides; those of the synthetic
rule do not count. -/
def begunAt (c : Chart) (k : Nat) (ids : List Nat) : List (Nat × State × Rule) :=
  ids.filterMap fun id => do
    let state ← c.states[id]?
    let rule ← g.rule? state.item.rule
    if state.removed || state.item.origin < k || state.item.rule = Grammar.rootId then none
    else some (id, state, rule)

/-- The nonterminals behind the dots of the states that reach a column from an earlier one. -/
def askedAt (c : Chart) (k : Nat) (ids : List Nat) : List Category :=
  ids.filterMap fun id => do
    let state ← c.states[id]?
    let rule ← g.rule? state.item.rule
    let symbol ← rule.rhs[state.item.dot]?
    if !state.removed && (state.item.origin < k || state.item.rule = Grammar.rootId)
      && g.isNonterminal symbol then some symbol else none

/-- The categories that the states of a column still ask for: behind the dot of a state from an
earlier column, or of a state begun here for a category that is asked for. -/
def wanted (c : Chart) (k : Nat) (ids : List Nat) : CategorySet :=
  let steps := (begunAt g c k ids).filterMap fun (_, state, rule) =>
    match rule.rhs[state.item.dot]? with
    | some symbol => if g.isNonterminal symbol then some (rule.lhs, symbol) else none
    | none => none
  reachable steps (Std.ExtTreeSet.ofList (askedAt g c k ids))

/-- The categories predicted at a column that nothing asks for. -/
def stale (c : Chart) (k : Nat) : List Category :=
  match c.columns[k]? with
  | none => []
  | some column =>
    let wanted := wanted g c k column.states.toList
    column.predicted.toList.filter fun category => !wanted.contains category

/-- Stops predicting a category at a column, and takes out the states begun for it. -/
def unpredict (k : Nat) (begun : List (Nat × State × Rule)) (r : Removal) (category : Category) :
    Removal :=
  let r := r.modifyColumn k (fun column =>
    { column with predicted := column.predicted.erase category }) (.unpredicted k category)
  let predictions := begun.filterMap fun (id, state, rule) =>
    if rule.lhs = category && state.item.dot = 0 then some id else none
  predictions.foldl (fun r id => r.sweep g [id]) r

/-- Whether some state at a column that was not taken out is on a rule the grammar does not have. -/
def lost (c : Chart) (k : Nat) : Bool :=
  match c.columns[k]? with
  | none => false
  | some column => column.states.any fun id =>
    match c.states[id]? with
    | some state => !state.removed && (g.rule? state.item.rule).isNone
    | none => false

/-- Stops predicting what nothing asks for at a column. -/
def reviewColumn (r : Removal) (k : Nat) : Removal :=
  let begun := match r.chart.columns[k]? with
    | some column => begunAt g r.chart k column.states.toList
    | none => []
  (stale g r.chart k).foldl (unpredict g k begun)
    (if lost g r.chart k then r.fail .indexOutOfBounds else r)

/-- Sweeps one after another keep every prediction. -/
theorem predictionCount_foldl_sweep (r : Removal) (ids : List Nat) :
    (ids.foldl (fun r id => r.sweep g [id]) r).chart.predictionCount = r.chart.predictionCount := by
  induction ids generalizing r with
  | nil => rfl
  | cons id rest ih => exact (ih _).trans (predictionCount_sweep g r [id])

/-- Unpredicting a category adds no prediction. -/
theorem predictionCount_unpredict_le (k : Nat) (begun : List (Nat × State × Rule)) (r : Removal)
    (category : Category) :
    (unpredict g k begun r category).chart.predictionCount ≤ r.chart.predictionCount := by
  unfold unpredict
  dsimp only
  rw [predictionCount_foldl_sweep]
  simp only [modifyColumn, Chart.predictionCount, Array.toList_modify]
  exact total_modify_le (fun column : Column => column.predicted.size)
    (fun column => Std.ExtTreeSet.size_erase_le) k _

/-- Unpredicting a predicted category leaves fewer predictions. -/
theorem predictionCount_unpredict_lt {k : Nat} {begun : List (Nat × State × Rule)} {r : Removal}
    {category : Category} {column : Column} (hcolumn : r.chart.columns[k]? = some column)
    (hmem : category ∈ column.predicted) :
    (unpredict g k begun r category).chart.predictionCount < r.chart.predictionCount := by
  unfold unpredict
  dsimp only
  rw [predictionCount_foldl_sweep]
  simp only [modifyColumn, Chart.predictionCount, Array.toList_modify]
  exact total_modify_lt (fun column : Column => column.predicted.size)
    (Array.getElem?_toList ▸ hcolumn) (size_erase_lt hmem)

/-- Unpredicting categories one after another adds no prediction. -/
theorem predictionCount_foldl_unpredict_le (k : Nat) (begun : List (Nat × State × Rule))
    (r : Removal) (categories : List Category) :
    (categories.foldl (unpredict g k begun) r).chart.predictionCount ≤
      r.chart.predictionCount := by
  induction categories generalizing r with
  | nil => exact Nat.le_refl _
  | cons category rest ih =>
    exact Nat.le_trans (ih _) (predictionCount_unpredict_le g k begun r category)

/-- What is stale at a column is predicted there. -/
theorem mem_predicted_of_mem_stale {c : Chart} {k : Nat} {category : Category}
    (h : category ∈ stale g c k) :
    ∃ column, c.columns[k]? = some column ∧ category ∈ column.predicted := by
  unfold stale at h
  split at h
  · simp at h
  · next column hcolumn =>
    exact ⟨column, hcolumn, Std.ExtTreeSet.mem_toList.mp (List.mem_filter.mp h).1⟩

/-- Noting a breach leaves the chart alone. -/
theorem chart_ite_fail (r : Removal) (b : Bool) (breach : Breach) :
    (if b then r.fail breach else r).chart = r.chart := by
  cases b <;> rfl

/-- A review either takes a prediction away or leaves the chart and the columns to be reviewed. -/
theorem reviewColumn_progress (r : Removal) (k : Nat) :
    (r.reviewColumn g k).chart.predictionCount < r.chart.predictionCount ∨
      (r.reviewColumn g k).chart = r.chart ∧ (r.reviewColumn g k).review = r.review := by
  unfold reviewColumn
  cases hstale : stale g r.chart k with
  | nil =>
    right
    dsimp only [List.foldl_nil]
    split <;> exact ⟨rfl, rfl⟩
  | cons category rest =>
    left
    obtain ⟨column, hcolumn, hmem⟩ := mem_predicted_of_mem_stale g
      (hstale ▸ List.mem_cons_self : category ∈ stale g r.chart k)
    refine Nat.lt_of_le_of_lt (predictionCount_foldl_unpredict_le g k _ _ rest) ?_
    refine Nat.lt_of_lt_of_eq
      (predictionCount_unpredict_lt g (by rwa [chart_ite_fail]) hmem) ?_
    rw [chart_ite_fail]

/-- Reviews columns from the left until none is left to be reviewed. -/
def settle (r : Removal) : Removal :=
  match _ : r.review.min? with
  | none => r
  | some k => settle (reviewColumn g { r with review := r.review.erase k } k)
termination_by (r.chart.predictionCount, r.review.size)
decreasing_by
  next hmin =>
  rcases reviewColumn_progress g { r with review := r.review.erase k } k with h | ⟨hchart, hreview⟩
  · exact Prod.Lex.left _ _ h
  · rw [hchart, hreview]
    exact Prod.Lex.right _ (size_erase_lt (Std.ExtTreeSet.min?_mem hmin))

/-- Takes every state on a rule out, and what was found only through them. -/
def removeRule (rule : Nat) (r : Removal) : Removal :=
  ((r.chart.byRule.ids rule).foldl (fun r id => r.sweep g [id]) r).settle g

end Removal

end IndexedGrammar
