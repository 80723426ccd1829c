import IndexedGrammar.Proofs.Chart.Sweep
import IndexedGrammar.Proofs.Chart.Turns

/-!
# Removals end

After the states on a rule were taken out, columns are passed over from the left as long as some are to be reviewed.
A pass may have more columns reviewed, even the one that it is at. It does so only if it takes a state out, and takes
out states only after it took a prediction away, of which there are finitely many. So the number of predictions,
weighed by the number of columns, together with the number of columns to be reviewed falls with each pass. That each
pass ends is part of its definition: a sweep takes out a live state, or has fewer states left to look at.

Together with the runs over charts this shows that whatever is done to an editor ends.
-/

namespace IndexedGrammar

namespace Removal

variable {g : Grammar} {start r out : Removal} {passed : List Nat} {k n : Nat}

/-- Passes over a column, which need not be reviewed any more unless that turns out now. -/
def pass (g : Grammar) (r : Removal) (k : Nat) : Removal :=
  reviewColumn g { r with review := r.review.erase k } k

/-- What passes lead to, with the columns passed over, the latest first. Each pass is over the first of the columns
that are to be reviewed. -/
inductive Passes (g : Grammar) (start : Removal) : List Nat → Removal → Prop
  | start : Passes g start [] start
  | pass {passed : List Nat} {k : Nat} {r : Removal} :
      Passes g start passed r → r.review.min? = some k → Passes g start (k :: passed) (r.pass g k)

/-! What a pass queues -/

/-- From one removal to another one no state came back, and whatever is to be reviewed only now is a column, and a
state was taken out. -/
structure Queues (r out : Removal) : Prop where
  size_columns : out.chart.columns.size = r.chart.columns.size
  liveCount_le : out.chart.liveCount ≤ r.chart.liveCount
  review : ∀ j ∈ out.review, j ∈ r.review ∨ j < r.chart.columns.size ∧ out.chart.liveCount < r.chart.liveCount

/-- A removal queues nothing by itself. -/
theorem Queues.refl (r : Removal) : Queues r r :=
  ⟨rfl, Nat.le_refl _, fun _ => .inl⟩

/-- Taking a live state out queues its column at most. -/
theorem Queues.takeOut (h : Queues start r) (hc : r.chart.Filed g) {id : Nat} {state : State}
    (hstate : r.chart.states[id]? = some state) (hlive : state.removed = false) :
    Queues start (r.takeOut g id state).1 := by
  have htaken := takeOut_spec hc hstate hlive
  have hfewer := Nat.lt_of_lt_of_le (liveCount_takeOut_lt g hstate hlive) h.liveCount_le
  refine ⟨htaken.size_columns.trans h.size_columns, Nat.le_of_lt hfewer, fun j hj => ?_⟩
  rcases (htaken.review j).mp hj with hj | ⟨rfl, -⟩
  · exact (h.review j hj).imp_right fun hqueued => ⟨hqueued.1, hfewer⟩
  · have hs : r.chart.Live id state.spot := ⟨state, hstate, hlive, rfl⟩
    exact .inr ⟨h.size_columns ▸ (hc.bounds hs.spot?).2, hfewer⟩

/-- No longer predicting a category queues nothing. -/
theorem Queues.forget (h : Queues start r) (k : Nat) (category : Category) : Queues start (r.forget k category) :=
  ⟨Array.size_modify.trans h.size_columns, h.liveCount_le, h.review⟩

/-- Taking a live state out keeps a filed chart and what was queued. -/
theorem takeOut_queues (r' : Removal) (id : Nat) (state : State) (h : r'.chart.Filed g ∧ Queues r r')
    (hstate : r'.chart.states[id]? = some state) (hlive : state.removed = false) :
    (r'.takeOut g id state).1.chart.Filed g ∧ Queues r (r'.takeOut g id state).1 :=
  ⟨(takeOut_spec h.1 hstate hlive).filed, h.2.takeOut h.1 hstate hlive⟩

/-- Taking the states on a rule out queues columns. -/
theorem sweepRule_queues (hc : r.chart.Filed g) (rule : Nat) :
    (r.sweepRule g rule).chart.Filed g ∧ Queues r (r.sweepRule g rule) :=
  sweeps_induction takeOut_queues _ ⟨hc, .refl r⟩

/-- Reviewing a column queues columns. -/
theorem reviewColumn_queues (hc : r.chart.Filed g) (k : Nat) :
    (r.reviewColumn g k).chart.Filed g ∧ Queues r (r.reviewColumn g k) := by
  exact reviewColumn_induction takeOut_queues
    (fun _ j category h => ⟨filed_forget h.1 j category, h.2.forget j category⟩) hc k ⟨hc, .refl r⟩

/-! How many passes there are -/

/-- What holds between passes: the chart has as many columns as before and is filed, and only columns are to be
reviewed. -/
structure Passing (g : Grammar) (n : Nat) (r : Removal) : Prop where
  filed : r.chart.Filed g
  size_columns : r.chart.columns.size = n
  review : ∀ j ∈ r.review, j < n

/-- A pass leaves columns to be reviewed. -/
theorem Passing.pass (h : r.Passing g n) (k : Nat) : (r.pass g k).Passing g n := by
  obtain ⟨hfiled, hqueues⟩ := reviewColumn_queues (r := { r with review := r.review.erase k }) h.filed k
  refine ⟨hfiled, hqueues.size_columns.trans h.size_columns, fun j hj => ?_⟩
  rcases hqueues.review j hj with hold | ⟨hj, -⟩
  · exact h.review j (Std.ExtTreeSet.mem_of_mem_erase hold)
  · exact h.size_columns ▸ hj

/-- What holds between passes holds after any number of them. -/
theorem Passes.passing (hstart : start.Passing g n) (h : Passes g start passed r) : r.Passing g n := by
  induction h with
  | start => exact hstart
  | pass _ _ ih => exact ih.pass _

/-- No more columns are to be reviewed than there are. -/
theorem Passing.size_review_le (h : r.Passing g n) : r.review.size ≤ n := by
  have hnodup : r.review.toList.Nodup :=
    (Std.ExtTreeSet.distinct_toList (t := r.review)).imp fun hne heq => hne (Std.compare_eq_iff_eq.mpr heq)
  have hsub : r.review.toList ⊆ List.range n := fun j hj =>
    List.mem_range.mpr (h.review j (Std.ExtTreeSet.mem_toList.mp hj))
  have hlength := (List.subperm_of_subset hnodup hsub).length_le
  rwa [Std.ExtTreeSet.length_toList, List.length_range] at hlength

/-- A pass takes a prediction away, or leaves the chart and the other columns that are to be reviewed alone. -/
theorem pass_progress (r : Removal) (k : Nat) :
    (r.pass g k).chart.predictionCount < r.chart.predictionCount ∨
      (r.pass g k).chart = r.chart ∧ (r.pass g k).review = r.review.erase k :=
  reviewColumn_progress g { r with review := r.review.erase k } k

/-- Passes are paid for by the predictions and the columns to be reviewed that they take away. -/
theorem Passes.length_add_le (hstart : start.Passing g n) (h : Passes g start passed r) :
    passed.length + (r.chart.predictionCount * n + r.review.size) ≤
      start.chart.predictionCount * n + start.review.size := by
  induction h with
  | start => exact Nat.le_of_eq (Nat.zero_add _)
  | @pass passed k r hpasses hmin ih =>
    have hfewer : (r.review.erase k).size < r.review.size := size_erase_lt (Std.ExtTreeSet.min?_mem hmin)
    rw [List.length_cons]
    rcases r.pass_progress (g := g) k with hlt | ⟨hchart, hreview⟩
    · have hsize := ((hpasses.passing hstart).pass k).size_review_le
      -- a prediction pays for as many columns as there are
      have hpaid : (r.pass g k).chart.predictionCount * n + n ≤ r.chart.predictionCount * n := by
        rw [← Nat.succ_mul]
        exact Nat.mul_le_mul_right n hlt
      omega
    · rw [hchart, hreview]
      omega

/-- There are no more passes than columns, but as many again for each prediction. -/
theorem Passes.length_le (hstart : start.Passing g n) (h : Passes g start passed r) :
    passed.length ≤ n * (start.chart.predictionCount + 1) := by
  have hpaid := h.length_add_le hstart
  have hsize := hstart.size_review_le
  rw [Nat.mul_succ, Nat.mul_comm n]
  omega

/-- A pass that has a column reviewed has taken a state out and a prediction away. -/
theorem Passing.fewer_of_queued (h : r.Passing g n) {j : Nat} (hj : j ∈ (r.pass g k).review)
    (hnew : j ∉ r.review.erase k) : (r.pass g k).chart.liveCount < r.chart.liveCount ∧
      (r.pass g k).chart.predictionCount < r.chart.predictionCount := by
  have hqueues := (reviewColumn_queues (r := { r with review := r.review.erase k }) h.filed k).2
  refine ⟨((hqueues.review j hj).resolve_left hnew).2, (r.pass_progress k).resolve_right ?_⟩
  rintro ⟨-, hreview⟩
  exact hnew (hreview ▸ hj)

/-- Passes can be gone on with until no column is to be reviewed, and lead to where settling does. -/
theorem Passes.settle (h : Passes g start passed r) :
    ∃ passed', Passes g start passed' (r.settle g) ∧ (r.settle g).review.min? = none := by
  fun_induction Removal.settle g r generalizing passed with
  | case1 r hnone => exact ⟨passed, h, hnone⟩
  | case2 r k hmin ih => exact ih (h.pass hmin)

end Removal

namespace Editor

variable {g : Grammar} {e : Editor}

open Removal

/-- How taking a rule out of the chart of an editor ends. -/
structure RemovalEnds (g : Grammar) (e : Editor) (rule : Nat) : Prop where
  /-- There are only so many passes over columns. -/
  length_le : ∀ {passed r}, Passes g ((Removal.on e.chart).sweepRule g rule) passed r →
    passed.length ≤ e.chart.columns.size * (e.chart.predictionCount + 1)
  /-- A pass after which a column is to be reviewed that was not, or is once more, has taken a state out and a
  prediction away. -/
  fewer_of_queued : ∀ {passed r k j}, Passes g ((Removal.on e.chart).sweepRule g rule) passed r →
    r.review.min? = some k → j ∈ (r.pass g k).review → j ∉ r.review.erase k →
    (r.pass g k).chart.liveCount < r.chart.liveCount ∧
      (r.pass g k).chart.predictionCount < r.chart.predictionCount
  /-- After the last pass no column is to be reviewed, and the rule is taken out. -/
  ends : ∃ passed r e', Passes g ((Removal.on e.chart).sweepRule g rule) passed r ∧ r.review.min? = none ∧
    e.removeRule g rule = .ok e' ∧
      (e'.chart = r.chart ∨ e.inTransaction = false ∧ e'.chart = r.chart.renumbered)

/-- Taking a rule out of the chart of a reachable editor ends. -/
theorem Reachable.removalEnds (h : Reachable e g) (rule : Nat) : RemovalEnds g e rule := by
  obtain ⟨hfiled, hqueues⟩ := sweepRule_queues (r := Removal.on e.chart) h.sound.filed rule
  have hstart : ((Removal.on e.chart).sweepRule g rule).Passing g e.chart.columns.size := by
    refine ⟨hfiled, hqueues.size_columns, fun j hj => ?_⟩
    exact ((hqueues.review j hj).resolve_left Std.ExtTreeSet.not_mem_empty).1
  have hpredictions : ((Removal.on e.chart).sweepRule g rule).chart.predictionCount = e.chart.predictionCount :=
    predictionCount_foldl_sweep g _ _
  refine ⟨fun hpasses => hpredictions ▸ hpasses.length_le hstart,
    fun hpasses _ => (hpasses.passing hstart).fewer_of_queued, ?_⟩
  have hnothing : Passes g ((Removal.on e.chart).sweepRule g rule) [] _ := .start
  obtain ⟨passed, hpasses, hnone⟩ := hnothing.settle
  obtain ⟨hnoted, hremove⟩ := h.sound.removeRule_eq rule
  cases hopen : e.inTransaction with
  | true =>
    rw [hopen, if_pos rfl] at hremove
    exact ⟨passed, _, _, hpasses, hnone, hremove, .inl rfl⟩
  | false =>
    rw [hopen, if_neg Bool.false_ne_true] at hremove
    obtain ⟨e', hcompact, -, -, hsame⟩ := (hnoted.sound h.sound).compact_eq (hnoted.inTransaction_eq.trans hopen)
    exact ⟨passed, _, e', hpasses, hnone, hremove.trans hcompact, hsame.imp_right fun hsame => ⟨rfl, hsame⟩⟩

/-- Under any indexed grammar, and for any budget, the runs over the chart of a reachable editor end, and so does
taking a rule out of it. -/
theorem Reachable.runs_and_removals_end (hg : g.Indexed) (h : Reachable e g) :
    RunsEnd g e ∧ ∀ rule, RemovalEnds g e rule :=
  ⟨h.runsEnd hg, h.removalEnds⟩

open Sample in
/-- A unit cycle is inserted in a transaction, and taken out again: both end. -/
theorem runs_and_removals_end_looped : ∃ e e₁ e₂ : Editor, (new blank ample).build singles = .ok (e, none) ∧
    e.begin = .ok e₁ ∧ e₁.insertRule (singles.insert looped) 2 = .ok (e₂, none) ∧
    (singles.insert looped).hasUnitCycle = true ∧ (singles.insert looped).Indexed ∧
    Reachable e₁ (singles.insert looped) ∧ Reachable e₂ (singles.insert looped) ∧
    RunsEnd (singles.insert looped) e₁ ∧ ∀ rule, RemovalEnds (singles.insert looped) e₂ rule := by
  have hrun : ((completed? ((new blank ample).build singles)).bind fun e => e.begin.toOption.bind fun e₁ =>
      completed? (e₁.insertRule (singles.insert looped) 2)).isSome = true := by
    decide +kernel
  obtain ⟨e₂, hrun⟩ := Option.isSome_iff_exists.mp hrun
  simp only [Option.bind_eq_some_iff] at hrun
  obtain ⟨e, hbuild, e₁, hbegin, hinsert⟩ := hrun
  have hbuild := ok_of_completed? hbuild
  have hbegin := ok_of_toOption hbegin
  have hinsert := ok_of_completed? hinsert
  have hsingles : Reachable e singles := .build (.new _ _ ample singles) hbuild
  have he₁ : Reachable e₁ (singles.insert looped) :=
    .begin (.regrammar hsingles (sameRules_insert hsingles.sound.filed looped)) hbegin
  have he₂ : Reachable e₂ (singles.insert looped) := .insertRule he₁ hinsert
  have hg : (singles.insert looped).Indexed := (reachable_singles.insert looped).indexed
  obtain ⟨hruns, -⟩ := Reachable.runs_and_removals_end hg he₁
  obtain ⟨-, hremovals⟩ := Reachable.runs_and_removals_end hg he₂
  exact ⟨e, e₁, e₂, hbuild, hbegin, hinsert, by decide +kernel, hg, he₁, he₂, hruns, hremovals⟩

end Editor

end IndexedGrammar
