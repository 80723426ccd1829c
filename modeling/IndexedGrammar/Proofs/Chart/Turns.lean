import IndexedGrammar.Proofs.Chart.Once
import IndexedGrammar.Proofs.Chart.Spots
import IndexedGrammar.Proofs.Chart.Work

/-!
# Runs end

A build and an insertion work off columns from the left, and at each column as long as something waits there.
Neither the number of states nor the limit on work is needed for this to end. What waits was added by the run,
and each state is taken off an agenda at most once; so no more is ever taken off than there are places for the
dots of the rules in use. Nothing waits to the left of the current column, so columns once left stay as they are.

The turns of a run are stated here without any bound on their number. The run that works them off under a limit
takes the same turns, to the end of the last column, or until it is cancelled, or until the work that it counts at
a column exceeds the limit.
-/

namespace IndexedGrammar

namespace Run

variable {g : Grammar} {start run : Run} {before : Chart} {rules popped : List Nat} {first k : Nat}

/-- Takes a state off the agenda of a column, which leaves `rest` there. It is processed unless it was taken out of
the chart. -/
def serve (g : Grammar) (run : Run) (k id : Nat) (rest : Agenda) : Run :=
  let left := { run with agendas := run.agendas.setIfInBounds k rest }
  if left.isRemoved id then left else process g { left with work := left.work + 1 } k id

/-- What the turns of a run lead to, with the states taken off agendas, the latest first, and the current column.
Each turn takes the next state off the agenda of the current column, or goes on to the next column once nothing
waits. -/
inductive Turns (g : Grammar) (start : Run) (first : Nat) : List Nat → Nat → Run → Prop
  | start : Turns g start first [] first { start with work := 0 }
  | serve {popped : List Nat} {k id : Nat} {run : Run} {agenda rest : Agenda} :
      Turns g start first popped k run → run.agendas[k]? = some agenda → agenda.pop? = some (id, rest) →
      Turns g start first (id :: popped) k (run.serve g k id rest)
  | move {popped : List Nat} {k : Nat} {run : Run} :
      Turns g start first popped k run → k < run.chart.columns.size →
      (∀ agenda, run.agendas[k]? = some agenda → agenda.pop? = none) →
      Turns g start first popped (k + 1) { run with work := 0 }

/-- How a run ends: all columns are worked off, the run was found cancelled at a column, or more work was counted at
one than the limit. -/
inductive Ending (budget : Budget) (k : Nat) (run : Run) : Option Fault → Prop
  | finished : run.chart.columns.size ≤ k → Ending budget k run none
  | cancelled : budget.isCancelledAt k = true → Ending budget k run (some .cancelled)
  | unbounded : budget.limit < run.work → Ending budget k run (some (.unbounded k budget.limit))

/-! What every turn keeps -/

/-- What holds between the turns of a run over a chart: no breach was met, what waits does so at the current column
or to its right and was not served before, and the live states are on the rules. -/
structure Steady (g : Grammar) (before : Chart) (rules : List Nat) (k : Nat) (popped : List Nat) (run : Run) :
    Prop where
  unbroken : run.Unbroken g
  orderly : run.Orderly g before k
  le_columns : k ≤ before.columns.size
  single : run.Single before.states.size popped
  placed : run.chart.Placed g rules

/-- How much work was counted plays no part. -/
theorem Steady.recount (h : run.Steady g before rules k popped) (work : Nat) :
    ({ run with work := work } : Run).Steady g before rules k popped where
  unbroken := ⟨h.unbroken.breach, h.unbroken.known⟩
  orderly := (worked_orderly g before).work work h.orderly
  le_columns := h.le_columns
  single := ⟨h.single.nodup_waiting, h.single.nodup_done, h.single.live, h.single.not_waits, h.single.added,
    h.single.others_le⟩
  placed := h.placed

/-- Where nothing waits, nothing can be taken off the agenda. -/
theorem pop?_of_idle (hidle : ∀ id, ¬run.Waits k id) {agenda : Agenda} (hagenda : run.agendas[k]? = some agenda) :
    agenda.pop? = none := by
  cases hpop : agenda.pop? with
  | none => rfl
  | some popped =>
    obtain ⟨id, rest⟩ := popped
    exact absurd ⟨agenda, hagenda, (Agenda.mem_toList_of_pop? hpop).mpr (.inl rfl)⟩ (hidle id)

/-- Nothing waits on an agenda off which nothing can be taken. -/
theorem idle_of_pop? (hpop : ∀ agenda, run.agendas[k]? = some agenda → agenda.pop? = none) (id : Nat) :
    ¬run.Waits k id := by
  rintro ⟨agenda, hagenda, hid⟩
  rw [Agenda.toList_of_pop?_none (hpop agenda hagenda)] at hid
  exact List.not_mem_nil hid

/-- Going on to the next column keeps a run steady. -/
theorem Steady.move (h : run.Steady g before rules k popped) (hk : k < run.chart.columns.size)
    (hpop : ∀ agenda, run.agendas[k]? = some agenda → agenda.pop? = none) :
    run.Steady g before rules (k + 1) popped :=
  { h with
    orderly := (worked_orderly g before).idle h.orderly (idle_of_pop? hpop)
    le_columns := h.orderly.grows.size_columns ▸ hk }

/-- A state that is live when it is taken off an agenda is processed. -/
theorem serve_of_live {id : Nat} {s : Spot} (hs : run.chart.Live id s) (k : Nat) (rest : Agenda) :
    run.serve g k id rest = process g
      { run with agendas := run.agendas.setIfInBounds k rest, work := run.work + 1 } k id := by
  obtain ⟨state, hstate, hremoved, -⟩ := hs
  simp [serve, isRemoved, hstate, hremoved]

/-- Serving the next state of the current column keeps a run steady. -/
theorem Steady.serve (hg : g.Indexed) (hrules : ∀ rule, g.isLive rule = true → rule ∈ rules)
    (h : run.Steady g before rules k popped) {agenda rest : Agenda} {id : Nat}
    (hagenda : run.agendas[k]? = some agenda) (hpop : agenda.pop? = some (id, rest)) :
    (run.serve g k id rest).Steady g before rules k (id :: popped) := by
  have hperm : agenda.toList.Perm (id :: rest.toList) := List.Perm.of_eq (Agenda.toList_of_pop? hpop)
  obtain ⟨s, hs, hstop⟩ := h.orderly.waiting ⟨agenda, hagenda, hperm.mem_iff.mpr List.mem_cons_self⟩
  have hk : k < run.chart.columns.size := hstop ▸ (h.orderly.filed.bounds hs.spot?).2
  rw [serve_of_live hs]
  have hleft : ({ run with agendas := run.agendas.setIfInBounds k rest, work := run.work + 1 } : Run).Unbroken g :=
    ⟨h.unbroken.breach, h.unbroken.known⟩
  have hunbroken := hleft.process hg k id
  have horderly := h.orderly.leave (run.work + 1) hagenda fun other hother =>
    hperm.mem_iff.mpr (List.mem_cons_of_mem id hother)
  obtain ⟨⟨⟨⟨hserved, -⟩, hsingle⟩, hplaced⟩, -⟩ := process_spec
    ((upheld_placed hg hrules).beside (kept_single g before before.states.size (id :: popped) (Nat.le_refl k)))
    ⟨⟨⟨horderly, hk⟩, h.single.leave h.orderly (run.work + 1) hagenda hperm⟩, h.placed⟩ hs hstop hunbroken.breach
  exact ⟨hunbroken, hserved, h.le_columns, hsingle, hplaced⟩

/-- Beginning a rule in use at a column, not to the left of the current one, keeps a run steady. -/
theorem Steady.begin (hrules : ∀ rule, g.isLive rule = true → rule ∈ rules)
    (h : run.Steady g before rules k popped) {rule : Nat} {r : Rule} (hr : g.HasRule rule r) {j : Nat}
    (hle : k ≤ j) (hj : j < before.columns.size) :
    (add g run ⟨rule, 0, j⟩ j .predicted).Steady g before rules k popped := by
  have hrule : (g.rule? (Item.mk rule 0 j).rule).isSome = true := Option.isSome_iff_exists.mpr ⟨r, hr.rule?⟩
  have hunbroken := h.unbroken.add hrule j .predicted
  have hcolumns : j < run.chart.columns.size := h.orderly.grows.size_columns ▸ hj
  exact {
    unbroken := hunbroken
    orderly := h.orderly.add (admits_begun hcolumns hle) hunbroken.breach
    le_columns := h.le_columns
    single := h.single.add h.orderly hcolumns hunbroken.breach
    placed := placed_begin hrules h.orderly.filed h.placed hr hunbroken.breach }

/-- Beginning a rule in use at columns, none of them to the left of the current one, keeps a run steady. -/
theorem Steady.beginRule (hrules : ∀ rule, g.isLive rule = true → rule ∈ rules)
    (h : run.Steady g before rules k popped) {rule : Nat} {r : Rule} (hr : g.HasRule rule r) {begun : List Nat}
    (hbegun : ∀ j ∈ begun, k ≤ j ∧ j < before.columns.size) :
    (run.beginRule g rule begun).Steady g before rules k popped := by
  induction begun generalizing run with
  | nil => exact h
  | cons j rest ih =>
    obtain ⟨hle, hj⟩ := hbegun j List.mem_cons_self
    exact ih (h.begin hrules hr hle hj) fun other hother => hbegun other (List.mem_cons_of_mem j hother)

/-- A steady run that takes turns stays steady. -/
theorem Turns.steady (hg : g.Indexed) (hrules : ∀ rule, g.isLive rule = true → rule ∈ rules)
    (hstart : start.Steady g before rules first []) (h : Turns g start first popped k run) :
    run.Steady g before rules k popped := by
  induction h with
  | start => exact hstart.recount 0
  | serve _ hagenda hpop ih => exact ih.serve hg hrules hagenda hpop
  | move _ hk hpop ih => exact (ih.move hk hpop).recount 0

/-- A state is taken off an agenda for each place of a dot at most. -/
theorem Steady.length_le (h : run.Steady g before rules k popped) :
    popped.length ≤ (g.spots rules before.layout.last).length := by
  have hspots : ∀ id ∈ popped, run.chart.spot? id ∈ (g.spots rules before.layout.last).map some := by
    intro id hid
    obtain ⟨s, hs⟩ := h.single.live hid
    rw [hs.spot?]
    exact List.mem_map_of_mem (h.orderly.grows.layout ▸ h.placed.mem_spots h.orderly.filed hs)
  have hlength := (h.orderly.filed.subperm_spots h.single.nodup_done (fun _ => h.single.live) hspots).length_le
  rwa [List.length_map, List.length_map] at hlength

/-- What holds between the turns of a run over a chart, and which turn comes next. -/
structure Turned (g : Grammar) (before : Chart) (start : Run) (first : Nat) (popped : List Nat) (k : Nat) (run : Run) :
    Prop where
  breach : run.breach = none
  /-- No state is taken off an agenda twice. -/
  nodup_popped : popped.Nodup
  /-- Each of them was added by the run. -/
  added : ∀ id ∈ popped, before.states.size ≤ id
  /-- Nothing waits to the left of the current column. -/
  onward : ∀ j id, run.Waits j id → k ≤ j
  /-- There are no more live states than places for the dots of the rules in use. -/
  liveCount_le : run.chart.liveCount ≤ (g.spots (before.rulesInUse g) before.layout.last).length
  /-- No more states were taken off agendas than that. -/
  popped_le : popped.length ≤ (g.spots (before.rulesInUse g) before.layout.last).length
  /-- No more columns were left than there are. -/
  le_columns : k ≤ before.columns.size
  /-- Before the end of the last column there is another turn. -/
  next : k < before.columns.size → (∃ id run', Turns g start first (id :: popped) k run') ∨
    ∃ run', Turns g start first popped (k + 1) run'

/-- Every turn of a steady run is as it should be. -/
theorem Turns.turned (hg : g.Indexed) (hbefore : before.Filed g)
    (hstart : start.Steady g before (before.rulesInUse g) first []) (h : Turns g start first popped k run) :
    Turned g before start first popped k run := by
  have hsteady := h.steady hg (fun _ hlive => hbefore.mem_rulesInUse.mpr (.inl hlive)) hstart
  have horderly := hsteady.orderly
  exact {
    breach := hsteady.unbroken.breach
    nodup_popped := hsteady.single.nodup_done
    added := fun id hid => hsteady.single.added (.inl hid)
    onward := fun j id hwaits => Nat.not_lt.mp fun hlt => horderly.idle hlt hwaits
    liveCount_le := horderly.grows.layout ▸ hsteady.placed.liveCount_le horderly.filed
    popped_le := hsteady.length_le
    le_columns := hsteady.le_columns
    next := fun hk => by
      have hcolumns : k < run.chart.columns.size := horderly.grows.size_columns ▸ hk
      rcases horderly.next_spec with ⟨-, hidle⟩ | ⟨agenda, id, rest, s, hagenda, hpop, -⟩
      · exact .inr ⟨_, h.move hcolumns fun agenda => pop?_of_idle hidle⟩
      · exact .inl ⟨id, _, h.serve hagenda hpop⟩ }

/-! The turns of a run with a budget -/

/-- A fold of steps that do not lower the work counted does not lower it. -/
theorem le_work_foldl {α : Type} {f : Run → α → Run} (hf : ∀ run a, run.work ≤ (f run a).work) (as : List α)
    (run : Run) : run.work ≤ (as.foldl f run).work := by
  induction as generalizing run with
  | nil => exact Nat.le_refl _
  | cons a rest ih => exact Nat.le_trans (hf run a) (ih (f run a))

/-- An addition does not lower the work counted. -/
theorem le_work_add (run : Run) (item : Item) (stop : Nat) (d : Derivation) :
    run.work ≤ (add g run item stop d).work :=
  work_add (g := g) run item stop d ▸ Nat.le_succ _

/-- Completing a state does not lower the work counted. -/
theorem le_work_complete (run : Run) (id origin k : Nat) (lhs : Category) :
    run.work ≤ (complete g run id origin k lhs).work := by
  refine le_work_foldl (fun run waiting => ?_) _ _
  split
  · exact Nat.le_refl _
  · exact le_work_add _ _ _ _

/-- Predicting a category does not lower the work counted. -/
theorem le_work_predict (run : Run) (id : Nat) (item : Item) (k : Nat) (symbol : Category) :
    run.work ≤ (predict g run id item k symbol).work := by
  have hbegin : run.work ≤ (begin g run k symbol).work := by
    unfold begin
    split
    · exact Nat.le_refl _
    · refine Nat.le_trans ?_ (le_work_foldl (fun run rule => le_work_add _ _ _ _) _ _)
      split <;> exact Nat.le_refl _
  refine Nat.le_trans hbegin (le_work_foldl (fun run reductor => ?_) _ _)
  split
  · exact Nat.le_refl _
  · exact le_work_add _ _ _ _

/-- Processing a state does not lower the work counted. -/
theorem le_work_process (run : Run) (k id : Nat) : run.work ≤ (process g run k id).work := by
  unfold process
  split
  · exact Nat.le_refl _
  · split
    · exact Nat.le_refl _
    · exact le_work_complete _ _ _ _ _
    · split
      · exact le_work_add _ _ _ _
      · split
        · unfold scan
          split
          · exact le_work_add _ _ _ _
          · exact Nat.le_refl _
        · exact le_work_predict _ _ _ _ _

variable {limit : Nat}

/-- Working off a column takes turns there, until nothing waits or the work counted exceeds the limit. The steps do
not run out before, as each turn counts as work. -/
theorem Turns.drain (hg : g.Indexed) (hrules : ∀ rule, g.isLive rule = true → rule ∈ rules)
    (hstart : start.Steady g before rules first []) {steps : Nat} (h : Turns g start first popped k run)
    (hsteps : limit < run.work + steps) :
    ∃ popped' run', Turns g start first popped' k run' ∧
      (Run.drain g limit k steps run = (run', true) ∧
          (∀ agenda, run'.agendas[k]? = some agenda → agenda.pop? = none) ∨
        Run.drain g limit k steps run = (run', false) ∧ limit < run'.work) := by
  induction steps generalizing popped run with
  | zero => exact ⟨popped, run, h, .inr ⟨rfl, hsteps⟩⟩
  | succ steps ih =>
    rw [Run.drain]
    rcases (h.steady hg hrules hstart).orderly.next_spec with ⟨hnext, hidle⟩ |
      ⟨agenda, id, rest, s, hagenda, hpop, hnext, hs, -⟩
    · simp only [hnext]
      exact ⟨popped, run, h, .inl ⟨rfl, fun agenda => pop?_of_idle hidle⟩⟩
    · simp only [hnext]
      have hserved := h.serve hagenda hpop
      rw [serve_of_live hs] at hserved
      split
      · next hlimit => exact ⟨_, _, hserved, .inr ⟨rfl, hlimit⟩⟩
      · refine ih hserved ?_
        have hwork := le_work_process (g := g)
          { run with agendas := run.agendas.setIfInBounds k rest, work := run.work + 1 } k id
        dsimp only at hwork
        omega

/-- Working off columns takes turns there, and comes to an end in one of the ways that there are. -/
theorem Turns.columns (hg : g.Indexed) (hrules : ∀ rule, g.isLive rule = true → rule ∈ rules)
    (hstart : start.Steady g before rules first []) (budget : Budget) {n : Nat}
    (hn : k + n = before.columns.size) (h : Turns g start first popped k { run with work := 0 }) :
    ∃ popped' k' run', Turns g start first popped' k' run' ∧
      (Run.columns g budget (List.range' k n) run).1.chart = run'.chart ∧
      Ending budget k' run' (Run.columns g budget (List.range' k n) run).2 := by
  have hsize {popped k run} (h : Turns g start first popped k run) :
      run.chart.columns.size = before.columns.size :=
    (h.steady hg hrules hstart).orderly.grows.size_columns
  -- by the columns that are left; the turns that drain one lead on to the next
  induction n generalizing popped k run with
  | zero => exact ⟨popped, k, _, h, rfl, .finished (Nat.le_of_eq ((hsize h).trans hn.symm))⟩
  | succ n ih =>
    rw [List.range'_succ, Run.columns]
    split
    · next hcancelled => exact ⟨popped, k, _, h, rfl, .cancelled hcancelled⟩
    · have hsteps : budget.limit < ({ run with work := 0 } : Run).work + (budget.limit + 1) := by
        rw [Nat.zero_add]
        exact Nat.lt_succ_self _
      obtain ⟨popped', run', hturns, ⟨hdrain, hpop⟩ | ⟨hdrain, hlimit⟩⟩ := h.drain hg hrules hstart hsteps
      · simp only [hdrain]
        have hk : k < run'.chart.columns.size := by
          rw [hsize hturns]
          omega
        exact ih (by omega) (hturns.move hk hpop)
      · simp only [hdrain]
        exact ⟨popped', k, run', hturns, rfl, .unbounded hlimit⟩

/-- Working off the columns from the first one on takes turns there, and comes to an end. -/
theorem Steady.onwards (hg : g.Indexed) (hrules : ∀ rule, g.isLive rule = true → rule ∈ rules)
    (h : start.Steady g before rules first []) (budget : Budget) :
    ∃ popped k run, Turns g start first popped k run ∧ (start.onwards g budget first).1.chart = run.chart ∧
      Ending budget k run (start.onwards g budget first).2 := by
  have hsize := h.orderly.grows.size_columns
  refine Turns.columns hg hrules h budget ?_ .start
  rw [hsize]
  exact Nat.add_sub_cancel' h.le_columns

end Run

namespace Editor

variable {g : Grammar} {e : Editor} {first : Nat} {start : Run}

open Run

/-- How runs over the chart of an editor begin, and at which column: with the synthetic rule in an empty chart, or
with a rule in use wherever its left-hand side is predicted. -/
inductive Begins (g : Grammar) (e : Editor) : Nat → Run → Prop
  | build : e.chart.states = #[] →
      Begins g e 0 (add g (Run.on e.chart e.agendas) ⟨Grammar.rootId, 0, 0⟩ 0 .predicted)
  | insertRule {rule first : Nat} {r : Rule} {rest : List Nat} :
      g.HasRule rule r → e.chart.predictedAt r.lhs = first :: rest →
      Begins g e first ((Run.on e.chart e.agendas).beginRule g rule (e.chart.predictedAt r.lhs))

/-- The rules that the grammar has in use are in use for the chart of a reachable editor. -/
theorem Reachable.isLive_inUse (h : Reachable e g) (rule : Nat) (hlive : g.isLive rule = true) :
    rule ∈ e.chart.rulesInUse g :=
  h.sound.filed.mem_rulesInUse.mpr (.inl hlive)

/-- A run over the chart of a reachable editor is steady as long as nothing is begun. -/
theorem Reachable.steady_on (h : Reachable e g) (hfirst : first ≤ e.chart.columns.size) :
    (Run.on e.chart e.agendas).Steady g e.chart (e.chart.rulesInUse g) first [] where
  unbroken := unbroken_on h.sound.filed e.agendas
  orderly := orderly_on h.sound.filed h.sound.size_agendas h.sound.idle first
  le_columns := hfirst
  single := {
    nodup_waiting := fun {j agenda} hagenda => by
      rw [h.sound.idle agenda (Array.mem_of_getElem? hagenda)]
      exact List.nodup_nil
    nodup_done := List.nodup_nil
    live := fun hid => absurd hid List.not_mem_nil
    not_waits := fun hid => absurd hid List.not_mem_nil
    added := by
      rintro id (hid | ⟨j, agenda, hagenda, hid⟩)
      · exact absurd hid List.not_mem_nil
      · rw [h.sound.idle agenda (Array.mem_of_getElem? hagenda)] at hid
        exact absurd hid List.not_mem_nil
    others_le := Nat.le_refl _ }
  placed := h.placed

/-- A run begins steady over the chart of a reachable editor. -/
theorem Begins.steady (hg : g.Indexed) (he : Reachable e g) (h : Begins g e first start) :
    start.Steady g e.chart (e.chart.rulesInUse g) first [] := by
  have hrules := he.isLive_inUse
  cases h with
  | build _ =>
    obtain ⟨name, hroot, -⟩ := hg.rootRule?
    exact (he.steady_on (Nat.zero_le _)).begin hrules hroot (Nat.le_refl 0)
      (he.sound.filed.size_columns ▸ Nat.succ_pos _)
  | insertRule hr hlist =>
    have hmem : first ∈ e.chart.predictedAt _ := hlist ▸ List.mem_cons_self
    refine (he.steady_on (Nat.le_of_lt (mem_predictedAt.mp hmem).1)).beginRule hrules hr fun j hj => ?_
    exact ⟨le_of_mem_predictedAt hlist hj, (mem_predictedAt.mp hj).1⟩

/-- A run that begins over the chart of a reachable editor leads to an editor, after turns up to its end. -/
theorem Begins.ends (hg : g.Indexed) (he : Reachable e g) (h : Begins g e first start) :
    ∃ e' fault popped k run, e.afterRun (start.onwards g e.budget first) = .ok (e', fault) ∧
      Turns g start first popped k run ∧ e'.chart = run.chart ∧ Ending e.budget k run fault := by
  have hsteady := h.steady hg he
  obtain ⟨popped, k, run, hturns, hchart, hending⟩ := hsteady.onwards hg he.isLive_inUse e.budget
  obtain ⟨e', hok, hchart'⟩ := afterRun_eq (e := e) (hsteady.unbroken.columns hg e.budget _).breach
  exact ⟨e', _, popped, k, run, hok, hturns, hchart'.trans hchart, hending⟩

/-- How runs over the chart of an editor end. -/
structure RunsEnd (g : Grammar) (e : Editor) : Prop where
  /-- The rules in use are those that the grammar has in use, and those that live states are on. -/
  mem_rulesInUse : ∀ rule, rule ∈ e.chart.rulesInUse g ↔
    g.isLive rule = true ∨ ∃ id s, e.chart.Live id s ∧ s.item.rule = rule
  /-- Each place for the dot of a rule in use counts once. -/
  nodup_spots : (g.spots (e.chart.rulesInUse g) e.chart.layout.last).Nodup
  /-- There are no more live states than such places. -/
  liveCount_le : e.chart.liveCount ≤ (g.spots (e.chart.rulesInUse g) e.chart.layout.last).length
  /-- A run takes only so many turns, whatever its budget. -/
  turned : ∀ {first start popped k run}, Begins g e first start → Turns g start first popped k run →
    Turned g e.chart start first popped k run
  /-- A build takes such turns up to its end. -/
  build : e.chart.states = #[] → ∃ e' fault start popped k run, e.build g = .ok (e', fault) ∧
    Begins g e 0 start ∧ Turns g start 0 popped k run ∧ e'.chart = run.chart ∧ Ending e.budget k run fault
  /-- So does an insertion of a rule in use, from the first column on at which its left-hand side is predicted. -/
  insertRule : e.inTransaction = true → ∀ {rule r first rest}, g.HasRule rule r →
    e.chart.predictedAt r.lhs = first :: rest →
    ∃ e' fault start popped k run, e.insertRule g rule = .ok (e', fault) ∧ Begins g e first start ∧
      Turns g start first popped k run ∧ e'.chart = run.chart ∧ Ending e.budget k run fault
  /-- If it is predicted nowhere, then an insertion does nothing. -/
  insertRule_nowhere : e.inTransaction = true → ∀ {rule r}, g.HasRule rule r →
    e.chart.predictedAt r.lhs = [] → ∃ e', e.insertRule g rule = .ok (e', none) ∧ e'.chart = e.chart

/-- The runs over the chart of a reachable editor end. -/
theorem Reachable.runsEnd (hg : g.Indexed) (he : Reachable e g) : RunsEnd g e where
  mem_rulesInUse _ := he.sound.filed.mem_rulesInUse
  nodup_spots := Grammar.nodup_spots (e.chart.nodup_rulesInUse g)
  liveCount_le := he.placed.liveCount_le he.sound.filed
  turned hbegins hturns := hturns.turned hg he.sound.filed (hbegins.steady hg he)
  build hempty := by
    have hbegins : Begins g e 0 _ := .build hempty
    obtain ⟨e', fault, popped, k, run, hok, hturns, hchart, hending⟩ := hbegins.ends hg he
    exact ⟨e', fault, _, popped, k, run, (build_eq hg hempty).trans hok, hbegins, hturns, hchart, hending⟩
  insertRule hopen rule r first rest hr hlist := by
    have hbegins : Begins g e first _ := .insertRule hr hlist
    obtain ⟨e', fault, popped, k, run, hok, hturns, hchart, hending⟩ := hbegins.ends hg he
    have hrun : (Run.on e.chart e.agendas).insertRule g e.budget rule r.lhs =
        ((Run.on e.chart e.agendas).beginRule g rule (e.chart.predictedAt r.lhs)).onwards g e.budget first := by
      have hlist' : (Run.on e.chart e.agendas).chart.predictedAt r.lhs = first :: rest := hlist
      simp only [Run.insertRule, hlist', hlist]
    rw [← hrun, ← insertRule_eq hopen hr] at hok
    exact ⟨e', fault, _, popped, k, run, hok, hbegins, hturns, hchart, hending⟩
  insertRule_nowhere hopen rule r hr hnone := by
    have hnone' : (Run.on e.chart e.agendas).chart.predictedAt r.lhs = [] := hnone
    have hrun : (Run.on e.chart e.agendas).insertRule g e.budget rule r.lhs = (Run.on e.chart e.agendas, none) := by
      simp only [Run.insertRule, hnone', beginRule, List.foldl_nil]
    rw [insertRule_eq hopen hr, hrun]
    exact afterRun_eq rfl

end Editor

end IndexedGrammar
