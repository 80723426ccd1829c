import IndexedGrammar.Proofs.Chart.Serving
import Mathlib.Algebra.GroupWithZero.Nat
import Mathlib.Algebra.Order.BigOperators.Group.List
import Mathlib.Algebra.Order.Group.Nat

/-!
# How much work a build counts

A run is given up at a column where it counts more work than its budget allows: one unit for each state that
it processes there, and one for each addition that it tries. What a build counts at a column is bounded by the
finished chart alone. A rule of a category is begun once at each column. A completed state tries to move the
dots of the states that wait for it, all of which are in the finished chart. A state in front of a nonterminal
tries to move its dot over what is complete behind it at that time, and by then no state ends further right
than the next column. So a build is given up only at a column where the finished chart calls for more work
than the budget allows.
-/

namespace IndexedGrammar

namespace Chart

/-- The spots of the live states that end at a column. -/
def spotsAt (c : Chart) (k : Nat) : List Spot :=
  (c.states.toList.filter fun state => !state.removed && state.stop = k).map State.spot

/-- The categories whose rules are begun at a column. -/
def predictions (c : Chart) (k : Nat) : List Category :=
  match c.columns[k]? with
  | none => []
  | some column => column.predicted.toList

/-- The completed states of a category that lie between a column and the next one, or at the column. -/
def nearReductors (c : Chart) (k : Nat) (lhs : Category) : List Nat :=
  (c.reductors k lhs).filter fun id => (c.spot? id).any fun t => t.stop ≤ k + 1

/-- How many additions a state can try when it is processed, other than to begin rules. -/
def additions (g : Grammar) (c : Chart) (s : Spot) : Nat :=
  match g.ahead s.item.rule s.item.dot with
  | .unknown => 0
  | .complete lhs => (c.expecting s.item.origin lhs).length
  | .expects symbol => if g.isNonterminal symbol then (c.nearReductors s.stop symbol).length else 1

/-- The work that a chart calls for at a column: a unit for each rule that is begun there, and one for each state
that ends there and each addition that it can try. -/
def workAt (g : Grammar) (c : Chart) (k : Nat) : Nat :=
  ((c.predictions k).map fun symbol => (g.rulesFor symbol).length).sum +
    ((c.spotsAt k).map fun s => 1 + c.additions g s).sum

variable {g : Grammar} {c d : Chart} {k : Nat}

/-- The spots at a column are those that are live and end there. -/
theorem mem_spotsAt {s : Spot} : s ∈ c.spotsAt k ↔ s.stop = k ∧ ∃ id, c.Live id s := by
  simp only [spotsAt, List.mem_map, List.mem_filter, Bool.and_eq_true, Bool.not_eq_true', decide_eq_true_eq]
  constructor
  · rintro ⟨state, ⟨hmem, hremoved, hstop⟩, rfl⟩
    obtain ⟨id, hid⟩ := List.getElem?_of_mem hmem
    exact ⟨hstop, id, state, by rwa [Array.getElem?_toList] at hid, hremoved, rfl⟩
  · rintro ⟨hstop, id, state, hstate, hremoved, rfl⟩
    refine ⟨state, ⟨?_, hremoved, hstop⟩, rfl⟩
    exact Array.mem_toList_iff.mpr (Array.mem_of_getElem? hstate)

/-- The predictions of a column are what is predicted there. -/
theorem mem_predictions {symbol : Category} : symbol ∈ c.predictions k ↔ c.isPredicted k symbol = true := by
  unfold predictions isPredicted
  cases c.columns[k]? with
  | none => simp
  | some column => exact Std.ExtTreeSet.mem_toList.trans Std.ExtTreeSet.mem_iff_contains

/-- A sum over some of the entries of a list is at most that over all of them. -/
theorem sum_map_le_of_subperm {α : Type} {f : α → Nat} {as bs : List α} (h : List.Subperm as bs) :
    (as.map f).sum ≤ (bs.map f).sum := by
  obtain ⟨cs, hperm, hsub⟩ := h
  rw [← (hperm.map f).sum_eq]
  exact (hsub.map f).sum_le_sum fun _ _ => Nat.zero_le _

/-! Charts within larger ones -/

/-- What is found and predicted in a chart is found and predicted in another one. -/
structure FoundIn (c d : Chart) : Prop where
  live : ∀ {id s}, c.Live id s → ∃ j, d.Live j s
  isPredicted : ∀ {k symbol}, c.isPredicted k symbol = true → d.isPredicted k symbol = true

/-- A chart with at least what a grammar finds in the input of another one. -/
structure Encloses (blank : Chart) (g : Grammar) (d : Chart) : Prop where
  filed : d.Filed g
  live : ∀ {s}, Findable g blank.input blank.layout.last s → ∃ id, d.Live id s
  isPredicted : ∀ {k symbol}, Wanted g blank.input blank.layout.last k symbol → d.isPredicted k symbol = true

/-- A closed chart has at least what the grammar finds. -/
theorem Closed.encloses {blank : Chart} (h : d.Closed g) (hg : g.Indexed) (hunscanned : g.RootUnscanned)
    (hd : d.Filed g) (hlayout : d.layout = blank.layout) (hinput : d.input = blank.input) :
    blank.Encloses g d where
  filed := hd
  live {s} hs := by
    rw [← hinput, ← hlayout] at hs
    obtain ⟨l, hl⟩ := hs
    obtain ⟨id, -, hid, -, -⟩ := h.hasDerivation hg hunscanned hd hl
    exact ⟨id, hid⟩
  isPredicted hwanted := by
    rw [← hinput, ← hlayout] at hwanted
    exact h.isPredicted hg hunscanned hd hwanted

/-- What a grammar justifies in a chart is found in a chart that has at least what the grammar finds. -/
theorem Justified.foundIn {blank : Chart} (h : c.Justified g) (hd : blank.Encloses g d)
    (hlayout : c.layout = blank.layout) (hinput : c.input = blank.input) : c.FoundIn d where
  live hs := hd.live (hlayout ▸ hinput ▸ h.live hs)
  isPredicted hpredicted := hd.isPredicted (hlayout ▸ hinput ▸ h.isPredicted hpredicted)

/-- Live states are no more than those that stand for their spots elsewhere. -/
theorem FoundIn.length_le (h : c.FoundIn d) (hc : c.Filed g) {ids ids' : List Nat} (hnodup : ids.Nodup)
    (hids : ∀ id ∈ ids, ∃ s, c.Live id s ∧ ∀ j, d.Live j s → j ∈ ids') : ids.length ≤ ids'.length := by
  have hspots : ∀ id ∈ ids, c.spot? id ∈ ids'.map d.spot? := by
    intro id hid
    obtain ⟨s, hs, hj⟩ := hids id hid
    obtain ⟨j, hjs⟩ := h.live hs
    exact List.mem_map.mpr ⟨j, hj j hjs, hjs.spot?.trans hs.spot?.symm⟩
  have hlength := (hc.subperm_spots hnodup (fun id hid => (hids id hid).imp fun _ => And.left) hspots).length_le
  rwa [List.length_map, List.length_map] at hlength

/-- No more states wait for a category than in a chart in which everything is found. -/
theorem FoundIn.expecting_le (h : c.FoundIn d) (hc : c.Filed g) (hd : d.Filed g) (k : Nat) (symbol : Category) :
    (c.expecting k symbol).length ≤ (d.expecting k symbol).length := by
  refine h.length_le hc (hc.nodup_expecting k symbol) fun id hid => ?_
  obtain ⟨hsymbol, s, hs, hstop, hexpects⟩ := hc.mem_expecting.mp hid
  exact ⟨s, hs, fun j hj => hd.mem_expecting.mpr ⟨hsymbol, s, hj, hstop, hexpects⟩⟩

/-- No state ends further right than the column behind a given one. -/
def Near (k : Nat) (c : Chart) : Prop :=
  ∀ id s, c.Live id s → s.stop ≤ k + 1

/-- No more states are complete behind a column, as long as none ends further right than the next one. -/
theorem FoundIn.reductors_le (h : c.FoundIn d) (hc : c.Filed g) (hd : d.Filed g) (hnear : c.Near k)
    (lhs : Category) : (c.reductors k lhs).length ≤ (d.nearReductors k lhs).length := by
  refine h.length_le hc (hc.nodup_reductors k lhs) fun id hid => ?_
  obtain ⟨s, hs, horigin, hcompletes⟩ := hc.mem_reductors.mp hid
  refine ⟨s, hs, fun j hj => List.mem_filter.mpr ⟨hd.mem_reductors.mpr ⟨s, hj, horigin, hcompletes⟩, ?_⟩⟩
  rw [hj.spot?, Option.any_some, decide_eq_true_eq]
  exact hnear id s hs

/-- Nothing that a chart calls for at a column ends further right than the next one. -/
theorem Warrants.stop_le (hnear : c.Near k) {item : Item} {stop : Nat} {d : Derivation}
    (h : c.Warrants g k item stop d) : stop ≤ k + 1 := by
  cases h with
  | begun => exact Nat.le_succ k
  | skip => exact Nat.le_succ k
  | scan => exact Nat.le_refl _
  | complete _ ht => exact hnear _ _ ht

end Chart

namespace Run

variable {g : Grammar} {start : Chart} {first k : Nat} {run : Run}

/-! What a step counts -/

/-- An addition counts as a unit of work. -/
theorem work_add (run : Run) (item : Item) (stop : Nat) (d : Derivation) :
    (add g run item stop d).work = run.work + 1 := by
  unfold add
  dsimp only
  split
  · rfl
  · unfold enter
    split <;> rfl

/-- A fold of at most one addition each counts at most its length. -/
theorem work_foldl_le {α : Type} {f : Run → α → Run} (hf : ∀ run a, (f run a).work ≤ run.work + 1)
    (as : List α) (run : Run) : (as.foldl f run).work ≤ run.work + as.length := by
  induction as generalizing run with
  | nil => exact Nat.le_refl _
  | cons a rest ih =>
    calc (rest.foldl f (f run a)).work ≤ (f run a).work + rest.length := ih (f run a)
      _ ≤ run.work + 1 + rest.length := Nat.add_le_add_right (hf run a) _
      _ = run.work + (a :: rest).length := by rw [List.length_cons]; omega

/-- Completing a state counts the states that wait for it. -/
theorem work_complete_le (run : Run) (id origin k : Nat) (lhs : Category) :
    (complete g run id origin k lhs).work ≤ run.work + (run.chart.expecting origin lhs).length := by
  refine work_foldl_le (fun run waiting => ?_) _ _
  split
  · exact Nat.le_succ _
  · exact Nat.le_of_eq (work_add _ _ _ _)

/-- Beginning a category counts its rules, unless it was begun before. -/
theorem work_begin_le (run : Run) (k : Nat) (symbol : Category) :
    (begin g run k symbol).work ≤
      run.work + if run.chart.isPredicted k symbol then 0 else (g.rulesFor symbol).length := by
  unfold begin
  split
  · exact Nat.le_refl _
  · refine Nat.le_trans (work_foldl_le (fun run rule => Nat.le_of_eq (work_add _ _ _ _)) _ _) ?_
    split <;> exact Nat.le_refl _

/-- Predicting a category counts its rules and what is complete behind the state. -/
theorem work_predict_le (run : Run) (id : Nat) (item : Item) (k : Nat) (symbol : Category) :
    (predict g run id item k symbol).work ≤
      (begin g run k symbol).work + ((begin g run k symbol).chart.reductors k symbol).length := by
  refine work_foldl_le (fun run reductor => ?_) _ _
  split
  · exact Nat.le_succ _
  · exact Nat.le_of_eq (work_add _ _ _ _)

/-- Ending no further right than the next column is kept, with being justified. -/
theorem kept_near (g : Grammar) (start : Chart) (hfirst : first ≤ k) :
    Kept g k fun run => (run.Orderly g start first ∧ k < run.chart.columns.size) ∧
      run.chart.Justified g ∧ run.chart.Near k := by
  refine (kept_orderly g start hfirst).beside (fun horderly h hwarrants hok => ?_)
    fun horderly h hs hstop hexpects hsymbol =>
      ⟨justified_predict h.1 horderly.2 hs hstop hexpects hsymbol, h.2⟩
  have hfiled := horderly.1.filed
  refine ⟨(upheld_justified g).add hfiled h.1 hwarrants hok, fun id s hs => ?_⟩
  rcases (only_add hfiled hok).1 hs with hold | ⟨-, rfl⟩
  · exact h.2 id s hold
  · exact hwarrants.stop_le h.2

variable {d : Chart}

/-- What a justified run finds is found in the chart that encloses it. -/
theorem Orderly.foundIn (h : run.Orderly g start first) (hjustified : run.chart.Justified g)
    (hd : start.Encloses g d) : run.chart.FoundIn d :=
  hjustified.foundIn hd h.grows.layout h.grows.input

/-- From one run to another one no more work is counted than this much, besides the rules of categories that are
first predicted at the column. -/
def Charged (g : Grammar) (k allowance : Nat) (run run' : Run) : Prop :=
  ∃ fresh : List Category, fresh.Nodup ∧
    (∀ symbol ∈ fresh, run.chart.isPredicted k symbol = false ∧ run'.chart.isPredicted k symbol = true) ∧
    run'.work ≤ run.work + (fresh.map fun symbol => (g.rulesFor symbol).length).sum + allowance

/-- Work within the allowance needs no category that is first predicted. -/
theorem charged_of_le {run' : Run} {allowance : Nat} (h : run'.work ≤ run.work + allowance) :
    Charged g k allowance run run' :=
  ⟨[], List.nodup_nil, fun _ hmem => absurd hmem List.not_mem_nil, h⟩

/-- Predicting a category in front of a state is charged to what is complete behind it in the finished
chart. -/
theorem charged_predict (hd : start.Encloses g d) (hfirst : first ≤ k) (hk : k < run.chart.columns.size)
    (horderly : run.Orderly g start first) (hjustified : run.chart.Justified g) (hnear : run.chart.Near k)
    {id : Nat} {s : Spot} {symbol : Category} (hs : run.chart.Live id s) (hstop : s.stop = k)
    (hexpects : g.Expects s.item symbol) (hsymbol : g.isNonterminal symbol = true)
    (hok : (predict g run id s.item k symbol).breach = none) :
    Charged g k (d.nearReductors k symbol).length run (predict g run id s.item k symbol) := by
  have hkept := kept_near g start hfirst
  obtain ⟨⟨⟨hbegun, -⟩, hbegunJustified, hbegunNear⟩, -⟩ :=
    begin_spec hkept ⟨⟨horderly, hk⟩, hjustified, hnear⟩ hs hstop hexpects hsymbol (breach_predict hok)
  obtain ⟨-, -, hnow, -⟩ :=
    predict_spec hkept ⟨⟨horderly, hk⟩, hjustified, hnear⟩ hs hstop hexpects hsymbol hok
  have hreductors :=
    (hbegun.foundIn hbegunJustified hd).reductors_le hbegun.filed hd.filed hbegunNear symbol
  have hwork := Nat.le_trans (work_predict_le (g := g) run id s.item k symbol)
    (Nat.add_le_add (work_begin_le run k symbol) hreductors)
  cases hpredicted : run.chart.isPredicted k symbol with
  | true =>
    rw [hpredicted, if_pos rfl, Nat.add_zero] at hwork
    exact charged_of_le hwork
  | false =>
    rw [hpredicted, if_neg Bool.false_ne_true] at hwork
    refine ⟨[symbol], List.nodup_singleton symbol, fun other hother => ?_, hwork⟩
    obtain rfl := List.mem_singleton.mp hother
    exact ⟨hpredicted, hnow⟩

/-- Processing a state is charged to the additions that it can try in the finished chart. -/
theorem charged_process (hd : start.Encloses g d) (hfirst : first ≤ k) (horderly : run.Orderly g start first)
    (hjustified : run.chart.Justified g) (hnear : run.chart.Near k) {id : Nat} {s : Spot}
    (hs : run.chart.Live id s) (hstop : s.stop = k) (hok : (process g run k id).breach = none) :
    Charged g k (d.additions g s) run (process g run k id) := by
  have hlive := hs
  obtain ⟨state, hstate, -, hspot⟩ := hlive
  have hitem : state.item = s.item := congrArg Spot.item hspot
  have hk : k < run.chart.columns.size := hstop ▸ (horderly.filed.bounds hs.spot?).2
  unfold process at hok ⊢
  simp only [hstate, hitem] at hok ⊢
  unfold Chart.additions
  cases hahead : g.ahead s.item.rule s.item.dot with
  | unknown => simp [hahead, fail] at hok
  | complete lhs =>
    have hwaiting := (horderly.foundIn hjustified hd).expecting_le horderly.filed hd.filed s.item.origin lhs
    exact charged_of_le
      (Nat.le_trans (work_complete_le run id s.item.origin k lhs) (Nat.add_le_add_left hwaiting _))
  | expects symbol =>
    simp only [hahead] at hok ⊢
    split at hok
    · next hepsilon =>
      have hnot : g.isNonterminal symbol = false := by simp [Grammar.isNonterminal, hepsilon]
      rw [if_pos hepsilon, hnot]
      exact charged_of_le (Nat.le_of_eq (work_add _ _ _ _))
    · next hepsilon =>
      rw [if_neg hepsilon]
      split at hok
      · next hpart =>
        have hnot : g.isNonterminal symbol = false := by simp [Grammar.isNonterminal, hpart]
        rw [if_pos hpart, hnot, if_neg Bool.false_ne_true]
        unfold scan
        split
        · exact charged_of_le (Nat.le_of_eq (work_add _ _ _ _))
        · exact charged_of_le (Nat.le_add_right _ _)
      · next hpart =>
        have hsymbol : g.isNonterminal symbol = true :=
          Grammar.isNonterminal_iff.mpr ⟨Bool.eq_false_iff.mpr hepsilon, Bool.eq_false_iff.mpr hpart⟩
        rw [if_neg hpart, if_pos hsymbol, hstop]
        exact charged_predict hd hfirst hk horderly hjustified hnear hs hstop hahead hsymbol hok

/-- The work that a state calls for in a chart; a number that stands for nothing calls for none. -/
def cost (g : Grammar) (d : Chart) (spot : Option Spot) : Nat :=
  spot.elim 0 fun s => 1 + d.additions g s

/-- What holds while a column is worked off: the states processed and the categories begun at the column so far
account for the work counted. -/
structure Accounted (g : Grammar) (start d : Chart) (k : Nat) (done : List Nat) (begun : List Category)
    (run : Run) : Prop where
  unbroken : run.Unbroken g
  progress : run.Progress g start k
  justified : run.chart.Justified g
  once : run.Once done
  near : run.chart.Near k
  here : ∀ {id}, id ∈ done → ∃ s, run.chart.Live id s ∧ s.stop = k
  nodup_begun : begun.Nodup
  predicted : ∀ {symbol}, symbol ∈ begun → run.chart.isPredicted k symbol = true
  work_le : run.work ≤ (begun.map fun symbol => (g.rulesFor symbol).length).sum +
    (done.map fun id => cost g d (run.chart.spot? id)).sum

variable {done : List Nat} {begun : List Category}

/-- The states processed at a column are among those that the finished chart has there. -/
theorem Accounted.subperm_spotsAt (h : run.Accounted g start d k done begun) (hd : start.Encloses g d) :
    List.Subperm (done.map run.chart.spot?) ((d.spotsAt k).map some) := by
  have hfound := h.progress.orderly.foundIn h.justified hd
  refine h.progress.orderly.filed.subperm_spots h.once.nodup_done (fun _ => h.once.live) fun id hid => ?_
  obtain ⟨s, hs, hstop⟩ := h.here hid
  rw [hs.spot?]
  exact List.mem_map_of_mem (Chart.mem_spotsAt.mpr ⟨hstop, hfound.live hs⟩)

/-- The work counted at a column is at most what the finished chart calls for there. -/
theorem Accounted.work_le_workAt (h : run.Accounted g start d k done begun) (hd : start.Encloses g d) :
    run.work ≤ d.workAt g k := by
  have hfound := h.progress.orderly.foundIn h.justified hd
  have hbegun : List.Subperm begun (d.predictions k) := by
    refine List.subperm_of_subset h.nodup_begun fun symbol hsymbol => ?_
    exact Chart.mem_predictions.mpr (hfound.isPredicted (h.predicted hsymbol))
  have hrules := Chart.sum_map_le_of_subperm (f := fun symbol => (g.rulesFor symbol).length) hbegun
  have hstates := Chart.sum_map_le_of_subperm (f := cost g d) (h.subperm_spotsAt hd)
  rw [List.map_map, List.map_map] at hstates
  exact Nat.le_trans h.work_le (Nat.add_le_add hrules hstates)

/-- No more states are processed at a column than the work that the finished chart calls for there. -/
theorem Accounted.length_le_workAt (h : run.Accounted g start d k done begun) (hd : start.Encloses g d) :
    done.length ≤ d.workAt g k := by
  have hlength := (h.subperm_spotsAt hd).length_le
  rw [List.length_map, List.length_map] at hlength
  have hone : ((d.spotsAt k).map fun s => 1 + d.additions g s).length ≤
      ((d.spotsAt k).map fun s => 1 + d.additions g s).sum := by
    refine List.length_le_sum_of_one_le _ fun n hn => ?_
    obtain ⟨s, -, rfl⟩ := List.mem_map.mp hn
    exact Nat.le_add_right 1 _
  rw [List.length_map] at hone
  exact Nat.le_trans hlength (Nat.le_trans hone (Nat.le_add_left _ _))

/-- What was processed costs the same when the chart has grown. -/
theorem Accounted.costs_eq (h : run.Accounted g start d k done begun) {later : Chart}
    (hgrows : run.chart.Grows later) :
    (done.map fun id => cost g d (run.chart.spot? id)) = done.map fun id => cost g d (later.spot? id) := by
  refine List.map_congr_left fun id hid => ?_
  obtain ⟨s, hs⟩ := h.once.live hid
  rw [hs.spot?, (hgrows.live hs).spot?]

/-- Serving the next state of the column is accounted for. -/
theorem Accounted.serve (hg : g.Indexed) (hd : start.Encloses g d) (h : run.Accounted g start d k done begun)
    {agenda rest : Agenda} {id : Nat} (hagenda : run.agendas[k]? = some agenda)
    (hpop : agenda.pop? = some (id, rest)) :
    ∃ begun', (process g { run with
      agendas := run.agendas.setIfInBounds k rest, work := run.work + 1 } k id).Accounted g start d k
        (id :: done) begun' := by
  have hperm : agenda.toList.Perm (id :: rest.toList) := List.Perm.of_eq (Agenda.toList_of_pop? hpop)
  have horderly := h.progress.orderly
  obtain ⟨s, hs, hstop⟩ := horderly.waiting ⟨agenda, hagenda, hperm.mem_iff.mpr List.mem_cons_self⟩
  have hk : k < run.chart.columns.size := hstop ▸ (horderly.filed.bounds hs.spot?).2
  have hprogress := h.progress.serve (Nat.le_refl k) (run.work + 1) hagenda
    (fun other => hperm.mem_iff.trans List.mem_cons)
  have honce := h.once.serve horderly (Nat.le_refl k) (run.work + 1) hagenda hperm
  -- the run in which the state was taken off the agenda
  have hleft := horderly.leave (run.work + 1) hagenda fun other hother =>
    hperm.mem_iff.mpr (List.mem_cons_of_mem id hother)
  have hunbroken : ({ run with
      agendas := run.agendas.setIfInBounds k rest, work := run.work + 1 } : Run).Unbroken g :=
    ⟨h.unbroken.breach, h.unbroken.known⟩
  have hserved := hunbroken.process hg k id
  have hcharged := charged_process hd (Nat.le_refl k) hleft h.justified h.near hs hstop hserved.breach
  obtain ⟨⟨-, hjustified, hnear⟩, hadvances⟩ := process_spec (kept_near g start (Nat.le_refl k))
    ⟨⟨hleft, hk⟩, h.justified, h.near⟩ hs hstop hserved.breach
  have hgrows : run.chart.Grows _ := hadvances.grows
  replace hprogress := hprogress hserved.breach
  replace honce := honce hserved.breach
  generalize process g _ k id = served at hserved hprogress hjustified honce hcharged hnear hgrows ⊢
  obtain ⟨fresh, hnodup, hfresh, hwork⟩ := hcharged
  refine ⟨fresh ++ begun, hserved, hprogress, hjustified, honce, hnear, fun {j} hj => ?_, ?_,
    fun {symbol} hmem => ?_, ?_⟩
  · rcases List.mem_cons.mp hj with rfl | hj
    · exact ⟨s, hgrows.live hs, hstop⟩
    · obtain ⟨t, ht, htstop⟩ := h.here hj
      exact ⟨t, hgrows.live ht, htstop⟩
  · refine List.nodup_append.mpr ⟨hnodup, h.nodup_begun, fun symbol hmem other hother heq => ?_⟩
    subst heq
    exact Bool.false_ne_true ((hfresh symbol hmem).1.symm.trans (h.predicted hother))
  · rcases List.mem_append.mp hmem with hmem | hmem
    · exact (hfresh symbol hmem).2
    · exact hgrows.isPredicted (h.predicted hmem)
  · have hsum := h.work_le
    rw [h.costs_eq hgrows] at hsum
    have hcost : cost g d (served.chart.spot? id) = 1 + d.additions g s := by
      rw [(hgrows.live hs).spot?]
      rfl
    rw [List.map_append, List.sum_append, List.map_cons, List.sum_cons, hcost]
    dsimp only at hwork
    omega

/-- What holds when a column is begun: no breach was met, progress was made, only what the grammar finds was added,
nothing was stored or served twice, and no state ends further right than the next column. -/
structure Ready (g : Grammar) (start : Chart) (k : Nat) (run : Run) : Prop where
  unbroken : run.Unbroken g
  progress : run.Progress g start k
  justified : run.chart.Justified g
  once : run.Once []
  near : run.chart.Near k

/-- What was served before need not be remembered. -/
theorem Once.forget (h : run.Once done) : run.Once [] :=
  ⟨h.derivesOnce, h.nodup_waiting, List.nodup_nil, fun hmem => absurd hmem List.not_mem_nil,
    fun hmem => absurd hmem List.not_mem_nil⟩

/-- Nothing is accounted for when a column is begun. -/
theorem Ready.accounted (h : run.Ready g start k) (d : Chart) :
    ({ run with work := 0 } : Run).Accounted g start d k [] [] where
  unbroken := ⟨h.unbroken.breach, h.unbroken.known⟩
  progress := (worked_progress g start).work 0 h.progress
  justified := h.justified
  once := ⟨h.once.derivesOnce, h.once.nodup_waiting, h.once.nodup_done, h.once.live, h.once.not_waits⟩
  near := h.near
  here hmem := absurd hmem List.not_mem_nil
  nodup_begun := List.nodup_nil
  predicted hmem := absurd hmem List.not_mem_nil
  work_le := Nat.le_refl 0

/-- Working off a column comes to its end, or the finished chart calls for more work there than the limit. -/
theorem drain_cases (hg : g.Indexed) (hd : start.Encloses g d) {limit steps : Nat}
    (h : run.Accounted g start d k done begun) (hsteps : limit < steps + done.length) :
    ∃ run', drain g limit k steps run = (run', true) ∧ run'.Ready g start (k + 1) ∨
      drain g limit k steps run = (run', false) ∧ limit < d.workAt g k := by
  induction steps generalizing run done begun with
  | zero =>
    rw [Nat.zero_add] at hsteps
    exact ⟨run, .inr ⟨rfl, Nat.lt_of_lt_of_le hsteps (h.length_le_workAt hd)⟩⟩
  | succ steps ih =>
    rw [drain]
    rcases h.progress.orderly.next_spec with ⟨hnext, hidle⟩ | ⟨agenda, id, rest, s, hagenda, hpop, hnext, -, -⟩
    · simp only [hnext]
      refine ⟨run, .inl ⟨rfl, h.unbroken, (worked_progress g start).idle h.progress hidle, h.justified,
        h.once.forget, ?_⟩⟩
      exact fun id s hs => Nat.le_succ_of_le (h.near id s hs)
    · simp only [hnext]
      obtain ⟨begun', hserved⟩ := h.serve hg hd hagenda hpop
      split
      · next hlimit => exact ⟨_, .inr ⟨rfl, Nat.lt_of_lt_of_le hlimit (hserved.work_le_workAt hd)⟩⟩
      · refine ih hserved ?_
        rw [List.length_cons]
        omega

/-- Working off columns comes to its end, or the finished chart calls at one of them for more work than the
limit. -/
theorem columns_cases (hg : g.Indexed) (hd : start.Encloses g d) (limit n : Nat) (h : run.Ready g start k) :
    ∃ run', columns g ⟨limit, none⟩ (List.range' k n) run = (run', none) ∨
      ∃ j, columns g ⟨limit, none⟩ (List.range' k n) run = (run', some (.unbounded j limit)) ∧
        limit < d.workAt g j := by
  induction n generalizing k run with
  | zero => exact ⟨run, .inl rfl⟩
  | succ n ih =>
    rw [List.range'_succ, columns, Budget.isCancelledAt_none, if_neg Bool.false_ne_true]
    have hsteps : limit < limit + 1 + ([] : List Nat).length := Nat.lt_succ_self limit
    obtain ⟨run', ⟨hdrain, hready⟩ | ⟨hdrain, hlimit⟩⟩ := drain_cases hg hd (h.accounted d) hsteps
    · simp only [hdrain]
      exact ih hready
    · simp only [hdrain]
      exact ⟨_, .inr ⟨k, rfl, hlimit⟩⟩

/-- A run over a new chart in which the synthetic rule is begun is ready for the first column. -/
theorem ready_atRoot (hg : g.Indexed) (layout : Layout) (input : Input) :
    (atRoot g layout input).Ready g (.new layout input) 0 := by
  obtain ⟨hunbroken, hprogress, hjustified, done, -, honce⟩ := fair_atRoot hg layout input
  refine ⟨hunbroken, hprogress, hjustified, honce.forget, fun id s hs => ?_⟩
  rcases (only_add (Chart.filed_new g layout input) hunbroken.breach).1 hs with hold | ⟨-, rfl⟩
  · exact (Chart.not_live_new hold).elim
  · exact Nat.zero_le _

end Run

namespace Chart

variable {g : Grammar} {d : Chart}

/-- A build comes to its end, or it is given up at a column where the finished chart calls for more work than
the limit. -/
theorem build_cases (hg : g.Indexed) {layout : Layout} {input : Input} (hd : (new layout input).Encloses g d)
    (limit : Nat) :
    ∃ c, (new layout input).build g ⟨limit, none⟩ = .ok (c, none) ∨
      ∃ k, (new layout input).build g ⟨limit, none⟩ = .ok (c, some (.unbounded k limit)) ∧
        limit < d.workAt g k := by
  have hready := Run.ready_atRoot hg layout input
  obtain ⟨run, hrun⟩ := Run.columns_cases hg hd limit (Run.atRoot g layout input).chart.columns.size hready
  have hunbroken := hready.unbroken.columns hg ⟨limit, none⟩
    (List.range' 0 (Run.atRoot g layout input).chart.columns.size)
  have hbuilt {fault : Option Fault} (h : Run.columns g ⟨limit, none⟩
      (List.range' 0 (Run.atRoot g layout input).chart.columns.size) (Run.atRoot g layout input) = (run, fault)) :
      (new layout input).build g ⟨limit, none⟩ = .ok (run.chart, fault) := by
    rw [h] at hunbroken
    exact build_eq_ok_iff.mpr ⟨hg.isSome_rootRule?, run, h, hunbroken.breach, rfl⟩
  refine ⟨run.chart, ?_⟩
  rcases hrun with hrun | ⟨k, hrun, hlimit⟩
  · exact .inl (hbuilt hrun)
  · exact .inr ⟨k, hbuilt hrun, hlimit⟩

end Chart

end IndexedGrammar
