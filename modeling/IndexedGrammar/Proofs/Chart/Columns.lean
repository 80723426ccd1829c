import IndexedGrammar.Proofs.Chart.Process

/-!
# Working off columns

A column is worked off state by state until nothing waits there, and the columns are worked off in
turn. Whatever each step keeps holds in the end. A run that is given up leaves a filed chart, with
nothing waiting and all changes noted.
-/

namespace IndexedGrammar.Run

variable {g : Grammar} {start : Chart} {k : Nat} {run : Run}

/-- Leaving only some states on the agenda of a column keeps a run orderly. -/
theorem Orderly.leave {first : Nat} (h : run.Orderly g start first) {agenda rest : Agenda} (work : Nat)
    (hagenda : run.agendas[k]? = some agenda) (hrest : ∀ id ∈ rest.toList, id ∈ agenda.toList) :
    { run with agendas := run.agendas.setIfInBounds k rest, work := work }.Orderly g start first := by
  have hwaits {j other : Nat} (hother : ∃ left,
      (run.agendas.setIfInBounds k rest)[j]? = some left ∧ other ∈ left.toList) :
      run.Waits j other := by
    obtain ⟨left, hleft, hmem⟩ := hother
    rw [Array.getElem?_setIfInBounds] at hleft
    split at hleft
    · next hj =>
      subst hj
      split at hleft
      · obtain rfl := Option.some.inj hleft
        exact ⟨agenda, hagenda, hrest _ hmem⟩
      · contradiction
    · exact ⟨left, hleft, hmem⟩
  exact {
    filed := h.filed
    grows := h.grows
    size_agendas := Array.size_setIfInBounds.trans h.size_agendas
    waiting := fun hother => h.waiting (hwaits hother)
    idle := fun hj hother => h.idle hj (hwaits hother)
    restores := h.restores }

/-- Asking an orderly run for the next state of the current column. -/
theorem Orderly.next_spec (h : run.Orderly g start k) :
    (run.next k = (none, run) ∧ ∀ id, ¬run.Waits k id) ∨
      ∃ agenda id rest s, run.agendas[k]? = some agenda ∧ agenda.pop? = some (id, rest) ∧
        run.next k = (some id, { run with agendas := run.agendas.setIfInBounds k rest }) ∧
        run.chart.Live id s ∧ s.stop = k := by
  unfold next
  cases hagenda : run.agendas[k]? with
  | none =>
    refine .inl ⟨rfl, ?_⟩
    rintro id ⟨agenda, hsome, -⟩
    rw [hagenda] at hsome
    contradiction
  | some agenda =>
    -- no state that waits was taken out, so none is passed over
    have hkept : ∀ id ∈ agenda.toList, run.isRemoved id = false := by
      intro id hid
      obtain ⟨s, ⟨state, hstate, hremoved, -⟩, -⟩ := h.waiting ⟨agenda, hagenda, hid⟩
      simp only [isRemoved, hstate, hremoved]
    simp only [Agenda.next_eq hkept]
    cases hpop : agenda.pop? with
    | none =>
      have hsame : run.agendas.setIfInBounds k agenda = run.agendas := by
        refine Array.ext_getElem? fun j => ?_
        rw [Array.getElem?_setIfInBounds]
        split
        · next hj =>
          subst hj
          rw [if_pos (Array.getElem?_eq_some_iff.mp hagenda).1, hagenda]
        · rfl
      refine .inl ⟨by simp only [hsame], ?_⟩
      rintro id ⟨other, hother, hid⟩
      obtain rfl := Option.some.inj (hagenda.symm.trans hother)
      rw [Agenda.toList_of_pop?_none hpop] at hid
      exact List.not_mem_nil hid
    | some popped =>
      obtain ⟨id, rest⟩ := popped
      obtain ⟨s, hs, hstop⟩ :=
        h.waiting ⟨agenda, hagenda, (Agenda.mem_toList_of_pop? hpop).mpr (.inl rfl)⟩
      exact .inr ⟨agenda, id, rest, s, rfl, hpop, rfl, hs, hstop⟩

/-- A property of runs that is kept by taking a state off the agenda of the current column and
processing it, and by going on to the next column once nothing waits. -/
structure Worked (g : Grammar) (start : Chart) (motive : Nat → Run → Prop) : Prop where
  orderly : ∀ {k run}, motive k run → run.Orderly g start k
  idle : ∀ {k run}, motive k run → (∀ id, ¬run.Waits k id) → motive (k + 1) run
  work : ∀ {k run} (work : Nat), motive k run → motive k { run with work := work }
  process : ∀ {k run agenda id rest s} (work : Nat), motive k run →
    run.agendas[k]? = some agenda → agenda.pop? = some (id, rest) →
    run.chart.Live id s → s.stop = k →
    (process g { run with agendas := run.agendas.setIfInBounds k rest, work := work } k id).breach =
      none →
    motive k
      (process g { run with agendas := run.agendas.setIfInBounds k rest, work := work } k id)

/-- Working off a column. -/
theorem drain_spec {motive : Nat → Run → Prop} (hworked : Worked g start motive) (limit : Nat)
    (steps : Nat) {run : Run} (hrun : motive k run)
    (hok : (drain g limit k steps run).1.breach = none) :
    motive k (drain g limit k steps run).1 ∧
      ((drain g limit k steps run).2 = true →
        ∀ id, ¬(drain g limit k steps run).1.Waits k id) := by
  induction steps generalizing run with
  | zero => exact ⟨hrun, fun h => absurd h (by simp [drain])⟩
  | succ steps ih =>
    rw [drain] at hok ⊢
    rcases (hworked.orderly hrun).next_spec with ⟨hnext, hidle⟩ |
      ⟨agenda, id, rest, s, hagenda, hpop, hnext, hs, hstop⟩
    · simp only [hnext] at hok ⊢
      exact ⟨hrun, fun _ => hidle⟩
    · simp only [hnext] at hok ⊢
      split at hok
      · next hlimit =>
        rw [if_pos hlimit]
        exact ⟨hworked.process _ hrun hagenda hpop hs hstop hok, fun h => by simp at h⟩
      · next hlimit =>
        rw [if_neg hlimit]
        exact ih (hworked.process _ hrun hagenda hpop hs hstop (breach_drain hok)) hok

/-- A breach stays noted while columns are worked off. -/
theorem breach_columns {budget : Budget} {ks : List Nat}
    (hok : (columns g budget ks run).1.breach = none) : run.breach = none := by
  induction ks generalizing run with
  | nil => exact hok
  | cons k rest ih =>
    rw [columns] at hok
    split at hok
    · exact hok
    · have hrun : (drain g budget.limit k (budget.limit + 1) { run with work := 0 }).1.breach = none →
          run.breach = none := breach_drain
      split at hok
      · next run' hdrain =>
        rw [hdrain] at hrun
        exact hrun (ih hok)
      · next run' hdrain =>
        rw [hdrain] at hrun
        exact hrun hok

/-- Working off columns in turn: all of them, or up to one where the run was given up. -/
theorem columns_spec {motive : Nat → Run → Prop} (hworked : Worked g start motive)
    (budget : Budget) (n : Nat) {run : Run} (hrun : motive k run)
    (hok : (columns g budget (List.range' k n) run).1.breach = none) :
    ((columns g budget (List.range' k n) run).2 = none ∧
        motive (k + n) (columns g budget (List.range' k n) run).1) ∨
      (columns g budget (List.range' k n) run).2 ≠ none ∧
        ∃ j run', motive j run' ∧ (columns g budget (List.range' k n) run).1 = run'.clear := by
  -- by the columns that are left; one that was drained hands over an idle run
  induction n generalizing k run with
  | zero => exact .inl ⟨rfl, hrun⟩
  | succ n ih =>
    rw [List.range'_succ] at hok ⊢
    rw [columns] at hok ⊢
    split at hok
    · next hcancelled =>
      rw [if_pos hcancelled]
      exact .inr ⟨by simp, k, run, hrun, rfl⟩
    · next hcancelled =>
      rw [if_neg hcancelled]
      have hspec := drain_spec hworked budget.limit (budget.limit + 1) (hworked.work 0 hrun)
      split at hok
      · next run' hdrain =>
        rw [hdrain] at hspec
        obtain ⟨hmotive, hidle⟩ := hspec (breach_columns hok)
        rw [Nat.add_comm n 1, ← Nat.add_assoc]
        exact ih (hworked.idle hmotive (hidle rfl)) hok
      · next run' hdrain =>
        rw [hdrain] at hspec
        exact .inr ⟨by simp, k, run', (hspec hok).1, rfl⟩

/-- What is left of a run: the chart is filed, nothing waits, and the changes lead back. -/
structure Finished (g : Grammar) (start : Chart) (run : Run) : Prop where
  filed : run.chart.Filed g
  grows : start.Grows run.chart
  size_agendas : run.agendas.size = run.chart.columns.size
  idle : ∀ {agenda}, agenda ∈ run.agendas → agenda = .empty
  restores : run.chart.Restores run.changes start

/-- An orderly run that has worked off all columns is finished. -/
theorem Orderly.finished (h : run.Orderly g start k) (hk : run.chart.columns.size ≤ k) :
    run.Finished g start where
  filed := h.filed
  grows := h.grows
  size_agendas := h.size_agendas
  restores := h.restores
  idle {agenda} hagenda := by
    obtain ⟨j, hj, rfl⟩ := Array.mem_iff_getElem.mp hagenda
    refine Agenda.eq_empty fun id hid => ?_
    have hwaits : run.Waits j id := ⟨_, Array.getElem?_eq_getElem hj, hid⟩
    exact h.idle (Nat.lt_of_lt_of_le (h.size_agendas ▸ hj) hk) hwaits

/-- An orderly run that is given up is finished. -/
theorem Orderly.finished_clear (h : run.Orderly g start k) : run.clear.Finished g start where
  filed := h.filed
  grows := h.grows
  size_agendas := by
    rw [clear, Array.size_map]
    exact h.size_agendas
  restores := h.restores
  idle {agenda} hagenda := by
    obtain ⟨old, -, rfl⟩ := Array.mem_map.mp hagenda
    rfl

/-- Working off the columns from one on. -/
theorem onwards_spec {motive : Nat → Run → Prop} (hworked : Worked g start motive)
    (budget : Budget) (hk : k ≤ start.columns.size) (hrun : motive k run)
    (hok : (run.onwards g budget k).1.breach = none) :
    (run.onwards g budget k).1.Finished g start ∧ ((run.onwards g budget k).2 = none →
      motive start.columns.size (run.onwards g budget k).1) := by
  have hsize := (hworked.orderly hrun).grows.size_columns
  unfold onwards at hok ⊢
  rcases columns_spec hworked budget _ hrun hok with ⟨-, hmotive⟩ |
    ⟨hfault, j, run', hmotive, heq⟩
  · rw [hsize, Nat.add_sub_cancel' hk] at hmotive
    rw [hsize]
    refine ⟨(hworked.orderly hmotive).finished ?_, fun _ => hmotive⟩
    exact Nat.le_of_eq (hworked.orderly hmotive).grows.size_columns
  · refine ⟨?_, fun hnone => absurd hnone hfault⟩
    rw [heq]
    exact (hworked.orderly hmotive).finished_clear

/-- Being orderly is kept from column to column. -/
theorem worked_orderly (g : Grammar) (start : Chart) :
    Worked g start fun k run => run.Orderly g start k where
  orderly h := h
  idle h hidle := { h with
    idle := fun {j id} hj hwaits => by
      rcases Nat.lt_succ_iff_lt_or_eq.mp hj with hlt | rfl
      · exact h.idle hlt hwaits
      · exact hidle id hwaits }
  work _ h := ⟨h.filed, h.grows, h.size_agendas, h.waiting, h.idle, h.restores⟩
  process work h hagenda hpop hs hstop hok :=
    (process_spec (kept_orderly g start (Nat.le_refl _))
      ⟨h.leave work hagenda fun _ hid => (Agenda.mem_toList_of_pop? hpop).mpr (.inr hid),
        hstop ▸ (h.filed.bounds hs.spot?).2⟩ hs hstop hok).1.1

variable {c : Chart} {agendas : Array Agenda}

/-- A run begins orderly where nothing waits. -/
theorem orderly_on (hc : c.Filed g) (hsize : agendas.size = c.columns.size)
    (hidle : ∀ agenda ∈ agendas, agenda = .empty) (k : Nat) : (Run.on c agendas).Orderly g c k := by
  have hwaits {j id : Nat} (h : (Run.on c agendas).Waits j id) : False := by
    obtain ⟨agenda, hagenda, hid⟩ := h
    rw [hidle agenda (Array.mem_of_getElem? hagenda)] at hid
    exact List.not_mem_nil hid
  exact ⟨hc, .refl c, hsize, fun h => (hwaits h).elim, fun _ h => hwaits h, .refl c⟩

/-- A chart has room for the beginning of a rule at a column. -/
theorem admits_begun {k first rule : Nat} (hk : k < c.columns.size) (hfirst : first ≤ k) :
    c.Admits first ⟨rule, 0, k⟩ k .predicted :=
  ⟨Nat.le_refl k, hfirst, hk, fun _ hlink => by
    simp [Derivation.predicted, Derivation.links] at hlink⟩

/-- A build leaves a finished run. -/
theorem build_finished (budget : Budget) (hc : c.Filed g) (hsize : agendas.size = c.columns.size)
    (hidle : ∀ agenda ∈ agendas, agenda = .empty)
    (hok : ((Run.on c agendas).build g budget).1.breach = none) :
    ((Run.on c agendas).build g budget).1.Finished g c := by
  have hcolumns : 0 < c.columns.size := hc.size_columns ▸ Nat.succ_pos _
  refine (onwards_spec (worked_orderly g c) budget (Nat.zero_le _) ?_ hok).1
  exact (orderly_on hc hsize hidle 0).add (admits_begun hcolumns (Nat.le_refl 0))
    (breach_columns hok)

/-- What adding a rule at columns keeps. -/
theorem beginRule_spec {motive : Run → Prop} {rule : Nat} {begun : List Nat}
    (hadd : ∀ run k, k ∈ begun → motive run →
      (add g run ⟨rule, 0, k⟩ k .predicted).breach = none →
      motive (add g run ⟨rule, 0, k⟩ k .predicted))
    (hrun : motive run) (hok : (run.beginRule g rule begun).breach = none) :
    motive (run.beginRule g rule begun) :=
  (foldl_keeps motive (fun _ _ => True) (fun _ _ => breach_add)
    (fun run k hk h hok => ⟨hadd run k hk h hok, trivial, fun _ _ => trivial⟩) hrun hok).1

/-- The columns where a category is predicted, in ascending order. -/
theorem mem_predictedAt {category : Category} :
    k ∈ c.predictedAt category ↔ k < c.columns.size ∧ c.isPredicted k category = true := by
  simp [Chart.predictedAt]

/-- The first of the columns where a category is predicted. -/
theorem le_of_mem_predictedAt {category : Category} {first : Nat} {rest : List Nat}
    (h : c.predictedAt category = first :: rest) {k : Nat} (hk : k ∈ c.predictedAt category) :
    first ≤ k := by
  have hsorted : (c.predictedAt category).Pairwise (· < ·) :=
    List.pairwise_lt_range.filter _
  rw [h] at hsorted hk
  rcases List.mem_cons.mp hk with rfl | hrest
  · exact Nat.le_refl _
  · exact Nat.le_of_lt (List.rel_of_pairwise_cons hsorted hrest)

/-- A rule is begun in an orderly run, up to the first column where it is. -/
theorem beginRule_orderly (hc : c.Filed g) (hsize : agendas.size = c.columns.size)
    (hidle : ∀ agenda ∈ agendas, agenda = .empty) {rule first : Nat} {lhs : Category}
    (hfirst : ∀ k ∈ c.predictedAt lhs, first ≤ k)
    (hok : ((Run.on c agendas).beginRule g rule (c.predictedAt lhs)).breach = none) :
    ((Run.on c agendas).beginRule g rule (c.predictedAt lhs)).Orderly g c first := by
  refine beginRule_spec (fun run k hk h hok' => ?_) (orderly_on hc hsize hidle first) hok
  have hlt : k < run.chart.columns.size := h.grows.size_columns ▸ (mem_predictedAt.mp hk).1
  exact h.add (admits_begun hlt (hfirst k hk)) hok'

/-- If a rule is begun nowhere, then the run is finished. -/
theorem beginRule_finished (hc : c.Filed g) (hsize : agendas.size = c.columns.size)
    (hidle : ∀ agenda ∈ agendas, agenda = .empty) {rule : Nat} {lhs : Category}
    (hnone : c.predictedAt lhs = [])
    (hok : ((Run.on c agendas).beginRule g rule (c.predictedAt lhs)).breach = none) :
    ((Run.on c agendas).beginRule g rule (c.predictedAt lhs)).Finished g c := by
  have horderly : ((Run.on c agendas).beginRule g rule (c.predictedAt lhs)).Orderly g c
      c.columns.size := beginRule_orderly hc hsize hidle (by simp [hnone]) hok
  exact horderly.finished (Nat.le_of_eq horderly.grows.size_columns)

/-- A rule is begun in an orderly run, up to the first of the columns where it is. -/
theorem beginRule_orderly_first (hc : c.Filed g) (hsize : agendas.size = c.columns.size)
    (hidle : ∀ agenda ∈ agendas, agenda = .empty) {rule first : Nat} {rest : List Nat} {lhs : Category}
    (hlist : c.predictedAt lhs = first :: rest)
    (hok : ((Run.on c agendas).beginRule g rule (c.predictedAt lhs)).breach = none) :
    first < c.columns.size ∧ ((Run.on c agendas).beginRule g rule (c.predictedAt lhs)).Orderly g c first := by
  have hmem : first ∈ c.predictedAt lhs := hlist ▸ List.mem_cons_self
  exact ⟨(mem_predictedAt.mp hmem).1,
    beginRule_orderly hc hsize hidle (fun k hk => le_of_mem_predictedAt hlist hk) hok⟩

/-- Inserting a rule leaves a finished run. -/
theorem insertRule_finished (budget : Budget) (hc : c.Filed g)
    (hsize : agendas.size = c.columns.size) (hidle : ∀ agenda ∈ agendas, agenda = .empty)
    {rule : Nat} {lhs : Category}
    (hok : ((Run.on c agendas).insertRule g budget rule lhs).1.breach = none) :
    ((Run.on c agendas).insertRule g budget rule lhs).1.Finished g c := by
  unfold insertRule at hok ⊢
  dsimp only at hok ⊢
  split at hok
  · next hnone => exact beginRule_finished hc hsize hidle hnone hok
  · next first rest hlist =>
    obtain ⟨hlt, horderly⟩ := beginRule_orderly_first hc hsize hidle hlist (breach_columns hok)
    exact (onwards_spec (worked_orderly g c) budget (Nat.le_of_lt hlt) horderly hok).1

end IndexedGrammar.Run
