import IndexedGrammar.Proofs.Chart.Content
import Mathlib.Data.List.Nodup

/-!
# Nothing is stored or served twice

A run puts no state on an agenda twice, and never puts a state back on an agenda that was served, whichever chart it
begins with. If it begins with an empty chart, then it gives no state a derivation twice either. So it serves at most
as many states as it finds.
-/

namespace IndexedGrammar

namespace Chart

variable {g : Grammar} {c : Chart} {item : Item} {stop : Nat} {d : Derivation}

/-- Different live numbers stand for different spots, so they can be counted by where their spots are. -/
theorem Filed.subperm_spots (hc : c.Filed g) {ids : List Nat} (hnodup : ids.Nodup)
    (hlive : ∀ id ∈ ids, ∃ s, c.Live id s) {spots : List (Option Spot)}
    (hspots : ∀ id ∈ ids, c.spot? id ∈ spots) : List.Subperm (ids.map c.spot?) spots := by
  have hsub : ids.map c.spot? ⊆ spots := by
    intro spot hspot
    obtain ⟨id, hid, rfl⟩ := List.mem_map.mp hspot
    exact hspots id hid
  refine List.subperm_of_subset ((List.nodup_map_iff_inj_on hnodup).mpr fun i hi j hj hspot => ?_) hsub
  obtain ⟨s, hs⟩ := hlive i hi
  obtain ⟨t, ht⟩ := hlive j hj
  rw [hs.spot?, ht.spot?] at hspot
  obtain rfl := Option.some.inj hspot
  exact hc.unique hs ht

/-- No state has a derivation twice. -/
def DerivesOnce (c : Chart) : Prop :=
  ∀ (id : Nat) (state : State), c.states[id]? = some state → state.derivations.Nodup

/-- A new chart has no derivations. -/
theorem derivesOnce_new (layout : Layout) (input : Input) : (new layout input).DerivesOnce := by
  intro id state hstate
  simp [new] at hstate

/-- A derivation is only packed where it is not there yet. -/
theorem DerivesOnce.pack (h : c.DerivesOnce) (id : Nat) (d : Derivation) : (c.pack id d).DerivesOnce := by
  intro j packed hpacked
  cases hstate : c.states[id]? with
  | none =>
    rw [Chart.pack, hstate] at hpacked
    exact h j packed hpacked
  | some state =>
    by_cases hd : d ∈ state.derivations
    · rw [pack_eq_self hstate hd] at hpacked
      exact h j packed hpacked
    · rw [getElem?_pack hstate hd] at hpacked
      obtain ⟨old, hold, rfl⟩ := Option.map_eq_some_iff.mp hpacked
      dsimp only
      split
      · next hj =>
        subst hj
        obtain rfl := Option.some.inj (hold.symm.trans hstate)
        exact nodup_concat (h j old hold) hd
      · exact h j old hold

/-- A new state has one derivation. -/
theorem DerivesOnce.grow (h : c.DerivesOnce) : (c.grow g item stop d).DerivesOnce := by
  intro j grown hgrown
  rw [getElem?_grow] at hgrown
  split at hgrown
  · obtain rfl := Option.some.inj hgrown
    exact List.pairwise_singleton _ d
  · obtain ⟨old, hold, rfl⟩ := Option.map_eq_some_iff.mp hgrown
    exact h j old hold

end Chart

namespace Run

variable {g : Grammar} {start : Chart} {first k : Nat} {run : Run} {done : List Nat}

/-- No state waits twice, and none of the states served so far waits again. All of them are among the states that
were added when there were already some others. -/
structure Single (others : Nat) (done : List Nat) (run : Run) : Prop where
  nodup_waiting : ∀ {j : Nat} {agenda : Agenda}, run.agendas[j]? = some agenda → agenda.toList.Nodup
  nodup_done : done.Nodup
  live : ∀ {id}, id ∈ done → ∃ s, run.chart.Live id s
  not_waits : ∀ {id j}, id ∈ done → ¬run.Waits j id
  added : ∀ {id}, (id ∈ done ∨ ∃ j, run.Waits j id) → others ≤ id
  others_le : others ≤ run.chart.states.size

/-- No derivation is stored twice, no state waits twice, and none of the states served so far waits again. -/
structure Once (done : List Nat) (run : Run) : Prop where
  derivesOnce : run.chart.DerivesOnce
  nodup_waiting : ∀ {j : Nat} {agenda : Agenda}, run.agendas[j]? = some agenda → agenda.toList.Nodup
  nodup_done : done.Nodup
  live : ∀ {id}, id ∈ done → ∃ s, run.chart.Live id s
  not_waits : ∀ {id j}, id ∈ done → ¬run.Waits j id

/-- What stores and serves nothing twice serves nothing twice. -/
theorem Once.single (h : run.Once done) : run.Single 0 done :=
  ⟨h.nodup_waiting, h.nodup_done, h.live, h.not_waits, fun _ => Nat.zero_le _, Nat.zero_le _⟩

/-- What serves nothing twice stores nothing twice either, if no derivation is stored twice. -/
theorem Single.once {others : Nat} (h : run.Single others done) (hderives : run.chart.DerivesOnce) :
    run.Once done :=
  ⟨hderives, h.nodup_waiting, h.nodup_done, h.live, h.not_waits⟩

/-- An addition leaves the agendas, or puts a new state on one of them. -/
theorem agendas_add {item : Item} {stop : Nat} {d : Derivation}
    (hok : (add g run item stop d).breach = none) :
    (add g run item stop d).agendas = run.agendas ∨
      ∃ f, (add g run item stop d).agendas = run.agendas.modify stop f ∧
        ∀ agenda : Agenda, (f agenda).toList.Perm (run.chart.states.size :: agenda.toList) := by
  unfold add at hok ⊢
  dsimp only at hok ⊢
  split at hok
  · exact .inl rfl
  · right
    unfold enter at hok ⊢
    split at hok
    · simp [fail] at hok
    · exact ⟨_, rfl, fun agenda => agenda.perm_pushCompleted _ _⟩
    · exact ⟨_, rfl, fun agenda => agenda.perm_pushActive _⟩

/-- A chart has no fewer states after an addition. -/
theorem size_states_add_le {item : Item} {stop : Nat} {d : Derivation}
    (hok : (add g run item stop d).breach = none) :
    run.chart.states.size ≤ (add g run item stop d).chart.states.size := by
  obtain ⟨-, -, ⟨id, -, hchart, -⟩ | ⟨-, -, hchart, -⟩⟩ := add_spec hok
  · rw [hchart]
    exact Nat.le_of_eq (Chart.size_states_pack _ _ _).symm
  · rw [hchart, Chart.grow, Chart.states_file, Chart.size_states_record]
    exact Nat.le_succ _

/-- What waits after an addition waited before, or is new. -/
theorem waits_of_add (horderly : run.Orderly g start first) {item : Item} {stop : Nat} {d : Derivation}
    (hstop : stop < run.chart.columns.size) (hok : (add g run item stop d).breach = none) {j id : Nat}
    (hwaits : (add g run item stop d).Waits j id) : run.Waits j id ∨ id = run.chart.states.size := by
  obtain ⟨-, -, ⟨other, -, -, -, hsame⟩ | ⟨-, -, -, -, hmore⟩⟩ := add_spec hok
  · exact .inl (hsame.mp hwaits)
  · exact ((hmore (horderly.size_agendas ▸ hstop)).mp hwaits).imp_right And.right

/-- An addition has nothing wait twice, and nothing that was served. -/
theorem Single.add {others : Nat} (h : run.Single others done) (horderly : run.Orderly g start first) {item : Item}
    {stop : Nat} {d : Derivation} (hstop : stop < run.chart.columns.size)
    (hok : (Run.add g run item stop d).breach = none) : (Run.add g run item stop d).Single others done where
  nodup_waiting {j agenda} hagenda := by
    -- all that may be queued is the new state, which no agenda had before
    rcases agendas_add hok with hsame | ⟨f, hmodify, hperm⟩
    · exact h.nodup_waiting (hsame ▸ hagenda)
    · rw [hmodify, Array.getElem?_modify] at hagenda
      split at hagenda
      · obtain ⟨old, hold, rfl⟩ := Option.map_eq_some_iff.mp hagenda
        refine (hperm old).nodup_iff.mpr (List.nodup_cons.mpr ⟨fun hmem => ?_, h.nodup_waiting hold⟩)
        obtain ⟨s, hs, -⟩ := horderly.waiting ⟨old, hold, hmem⟩
        exact Chart.not_live_size hs
      · exact h.nodup_waiting hagenda
  nodup_done := h.nodup_done
  live hid := by
    obtain ⟨s, hs⟩ := h.live hid
    exact ⟨s, (grows_add horderly.filed hok).1.live hs⟩
  not_waits {id j} hid hwaits := by
    rcases waits_of_add horderly hstop hok hwaits with hold | rfl
    · exact h.not_waits hid hold
    · obtain ⟨s, hs⟩ := h.live hid
      exact Chart.not_live_size hs
  added {id} hid := by
    obtain hdone | ⟨j, hwaits⟩ := hid
    · exact h.added (.inl hdone)
    · rcases waits_of_add horderly hstop hok hwaits with hold | rfl
      · exact h.added (.inr ⟨j, hold⟩)
      · exact h.others_le
  others_le := Nat.le_trans h.others_le (size_states_add_le hok)

/-- Serving nothing twice is kept. -/
theorem kept_single (g : Grammar) (start : Chart) (others : Nat) (done : List Nat) (hfirst : first ≤ k) :
    Kept g k fun run => (run.Orderly g start first ∧ k < run.chart.columns.size) ∧ run.Single others done :=
  (kept_orderly g start hfirst).beside
    (fun h hsingle hwarrants hok => hsingle.add h.1 (hwarrants.admits h.1.filed h.2).stop_lt hok)
    fun _ h _ _ _ _ => ⟨h.nodup_waiting, h.nodup_done, h.live, h.not_waits, h.added, h.others_le⟩

/-- An addition stores and serves nothing twice. -/
theorem Once.add (h : run.Once done) (horderly : run.Orderly g start first) {item : Item} {stop : Nat}
    {d : Derivation} (hstop : stop < run.chart.columns.size) (hok : (Run.add g run item stop d).breach = none) :
    (Run.add g run item stop d).Once done := by
  refine (h.single.add horderly hstop hok).once ?_
  obtain ⟨-, -, ⟨id, -, hchart, -⟩ | ⟨-, -, hchart, -⟩⟩ := add_spec hok
  · rw [hchart]
    exact h.derivesOnce.pack id d
  · rw [hchart]
    exact h.derivesOnce.grow

/-- Storing and serving nothing twice is kept. -/
theorem kept_once (g : Grammar) (start : Chart) (done : List Nat) (hfirst : first ≤ k) :
    Kept g k fun run => (run.Orderly g start first ∧ k < run.chart.columns.size) ∧ run.Once done :=
  (kept_orderly g start hfirst).beside
    (fun h honce hwarrants hok => honce.add h.1 (hwarrants.admits h.1.filed h.2).stop_lt hok)
    fun _ h _ _ _ _ => ⟨h.derivesOnce, h.nodup_waiting, h.nodup_done, h.live, h.not_waits⟩

/-- After the agenda of a column was replaced, those of the other columns are as before. -/
theorem getElem?_setAgenda {rest left : Agenda} {j : Nat}
    (h : (run.agendas.setIfInBounds k rest)[j]? = some left) :
    j = k ∧ left = rest ∨ j ≠ k ∧ run.agendas[j]? = some left := by
  rw [Array.getElem?_setIfInBounds] at h
  split at h
  · next hj =>
    split at h
    · exact .inl ⟨hj.symm, (Option.some.inj h).symm⟩
    · contradiction
  · next hj => exact .inr ⟨Ne.symm hj, h⟩

/-- A state that is taken off an agenda was not served before, and does not wait any more. -/
theorem Single.leave {others : Nat} (h : run.Single others done) (horderly : run.Orderly g start first)
    {agenda rest : Agenda} {id : Nat} (work : Nat) (hagenda : run.agendas[k]? = some agenda)
    (hperm : agenda.toList.Perm (id :: rest.toList)) :
    { run with agendas := run.agendas.setIfInBounds k rest, work := work }.Single others (id :: done) := by
  have hnodup := List.nodup_cons.mp (hperm.nodup_iff.mp (h.nodup_waiting hagenda))
  have hid : run.Waits k id := ⟨agenda, hagenda, hperm.mem_iff.mpr List.mem_cons_self⟩
  have hrest {other : Nat} (hother : other ∈ rest.toList) : run.Waits k other :=
    ⟨agenda, hagenda, hperm.mem_iff.mpr (List.mem_cons_of_mem _ hother)⟩
  refine ⟨fun hother => ?_, ?_, fun hmem => ?_, ?_, ?_, h.others_le⟩
  · rcases getElem?_setAgenda hother with ⟨-, rfl⟩ | ⟨-, hold⟩
    · exact hnodup.2
    · exact h.nodup_waiting hold
  · exact List.nodup_cons.mpr ⟨fun hmem => h.not_waits hmem hid, h.nodup_done⟩
  · rcases List.mem_cons.mp hmem with rfl | hmem
    · obtain ⟨s, hs, -⟩ := horderly.waiting hid
      exact ⟨s, hs⟩
    · exact h.live hmem
  · rintro other j hmem ⟨left, hother, hwaits⟩
    rcases getElem?_setAgenda hother with ⟨rfl, rfl⟩ | ⟨hj, hold⟩
    · rcases List.mem_cons.mp hmem with rfl | hmem
      · exact hnodup.1 hwaits
      · exact h.not_waits hmem (hrest hwaits)
    · rcases List.mem_cons.mp hmem with rfl | hmem
      · obtain ⟨s, hs, hstop⟩ := horderly.waiting hid
        obtain ⟨t, ht, hstop'⟩ := horderly.waiting ⟨left, hold, hwaits⟩
        -- a state waits only at its own column
        exact hj (hstop'.symm.trans ((congrArg Spot.stop (ht.unique hs)).trans hstop))
      · exact h.not_waits hmem ⟨left, hold, hwaits⟩
  · rintro other (hmem | ⟨j, left, hother, hwaits⟩)
    · rcases List.mem_cons.mp hmem with rfl | hmem
      · exact h.added (.inr ⟨k, hid⟩)
      · exact h.added (.inl hmem)
    · rcases getElem?_setAgenda hother with ⟨rfl, rfl⟩ | ⟨-, hold⟩
      · exact h.added (.inr ⟨j, hrest hwaits⟩)
      · exact h.added (.inr ⟨j, left, hold, hwaits⟩)

/-- Serving a state stores and serves nothing twice. -/
theorem Once.serve (h : run.Once done) (horderly : run.Orderly g start first) (hfirst : first ≤ k)
    {agenda rest : Agenda} {id : Nat} (work : Nat) (hagenda : run.agendas[k]? = some agenda)
    (hperm : agenda.toList.Perm (id :: rest.toList))
    (hok : (process g { run with agendas := run.agendas.setIfInBounds k rest, work := work } k id).breach =
      none) :
    (process g { run with agendas := run.agendas.setIfInBounds k rest, work := work } k id).Once
      (id :: done) := by
  obtain ⟨s, hs, hstop⟩ := horderly.waiting ⟨agenda, hagenda, hperm.mem_iff.mpr List.mem_cons_self⟩
  have hk : k < run.chart.columns.size := hstop ▸ (horderly.filed.bounds hs.spot?).2
  have hleft := horderly.leave (k := k) work hagenda fun other hother =>
    hperm.mem_iff.mpr (List.mem_cons_of_mem id hother)
  exact (process_spec (kept_once g start _ hfirst) ⟨⟨hleft, hk⟩, (h.single.leave horderly work hagenda hperm).once h.derivesOnce⟩ hs hstop
    hok).1.2

end Run

end IndexedGrammar
