import IndexedGrammar.Proofs.Chart.Insertion
import IndexedGrammar.Proofs.Chart.Once
import IndexedGrammar.Proofs.Chart.Unbroken

/-!
# Serving states in any order

A chart that was built without being given up holds exactly what its grammar finds, each state and each
derivation once. The order in which the waiting states are served plays no part in that: whichever of them is
served next, at whichever column, no more states are served than the chart has, and once nothing waits any
more there are the same states with the same derivations.
-/

namespace IndexedGrammar

namespace Chart

/-- The ways in which a state was derived, with the states gone through read as spots. -/
def ways (c : Chart) (id : Nat) : List Link :=
  match c.states[id]? with
  | none => []
  | some state => state.derivations.map c.link

/-- Two charts with the same live states and the same derivations, up to the numbers of the states and the
order of the derivations. -/
structure SameUpToOrder (c d : Chart) : Prop where
  live : ∀ s, (∃ i, c.Live i s) ↔ ∃ j, d.Live j s
  ways : ∀ {i j s}, c.Live i s → d.Live j s → (c.ways i).Perm (d.ways j)

variable {g : Grammar} {c c' : Chart}

/-- The ways of a live state are those in which its spot is found in the chart. -/
theorem Filed.mem_ways (hc : c.Filed g) {id : Nat} {s : Spot} (hs : c.Live id s) {l : Link} :
    l ∈ c.ways id ↔ c.HasDerivation s l := by
  have hlive := hs
  obtain ⟨state, hstate, hremoved, -⟩ := hlive
  have hways : c.ways id = state.derivations.map c.link := by rw [Chart.ways, hstate]
  rw [hways, List.mem_map]
  constructor
  · rintro ⟨d, hd, rfl⟩
    exact ⟨id, d, hs, ⟨state, hstate, hremoved, hd⟩, rfl⟩
  · rintro ⟨other, d, hother, hd, rfl⟩
    obtain rfl := hc.unique hother hs
    obtain ⟨state', hstate', -, hd⟩ := hd
    obtain rfl := Option.some.inj (hstate.symm.trans hstate')
    exact ⟨d, hd, rfl⟩

/-- Two derivations that go through the same spots go through the same states. -/
theorem Filed.link_injective (hc : c.Filed g) {i j : Nat} {d e : Derivation} (hd : c.Derives i d)
    (he : c.Derives j e) (hlink : c.link d = c.link e) : d = e := by
  obtain ⟨hpredecessor, hreductor⟩ := Link.mk.inj hlink
  have hspot {i : Nat} {d : Derivation} (hd : c.Derives i d) : ∀ link ∈ d.links, ∃ t, c.spot? link = some t :=
    fun link hlink => (hc.linked hd hlink).imp fun t ht => ht.spot?
  refine Derivation.eq_of_bind (hspot hd) (hspot he) (fun m hm n hn heq => ?_) hpredecessor hreductor
  obtain ⟨s, hs⟩ := hc.linked hd hm
  obtain ⟨t, ht⟩ := hc.linked he hn
  obtain rfl := Option.some.inj (hs.spot?.symm.trans (heq.trans ht.spot?))
  exact hc.unique hs ht

/-- A state is derived in each way once. -/
theorem Filed.nodup_ways (hc : c.Filed g) (honce : c.DerivesOnce) {id : Nat} {s : Spot} (hs : c.Live id s) :
    (c.ways id).Nodup := by
  have hlive := hs
  obtain ⟨state, hstate, hremoved, -⟩ := hlive
  rw [Chart.ways, hstate]
  refine (List.nodup_map_iff_inj_on (honce id state hstate)).mpr fun d hd e he hlink => ?_
  exact hc.link_injective ⟨state, hstate, hremoved, hd⟩ ⟨state, hstate, hremoved, he⟩ hlink

/-- Charts that agree, and store nothing twice, are the same up to order. -/
theorem Agrees.sameUpToOrder (h : c.Agrees c') (hc : c.Filed g) (hc' : c'.Filed g) (honce : c.DerivesOnce)
    (honce' : c'.DerivesOnce) : c.SameUpToOrder c' where
  live := h.live
  ways {i j s} hi hj := by
    refine (List.perm_ext_iff_of_nodup (hc.nodup_ways honce hi) (hc'.nodup_ways honce' hj)).mpr fun l => ?_
    rw [hc.mem_ways hi, hc'.mem_ways hj]
    exact h.derivation s l

end Chart

namespace Run

variable {g : Grammar} {start run : Run} {n : Nat}

/-- What serving waiting states leads to, in any order and at any column, with the number of states served.
How much work was counted plays no part in it. -/
inductive Serving (g : Grammar) (start : Run) : Nat → Run → Prop
  | start : Serving g start 0 start
  | recount {n : Nat} {run : Run} (work : Nat) :
      Serving g start n run → Serving g start n { run with work := work }
  | serve {n k id : Nat} {run : Run} {agenda rest : Agenda} :
      Serving g start n run → run.agendas[k]? = some agenda → agenda.toList.Perm (id :: rest.toList) →
      Serving g start (n + 1) (process g { run with agendas := run.agendas.setIfInBounds k rest } k id)

/-- The run in which only the synthetic rule was begun in a new chart. -/
def atRoot (g : Grammar) (layout : Layout) (input : Input) : Run :=
  add g (Run.on (.new layout input) (Chart.new layout input).idleAgendas) ⟨Grammar.rootId, 0, 0⟩ 0 .predicted

/-- Whatever was served, no breach was met, progress was made, only what the grammar finds was added, and nothing was
stored or served twice. -/
structure Fair (g : Grammar) (start : Chart) (n : Nat) (run : Run) : Prop where
  unbroken : run.Unbroken g
  progress : run.Progress g start 0
  justified : run.chart.Justified g
  once : ∃ done : List Nat, done.length = n ∧ run.Once done

/-- A run over a new chart in which the synthetic rule is begun is fair. -/
theorem fair_atRoot (hg : g.Indexed) (layout : Layout) (input : Input) :
    (atRoot g layout input).Fair g (.new layout input) 0 := by
  have hfiled := Chart.filed_new g layout input
  have hsize := (Chart.new layout input).size_idleAgendas
  have hidle := (Chart.new layout input).eq_empty_of_mem_idleAgendas
  have hrule : (g.rule? Grammar.rootId).isSome := hg.isSome_rootRule?
  have hunbroken : (atRoot g layout input).Unbroken g := (unbroken_on hfiled _).add hrule 0 .predicted
  refine ⟨hunbroken, progress_root hsize hidle hunbroken.breach,
    (upheld_justified g).root hfiled (Chart.justified_new g layout input) hunbroken.breach, [], rfl, ?_⟩
  have hon : (Run.on (.new layout input) (Chart.new layout input).idleAgendas).Once [] := {
    derivesOnce := Chart.derivesOnce_new layout input
    nodup_waiting := fun {j agenda} hagenda => by
      rw [hidle agenda (Array.mem_of_getElem? hagenda)]
      exact List.nodup_nil
    nodup_done := List.nodup_nil
    live := fun h => absurd h List.not_mem_nil
    not_waits := fun h => absurd h List.not_mem_nil }
  exact hon.add (orderly_on hfiled hsize hidle 0) (hfiled.size_columns ▸ Nat.succ_pos _) hunbroken.breach

/-- Serving a waiting state leaves a fair run fair, whichever it is. -/
theorem Fair.serve {c : Chart} (hg : g.Indexed) (h : run.Fair g c n) {k id : Nat} {agenda rest : Agenda}
    (hagenda : run.agendas[k]? = some agenda) (hperm : agenda.toList.Perm (id :: rest.toList)) :
    (process g { run with agendas := run.agendas.setIfInBounds k rest } k id).Fair g c (n + 1) := by
  obtain ⟨done, rfl, honce⟩ := h.once
  have hleft : ({ run with agendas := run.agendas.setIfInBounds k rest } : Run).Unbroken g :=
    ⟨h.unbroken.breach, h.unbroken.known⟩
  have hserved := hleft.process hg k id
  have hrest (other : Nat) : other ∈ agenda.toList ↔ other = id ∨ other ∈ rest.toList :=
    hperm.mem_iff.trans List.mem_cons
  refine ⟨hserved, ?_, ?_, id :: done, rfl, ?_⟩
  · exact h.progress.serve (Nat.zero_le k) run.work hagenda hrest hserved.breach
  · exact (upheld_justified g).serve (Nat.zero_le k) h.progress.orderly h.justified run.work hagenda hrest
      hserved.breach
  · exact honce.serve h.progress.orderly (Nat.zero_le k) run.work hagenda hperm hserved.breach

/-- Serving waiting states leaves a fair run fair, in whatever order. -/
theorem Serving.fair {c : Chart} (hg : g.Indexed) (hstart : start.Fair g c 0) (h : Serving g start n run) :
    run.Fair g c n := by
  induction h with
  | start => exact hstart
  | recount work _ ih =>
    obtain ⟨done, hdone, honce⟩ := ih.once
    exact ⟨⟨ih.unbroken.breach, ih.unbroken.known⟩,
      (worked_progress g c).work work ih.progress, ih.justified, done, hdone,
      honce.derivesOnce, honce.nodup_waiting, honce.nodup_done, honce.live, honce.not_waits⟩
  | serve _ hagenda hperm ih => exact ih.serve hg hagenda hperm

/-- While something waits, more can be served. -/
theorem Serving.next (h : Serving g start n run) {k id : Nat} (hid : run.Waits k id) :
    ∃ run', Serving g start (n + 1) run' := by
  obtain ⟨agenda, hagenda, hmem⟩ := hid
  have hperm : agenda.toList.Perm (id :: (⟨[], agenda.toList.erase id, []⟩ : Agenda).toList) := by
    simpa [Agenda.toList] using List.perm_cons_erase hmem
  exact ⟨_, .serve h hagenda hperm⟩

/-- Once nothing waits, a fair run holds what the grammar finds. -/
theorem Fair.holds {layout : Layout} {input : Input} (hg : g.Indexed) (hunasked : g.RootUnasked)
    (h : run.Fair g (.new layout input) n) (hidle : ∀ k id, ¬run.Waits k id) : run.chart.Holds g := by
  have hend : run.Progress g (.new layout input) run.chart.columns.size :=
    { h.progress with orderly := { h.progress.orderly with idle := fun _ => hidle _ _ } }
  exact (hend.closed (Nat.le_refl _)).holds hg (hunasked.unscanned hg) hend.orderly.filed h.justified

/-- No more states are served than there are in a chart with everything that the grammar finds. -/
theorem Fair.length_le {layout : Layout} {input : Input} (h : run.Fair g (.new layout input) n) {c : Chart}
    (hholds : c.Holds g) (hlayout : c.layout = layout) (hinput : c.input = input) : n ≤ c.states.size := by
  obtain ⟨done, rfl, honce⟩ := h.once
  have hfiled := h.progress.orderly.filed
  have hgrows := h.progress.orderly.grows
  have hspots : ∀ i ∈ done, run.chart.spot? i ∈ (List.range c.states.size).map c.spot? := by
    intro i hi
    obtain ⟨s, hs⟩ := honce.live hi
    have hfind := h.justified.live hs
    rw [hgrows.input, hgrows.layout] at hfind
    obtain ⟨j, hj⟩ := (hholds.live s).mpr (by rw [hinput, hlayout]; exact hfind)
    exact List.mem_map.mpr ⟨j, List.mem_range.mpr hj.lt_size, hj.spot?.trans hs.spot?.symm⟩
  have hlength := (hfiled.subperm_spots honce.nodup_done (fun _ => honce.live) hspots).length_le
  rwa [List.length_map, List.length_map, List.length_range] at hlength

/-- Working off columns serves the states in one of the possible orders. -/
theorem worked_serving (g : Grammar) (c : Chart) (start : Run) :
    Worked g c fun k run => run.Orderly g c k ∧ ∃ n, Serving g start n run where
  orderly h := h.1
  idle h hidle := ⟨(worked_orderly g c).idle h.1 hidle, h.2⟩
  work work h := by
    obtain ⟨horderly, n, hserving⟩ := h
    exact ⟨(worked_orderly g c).work work horderly, n, hserving.recount work⟩
  process work h hagenda hpop hs hstop hok := by
    obtain ⟨horderly, n, hserving⟩ := h
    exact ⟨(worked_orderly g c).process work horderly hagenda hpop hs hstop hok, n + 1,
      (hserving.recount work).serve hagenda (List.Perm.of_eq (Agenda.toList_of_pop? hpop))⟩

/-- A build that is not given up serves all states in one of the possible orders. -/
theorem serving_of_build {layout : Layout} {input : Input} {budget : Budget} (hg : g.Indexed)
    (hbuild : (Run.on (.new layout input) (Chart.new layout input).idleAgendas).build g budget = (run, none)) :
    ∃ n, Serving g (atRoot g layout input) n run ∧ ∀ k id, ¬run.Waits k id := by
  have hfair := fair_atRoot hg layout input
  have hbuild : (atRoot g layout input).onwards g budget 0 = (run, none) := hbuild
  have hok : ((atRoot g layout input).onwards g budget 0).1.breach = none :=
    (hfair.unbroken.columns hg budget _).breach
  obtain ⟨-, hend⟩ := onwards_spec (worked_serving g (.new layout input) (atRoot g layout input)) budget
    (Nat.zero_le _) ⟨hfair.progress.orderly, 0, .start⟩ hok
  rw [hbuild] at hend
  obtain ⟨horderly, n, hserving⟩ := hend rfl
  refine ⟨n, hserving, fun k id hwaits => ?_⟩
  obtain ⟨s, hs, rfl⟩ := horderly.waiting hwaits
  exact horderly.idle (horderly.grows.size_columns ▸ (horderly.filed.bounds hs.spot?).2) hwaits

end Run

namespace Chart

variable {g : Grammar} {c : Chart}

/-- A chart that was built without being given up has exactly the states and the derivations that the grammar
finds, each once. The states may be served in any order: there is one in which the build serves them, and in
whichever order they are served, it comes to an end, with the same states and the same derivations. -/
theorem build_exact (hg : g.Indexed) (hunused : g.RootUnused) {layout : Layout} {input : Input}
    {budget : Budget} (hbuild : (new layout input).build g budget = .ok (c, none)) :
    (∀ s, (∃ id, c.Live id s) ↔ Findable g input layout.last s) ∧
    (∀ i j s, c.Live i s → c.Live j s → i = j) ∧
    (∀ id s, c.Live id s → (c.ways id).Nodup ∧ ∀ l, l ∈ c.ways id ↔ Derivable g input layout.last s l) ∧
    (∃ n run, Run.Serving g (Run.atRoot g layout input) n run ∧ (∀ k id, ¬run.Waits k id) ∧ run.chart = c) ∧
    ∀ n run, Run.Serving g (Run.atRoot g layout input) n run →
      run.breach = none ∧ n ≤ c.states.size ∧
      ((∃ k id, run.Waits k id) → ∃ run', Run.Serving g (Run.atRoot g layout input) (n + 1) run') ∧
      ((∀ k id, ¬run.Waits k id) → run.chart.SameUpToOrder c) := by
  obtain ⟨hholds, hfiled, hlayout, hinput⟩ := build_holds hg hunused.unasked hbuild
  obtain ⟨-, built, hbuilt, -, rfl⟩ := build_eq_ok_iff.mp hbuild
  have hstart := Run.fair_atRoot hg layout input
  -- the build is itself one order of serving what waits
  obtain ⟨n, hserving, hidle⟩ := Run.serving_of_build hg hbuilt
  obtain ⟨_, -, honce⟩ := (hserving.fair hg hstart).once
  refine ⟨fun s => ?_, fun i j s => hfiled.unique, fun id s hs => ⟨hfiled.nodup_ways honce.derivesOnce hs,
    fun l => ?_⟩, ⟨n, built, hserving, hidle, rfl⟩, fun m run hrun => ?_⟩
  · rw [hholds.live, hlayout, hinput]
  · rw [hfiled.mem_ways hs, hholds.derivation, hlayout, hinput]
  · have hfair := hrun.fair hg hstart
    refine ⟨hfair.unbroken.breach, hfair.length_le hholds hlayout hinput, ?_, fun hidle' => ?_⟩
    · rintro ⟨k, id, hid⟩
      exact hrun.next hid
    · obtain ⟨_, -, honce'⟩ := hfair.once
      have hgrows := hfair.progress.orderly.grows
      have hagrees := (hfair.holds hg hunused.unasked hidle').agrees hholds (hgrows.layout.trans hlayout.symm)
        (hgrows.input.trans hinput.symm)
      exact hagrees.sameUpToOrder hfair.progress.orderly.filed hfiled honce'.derivesOnce honce.derivesOnce

open Sample in
/-- The chart of two words is the same in whichever order the states of all lists are served. -/
theorem build_exact_lists : ∃ c : Chart, lists.Indexed ∧ lists.RootUnused ∧
    blank.build lists ample = .ok (c, none) ∧
    ∀ n run, Run.Serving lists (Run.atRoot lists blank.layout blank.input) n run →
      (∀ k id, ¬run.Waits k id) → run.chart.SameUpToOrder c := by
  obtain ⟨c, hc⟩ := Option.isSome_iff_exists.mp
    (show (completed? (blank.build lists ample)).isSome = true by decide +kernel)
  have hbuild := ok_of_completed? hc
  have hindexed := (reachable_singles.insert longer).indexed
  obtain ⟨-, -, -, -, hany⟩ := build_exact hindexed rootUnused_lists hbuild
  exact ⟨c, hindexed, rootUnused_lists, hbuild, fun n run hrun => (hany n run hrun).2.2.2⟩

end Chart

end IndexedGrammar
