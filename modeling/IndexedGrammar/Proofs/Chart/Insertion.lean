import IndexedGrammar.Proofs.Chart.Content
import IndexedGrammar.Proofs.Chart.Editor

/-!
# Inserting a rule and building anew

Two charts agree if they have the same live states, each with the same derivations, and predict the
same categories at every column, whatever numbers their states have. Inserting a rule into a chart that
agrees with one built without the rule leads to a chart that agrees with one built with it. This holds
for every grammar, with unit cycles, nullable rules and left recursion.
-/

namespace IndexedGrammar

namespace Chart

/-- Two charts with the same live states, derivations and predictions. -/
structure Agrees (c d : Chart) : Prop where
  live : ∀ s, (∃ id, c.Live id s) ↔ ∃ id, d.Live id s
  derivation : ∀ s l, c.HasDerivation s l ↔ d.HasDerivation s l
  isPredicted : ∀ k symbol, c.isPredicted k symbol = d.isPredicted k symbol

/-- A chart agrees with itself. -/
theorem Agrees.refl (c : Chart) : c.Agrees c :=
  ⟨fun _ => Iff.rfl, fun _ _ => Iff.rfl, fun _ _ => rfl⟩

/-- Charts that agree with the same chart on either side agree. -/
theorem Agrees.trans {b c d : Chart} (h : b.Agrees c) (h' : c.Agrees d) : b.Agrees d :=
  ⟨fun s => (h.live s).trans (h'.live s), fun s l => (h.derivation s l).trans (h'.derivation s l),
    fun k symbol => (h.isPredicted k symbol).trans (h'.isPredicted k symbol)⟩

variable {g : Grammar} {c d : Chart}

/-- Charts that hold what a grammar finds in the same input agree. -/
theorem Holds.agrees (hc : c.Holds g) (hd : d.Holds g) (hlayout : c.layout = d.layout)
    (hinput : c.input = d.input) : c.Agrees d where
  live s := by rw [hc.live, hd.live, hlayout, hinput]
  derivation s l := by rw [hc.derivation, hd.derivation, hlayout, hinput]
  isPredicted k symbol := by
    rw [Bool.eq_iff_iff, hc.isPredicted, hd.isPredicted, hlayout, hinput]

/-- A chart that agrees with one that holds what a grammar finds in the same input holds it too. -/
theorem Agrees.holds (h : c.Agrees d) (hd : d.Holds g) (hlayout : c.layout = d.layout)
    (hinput : c.input = d.input) : c.Holds g where
  live s := by rw [h.live, hd.live, hlayout, hinput]
  derivation s l := by rw [h.derivation, hd.derivation, hlayout, hinput]
  isPredicted k symbol := by rw [h.isPredicted, hd.isPredicted, hlayout, hinput]

/-- A chart that agrees with a closed one on the same input is closed. -/
theorem Agrees.closed (h : c.Agrees d) (hd : d.Closed g) (hsize : c.columns.size = d.columns.size)
    (hinput : c.input = d.input) : c.Closed g := by
  have hlive {id : Nat} {s : Spot} (hs : c.Live id s) : ∃ j, d.Live j s := (h.live s).mp ⟨id, hs⟩
  have hhas {s : Spot} {l : Link} (hs : d.HasDerivation s l) : c.HasDerivation s l := (h.derivation s l).mpr hs
  refine ⟨hhas hd.root, fun hpredicted hrule => ?_, ⟨fun _ hs hexpects hsymbol => ?_,
    fun _ hs hexpects hsymbol hpos hk hallows => ?_,
    fun _ _ hs ht hexpects hsymbol hcompletes horigin => ?_⟩, fun _ hs hexpects hsymbol => ?_⟩
  · exact hhas (hd.rulesBegun ((h.isPredicted _ _).symm.trans hpredicted) hrule)
  · obtain ⟨j, hj⟩ := hlive hs
    exact hhas (hd.served.skip ⟨_, hj⟩ hj hexpects hsymbol)
  · obtain ⟨j, hj⟩ := hlive hs
    rw [allows, hinput] at hallows
    exact hhas (hd.served.scan ⟨_, hj⟩ hj hexpects hsymbol hpos (hsize ▸ hk) hallows)
  · obtain ⟨i, hi⟩ := hlive hs
    obtain ⟨j, hj⟩ := hlive ht
    exact hhas (hd.served.complete ⟨_, hi⟩ ⟨_, hj⟩ hi hj hexpects hsymbol hcompletes horigin)
  · obtain ⟨j, hj⟩ := hlive hs
    exact (h.isPredicted _ _).trans (hd.served.predicted ⟨_, hj⟩ hj hexpects hsymbol)

/-- The agendas on which nothing waits yet. -/
def idleAgendas (c : Chart) : Array Agenda :=
  .replicate c.columns.size .empty

/-- There is an agenda for each column. -/
theorem size_idleAgendas (c : Chart) : c.idleAgendas.size = c.columns.size :=
  Array.size_replicate

/-- Nothing is on the agendas on which nothing waits yet. -/
theorem eq_empty_of_mem_idleAgendas (c : Chart) : ∀ agenda ∈ c.idleAgendas, agenda = .empty :=
  fun _ hagenda => (Array.mem_replicate.mp hagenda).2

/-- Building a chart is a run over it, if the grammar has a synthetic rule. -/
theorem build_eq_ok_iff {layout : Layout} {input : Input} {budget : Budget} {fault : Option Fault} :
    (new layout input).build g budget = .ok (c, fault) ↔ g.rootRule?.isSome = true ∧
      ∃ run, (Run.on (new layout input) (new layout input).idleAgendas).build g budget = (run, fault) ∧
        run.breach = none ∧ run.chart = c := by
  have hempty : (new layout input).states.isEmpty = true := rfl
  unfold Chart.build Editor.build Editor.new
  simp only [hempty, Bool.not_true, Bool.false_eq_true, if_false]
  cases hroot : g.rootRule? with
  | none => simp [Except.map]
  | some root =>
    simp only [Option.isNone_some, Bool.false_eq_true, if_false, Option.isSome_some, true_and]
    show (Editor.afterRun _ ((Run.on _ (new layout input).idleAgendas).build g budget)).map _ = _ ↔ _
    obtain ⟨run, given⟩ := (Run.on (new layout input) (new layout input).idleAgendas).build g budget
    simp only [Editor.afterRun]
    cases hbreach : run.breach with
    | none => simp [Except.map, hbreach, and_comm]
    | some breach => simp [Except.map, hbreach]

/-- A chart built without being given up is closed, and everything in it is found by the grammar. -/
theorem build_spec {layout : Layout} {input : Input} {budget : Budget}
    (hbuild : (new layout input).build g budget = .ok (c, none)) :
    c.Closed g ∧ c.Justified g ∧ c.Filed g ∧ c.layout = layout ∧ c.input = input := by
  obtain ⟨-, run, hrun, hbreach, rfl⟩ := build_eq_ok_iff.mp hbuild
  obtain ⟨rfl, hfault⟩ := Prod.mk.inj hrun
  have hsize := (new layout input).size_idleAgendas
  have hidle := (new layout input).eq_empty_of_mem_idleAgendas
  have hfinished := Run.build_finished budget (filed_new g layout input) hsize hidle hbreach
  exact ⟨Run.build_closed budget hsize hidle hbreach hfault, Run.build_justified budget hsize hidle hbreach,
    hfinished.filed, hfinished.grows.layout, hfinished.grows.input⟩

/-- A chart built without being given up holds what the grammar finds. -/
theorem build_holds (hg : g.Indexed) (hunasked : g.RootUnasked) {layout : Layout} {input : Input}
    {budget : Budget} (hbuild : (new layout input).build g budget = .ok (c, none)) :
    c.Holds g ∧ c.Filed g ∧ c.layout = layout ∧ c.input = input := by
  obtain ⟨hclosed, hjustified, hfiled, hsame⟩ := build_spec hbuild
  exact ⟨hclosed.holds hg (hunasked.unscanned hg) hfiled hjustified, hfiled, hsame⟩

end Chart

namespace Editor

variable {g : Grammar} {e e' : Editor}

/-- Inserting a rule into a chart that agrees with one built without the rule leads to a chart that
agrees with one built with it, whenever the insertion and the build are not given up. -/
theorem insertRule_agrees {g' : Grammar} {rule : Nat} {before after : Budget} {old new : Chart}
    (hg : g.Reachable) (hunused : g.RootUnused) (hwithout : g.Without rule g')
    (he : Reachable e g)
    (hold : (Chart.new e.chart.layout e.chart.input).build g' before = .ok (old, none))
    (hagrees : e.chart.Agrees old) (hinsert : e.insertRule g rule = .ok (e', none))
    (hnew : (Chart.new e.chart.layout e.chart.input).build g after = .ok (new, none)) :
    e'.chart.Agrees new := by
  have hsound := he.sound
  obtain ⟨hold', -, hlayout, hinput⟩ :=
    Chart.build_holds hwithout.indexed' (hwithout.rootUnused hunused).unasked hold
  obtain ⟨hnew', -, hlayout', hinput'⟩ := Chart.build_holds hg.indexed hunused.unasked hnew
  have hholds := hagrees.holds hold' hlayout.symm hinput.symm
  obtain ⟨r, run, hr, hrun, hbreach, hfinished, hchart, -⟩ := hsound.insertRule_spec hinsert
  have hafter := Run.insertRule_holds hunused.unasked hwithout hr hsound.filed hholds e.budget
    hsound.size_agendas hsound.idle
  rw [hrun] at hafter
  rw [hchart]
  exact (hafter hbreach rfl).agrees hnew' (hfinished.grows.layout.trans hlayout'.symm)
    (hfinished.grows.input.trans hinput'.symm)

open Sample in
/-- Inserting the left-recursive rule for longer lists into the chart for single words leads to the
chart that is built with it. -/
theorem insertRule_agrees_lists : ∃ e e' : Editor, ∃ new : Chart, e.inTransaction = true ∧
    e.insertRule lists 2 = .ok (e', none) ∧ blank.build lists ample = .ok (new, none) ∧
    e'.chart.Agrees new := by
  have hrun : ((completed? ((Editor.new blank ample).build singles)).bind fun e₀ =>
      e₀.begin.toOption.bind fun e => (completed? (e.insertRule lists 2)).bind fun e' =>
        (completed? (blank.build lists ample)).map fun new => (e', new)).isSome = true := by
    decide +kernel
  obtain ⟨⟨e', new⟩, hrun⟩ := Option.isSome_iff_exists.mp hrun
  simp only [Option.bind_eq_some_iff, Option.map_eq_some_iff, Prod.mk.injEq, exists_eq_right_right]
    at hrun
  obtain ⟨e₀, hbuild, e, hbegin, hinsert, hnew⟩ := hrun
  have hbuild := ok_of_completed? hbuild
  have hbegin := ok_of_toOption hbegin
  have hinsert := ok_of_completed? hinsert
  have hnew := ok_of_completed? hnew
  have hsingles : Reachable e₀ singles := .build (.new _ _ ample singles) hbuild
  have he₀ : Reachable e₀ lists := .regrammar hsingles (sameRules_insert hsingles.sound.filed longer)
  have hold : blank.build singles ample = .ok (e₀.chart, none) := by
    simp only [Chart.build, hbuild, Except.map]
  have hwithout : lists.Without 2 singles := Grammar.without_insert reachable_singles.indexed longer
  obtain ⟨-, -, hlayout, hinput⟩ :=
    Chart.build_holds hwithout.indexed' (hwithout.rootUnused rootUnused_lists).unasked hold
  have he : Reachable e lists := .begin he₀ hbegin
  -- opening a transaction leaves the chart as it was built
  unfold Editor.begin at hbegin
  split at hbegin
  · contradiction
  · obtain rfl := Except.ok.inj hbegin
    have hagain : Chart.new e₀.chart.layout e₀.chart.input = blank := by
      rw [hlayout, hinput]
      rfl
    exact ⟨_, e', new, rfl, hinsert, hnew,
      insertRule_agrees (reachable_singles.insert longer) rootUnused_lists hwithout he
        (hagain ▸ hold) (.refl e₀.chart) hinsert (hagain ▸ hnew)⟩

end Editor

end IndexedGrammar
