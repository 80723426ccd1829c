import IndexedGrammar.Proofs.Chart.Mirrors.Editor
import IndexedGrammar.Proofs.Forest.Mirrors

/-!
# Nothing but numbers changes when a chart is compacted

At the end of a transaction, and after a removal outside of one, the states that were taken out are dropped and the
others are numbered anew. However the editor came about, nothing else changes: what is live and what is shown, the
derivations of each state in their order, the forest, and every answer to later requests are as if all states had
stayed in place. Every number that the chart holds afterwards is that of a state.
-/

namespace IndexedGrammar

namespace Chart

variable {c : Chart}

/-- All numbers that a chart holds are those of states. -/
structure InRange (c : Chart) : Prop where
  links : ∀ s ∈ c.states, ∀ d ∈ s.derivations, ∀ link ∈ d.links, link < c.states.size
  parents : c.ParentsInRange
  listed : ∀ column ∈ c.columns, ∀ id ∈ column.states, id < c.states.size
  lookup : ∀ column ∈ c.columns, ∀ (item : Item) (id : Nat), column.lookup[item]? = some id → id < c.states.size
  expecting : ∀ column ∈ c.columns, ∀ symbol, ∀ id ∈ column.expecting.ids symbol, id < c.states.size
  reductors : ∀ column ∈ c.columns, ∀ lhs, ∀ id ∈ column.reductors.ids lhs, id < c.states.size
  byRule : ∀ rule, ∀ id ∈ c.byRule.ids rule, id < c.states.size

/-- A new number is that of a state. -/
theorem lt_of_renumber {id n : Nat} (h : c.renumber id = some n) : n < c.renumbered.states.size := by
  obtain ⟨⟨-, s, hs, hlive, -⟩, -⟩ := renumber_eq_some_iff.mp h
  exact (Array.getElem?_eq_some_iff.mp (getElem?_renumbered.mpr ⟨id, s, h, hs, hlive, rfl⟩)).1

/-- What has got new numbers is in range. -/
theorem lt_of_mem_filterMap_renumber {ids : List Nat} {n : Nat} (h : n ∈ ids.filterMap c.renumber) :
    n < c.renumbered.states.size := by
  obtain ⟨id, -, hid⟩ := List.mem_filterMap.mp h
  exact lt_of_renumber hid

/-- Under new numbers all numbers are those of states. -/
theorem inRange_renumbered (c : Chart) : c.renumbered.InRange := by
  have hstate {s : State} (hs : s ∈ c.renumbered.states) : ∃ t, renumberState c.renumber t = s := by
    obtain ⟨t, -, rfl⟩ := Array.mem_map.mp hs
    exact ⟨t, rfl⟩
  have hcolumn {column : Column} (h : column ∈ c.renumbered.columns) :
      ∃ old, renumberColumn c.renumber old = column := by
    obtain ⟨old, -, rfl⟩ := Array.mem_map.mp h
    exact ⟨old, rfl⟩
  constructor
  case links =>
    intro s hs d hd link hlink
    obtain ⟨t, rfl⟩ := hstate hs
    rw [derivations_renumberState] at hd
    obtain ⟨e, -, rfl⟩ := List.mem_map.mp hd
    rw [Derivation.links_under] at hlink
    exact lt_of_mem_filterMap_renumber hlink
  case parents =>
    intro s hs parent hparent
    obtain ⟨t, rfl⟩ := hstate hs
    exact lt_of_mem_filterMap_renumber hparent
  case listed =>
    intro column h id hid
    obtain ⟨old, rfl⟩ := hcolumn h
    obtain ⟨former, -, hformer⟩ := Array.mem_filterMap.mp hid
    exact lt_of_renumber hformer
  case lookup =>
    intro column h item id hid
    obtain ⟨old, rfl⟩ := hcolumn h
    simp only [renumberColumn, Std.ExtTreeMap.getElem?_filterMap, Option.pbind_eq_bind] at hid
    obtain ⟨former, -, hformer⟩ := Option.bind_eq_some_iff.mp hid
    exact lt_of_renumber hformer
  case expecting =>
    intro column h symbol id hid
    obtain ⟨old, rfl⟩ := hcolumn h
    simp only [renumberColumn, Index.ids_renumber] at hid
    exact lt_of_mem_filterMap_renumber hid
  case reductors =>
    intro column h lhs id hid
    obtain ⟨old, rfl⟩ := hcolumn h
    simp only [renumberColumn, Index.ids_renumber] at hid
    exact lt_of_mem_filterMap_renumber hid
  case byRule =>
    intro rule id hid
    rw [show c.renumbered.byRule.ids rule = _ from Index.ids_renumber ..] at hid
    exact lt_of_mem_filterMap_renumber hid

end Chart

namespace Editor

variable {g : Grammar} {e e' kept : Editor}

/-- The second editor is the first one after the states that were taken out were dropped and the others numbered anew.
Outside of transactions, nothing else has changed. -/
structure Renumbered (g : Grammar) (kept e : Editor) : Prop where
  closed : e.journal = none
  idle : ∀ agenda ∈ e.agendas, agenda = .empty
  /-- No state is left that was taken out. -/
  intact : ∀ s ∈ e.chart.states, s.removed = false
  inRange : e.chart.InRange
  /-- The states are numbered in the order in which they stood. -/
  numbers : (List.range kept.chart.states.size).filterMap kept.chart.renumber = List.range e.chart.states.size
  /-- A state that was not taken out has a new number, and so has every state that it was derived from. There it is
  found with the same derivations, in the same order. -/
  states : ∀ (id : Nat) (s : State), kept.chart.states[id]? = some s → s.removed = false →
    ∃ (n : Nat) (s' : State), kept.chart.renumber id = some n ∧ e.chart.states[n]? = some s' ∧ s'.spot = s.spot ∧
      s'.derivations = s.derivations.map kept.chart.renumberDerivation ∧
      ∀ d ∈ s.derivations, ∀ link ∈ d.links, ∃ m, kept.chart.renumber link = some m
  liveStates : e.chart.liveStates = kept.chart.liveStates
  shown : ∀ k, e.chart.shown k = kept.chart.shown k
  text : ∀ g', e.chart.text g' = kept.chart.text g'
  forest : Forest.ofChart e.chart g = Forest.ofChart kept.chart g
  read : Forest.read e.chart g = Forest.read kept.chart g
  /-- Later requests are answered as if no state were ever dropped. -/
  answers : ∀ turns, e.KeepsRules g turns → e.answers false turns = kept.answers true turns

/-- Compacting a sound editor outside of a transaction changes nothing but numbers, if the chart is wired and its states
list only states as their parents. -/
theorem Sound.renumbered_compact {parts : Category → Prop} (h : Sound g kept) (hclosed : kept.journal = none)
    (hwired : kept.chart.Wired g parts fun _ => False)
    (hparents : kept.chart.ParentsInRange)
    (hcompact : kept.compact = .ok e) (hreachable : Reachable e g) : Renumbered g kept e := by
  obtain rfl := Except.ok.inj ((h.compact_renumbered hparents).symm.trans hcompact)
  have hchart := h.filed.mirrors_renumbered hparents
  have hended : kept.inTransaction = false := by rw [inTransaction, hclosed, Option.isSome_none]
  have hmirrors : kept.Mirrors kept.chart.relocate { kept with chart := kept.chart.renumbered } :=
    ⟨hchart, rfl, rfl, rfl, fun hopen => absurd (hended.symm.trans hopen) (by simp)⟩
  obtain ⟨hforest, hread⟩ := hchart.forest h.filed hwired.steps h.filed.renumbered hwired.renumbered.steps
  exact {
    closed := hclosed
    idle := h.idle
    intact := fun s hs => by
      obtain ⟨n, hn⟩ := Array.getElem?_of_mem hs
      obtain ⟨-, t, -, -, hlive, rfl⟩ := Chart.getElem?_renumbered.mp hn
      exact hlive
    inRange := Chart.inRange_renumbered _
    numbers := by
      rw [Chart.filterMap_renumber (Nat.le_refl _), Chart.size_renumbered, List.take_of_length_le (by simp)]
    states := fun id s hs hlive => by
      have hid : kept.chart.Live id s.spot := ⟨s, hs, hlive, rfl⟩
      obtain ⟨n, hn⟩ := hid.renumber
      refine ⟨n, _, hn, Chart.getElem?_renumbered.mpr ⟨id, s, hn, hs, hlive, rfl⟩, rfl, rfl, fun d hd link hlink => ?_⟩
      obtain ⟨t, ht⟩ := h.filed.linked ⟨s, hs, hlive, hd⟩ hlink
      exact ht.renumber
    liveStates := hchart.liveStates
    shown := hchart.shown
    text := hchart.text
    forest := hforest
    read := hread
    answers := fun turns hkeeps => hmirrors.answers hreachable hkeeps }

/-- However an editor came about, when it ends its transaction, or removes a rule outside of one, it drops the states
that were taken out and numbers the others anew, and nothing else changes. -/
theorem Reachable.compact_changes_only_numbers (h : Reachable e g) :
    (e.inTransaction = true → ∃ kept e', e.acceptInPlace = .ok kept ∧ kept.compact = .ok e' ∧ e.accept = .ok e' ∧
      Renumbered g kept e') ∧
    (e.inTransaction = false → ∀ rule, ∃ kept e', e.removeInPlace g rule = .ok kept ∧ kept.compact = .ok e' ∧
      e.removeRule g rule = .ok e' ∧ Renumbered g kept e') := by
  have hsound := h.sound
  have hwired := (arises_iff_reachable.mpr h).wired.chart
  refine ⟨fun hopen => ?_, fun hclosed rule => ?_⟩
  · have hkept : e.acceptInPlace = .ok { e with journal := none } := by
      rw [acceptInPlace, hopen]
      rfl
    obtain ⟨e', haccept, -⟩ := hsound.accept_eq hopen
    have hcompact := (accept_eq_compact hopen).symm.trans haccept
    exact ⟨_, e', hkept, hcompact, haccept,
      hsound.closed.renumbered_compact rfl hwired h.parentsInRange hcompact (h.accept haccept)⟩
  · obtain ⟨hnoted, -⟩ := hsound.removeRule_eq rule
    have hended := hnoted.inTransaction_eq.trans hclosed
    have hjournal := Option.isNone_iff_eq_none.mp (by simpa [inTransaction] using hended)
    have hkept : e.removeInPlace g rule = .ok (e.afterRemoval ((Removal.on e.chart).removeRule g rule)) :=
      removeInPlace_eq (Removal.removeRule_orderly hsound.filed rule).breach
    obtain ⟨e', hremove, -⟩ := hsound.removeRule rule
    have hcompact := hremove
    simp only [removeRule_eq_bind, hkept, Except.bind, hended, Bool.false_eq_true, if_false] at hcompact
    exact ⟨_, e', hkept, hcompact, hremove, (hnoted.sound hsound).renumbered_compact hjournal
      (Removal.removeRule_wired hsound.filed hwired rule) (h.parentsInRange_removeRule rule) hcompact
      (h.removeRule hremove)⟩

/-- Where a rule had states, taking it out leaves states in the chart that were taken out. -/
theorem Sound.hasRemoved_afterRemoval (h : Sound g e) {rule id : Nat} (hid : id ∈ e.chart.byRule.ids rule) :
    (e.afterRemoval ((Removal.on e.chart).removeRule g rule)).chart.hasRemoved = true := by
  obtain ⟨s, hs, -⟩ := h.filed.mem_byRule.mp hid
  obtain ⟨hnoted, -⟩ := h.removeRule_eq rule
  obtain ⟨state, hstate, -⟩ := Option.map_eq_some_iff.mp (hnoted.spot? hs)
  refine Array.any_eq_true'.mpr ⟨state, Array.mem_of_getElem? hstate, ?_⟩
  by_contra hlive
  exact Removal.not_isLive_removeRule (g := g) (Removal.on e.chart) hid
    ⟨state.spot, state, hstate, Bool.eq_false_iff.mpr hlive, rfl⟩

open Sample in
/-- The rule for longer lists is inserted and taken out again in a transaction, or is there from the beginning and
taken out outside of one. Both times there are states to drop, and the charts go on as if those had stayed. -/
theorem compact_changes_only_numbers_lists : ∃ g, lists.remove? 2 = some g ∧
    (∃ e e₁ e₂ e₃ kept e₄ : Editor, (new blank ample).build singles = .ok (e, none) ∧ e.begin = .ok e₁ ∧
      e₁.insertRule lists 2 = .ok (e₂, none) ∧ e₂.removeRule g 2 = .ok e₃ ∧ e₃.acceptInPlace = .ok kept ∧
      e₃.accept = .ok e₄ ∧ kept.chart.hasRemoved = true ∧ Renumbered g kept e₄ ∧ ∀ requests : List Request,
        e₄.answers false (requests.map fun request => (g.insert pair, request)) =
          kept.answers true (requests.map fun request => (g.insert pair, request))) ∧
    ∃ e kept e' : Editor, (new blank ample).build lists = .ok (e, none) ∧ e.inTransaction = false ∧
      e.removeInPlace g 2 = .ok kept ∧ e.removeRule g 2 = .ok e' ∧ kept.chart.hasRemoved = true ∧
      Renumbered g kept e' := by
  have hrun : ((lists.remove? 2).bind fun _ => (completed? ((new blank ample).build singles)).bind fun e =>
      e.begin.toOption.bind fun e₁ => (completed? (e₁.insertRule lists 2)).bind fun e₂ =>
        (completed? ((new blank ample).build lists)).filter fun e =>
          e₂.inTransaction && (!e.inTransaction && (!(e₂.chart.byRule.ids 2).isEmpty &&
            !(e.chart.byRule.ids 2).isEmpty))).isSome = true := by
    decide +kernel
  obtain ⟨whole, hrun⟩ := Option.isSome_iff_exists.mp hrun
  simp only [Option.bind_eq_some_iff, Option.filter_eq_some_iff, Bool.and_eq_true, Bool.not_eq_true',
    List.isEmpty_eq_false_iff] at hrun
  obtain ⟨g, hremove, e, hbuild, e₁, hbegin, e₂, hinsert, hwhole, hopen, hclosed, hids, hids'⟩ := hrun
  have hbuild := ok_of_completed? hbuild
  have hbegin := ok_of_toOption hbegin
  have hinsert := ok_of_completed? hinsert
  have hwhole := ok_of_completed? hwhole
  refine ⟨g, hremove, ?_, ?_⟩
  · have hsingles : Reachable e singles := .build (.new _ _ ample singles) hbuild
    have he : Reachable e lists := .regrammar hsingles (sameRules_insert hsingles.sound.filed longer)
    have he₂ : Reachable e₂ g := .regrammar (.insertRule (.begin he hbegin) hinsert) (sameRules_remove hremove)
    obtain ⟨hnoted, htaken⟩ := he₂.sound.removeRule_eq 2
    rw [if_pos hopen] at htaken
    have he₃ := he₂.removeRule htaken
    obtain ⟨kept, e₄, hkept, -, haccept, hrenumbered⟩ :=
      he₃.compact_changes_only_numbers.1 (hnoted.inTransaction_eq.trans hopen)
    obtain ⟨id, hid⟩ := List.exists_mem_of_ne_nil _ hids
    -- accepting in place only closes the transaction
    have hsame : kept.chart = (e₂.afterRemoval ((Removal.on e₂.chart).removeRule g 2)).chart := by
      rw [acceptInPlace, hnoted.inTransaction_eq.trans hopen] at hkept
      obtain rfl := Except.ok.inj hkept
      rfl
    refine ⟨e, e₁, e₂, _, kept, e₄, hbuild, hbegin, hinsert, htaken, hkept, haccept, ?_, hrenumbered,
      fun requests => hrenumbered.answers _ (keepsRules_map requests ?_)⟩
    · exact hsame ▸ he₂.sound.hasRemoved_afterRemoval hid
    · exact sameRules_insert (he₃.accept haccept).sound.filed pair
  · have he : Reachable whole g := .regrammar (.build (.new _ _ ample lists) hwhole) (sameRules_remove hremove)
    obtain ⟨kept, e', hkept, -, htaken, hrenumbered⟩ := he.compact_changes_only_numbers.2 hclosed 2
    obtain ⟨id, hid⟩ := List.exists_mem_of_ne_nil _ hids'
    have hbreach := (Removal.removeRule_orderly (r := Removal.on whole.chart) he.sound.filed 2).breach
    obtain rfl := Except.ok.inj ((removeInPlace_eq hbreach).symm.trans hkept)
    exact ⟨whole, _, e', hwhole, hclosed, hkept, htaken, he.sound.hasRemoved_afterRemoval hid, hrenumbered⟩

end Editor

end IndexedGrammar
