import IndexedGrammar.Proofs.Forest.Exact
import IndexedGrammar.Proofs.Forest.Reached
import IndexedGrammar.Proofs.Session.Upkeep

/-!
# Charts that follow a grammar

An editor follows a grammar on an input if its chart has what is kept under the grammar, such as to hold what the
grammar finds there, and if rejecting the open transaction leads back to a chart that has it under the grammar before
the transaction. A change of the grammar that is handed to the editor keeps this. Once a change could not be handed
on, or a run was given up, only the way back is left, until the transaction is rejected.
-/

namespace IndexedGrammar

/-- The chart of an input that was kept up with a grammar. -/
structure Chart.KeptUp (blank : Chart) (u : Upkeep) (g : Grammar) (c : Chart) : Prop where
  filed : c.Filed g
  keeps : u.keeps g c
  layout : c.layout = blank.layout
  input : c.input = blank.input

/-- A chart that holds what a fit grammar finds is settled. -/
theorem Chart.KeptUp.settled {blank c : Chart} {g : Grammar} (h : blank.KeptUp .ofHolds g c) (hg : g.Fit) :
    c.Settled g :=
  ⟨hg.reachable.indexed, hg.rootUnused.unasked, h.filed, h.keeps⟩

namespace Editor

/-- What holds of an editor on the input of a chart, with the grammar before the open transaction, if one is
open, and whether a change has failed since then. -/
structure Follows (u : Upkeep) (blank : Chart) (g : Grammar) (before : Option Grammar) (failed : Bool)
    (e : Editor) : Prop where
  sound : Sound g e
  layout : e.chart.layout = blank.layout
  input : e.chart.input = blank.input
  keeps : failed = false → u.keeps g e.chart
  inTransaction_eq : e.inTransaction = before.isSome
  back : ∀ g₀ ∈ before, ∃ base, blank.KeptUp u g₀ base ∧ e.LeadsBackTo base

variable {u : Upkeep} {blank : Chart} {g g' : Grammar} {before : Option Grammar} {failed : Bool} {e e' : Editor}

/-- The chart of an editor that follows a grammar was kept up with it. -/
theorem Follows.keptUp (h : Follows u blank g before false e) : blank.KeptUp u g e.chart :=
  ⟨h.sound.filed, h.keeps rfl, h.layout, h.input⟩

/-- Editors that follow a grammar on the same input hold twins. -/
theorem Follows.twins {other : Option Grammar} (hg : g.Fit) (h : Follows .ofHolds blank g before false e)
    (h' : Follows .ofHolds blank g other false e') : Chart.Twins g e.chart e'.chart where
  left := h.keptUp.settled hg
  right := h'.keptUp.settled hg
  layout := h'.layout.trans h.layout.symm
  input := h'.input.trans h.input.symm

/-- An editor outside a transaction follows a grammar if its chart was kept up with it. -/
theorem follows_of_keptUp (hkept : blank.KeptUp u g e.chart) (hsound : Sound g e)
    (hopen : e.inTransaction = false) : Follows u blank g none false e where
  sound := hsound
  layout := hkept.layout
  input := hkept.input
  keeps _ := hkept.keeps
  inTransaction_eq := hopen
  back g₀ h := absurd h (by simp)

/-- The chart of a sentence is sound when it is parsed, and not in a transaction. -/
theorem sound_parse {lexicon : Lexicon} {budget : Budget} {words : List String}
    (hparse : parse g lexicon budget words = .ok e) : Sound g e ∧ e.inTransaction = false := by
  have hnew : Sound g (new (Chart.forSentence lexicon words) budget) := sound_new _ _ budget g
  have hnoted := hnew.noted_build (finished_eq_ok.mp hparse)
  exact ⟨hnoted.sound hnew, hnoted.inTransaction_eq⟩

/-- The chart of a sentence follows the grammar it is parsed with. -/
theorem follows_parse (hg : u.admits g) {lexicon : Lexicon} {budget : Budget} {words : List String}
    (hparse : parse g lexicon budget words = .ok e) :
    Follows u (Chart.forSentence lexicon words) g none false e := by
  have hbuild : ((new (Chart.forSentence lexicon words) budget).build g) = .ok (e, none) :=
    finished_eq_ok.mp hparse
  have hchart : (Chart.forSentence lexicon words).build g budget = .ok (e.chart, none) := by
    rw [Chart.build, hbuild]
    rfl
  obtain ⟨-, -, hfiled, hlayout, hinput⟩ := Chart.build_spec hchart
  obtain ⟨hsound, hclosed⟩ := sound_parse hparse
  exact follows_of_keptUp ⟨hfiled, u.build hg hchart, hlayout, hinput⟩ hsound hclosed

/-- A failure elsewhere leaves no more than the way back. -/
theorem Follows.mono (h : Follows u blank g before failed e) (elsewhere : Bool) :
    Follows u blank g before (failed || elsewhere) e :=
  { h with keeps := fun hfailed => h.keeps (Bool.or_eq_false_iff.mp hfailed).1 }

/-- Requesting cancellation changes nothing of this. -/
theorem Follows.requestAt (h : Follows u blank g before failed e) (column : Option Nat) :
    Follows u blank g before failed (e.requestAt column) where
  sound := h.sound.requestAt column
  layout := h.layout
  input := h.input
  keeps := h.keeps
  inTransaction_eq := h.inTransaction_eq
  back g₀ hg₀ := by
    obtain ⟨base, hkept, hback⟩ := h.back g₀ hg₀
    exact ⟨base, hkept, hback.requestAt column⟩

/-- Opening a transaction leads back to the grammar as it is. -/
theorem Follows.begin (h : Follows u blank g none false e) (hbegin : e.begin = .ok e') :
    Follows u blank g (some g) false e' := by
  obtain ⟨hsound, hback⟩ := h.sound.begin hbegin
  unfold Editor.begin at hbegin
  split at hbegin
  · contradiction
  · obtain rfl := Except.ok.inj hbegin
    refine ⟨hsound, h.layout, h.input, h.keeps, rfl, fun g₀ hg₀ => ?_⟩
    obtain rfl := Option.mem_some.mp hg₀
    exact ⟨e.chart, h.keptUp, hback⟩

/-- A change that the journal notes keeps the way back. -/
theorem Follows.noted (h : Follows u blank g before failed e) (hnoted : Noted g' e e') {failed' : Bool}
    (hlayout : e'.chart.layout = e.chart.layout) (hinput : e'.chart.input = e.chart.input)
    (hsound : Sound g' e) (hkeeps : failed' = false → u.keeps g' e'.chart) :
    Follows u blank g' before failed' e' where
  sound := hnoted.sound hsound
  layout := hlayout.trans h.layout
  input := hinput.trans h.input
  keeps := hkeeps
  inTransaction_eq := hnoted.inTransaction_eq.trans h.inTransaction_eq
  back g₀ hg₀ := by
    obtain ⟨base, hkept, hback⟩ := h.back g₀ hg₀
    exact ⟨base, hkept, hnoted.leadsBackTo hback⟩

/-- A rule that is inserted into the grammar alone leaves only the way back. -/
theorem Follows.outdate (h : Follows u blank g before failed e) (r : Rule) :
    Follows u blank (g.insert r) before true e :=
  { h with
    sound := h.sound.regrammar (sameRules_insert h.sound.filed r)
    keeps := fun hfailed => absurd hfailed (by simp) }

/-- Inserting a rule into the chart as well follows the grammar, unless the run is given up. -/
theorem Follows.insertRule (h : Follows u blank g before failed e) (hg : u.admits g) {r : Rule}
    (hinserted : u.admits (g.insert r)) {fault : Option Fault}
    (hinsert : e.insertRule (g.insert r) g.size = .ok (e', fault)) :
    Follows u blank (g.insert r) before (failed || fault.isSome) e' := by
  have hsound := h.sound.regrammar (sameRules_insert h.sound.filed r)
  obtain ⟨-, run, -, -, -, hfinished, hchart, hnoted⟩ := hsound.insertRule_spec hinsert
  refine h.noted hnoted ?_ ?_ hsound fun hfailed => ?_
  · exact hchart ▸ hfinished.grows.layout
  · exact hchart ▸ hfinished.grows.input
  · obtain ⟨hstill, hnone⟩ := Bool.or_eq_false_iff.mp hfailed
    obtain rfl : fault = none := by simpa using hnone
    exact u.insertRule hg hinserted h.sound (h.keeps hstill) hinsert

/-- Taking a rule out of the chart as well follows the grammar. -/
theorem Follows.removeRule (h : Follows u blank g before failed e) (hg : u.admits g) {id : Nat}
    (hremove : g.remove? id = some g') (hopen : before.isSome = true)
    (hremoved : e.removeRule g' id = .ok e') : Follows u blank g' before failed e' := by
  have hsound := h.sound.regrammar (sameRules_remove hremove)
  have horderly := Removal.removeRule_orderly (r := Removal.on e.chart) hsound.filed id
  obtain ⟨hnoted, heq⟩ := hsound.removeRule_eq id
  rw [heq, h.inTransaction_eq, hopen, if_pos rfl] at hremoved
  obtain rfl := Except.ok.inj hremoved
  exact h.noted hnoted horderly.layout horderly.input hsound fun hfailed =>
    u.removeRule hg hremove hsound.filed (h.keeps hfailed)

/-- Accepting a transaction keeps the chart up. -/
theorem Follows.accept (h : Follows u blank g before false e) (haccept : e.accept = .ok e') :
    Follows u blank g none false e' := by
  obtain ⟨hsound, hopen, hchart⟩ := h.sound.accept haccept
  refine follows_of_keptUp ?_ hsound hopen
  rcases hchart with hchart | hchart
  · rw [hchart]
    exact h.keptUp
  · rw [hchart]
    exact ⟨h.sound.filed.renumbered, u.renumbered h.sound.filed (h.keeps rfl), h.layout, h.input⟩

/-- Rejecting a transaction goes back to the grammar before it, whatever has failed. -/
theorem Follows.reject {g₀ : Grammar} (h : Follows u blank g (some g₀) failed e)
    (hreject : e.reject = .ok e') : Follows u blank g₀ none false e' := by
  obtain ⟨base, hkept, hback⟩ := h.back g₀ rfl
  rw [hback.reject h.sound.size_agendas] at hreject
  obtain rfl := Except.ok.inj hreject
  refine follows_of_keptUp hkept ⟨hkept.filed, Array.size_replicate, fun _ hagenda => ?_,
    fun hopen => absurd hopen (by simp [inTransaction])⟩ rfl
  exact (Array.mem_replicate.mp hagenda).2

end Editor

end IndexedGrammar
