import IndexedGrammar.Proofs.Chart.Arising
import IndexedGrammar.Proofs.Chart.Deletion
import IndexedGrammar.Proofs.Grammar.Changes

/-!
# What changes keep of charts

A build that is not given up leads to a chart that holds what its grammar finds, and handing the changes of the
grammar to the chart keeps this, as long as the grammar stays fit. Whatever the grammar is like, the chart sustains
itself, and so has at least what the grammar finds.
-/

namespace IndexedGrammar

/-- A property of charts under the grammars of some kind that finished builds lead to, and that is kept when a rule is
inserted without being given up, when one is taken out, and under new numbers. -/
structure Upkeep where
  admits : Grammar → Prop
  keeps : Grammar → Chart → Prop
  reachable : ∀ {g}, admits g → g.Reachable
  remove : ∀ {g g' id}, admits g → g.remove? id = some g' → admits g'
  build : ∀ {g layout input budget c}, admits g →
    (Chart.new layout input).build g budget = .ok (c, none) → keeps g c
  insertRule : ∀ {g r e e'}, admits g → admits (g.insert r) → Editor.Sound g e → keeps g e.chart →
    e.insertRule (g.insert r) g.size = .ok (e', none) → keeps (g.insert r) e'.chart
  removeRule : ∀ {g g' id c}, admits g → g.remove? id = some g' → c.Filed g' → keeps g c →
    keeps g' ((Removal.on c).removeRule g' id).chart
  renumbered : ∀ {g c}, c.Filed g → keeps g c → keeps g c.renumbered

variable {g g' : Grammar} {c : Chart}

/-! Charts that hold what a fit grammar finds -/

/-- Inserting a rule into a chart that holds what the grammar finds leads to one that holds what it finds with the
rule. -/
theorem Editor.Sound.holds_insertRule {e e' : Editor} {r : Rule} (hsound : Sound g e) (hg : g.Indexed)
    (hunasked : (g.insert r).RootUnasked) (h : e.chart.Holds g)
    (hinsert : e.insertRule (g.insert r) g.size = .ok (e', none)) : e'.chart.Holds (g.insert r) := by
  have hafter := hsound.regrammar (sameRules_insert hsound.filed r)
  obtain ⟨q, run, hq, hrun, hbreach, -, hchart, -⟩ := hafter.insertRule_spec hinsert
  have hholds := Run.insertRule_holds hunasked (Grammar.without_insert hg r) hq hafter.filed h e.budget
    hafter.size_agendas hafter.idle
  rw [hrun] at hholds
  exact hchart ▸ hholds hbreach rfl

/-- Charts hold what fit grammars find. -/
def Upkeep.ofHolds : Upkeep where
  admits := Grammar.Fit
  keeps := Chart.Holds
  reachable hg := hg.reachable
  remove hg hremove := hg.remove hremove
  build hg hbuild := (Chart.build_holds hg.reachable.indexed hg.rootUnused.unasked hbuild).1
  insertRule hg hinserted hsound h hinsert :=
    hsound.holds_insertRule hg.reachable.indexed hinserted.rootUnused.unasked h hinsert
  removeRule hg hremove hc h := Removal.removeRule_holds hg.reachable.indexed hg.rootUnused.unasked hg.wellFormed
    hg.acyclic hremove hc h
  renumbered hc h := hc.agrees_renumbered.holds h rfl rfl

/-! Charts that sustain themselves -/

/-- A finished build leads to a chart that sustains itself. -/
theorem Chart.build_sustained (hg : g.Indexed) {layout : Layout} {input : Input} {budget : Budget}
    (hbuild : (new layout input).build g budget = .ok (c, none)) : c.Sustained g := by
  obtain ⟨-, run, hrun, hbreach, rfl⟩ := build_eq_ok_iff.mp hbuild
  obtain ⟨rfl, -⟩ := Prod.mk.inj hrun
  exact ⟨(build_spec hbuild).1, (Run.upheld_prompted hg).build budget (filed_new g layout input)
    (prompted_new g layout input) (new layout input).size_idleAgendas
    (new layout input).eq_empty_of_mem_idleAgendas hbreach⟩

/-- Inserting a rule into a chart that sustains itself leads to one that sustains itself with the rule. -/
theorem Editor.Sound.sustained_insertRule {e e' : Editor} {r : Rule} (hsound : Sound g e) (hg : g.Indexed)
    (h : e.chart.Sustained g) (hinsert : e.insertRule (g.insert r) g.size = .ok (e', none)) :
    e'.chart.Sustained (g.insert r) := by
  have hsame := sameRules_insert hsound.filed r
  have hafter := hsound.regrammar hsame
  have hwithout := Grammar.without_insert hg r
  -- the chart has no state on the new rule, for the old grammar does not know its number
  have hrule {id : Nat} {s : Spot} (hs : e.chart.Live id s) : s.item.rule ≠ g.size := by
    intro heq
    have hknown := hsound.filed.known hs.spot?
    simp [heq, Grammar.rule?, Grammar.size] at hknown
  have hprompted := hafter.upheld_insertRule (Run.upheld_prompted hwithout.indexed) (h.prompted.regrammar hsame rfl)
    (fun hc h hr hpredicted => Run.prompted_begun hc h hr hpredicted) hinsert
  obtain ⟨q, run, hq, hrun, hbreach, -, hchart, -⟩ := hafter.insertRule_spec hinsert
  have hclosed := Run.insertRule_closed hwithout hq hafter.filed h.closed hrule e.budget hafter.size_agendas
    hafter.idle
  rw [hrun] at hclosed
  exact ⟨hchart ▸ hclosed hbreach rfl, hprompted⟩

/-- Charts sustain themselves under whatever grammar. -/
def Upkeep.ofSustained : Upkeep where
  admits := Grammar.Reachable
  keeps := Chart.Sustained
  reachable hg := hg
  remove hg hremove := hg.remove hremove
  build hg hbuild := Chart.build_sustained hg.indexed hbuild
  insertRule hg _ hsound h hinsert := hsound.sustained_insertRule hg.indexed h hinsert
  removeRule hg hremove hc h := (Removal.removeRule_sustained hg.indexed hremove hc h).1
  renumbered hc h := ⟨hc.agrees_renumbered.closed h.closed
    (hc.renumbered.size_columns.trans hc.size_columns.symm) rfl, h.prompted.renumbered⟩

end IndexedGrammar
