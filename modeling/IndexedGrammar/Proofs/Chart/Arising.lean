import IndexedGrammar.Proofs.Chart.Editor
import IndexedGrammar.Proofs.Chart.Unbroken
import IndexedGrammar.Proofs.Chart.Wired

/-!
# The indexes and links of every editor

Whatever is done to an editor, its chart stays in sync: the indexes list the live states and nothing else, and
every live state has derivations, all of which go through live states. This holds after runs that were given
up or cancelled, inside of transactions and after them. So taking out a rule and ending a transaction cannot
fail, and under an indexed grammar building a chart and inserting a rule cannot fail either.

The grammar may change between the steps, as long as it keeps the rules that the chart knows. The parts of
speech need not stay the same; those that any of the grammars had are given once.
-/

namespace IndexedGrammar

/-- The indexes of a chart list its live states, and its derivations go through live states. -/
structure Chart.Synced (g : Grammar) (parts : Category → Prop) (c : Chart) : Prop where
  /-- Of an item and the column it ends at there is at most one live state. -/
  unique : ∀ {i j : Nat} {s : Spot}, c.Live i s → c.Live j s → i = j
  /-- A column looks up exactly the live states that end there. -/
  find?_iff : ∀ {item : Item} {stop id : Nat}, c.find? item stop = some id ↔ c.Live id ⟨item, stop⟩
  nodup_expecting : ∀ k symbol, (c.expecting k symbol).Nodup
  /-- Exactly the live states that end at a column in front of a category wait for it there. -/
  mem_expecting : ∀ {k symbol id}, id ∈ c.expecting k symbol ↔
    symbol.isEpsilon = false ∧ ∃ s, c.Live id s ∧ s.stop = k ∧ g.Expects s.item symbol
  nodup_reductors : ∀ k lhs, (c.reductors k lhs).Nodup
  /-- Exactly the live completed states that begin at a column are found there by their category. -/
  mem_reductors : ∀ {k lhs id}, id ∈ c.reductors k lhs ↔
    ∃ s, c.Live id s ∧ s.item.origin = k ∧ g.Completes s.item lhs
  /-- A live state whose dot has moved has a derivation. -/
  derived : ∀ {id s}, c.Live id s → 0 < s.item.dot → ∃ d, c.Derives id d
  /-- Each derivation of such a state goes from a live state with the dot one symbol earlier, over nothing,
  over a part of speech, or over a live completed state that lies between the two. -/
  linked : ∀ {id s d}, c.Live id s → 0 < s.item.dot → c.Derives id d →
    ∃ i p symbol, d.predecessor = some i ∧ c.Live i p ∧ p.item.advance = s.item ∧ g.Expects p.item symbol ∧
      (symbol.isEpsilon = true ∧ d.reductor = none ∧ s.stop = p.stop ∨
        symbol.isEpsilon = false ∧ parts symbol ∧ c.allows p.stop symbol = true ∧ d.reductor = none ∧
          s.stop = p.stop + 1 ∨
        symbol.isEpsilon = false ∧ ∃ j t, d.reductor = some j ∧ c.Live j t ∧ g.Completes t.item symbol ∧
          t.item.origin = p.stop ∧ t.stop = s.stop)

/-- A filed chart that is wired is in sync. -/
theorem Chart.Filed.synced {g : Grammar} {parts : Category → Prop} {c : Chart} (hc : c.Filed g)
    (h : c.Wired g parts fun _ => False) : c.Synced g parts where
  unique := hc.unique
  find?_iff := hc.find?_iff
  nodup_expecting := hc.nodup_expecting
  mem_expecting := hc.mem_expecting
  nodup_reductors := hc.nodup_reductors
  mem_reductors := hc.mem_reductors
  derived hs _ := (h.based hs).resolve_right not_false
  linked {id s d} hs hdot hd := by
    cases h.steps hs hd with
    | begun hzero => exact absurd hzero (Nat.ne_of_gt hdot)
    | skip hi hexpects hsymbol =>
      exact ⟨_, _, _, rfl, hi, rfl, hexpects, .inl ⟨hsymbol, rfl, rfl⟩⟩
    | scan hi hexpects hsymbol hpart hallows =>
      exact ⟨_, _, _, rfl, hi, rfl, hexpects, .inr (.inl ⟨hsymbol, hpart, hallows, rfl, rfl⟩)⟩
    | complete hi hj hexpects hsymbol hcompletes horigin =>
      exact ⟨_, _, _, rfl, hi, rfl, hexpects, .inr (.inr ⟨hsymbol, _, _, rfl, hj, hcompletes, horigin, rfl⟩)⟩

namespace Editor

/-- What can be done to an editor under a grammar. -/
inductive Step (g : Grammar) : Editor → Editor → Prop
  | request (e : Editor) (column : Option Nat) : Step g e (e.requestAt column)
  | build {e e' : Editor} {fault : Option Fault} : e.build g = .ok (e', fault) → Step g e e'
  | insertRule {e e' : Editor} {rule : Nat} {fault : Option Fault} :
      e.insertRule g rule = .ok (e', fault) → Step g e e'
  | removeRule {e e' : Editor} {rule : Nat} : e.removeRule g rule = .ok e' → Step g e e'
  | begin {e e' : Editor} : e.begin = .ok e' → Step g e e'
  | accept {e e' : Editor} : e.accept = .ok e' → Step g e e'
  | reject {e e' : Editor} : e.reject = .ok e' → Step g e e'

/-- Editors that steps lead to, under grammars that keep the rules of the chart and have no other parts of
speech than these. -/
inductive Arises (parts : Category → Prop) : Editor → Grammar → Prop
  | new (layout : Layout) (input : Input) (budget : Budget) {g : Grammar} :
      g.PartsWithin parts → Arises parts (.new (.new layout input) budget) g
  | regrammar {e : Editor} {g g' : Grammar} :
      Arises parts e g → SameRules e.chart g g' → g'.PartsWithin parts → Arises parts e g'
  | step {e e' : Editor} {g : Grammar} : Arises parts e g → Step g e e' → Arises parts e' g

variable {g : Grammar} {parts : Category → Prop} {e e' : Editor}

/-- Editors that steps lead to, under grammars of some kind that keep the rules of the chart. -/
inductive Evolves (admits : Grammar → Prop) : Editor → Grammar → Prop
  | new (layout : Layout) (input : Input) (budget : Budget) {g : Grammar} :
      admits g → Evolves admits (.new (.new layout input) budget) g
  | regrammar {e : Editor} {g g' : Grammar} :
      Evolves admits e g → SameRules e.chart g g' → admits g' → Evolves admits e g'
  | step {e e' : Editor} {g : Grammar} : Evolves admits e g → Step g e e' → Evolves admits e' g

variable {admits others : Grammar → Prop}

/-- A step leads from a reachable editor to a reachable one. -/
theorem Step.reachable (h : Step g e e') (he : Reachable e g) : Reachable e' g := by
  cases h with
  | request column => exact .request column he
  | build hok => exact .build he hok
  | insertRule hok => exact .insertRule he hok
  | removeRule hok => exact .removeRule he hok
  | begin hok => exact .begin he hok
  | accept hok => exact .accept he hok
  | reject hok => exact .reject he hok

/-- What evolves is reachable. -/
theorem Evolves.reachable (h : Evolves admits e g) : Reachable e g := by
  induction h with
  | new layout input budget _ => exact .new layout input budget _
  | regrammar _ hsame _ ih => exact .regrammar ih hsame
  | step _ hstep ih => exact hstep.reachable ih

/-- The grammar of an editor that evolves is one of the kind. -/
theorem Evolves.admitted (h : Evolves admits e g) : admits g := by
  induction h with
  | new _ _ _ hg => exact hg
  | regrammar _ _ hg _ => exact hg
  | step _ _ ih => exact ih

/-- What evolves under grammars of some kind evolves under those of a wider kind. -/
theorem Evolves.mono (h : Evolves admits e g) (hkind : ∀ g, admits g → others g) : Evolves others e g := by
  induction h with
  | new layout input budget hg => exact .new layout input budget (hkind _ hg)
  | regrammar _ hsame hg ih => exact .regrammar ih hsame (hkind _ hg)
  | step _ hstep ih => exact .step ih hstep

/-- What arises is what evolves under grammars that have no other parts of speech than given ones. -/
theorem arises_iff_evolves : Arises parts e g ↔ Evolves (Grammar.PartsWithin parts) e g := by
  constructor <;> intro h
  · induction h with
    | new layout input budget hparts => exact .new layout input budget hparts
    | regrammar _ hsame hparts ih => exact .regrammar ih hsame hparts
    | step _ hstep ih => exact .step ih hstep
  · induction h with
    | new layout input budget hparts => exact .new layout input budget hparts
    | regrammar _ hsame hparts ih => exact .regrammar ih hsame hparts
    | step _ hstep ih => exact .step ih hstep

/-- What arises is reachable. -/
theorem Arises.reachable (h : Arises parts e g) : Reachable e g :=
  (arises_iff_evolves.mp h).reachable

/-- If any category may be a part of speech, all reachable editors arise. -/
theorem arises_iff_reachable : Arises (fun _ => True) e g ↔ Reachable e g := by
  refine ⟨Arises.reachable, fun h => ?_⟩
  induction h with
  | new layout input budget g => exact .new layout input budget fun _ _ => trivial
  | regrammar _ hsame ih => exact .regrammar ih hsame fun _ _ => trivial
  | request column _ ih => exact .step ih (.request _ column)
  | build _ hok ih => exact .step ih (.build hok)
  | insertRule _ hok ih => exact .step ih (.insertRule hok)
  | removeRule _ hok ih => exact .step ih (.removeRule hok)
  | begin _ hok ih => exact .step ih (.begin hok)
  | accept _ hok ih => exact .step ih (.accept hok)
  | reject _ hok ih => exact .step ih (.reject hok)

/-! What lasts -/

section Lasting

variable {motive : Chart → Prop}

/-- A property of charts that lasts under a grammar: runs uphold it, and it is kept when a rule in use is begun where
its category is predicted, when a rule is taken out, and under new numbers. -/
structure Lasting (g : Grammar) (motive : Chart → Prop) : Prop extends Run.Upheld g motive where
  beginRule : ∀ {run k rule r}, run.chart.Filed g → motive run.chart → g.HasRule rule r →
    run.chart.isPredicted k r.lhs = true → (Run.add g run ⟨rule, 0, k⟩ k .predicted).breach = none →
    motive (Run.add g run ⟨rule, 0, k⟩ k .predicted).chart
  removeRule : ∀ {c}, c.Filed g → motive c → ∀ rule, motive ((Removal.on c).removeRule g rule).chart
  renumbered : ∀ {c}, motive c → motive c.renumbered

/-- The chart of an editor has a property, and so has the chart to which the journal leads back. -/
structure Bears (motive : Chart → Prop) (e : Editor) : Prop where
  chart : motive e.chart
  base : e.inTransaction = true → ∃ base : Chart, motive base ∧ e.LeadsBackTo base

/-- A property is borne through what the journal notes, if the new chart has it. -/
theorem Bears.noted (h : Bears motive e) (hnoted : Noted g e e') (hchart : motive e'.chart) :
    Bears motive e' where
  chart := hchart
  base htransaction := by
    obtain ⟨base, hmotive, hbase⟩ := h.base (hnoted.inTransaction_eq ▸ htransaction)
    exact ⟨base, hmotive, hnoted.leadsBackTo hbase⟩

/-- An editor outside of a transaction bears a property if its chart has it. -/
theorem bears_of_closed (hchart : motive e.chart) (hclosed : e.inTransaction = false) : Bears motive e :=
  ⟨hchart, fun hopen => absurd (hclosed.symm.trans hopen) (by simp)⟩

/-- An editor outside of a transaction bears a lasting property if its chart is one that has it, as it is or under
new numbers. -/
theorem Lasting.bears_of_same (hlasting : Lasting g motive) {c : Chart} (hchart : motive c)
    (hclosed : e.inTransaction = false) (hsame : e.chart = c ∨ e.chart = c.renumbered) : Bears motive e := by
  refine bears_of_closed ?_ hclosed
  rcases hsame with hsame | hsame
  · exact hsame ▸ hchart
  · exact hsame ▸ hlasting.renumbered hchart

/-- A build keeps what runs uphold. -/
theorem Sound.upheld_build (hsound : Sound g e) (hupheld : Run.Upheld g motive) (h : motive e.chart)
    {fault : Option Fault} (hok : e.build g = .ok (e', fault)) : motive e'.chart := by
  unfold Editor.build at hok
  split at hok
  · contradiction
  · split at hok
    · contradiction
    · obtain ⟨-, hbreach, hchart, -⟩ := noted_afterRun
        (Run.build_finished e.budget hsound.filed hsound.size_agendas hsound.idle) hok
      rw [hchart]
      exact hupheld.build e.budget hsound.filed h hsound.size_agendas hsound.idle hbreach

/-- An insertion keeps what runs uphold and beginning the rule keeps. -/
theorem Sound.upheld_insertRule (hsound : Sound g e) (hupheld : Run.Upheld g motive) (h : motive e.chart)
    {rule : Nat}
    (hbegin : ∀ {run k r}, run.chart.Filed g → motive run.chart → g.HasRule rule r →
      run.chart.isPredicted k r.lhs = true → (Run.add g run ⟨rule, 0, k⟩ k .predicted).breach = none →
      motive (Run.add g run ⟨rule, 0, k⟩ k .predicted).chart)
    {fault : Option Fault} (hok : e.insertRule g rule = .ok (e', fault)) : motive e'.chart := by
  obtain ⟨r, run, hr, hrun, hbreach, -, hchart, -⟩ := hsound.insertRule_spec hok
  have hafter : _ → motive ((Run.on e.chart e.agendas).insertRule g e.budget rule r.lhs).1.chart :=
    hupheld.insertRule e.budget hsound.filed h hsound.size_agendas hsound.idle
      fun hc h hpredicted hok' => hbegin hc h hr hpredicted hok'
  rw [hrun] at hafter
  exact hchart ▸ hafter hbreach

/-- A removal leaves an editor that bears a lasting property. -/
theorem Bears.removeRule (h : Bears motive e) (hsound : Sound g e) (hlasting : Lasting g motive) {rule : Nat}
    (hok : e.removeRule g rule = .ok e') : Bears motive e' := by
  obtain ⟨hnoted, heq⟩ := hsound.removeRule_eq rule
  have hchart : motive (e.afterRemoval ((Removal.on e.chart).removeRule g rule)).chart :=
    hlasting.removeRule hsound.filed h.chart rule
  rw [heq] at hok
  split at hok
  · obtain rfl := Except.ok.inj hok
    exact h.noted hnoted hchart
  · next hclosed =>
    have hclosed' := hnoted.inTransaction_eq.trans (Bool.eq_false_iff.mpr hclosed)
    obtain ⟨compacted, hcompact, -, hended, hsame⟩ := (hnoted.sound hsound).compact_eq hclosed'
    obtain rfl := Except.ok.inj (hcompact.symm.trans hok)
    exact hlasting.bears_of_same hchart hended hsame

/-- Rejecting a transaction leaves an editor that bears what the chart has to which the journal led back. -/
theorem Bears.reject (h : Bears motive e) (hsound : Sound g e) (hok : e.reject = .ok e') : Bears motive e' := by
  obtain ⟨base, hmotive, hbase⟩ := h.base (inTransaction_of_reject hok)
  rw [hbase.reject hsound.size_agendas] at hok
  obtain rfl := Except.ok.inj hok
  exact bears_of_closed hmotive rfl

/-- A step leaves an editor that bears a lasting property. -/
theorem Step.bears (hstep : Step g e e') (hsound : Sound g e) (hlasting : Lasting g motive)
    (h : Bears motive e) : Bears motive e' := by
  cases hstep with
  | request column =>
    refine ⟨h.chart, fun hopen => ?_⟩
    obtain ⟨base, hmotive, hbase⟩ := h.base hopen
    exact ⟨base, hmotive, hbase.requestAt column⟩
  | build hok => exact h.noted (hsound.noted_build hok) (hsound.upheld_build hlasting.toUpheld h.chart hok)
  | insertRule hok =>
    exact h.noted (hsound.noted_insertRule hok)
      (hsound.upheld_insertRule hlasting.toUpheld h.chart hlasting.beginRule hok)
  | removeRule hok => exact h.removeRule hsound hlasting hok
  | begin hok =>
    have hback := (hsound.begin hok).2
    unfold Editor.begin at hok
    split at hok
    · contradiction
    · obtain rfl := Except.ok.inj hok
      exact ⟨h.chart, fun _ => ⟨_, h.chart, hback⟩⟩
  | accept hok =>
    obtain ⟨-, hended, hsame⟩ := hsound.accept hok
    exact hlasting.bears_of_same h.chart hended hsame
  | reject hok => exact h.reject hsound hok

/-- Every editor that evolves bears a property that new charts have, that lasts under each grammar, and that a
grammar with the same rules finds too. -/
theorem Evolves.bears {motive : Grammar → Chart → Prop} (h : Evolves admits e g)
    (hnew : ∀ {g}, admits g → ∀ layout input, motive g (.new layout input))
    (hregrammar : ∀ {g g' c}, admits g → admits g' → SameRules c g g' → motive g c → motive g' c)
    (hlasting : ∀ {g}, admits g → Lasting g (motive g)) : Bears (motive g) e := by
  induction h with
  | new layout input budget hg => exact bears_of_closed (hnew hg layout input) rfl
  | regrammar h hsame hg ih =>
    refine ⟨hregrammar h.admitted hg hsame ih.chart, fun hopen => ?_⟩
    obtain ⟨base, hmotive, hbase⟩ := ih.base hopen
    exact ⟨base, hregrammar h.admitted hg (fun id s hs => hsame id s (hbase.spot? hs)) hmotive, hbase⟩
  | step h hstep ih => exact hstep.bears h.reachable.sound (hlasting h.admitted) ih

end Lasting

/-- Being wired lasts. -/
theorem lasting_wired (hparts : g.PartsWithin parts) : Lasting g fun c => c.Wired g parts fun _ => False where
  toUpheld := (Run.carried_wired g parts).upheld hparts
  beginRule := (Run.carried_wired g parts).beginRule
  removeRule hc h rule := Removal.removeRule_wired hc h rule
  renumbered h := h.renumbered

/-- Every editor that arises is wired, and so is the chart to which its journal leads back. -/
theorem Arises.wired (h : Arises parts e g) : Bears (fun c => c.Wired g parts fun _ => False) e :=
  (arises_iff_evolves.mp h).bears (motive := fun g c => c.Wired g parts fun _ => False)
    (fun _ => Chart.wired_new _) (fun _ _ hsame hc => hc.regrammar hsame) lasting_wired

/-- What an editor never fails at: taking out rules, ending a transaction that is open, and, under an indexed
grammar, building an empty chart and inserting a rule in a transaction. -/
structure Unfailing (g : Grammar) (e : Editor) : Prop where
  removeRule : ∀ rule, ∃ e', e.removeRule g rule = .ok e'
  accept : e.inTransaction = true → ∃ e', e.accept = .ok e'
  reject : e.inTransaction = true → ∃ e', e.reject = .ok e'
  build : g.Indexed → e.chart.states = #[] → ∃ e' fault, e.build g = .ok (e', fault)
  insertRule : g.Indexed → e.inTransaction = true → ∀ rule, g.isLive rule = true →
    ∃ e' fault, e.insertRule g rule = .ok (e', fault)

/-- A sound editor does not fail. -/
theorem Sound.unfailing (h : Sound g e) : Unfailing g e where
  removeRule rule := by
    obtain ⟨e', hok, -⟩ := h.removeRule rule
    exact ⟨e', hok⟩
  accept hopen := by
    obtain ⟨e', haccept, -⟩ := h.accept_eq hopen
    exact ⟨e', haccept⟩
  reject hopen := by
    obtain ⟨base, -, hbase⟩ := h.base hopen
    exact ⟨_, hbase.reject h.size_agendas⟩
  build hg hempty := by
    obtain ⟨e', hok, -⟩ := afterRun_eq (e := e) (Run.build_unbroken hg e.budget h.filed).breach
    exact ⟨e', _, (build_eq hg hempty).trans hok⟩
  insertRule hg hopen rule hlive := by
    obtain ⟨r, hr⟩ := Grammar.exists_hasRule hlive
    obtain ⟨e', hok, -⟩ := afterRun_eq (e := e)
      (Run.insertRule_unbroken hg e.budget h.filed (Option.isSome_iff_exists.mpr ⟨r, hr.rule?⟩) r.lhs).breach
    exact ⟨e', _, (insertRule_eq hopen hr).trans hok⟩

/-- However an editor came about, its chart is in sync, and it does not fail. -/
theorem Arises.synced_unfailing (h : Arises parts e g) : e.chart.Synced g parts ∧ Unfailing g e :=
  ⟨h.reachable.sound.filed.synced h.wired.chart, h.reachable.sound.unfailing⟩

open Sample in
/-- A chart is in sync although an insertion had to be given up in the middle of a transaction. -/
theorem synced_unfailing_doubled : ∃ (e e₁ e₂ : Editor) (fault : Fault),
    (new blank ⟨10, none⟩).build singles = .ok (e, none) ∧ e.begin = .ok e₁ ∧
    e₁.insertRule (singles.insert doubled) 2 = .ok (e₂, some fault) ∧
    e.chart.states.size < e₂.chart.states.size ∧
    Arises (fun c => c.name = "n") e₂ (singles.insert doubled) ∧
    e₂.chart.Synced (singles.insert doubled) (fun c => c.name = "n") ∧
    Unfailing (singles.insert doubled) e₂ := by
  have hrun : ((completed? ((new blank ⟨10, none⟩).build singles)).bind fun e => e.begin.toOption.bind
      fun e₁ => (e₁.insertRule (singles.insert doubled) 2).toOption.filter fun outcome =>
        outcome.2.isSome && e.chart.states.size < outcome.1.chart.states.size).isSome = true := by
    decide +kernel
  obtain ⟨⟨e₂, given⟩, hrun⟩ := Option.isSome_iff_exists.mp hrun
  simp only [Option.bind_eq_some_iff, Option.filter_eq_some_iff, Bool.and_eq_true, decide_eq_true_eq] at hrun
  obtain ⟨e, hbuild, e₁, hbegin, hinsert, hgiven, hsize⟩ := hrun
  obtain ⟨fault, rfl⟩ := Option.isSome_iff_exists.mp hgiven
  have hbuild := ok_of_completed? hbuild
  have hbegin := ok_of_toOption hbegin
  have hinsert := ok_of_toOption hinsert
  have hnouns (symbol : Category)
      (h : (symbol.isStackEmpty && (Std.ExtTreeSet.ofList ["n"]).contains symbol.name) = true) :
      symbol.name = "n" := by
    rw [Bool.and_eq_true, Std.ExtTreeSet.contains_ofList, List.contains_iff_mem] at h
    exact List.mem_singleton.mp h.2
  have hsingles : Arises (fun c => c.name = "n") e singles := .step (.new _ _ _ hnouns) (.build hbuild)
  have hdoubled := hsingles.regrammar (sameRules_insert hsingles.reachable.sound.filed doubled) hnouns
  have he₂ := (hdoubled.step (.begin hbegin)).step (.insertRule hinsert)
  obtain ⟨hsynced, hunfailing⟩ := Arises.synced_unfailing he₂
  exact ⟨e, e₁, e₂, fault, hbuild, hbegin, hinsert, hsize, he₂, hsynced, hunfailing⟩

end Editor

end IndexedGrammar
