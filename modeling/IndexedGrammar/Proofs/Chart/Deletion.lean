import IndexedGrammar.Proofs.Chart.Insertion
import IndexedGrammar.Proofs.Chart.Pruned
import IndexedGrammar.Proofs.Chart.Weight

/-!
# Removing a rule and building anew

When a removal has come to its end, the chart sustains itself without the rule. If the grammar has no unit
cycle, then no state is left that only supports itself. A state that reaches its column from an earlier one
was found through states of earlier columns and of lower weight; a state begun at its column was begun for a
predicted category, and every predicted category is asked for by a state from an earlier column. So all of
them are found without the rule.

Removing a rule from a chart that agrees with one built with the rule leads to a chart that agrees with
one built without it, inside and outside of transactions, if the grammar has no unit cycle.
-/

namespace IndexedGrammar

/-- The predecessor in a link of a filed chart is live. -/
theorem Chart.HasDerivation.live_predecessor {g : Grammar} {c : Chart} (hc : c.Filed g) {s p : Spot}
    {l : Link} (h : c.HasDerivation s l) (hp : l.predecessor = some p) : ∃ id, c.Live id p := by
  obtain ⟨id, ⟨predecessor, reductor⟩, -, hd, rfl⟩ := h
  obtain ⟨i, rfl, hi⟩ := Option.bind_eq_some_iff.mp hp
  have hlink : i ∈ (Derivation.mk (some i) reductor).links := by simp [Derivation.links]
  obtain ⟨t, ht⟩ := hc.linked hd hlink
  obtain rfl := Option.some.inj (ht.spot?.symm.trans hi)
  exact ⟨i, ht⟩

/-- The reductor in a link of a filed chart is live. -/
theorem Chart.HasDerivation.live_reductor {g : Grammar} {c : Chart} (hc : c.Filed g) {s t : Spot}
    {l : Link} (h : c.HasDerivation s l) (ht : l.reductor = some t) : ∃ id, c.Live id t := by
  obtain ⟨id, ⟨predecessor, reductor⟩, -, hd, rfl⟩ := h
  obtain ⟨j, rfl, hj⟩ := Option.bind_eq_some_iff.mp ht
  have hlink : j ∈ (Derivation.mk predecessor (some j)).links := by simp [Derivation.links]
  obtain ⟨u, hu⟩ := hc.linked hd hlink
  obtain rfl := Option.some.inj (hu.spot?.symm.trans hj)
  exact ⟨j, hu⟩

/-- What is left when a rule was taken out of a chart: it sustains itself without the rule, and everything in it was
found with the rule, but on other rules. -/
structure Chart.Remains (g g' : Grammar) (rule : Nat) (c : Chart) : Prop where
  filed : c.Filed g'
  sustained : c.Sustained g'
  justified : c.Justified g
  rule_ne : ∀ {id s}, c.Live id s → s.item.rule ≠ rule

variable {g g' : Grammar} {input : Input} {last rule : Nat} {c : Chart}

/-- Every live state has some derivation, which was found with the rule. -/
theorem Chart.Remains.exists_derivable (h : c.Remains g g' rule) {id : Nat} {s : Spot} (hs : c.Live id s) :
    ∃ l, c.HasDerivation s l ∧ Derivable g c.input c.layout.last s l := by
  obtain ⟨d, hd⟩ := (h.sustained.prompted.wired.based hs).resolve_right not_false
  exact ⟨c.link d, ⟨id, d, hs, hd, rfl⟩, h.justified.derives hs hd⟩

/-- A spot that was not begun at its column, or for a category that is still wanted there. -/
def Called (g' : Grammar) (input : Input) (last : Nat) (s : Spot) : Prop :=
  s.item.origin < s.stop ∨ s.item.rule = Grammar.rootId ∨
    ∃ q, g'.rule? s.item.rule = some q ∧ Wanted g' input last s.stop q.lhs

/-- A spot that was begun and is called for is begun without the rule too, unless it is on that rule. -/
theorem Called.derivable (hunasked : g.RootUnasked) (hwithout : g.Without rule g') {s : Spot} {l : Link}
    (h : Called g' input last s) (hl : Derivable g input last s l) (hbegun : l.predecessor = none)
    (hrule : s.item.rule ≠ rule) : Derivable g' input last s l := by
  have hg := hwithout.indexed
  cases hl with
  | root => exact .root
  | @predict p m symbol other q hp hexpects hsymbol hother =>
    obtain ⟨hq, rfl⟩ := hg.mem_rulesFor.mp hother
    rcases h with hlt | hroot | ⟨q', hq', t, ⟨m', ht⟩, hstop, hexpects', hsymbol'⟩
    · exact absurd hlt (Nat.lt_irrefl _)
    · exact absurd hroot (hp.ne_rootId hg hunasked hq.rule? hexpects (Grammar.isNonterminal_iff.mp hsymbol).1)
    · have hq'' : g'.HasRule other q := (hwithout.hasRule other q).mpr ⟨hq, hrule⟩
      obtain rfl := Option.some.inj (hq''.rule?.symm.trans hq')
      have hstop' : t.stop = p.stop := hstop
      have hagain := Derivable.predict ht hexpects' hsymbol' (hwithout.indexed'.mem_rulesFor.mpr ⟨hq'', rfl⟩)
      rwa [hstop'] at hagain
  | skip => contradiction
  | scan => contradiction
  | complete => contradiction

/-- What is called for at a column is so before each move of its dot that stays at the column. -/
theorem Called.predecessor {s p : Spot} {l : Link} (h : Called g' input last s)
    (hl : Derivable g input last s l) (hp : l.predecessor = some p) (hstop : p.stop = s.stop) :
    Called g' input last p := by
  obtain ⟨symbol, -, hstep, -⟩ := hl.moved hp
  have hitem : s.item = p.item.advance := congrArg Spot.item hstep
  rw [Called, hitem, ← hstop] at h
  exact h

/-- What a dot moves over is called for if the spot before the move is found without the rule. -/
theorem called_of_reductor (hunasked : g.RootUnasked) (hwithout : g.Without rule g') {s p t : Spot} {l : Link}
    (hl : Derivable g input last s l) (hp : l.predecessor = some p) (ht : l.reductor = some t)
    (hfound : Findable g' input last p) (hrule : t.item.rule ≠ rule) : Called g' input last t := by
  cases hl with
  | root => contradiction
  | predict => contradiction
  | skip => contradiction
  | scan => contradiction
  | @complete p' t' m m' symbol hp' ht' hexpects hsymbol hcompletes horigin =>
    obtain rfl : p' = p := Option.some.inj hp
    obtain rfl : t' = t := Option.some.inj ht
    rcases Nat.eq_or_lt_of_le ht'.bounds.1 with heq | hlt
    · have hsymbol' := hp'.isNonterminal_of_completes hwithout.indexed (hunasked.unscanned hwithout.indexed) ht'
        hexpects hsymbol hcompletes
      obtain ⟨n, hn⟩ := hfound
      have hexpects' := (hwithout.expects (hn.rule_ne hwithout)).mpr hexpects
      obtain ⟨q, hq, -, rfl⟩ := Grammar.completes_iff.mp ((hwithout.completes hrule).mpr hcompletes)
      exact .inr (.inr ⟨q, hq, p', ⟨n, hn⟩, horigin.symm.trans heq, hexpects',
        hwithout.isNonterminal q.lhs ▸ hsymbol'⟩)
    · exact .inl hlt

namespace Chart.Remains

/-- A live state that is called for is found without the rule, if all states of earlier columns are. -/
theorem findable_of_called (hunasked : g.RootUnasked) (hwell : g.WellFormed) (hwithout : g.Without rule g')
    {rank : Category → Nat} (hrank : g.Ranked rank) (h : c.Remains g g' rule) {k : Nat}
    (hbelow : ∀ id s, c.Live id s → s.stop < k → Findable g' c.input c.layout.last s) {id : Nat} {s : Spot}
    (hs : c.Live id s) (hstop : s.stop = k) (hcalled : Called g' c.input c.layout.last s) :
    Findable g' c.input c.layout.last s := by
  have hg := hwithout.indexed
  induction s using (InvImage.wf (g.weight rank) wellFounded_lt).induction generalizing id with
  | h s ih =>
    obtain ⟨l, hderivation, hl⟩ := h.exists_derivable hs
    cases hp : l.predecessor with
    | none => exact ⟨l, hcalled.derivable hunasked hwithout hl hp (h.rule_ne hs)⟩
    | some p =>
      obtain ⟨i, hi⟩ := hderivation.live_predecessor h.filed hp
      have hfound : Findable g' c.input c.layout.last p := by
        rcases Nat.eq_or_lt_of_le (hl.stop_predecessor_le hp) with heq | hlt
        · exact ih p (hl.weight_predecessor_lt hg hunasked hwell rank hp) hi (heq.trans hstop)
            (hcalled.predecessor hl hp heq)
        · exact hbelow i p hi (hstop ▸ hlt)
      refine ⟨l, hl.to_without hwithout hp hfound fun t ht => ?_⟩
      obtain ⟨j, hj⟩ := hderivation.live_reductor h.filed ht
      obtain ⟨-, -, -, hspan⟩ := hl.moved hp
      exact ih t (hl.weight_reductor_lt hg hunasked hwell hrank ht) hj ((hspan t ht).2.trans hstop)
        (called_of_reductor hunasked hwithout hl hp ht hfound (h.rule_ne hj))

/-- All live states of a column are called for if what is predicted there is wanted. -/
theorem called (h : c.Remains g g' rule) {k : Nat}
    (hwanted : ∀ symbol, c.isPredicted k symbol = true → Wanted g' c.input c.layout.last k symbol) {id : Nat}
    {s : Spot} (hs : c.Live id s) (hstop : s.stop = k) : Called g' c.input c.layout.last s := by
  by_cases hacross : s.item.origin < s.stop ∨ s.item.rule = Grammar.rootId
  · exact hacross.imp_right .inl
  · obtain ⟨hbegun, hroot⟩ := not_or.mp hacross
    obtain ⟨q, hq⟩ := Option.isSome_iff_exists.mp (h.filed.known hs.spot?)
    have hpredicted := h.sustained.prompted.isPredicted_lhs h.filed hs (Nat.not_lt.mp hbegun) hroot hq
    have horigin : s.item.origin = s.stop :=
      Nat.le_antisymm (h.filed.bounds hs.spot?).1 (Nat.not_lt.mp hbegun)
    rw [horigin, hstop] at hpredicted
    exact .inr (.inr ⟨q, hq, hstop ▸ hwanted q.lhs hpredicted⟩)

/-- Every live state is found without the rule. -/
theorem findable (hunasked : g.RootUnasked) (hwell : g.WellFormed) (hwithout : g.Without rule g')
    {rank : Category → Nat} (hrank : g.Ranked rank) (h : c.Remains g g' rule) {id : Nat} {s : Spot}
    (hs : c.Live id s) : Findable g' c.input c.layout.last s := by
  obtain ⟨k, hk⟩ : ∃ k, s.stop = k := ⟨_, rfl⟩
  induction k using Nat.strongRecOn generalizing id s with
  | ind k ih =>
    have hcalled {id : Nat} {s : Spot} (hs : c.Live id s) (hstop : s.stop = k)
        (hcalled : Called g' c.input c.layout.last s) : Findable g' c.input c.layout.last s :=
      h.findable_of_called hunasked hwell hwithout hrank
        (fun j t ht hlt => ih t.stop hlt ht rfl) hs hstop hcalled
    -- whatever is asked for at the column is asked for by states that are called for
    have hwanted {symbol : Category} (hasked : Asked g' (fun s => ∃ id, c.Live id s) k symbol) :
        Wanted g' c.input c.layout.last k symbol := by
      induction hasked with
      | @across s symbol hs hstop hacross hexpects hsymbol =>
        obtain ⟨id, hs⟩ := hs
        have hcalls : Called g' c.input c.layout.last s :=
          hacross.elim (fun hlt => .inl (hstop ▸ hlt)) fun hroot => .inr (.inl hroot)
        exact ⟨_, hcalled hs hstop hcalls, hstop, hexpects, hsymbol⟩
      | begun hs hstop _ _ hq _ hexpects hsymbol ih' =>
        obtain ⟨id, hs⟩ := hs
        exact ⟨_, hcalled hs hstop (.inr (.inr ⟨_, hq, hstop ▸ ih'⟩)), hstop, hexpects, hsymbol⟩
    exact hcalled hs hk (h.called (fun symbol hpredicted => hwanted (h.sustained.prompted.asked hpredicted)) hs hk)

/-- Without unit cycles, what is left is exactly what is found without the rule. -/
theorem holds (hunasked : g.RootUnasked) (hwell : g.WellFormed) (hcycle : g.hasUnitCycle = false)
    (hwithout : g.Without rule g') (h : c.Remains g g' rule) : c.Holds g' := by
  -- without unit cycles there is a rank, so that no state can be left to prop itself up
  obtain ⟨rank, hrank⟩ := g.exists_ranked hwell hcycle
  have hfindable {id : Nat} {s : Spot} (hs : c.Live id s) := h.findable hunasked hwell hwithout hrank hs
  have hwanted {k : Nat} {symbol : Category} (hpredicted : c.isPredicted k symbol = true) :
      Wanted g' c.input c.layout.last k symbol := by
    obtain ⟨s, ⟨id, hs⟩, hstop, hexpects, hsymbol⟩ := (h.sustained.prompted.asked hpredicted).expects
    exact ⟨s, hfindable hs, hstop, hexpects, hsymbol⟩
  have hunscanned := hwithout.rootUnscanned (hunasked.unscanned hwithout.indexed)
  refine h.sustained.closed.holds hwithout.indexed' hunscanned h.filed ⟨hfindable, fun {id s d} hs hd => ?_, hwanted⟩
  have hderivation : c.HasDerivation s (c.link d) := ⟨id, d, hs, hd, rfl⟩
  have hl := h.justified.derives hs hd
  cases hp : (c.link d).predecessor with
  | none => exact (h.called (fun symbol => hwanted) hs rfl).derivable hunasked hwithout hl hp (h.rule_ne hs)
  | some p =>
    obtain ⟨i, hi⟩ := hderivation.live_predecessor h.filed hp
    refine hl.to_without hwithout hp (hfindable hi) fun t ht => ?_
    obtain ⟨j, hj⟩ := hderivation.live_reductor h.filed ht
    exact hfindable hj

end Chart.Remains

namespace Removal

/-- What was found by a grammar stays so when states and predictions are taken out. -/
theorem Orderly.justified {r start : Removal} (h : r.Orderly g' start) (hjustified : start.chart.Justified g) :
    r.chart.Justified g where
  live hs := by
    rw [h.input, h.layout]
    exact hjustified.live (h.live hs)
  derives hs hd := by
    rw [h.input, h.layout, h.link_eq]
    exact hjustified.derives (h.live hs) (h.derives hd)
  isPredicted hpredicted := by
    rw [h.input, h.layout]
    exact hjustified.isPredicted (h.isPredicted hpredicted)

/-- Taking a rule out of a chart that holds what is found with it leaves what is found without it. -/
theorem removeRule_holds {c : Chart} (hg : g.Indexed) (hunasked : g.RootUnasked) (hwell : g.WellFormed)
    (hcycle : g.hasUnitCycle = false) (hremove : g.remove? rule = some g') (hc : c.Filed g')
    (h : c.Holds g) : ((Removal.on c).removeRule g' rule).chart.Holds g' := by
  have hwithout := Grammar.without_remove hg hremove
  have horderly := removeRule_orderly (r := Removal.on c) hc rule
  have hbefore : c.Filed g := hc.regrammar fun _ s _ => (Grammar.rule?_remove hremove s.item.rule).symm
  obtain ⟨hsustained, hrule⟩ := removeRule_sustained hg hremove hc (h.sustained hg hbefore)
  exact Chart.Remains.holds hunasked hwell hcycle hwithout
    ⟨horderly.filed, hsustained, horderly.justified h.justified, hrule⟩

end Removal

namespace Chart

variable {g : Grammar} {c : Chart}

/-- What a chart holds does not depend on the numbers of its states. -/
theorem Filed.agrees_renumbered (h : c.Filed g) : c.renumbered.Agrees c where
  live s := by
    constructor
    · rintro ⟨n, hn⟩
      obtain ⟨id, -, hs⟩ := live_renumbered.mp hn
      exact ⟨id, hs⟩
    · rintro ⟨id, hs⟩
      obtain ⟨n, hn⟩ := hs.renumber
      exact ⟨n, live_renumbered.mpr ⟨id, hn, hs⟩⟩
  derivation s l := by
    constructor
    · rintro ⟨n, e, hn, he, rfl⟩
      obtain ⟨id, hid, hs⟩ := live_renumbered.mp hn
      obtain ⟨id', d, hid', hd, rfl⟩ := derives_renumbered.mp he
      obtain rfl := renumber_injective hid hid'
      exact ⟨id, d, hs, hd, (h.link_renumbered hd).symm⟩
    · rintro ⟨id, d, hs, hd, rfl⟩
      obtain ⟨n, hn⟩ := hs.renumber
      exact ⟨n, _, live_renumbered.mpr ⟨id, hn, hs⟩, derives_renumbered.mpr ⟨id, d, hn, hd, rfl⟩,
        h.link_renumbered hd⟩
  isPredicted := isPredicted_renumbered

end Chart

namespace Editor

variable {g g' : Grammar} {e : Editor}

/-- Removing a rule from a chart that agrees with one built with the rule succeeds, and leads to a chart
that agrees with every chart built without it. -/
theorem removeRule_agrees {rule : Nat} {before : Budget} {old : Chart} (hg : g.Reachable)
    (hunused : g.RootUnused) (hwell : g.WellFormed) (hcycle : g.hasUnitCycle = false)
    (hremove : g.remove? rule = some g') (he : Reachable e g)
    (hold : (Chart.new e.chart.layout e.chart.input).build g before = .ok (old, none))
    (hagrees : e.chart.Agrees old) :
    ∃ e', e.removeRule g' rule = .ok e' ∧ ∀ (after : Budget) (new : Chart),
      (Chart.new e.chart.layout e.chart.input).build g' after = .ok (new, none) →
      e'.chart.Agrees new := by
  have hsound := (he.regrammar (sameRules_remove hremove)).sound
  have hwithout := Grammar.without_remove hg.indexed hremove
  obtain ⟨hold', -, hlayout, hinput⟩ := Chart.build_holds hg.indexed hunused.unasked hold
  have hholds := hagrees.holds hold' hlayout.symm hinput.symm
  have hremoved := Removal.removeRule_holds hg.indexed hunused.unasked hwell hcycle hremove
    hsound.filed hholds
  have horderly := Removal.removeRule_orderly (r := Removal.on e.chart) hsound.filed rule
  obtain ⟨hnoted, heq⟩ := hsound.removeRule_eq rule
  have hsame (new : Chart) (after : Budget)
      (hnew : (Chart.new e.chart.layout e.chart.input).build g' after = .ok (new, none)) :
      ((Removal.on e.chart).removeRule g' rule).chart.Agrees new := by
    obtain ⟨hnew', -, hlayout', hinput'⟩ :=
      Chart.build_holds hwithout.indexed' (hwithout.rootUnused hunused).unasked hnew
    exact hremoved.agrees hnew' (horderly.layout.trans hlayout'.symm)
      (horderly.input.trans hinput'.symm)
  rw [heq]
  -- outside of a transaction the states that were taken out are dropped at once
  cases hopen : e.inTransaction with
  | true => exact ⟨_, rfl, fun after new => hsame new after⟩
  | false =>
    obtain ⟨e', hcompact, -, -, hchart⟩ :=
      (hnoted.sound hsound).compact_eq (hnoted.inTransaction_eq.trans hopen)
    refine ⟨e', hcompact, fun after new hnew => ?_⟩
    rcases hchart with hchart | hchart
    · rw [hchart]
      exact hsame new after hnew
    · rw [hchart]
      exact (Chart.Filed.agrees_renumbered horderly.filed).trans (hsame new after hnew)

open Sample in
/-- Removing the left-recursive rule for longer lists outside of a transaction leads to the chart that is
built without it. -/
theorem removeRule_agrees_lists : ∃ e e' : Editor, ∃ g' : Grammar, ∃ new : Chart,
    (Editor.new blank ample).build lists = .ok (e, none) ∧ lists.remove? 2 = some g' ∧
    e.removeRule g' 2 = .ok e' ∧ blank.build g' ample = .ok (new, none) ∧ e'.chart.Agrees new := by
  have hrun : ((completed? ((Editor.new blank ample).build lists)).bind fun _ =>
      (lists.remove? 2).bind fun g' => completed? (blank.build g' ample)).isSome = true := by
    decide +kernel
  obtain ⟨new, hrun⟩ := Option.isSome_iff_exists.mp hrun
  simp only [Option.bind_eq_some_iff] at hrun
  obtain ⟨e, hbuild, g', hremove, hnew⟩ := hrun
  have hbuild := ok_of_completed? hbuild
  have hnew := ok_of_completed? hnew
  have hg : lists.Reachable := .insert longer reachable_singles
  have hold : blank.build lists ample = .ok (e.chart, none) := by
    simp only [Chart.build, hbuild, Except.map]
  obtain ⟨-, -, hlayout, hinput⟩ := Chart.build_holds hg.indexed rootUnused_lists.unasked hold
  have hagain : Chart.new e.chart.layout e.chart.input = blank := by
    rw [hlayout, hinput]
    rfl
  obtain ⟨e', hremoved, hagrees⟩ := removeRule_agrees hg rootUnused_lists wellFormed_lists
    (by decide +kernel) hremove (.build (.new _ _ ample lists) hbuild) (hagain ▸ hold)
    (.refl e.chart)
  exact ⟨e, e', g', new, hbuild, hremove, hremoved, hnew, hagrees ample new (hagain ▸ hnew)⟩

end Editor

end IndexedGrammar
