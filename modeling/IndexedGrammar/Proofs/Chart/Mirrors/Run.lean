import IndexedGrammar.Proofs.Chart.Agenda
import IndexedGrammar.Proofs.Chart.Mirrors
import IndexedGrammar.Proofs.Chart.View
import Mathlib.Data.List.Forall2

/-!
# Runs under new numbers

Two runs on charts that mirror each other go through the same steps, and they end alike: what waits at their columns
is the same under new numbers, the work is the same, and so is the first breach, if there is one. The changes that the
first run notes lead back to the chart on which it began.
-/

namespace IndexedGrammar

variable {f : Nat → Option Nat}

/-! Agendas -/

namespace Agenda

/-- The second agenda is the first one under new numbers. -/
structure Mirrors (f : Nat → Option Nat) (a b : Agenda) : Prop where
  completed : List.Forall₂ (fun x y => x.1 = y.1 ∧ f x.2 = some y.2) a.completed b.completed
  active : List.Forall₂ (fun i n => f i = some n) a.active b.active
  arrived : List.Forall₂ (fun i n => f i = some n) a.arrived b.arrived

variable {a b : Agenda} {id n : Nat}

/-- Empty agendas mirror each other. -/
theorem mirrors_empty (f : Nat → Option Nat) : empty.Mirrors f empty :=
  ⟨.nil, .nil, .nil⟩

/-- Only an empty agenda is mirrored by an empty one. -/
theorem Mirrors.eq_empty (h : a.Mirrors f empty) : a = empty := by
  obtain ⟨completed, active, arrived⟩ := a
  obtain ⟨hcompleted, hactive, harrived⟩ := h
  obtain rfl := List.forall₂_nil_right_iff.mp hcompleted
  obtain rfl := List.forall₂_nil_right_iff.mp hactive
  obtain rfl := List.forall₂_nil_right_iff.mp harrived
  rfl

/-- Lists that correspond are split at the same place. -/
theorem forall₂_takeWhile_dropWhile {α β : Type} {R : α → β → Prop} {p : α → Bool} {q : β → Bool} {as : List α}
    {bs : List β} (h : List.Forall₂ R as bs) (hsame : ∀ a b, R a b → p a = q b) :
    List.Forall₂ R (as.takeWhile p) (bs.takeWhile q) ∧ List.Forall₂ R (as.dropWhile p) (bs.dropWhile q) := by
  induction h with
  | nil => exact ⟨.nil, .nil⟩
  | @cons a b as bs hab hrest ih =>
    rw [List.takeWhile_cons, List.takeWhile_cons, List.dropWhile_cons, List.dropWhile_cons, hsame a b hab]
    cases q b with
    | true => exact ⟨.cons hab ih.1, ih.2⟩
    | false => exact ⟨.nil, .cons hab hrest⟩

/-- A completed state is added in both. -/
theorem Mirrors.pushCompleted (h : a.Mirrors f b) (hid : f id = some n) (origin : Nat) :
    (a.pushCompleted origin id).Mirrors f (b.pushCompleted origin n) := by
  obtain ⟨hahead, hbehind⟩ := forall₂_takeWhile_dropWhile (p := fun x => decide (origin ≤ x.1))
    (q := fun y => decide (origin ≤ y.1)) h.completed fun x y hxy => by rw [hxy.1]
  exact ⟨List.rel_append hahead (.cons ⟨rfl, hid⟩ hbehind), h.active, h.arrived⟩

/-- A state that is not completed is added in both. -/
theorem Mirrors.pushActive (h : a.Mirrors f b) (hid : f id = some n) : (a.pushActive id).Mirrors f (b.pushActive n) :=
  ⟨h.completed, h.active, .cons hid h.arrived⟩

/-- What comes off both agendas is the same state, and the rest mirrors each other. -/
theorem Mirrors.pop? (h : a.Mirrors f b) : (a.pop? = none ∧ b.pop? = none) ∨
    ∃ id n a' b', a.pop? = some (id, a') ∧ b.pop? = some (n, b') ∧ f id = some n ∧ a'.Mirrors f b' := by
  obtain ⟨completed, active, arrived⟩ := a
  obtain ⟨completed', active', arrived'⟩ := b
  obtain ⟨hcompleted, hactive, harrived⟩ := h
  dsimp only at hcompleted hactive harrived
  cases hcompleted with
  | cons hfirst hrest => exact .inr ⟨_, _, _, _, rfl, rfl, hfirst.2, hrest, hactive, harrived⟩
  | nil =>
    cases hactive with
    | cons hfirst hrest => exact .inr ⟨_, _, _, _, rfl, rfl, hfirst, .nil, hrest, harrived⟩
    | nil =>
      have hreverse := List.forall₂_reverse_iff.mpr harrived
      unfold Agenda.pop?
      dsimp only
      cases hold : arrived.reverse with
      | nil =>
        rw [hold, List.forall₂_nil_left_iff] at hreverse
        rw [hreverse]
        exact .inl ⟨rfl, rfl⟩
      | cons id rest =>
        rw [hold] at hreverse
        obtain ⟨n, rest', hid, hrest, hnew⟩ := List.forall₂_cons_left_iff.mp hreverse
        rw [hnew]
        exact .inr ⟨id, n, _, _, rfl, rfl, hid, .nil, hrest, .nil⟩

/-- The next state that is not passed over is the same in both, if the same states are passed over. -/
theorem Mirrors.next (h : a.Mirrors f b) {skip skip' : Nat → Bool}
    (hskip : ∀ {id n}, f id = some n → skip id = skip' n) :
    Option.Rel (fun id n => f id = some n) (a.next skip).1 (b.next skip').1 ∧
      (a.next skip).2.Mirrors f (b.next skip').2 := by
  induction a using Agenda.next.induct skip generalizing b with
  | case1 a hpop =>
    obtain ⟨-, hpop'⟩ | ⟨id, n, a', b', hsome, -⟩ := h.pop?
    · rw [next_of_pop?_none hpop, next_of_pop?_none hpop']
      exact ⟨.none, h⟩
    · rw [hpop] at hsome
      contradiction
  | case2 a id a' hpop hskipped ih =>
    obtain ⟨hnone, -⟩ | ⟨id', n, rest, b', hsome, hpop', hid, hrest⟩ := h.pop?
    · rw [hpop] at hnone
      contradiction
    · obtain ⟨rfl, rfl⟩ := Prod.mk.inj (Option.some.inj (hpop.symm.trans hsome))
      rw [next_of_pop? hpop, next_of_pop? hpop', ← hskip hid, if_pos hskipped, if_pos hskipped]
      exact ih hrest
  | case3 a id a' hpop hskipped =>
    obtain ⟨hnone, -⟩ | ⟨id', n, rest, b', hsome, hpop', hid, hrest⟩ := h.pop?
    · rw [hpop] at hnone
      contradiction
    · obtain ⟨rfl, rfl⟩ := Prod.mk.inj (Option.some.inj (hpop.symm.trans hsome))
      rw [next_of_pop? hpop, next_of_pop? hpop', ← hskip hid, if_neg hskipped, if_neg hskipped]
      exact ⟨.some hid, hrest⟩

end Agenda

/-! Runs -/

namespace Run

/-- Two runs on charts that mirror each other, with the same states waiting, the same work and the same breach. What
the first one changed leads back to an earlier chart. -/
structure Mirrors (f : Nat → Option Nat) (base : Chart) (run run' : Run) : Prop where
  chart : run.chart.Mirrors f run'.chart
  agendas : ∀ k : Nat, Option.Rel (Agenda.Mirrors f) run.agendas[k]? run'.agendas[k]?
  work : run'.work = run.work
  breach : run'.breach = run.breach
  size_columns : run.chart.columns.size = base.columns.size
  restores : run.chart.Restores run.changes base

variable {g : Grammar} {base : Chart} {run run' : Run} {item : Item} {stop k id n : Nat} {d : Derivation}

/-- Entering a state adds none. -/
theorem states_enter (run : Run) (item : Item) (stop id : Nat) :
    (enter g run item stop id).chart.states = run.chart.states := by
  unfold enter Chart.fileExpecting
  split
  · rfl
  · rfl
  · simp only [change]
    split <;> rfl

/-- An addition leaves the states that there are. -/
theorem size_states_le_add (run : Run) (item : Item) (stop : Nat) (d : Derivation) :
    run.chart.states.size ≤ (add g run item stop d).chart.states.size := by
  unfold add
  dsimp only
  split
  · exact Nat.le_of_eq (Chart.size_states_pack _ _ _).symm
  · rw [states_enter]
    exact Nat.le_of_lt (Nat.lt_of_lt_of_eq (Nat.lt_succ_self _) (Chart.size_states_record _ _ _ _).symm)

/-- Beginning the rules of a category leaves the states that there are. -/
theorem size_states_le_begin (run : Run) (k : Nat) (symbol : Category) :
    run.chart.states.size ≤ (begin g run k symbol).chart.states.size := by
  have hfoldl (rules : List (Nat × Rule)) (run : Run) : run.chart.states.size ≤
      (rules.foldl (fun run numbered => add g run ⟨numbered.1, 0, k⟩ k .predicted) run).chart.states.size := by
    induction rules generalizing run with
    | nil => exact Nat.le_refl _
    | cons first rest ih => exact Nat.le_trans (size_states_le_add _ _ _ _) (ih _)
  unfold begin
  split
  · exact Nat.le_refl _
  · refine Nat.le_trans (Nat.le_of_eq ?_) (hfoldl _ _)
    split <;> rfl

/-- A list in which all have new numbers corresponds to the list of these. -/
theorem forall₂_filterMap {ids : List Nat} (h : ∀ id ∈ ids, ∃ n, f id = some n) :
    List.Forall₂ (fun id n => f id = some n) ids (ids.filterMap f) := by
  induction ids with
  | nil => exact .nil
  | cons id rest ih =>
    obtain ⟨n, hn⟩ := h id List.mem_cons_self
    rw [List.filterMap_cons_some hn]
    exact .cons hn (ih fun id hid => h id (List.mem_cons_of_mem _ hid))

/-- Agendas that are changed in the same way mirror each other. -/
theorem rel_modify {agendas agendas' : Array Agenda}
    (h : ∀ k : Nat, Option.Rel (Agenda.Mirrors f) agendas[k]? agendas'[k]?) {F F' : Agenda → Agenda}
    (hF : ∀ {a b}, a.Mirrors f b → (F a).Mirrors f (F' b)) (stop k : Nat) :
    Option.Rel (Agenda.Mirrors f) (agendas.modify stop F)[k]? (agendas'.modify stop F')[k]? := by
  have hk := h k
  simp only [Array.getElem?_modify]
  generalize agendas[k]? = a, agendas'[k]? = b at hk
  split
  · cases hk with
    | none => exact .none
    | some hab => exact .some (hF hab)
  · exact hk

namespace Mirrors

/-- A breach is noted in both runs. -/
theorem fail (h : run.Mirrors f base run') (breach : Breach) : (run.fail breach).Mirrors f base (run'.fail breach) where
  chart := h.chart
  agendas := h.agendas
  work := h.work
  breach := by rw [Run.fail, Run.fail, h.breach]
  size_columns := h.size_columns
  restores := h.restores

/-- Charts that are changed in the same way mirror each other. -/
theorem change (h : run.Mirrors f base run') {c d : Chart} (hchart : c.Mirrors f d)
    (hsize : c.columns.size = run.chart.columns.size) {undo : List Undo} (undo' : List Undo)
    (hrestores : c.Restores undo run.chart) : (run.change c undo).Mirrors f base (run'.change d undo') where
  chart := hchart
  agendas := h.agendas
  work := h.work
  breach := h.breach
  size_columns := hsize.trans h.size_columns
  restores := hrestores.trans h.restores

/-- A new state is entered in both runs. -/
theorem enter (h : run.Mirrors f base run') (hid : Numbered f run.chart.states.size id) (hn : f id = some n)
    (horigin : item.origin < base.columns.size) (hstop : stop < base.columns.size) :
    (enter g run item stop id).Mirrors f base (enter g run' item stop n) := by
  rw [← h.size_columns] at horigin hstop
  have hcolumn := Array.getElem?_eq_getElem hstop
  unfold Run.enter
  split
  · exact h.fail _
  · next lhs _ =>
    have hcolumn := Array.getElem?_eq_getElem horigin
    have hchange := h.change (h.chart.fileReductor hid hn item.origin lhs)
      (by rw [Chart.fileReductor, Array.size_modify]) [.filedReductor item.origin lhs]
      (Chart.restores_fileReductor hcolumn (h.chart.finds hcolumn).tidy_reductors)
    exact { hchange with
      agendas := rel_modify h.agendas (fun hab => hab.pushCompleted hn item.origin) stop }
  · next symbol _ =>
    have hcolumn := Array.getElem?_eq_getElem hstop
    have hsize : (run.chart.fileExpecting stop symbol id).columns.size = run.chart.columns.size := by
      unfold Chart.fileExpecting
      split
      · rfl
      · rw [Array.size_modify]
    have hchange := h.change (h.chart.fileExpecting hid hn stop symbol) hsize (Chart.undoFileExpecting stop symbol)
      (Chart.restores_fileExpecting hcolumn (h.chart.finds hcolumn).tidy_expecting)
    exact { hchange with agendas := rel_modify h.agendas (fun hab => hab.pushActive hn) stop }

/-- An addition to both runs. -/
theorem add (h : run.Mirrors f base run') (horigin : item.origin < base.columns.size)
    (hstop : stop < base.columns.size) (hd : ∀ link ∈ d.links, Numbered f run.chart.states.size link) :
    (add g run item stop d).Mirrors f base (add g run' item stop (d.under f)) := by
  have hlinks (link : Nat) (hlink : link ∈ d.links) : link < run.chart.states.size := (hd link hlink).1
  have hworked : Run.Mirrors f base { run with work := run.work + 1 } { run' with work := run'.work + 1 } :=
    { h with work := congrArg (· + 1) h.work }
  unfold Run.add
  dsimp only
  rw [h.chart.find?]
  cases hfind : run.chart.find? item stop with
  | some id =>
    have hid := h.chart.numbered_of_find? hfind
    obtain ⟨n, hn⟩ := hid.2
    rw [Option.bind_some, hn]
    exact hworked.change (h.chart.pack hid hn hd) (by rw [Chart.columns_pack]) _ (Chart.restores_pack hlinks)
  | none =>
    rw [Option.bind_none]
    rw [← h.size_columns] at horigin hstop
    have hrecorded := hworked.change (h.chart.record ⟨horigin, hstop⟩ hd)
      (Array.size_modify ..) (Chart.undoRecord item stop (d.under f))
      (Chart.restores_record h.chart.tidy_byRule hfind hstop hlinks)
    refine hrecorded.enter ⟨?_, _, h.chart.numbering.next⟩ h.chart.numbering.next (h.size_columns ▸ horigin)
      (h.size_columns ▸ hstop)
    exact Nat.lt_of_lt_of_eq (Nat.lt_succ_self _) (Chart.size_states_record _ _ _ _).symm

/-- What keeps runs alike step by step keeps them alike in the end. -/
theorem foldl {α : Type} {F F' : Run → α → Run} {as : List α} (h : run.Mirrors f base run')
    (hstep : ∀ {r r'}, ∀ a ∈ as, r.Mirrors f base r' → (F r a).Mirrors f base (F' r' a)) :
    (as.foldl F run).Mirrors f base (as.foldl F' run') := by
  induction as generalizing run run' with
  | nil => exact h
  | cons a rest ih =>
    exact ih (hstep a List.mem_cons_self h) fun a ha => hstep a (List.mem_cons_of_mem _ ha)

/-- Where a state begins and ends there is a column. -/
theorem within (h : run.Mirrors f base run') {s : State} (hs : run.chart.states[id]? = some s) :
    s.item.origin < base.columns.size ∧ s.stop < base.columns.size := by
  rw [← h.size_columns]
  have hspot : run.chart.spot? id = some s.spot := by rw [Chart.spot?, hs, Option.map_some]
  exact h.chart.within hspot

/-- Dots are moved over a completed state in both runs. -/
theorem complete (h : run.Mirrors f base run') (hid : id < run.chart.states.size) (hn : f id = some n)
    (hk : k < base.columns.size) (origin : Nat) (lhs : Category) :
    (complete g run id origin k lhs).Mirrors f base (complete g run' n origin k lhs) := by
  unfold Run.complete
  rw [h.chart.expecting]
  refine (List.rel_foldl (P := fun r r' : Run => r.Mirrors f base r' ∧ id < r.chart.states.size)
    (fun r r' ⟨hr, hlt⟩ waiting m hm => ?_) ⟨h, hid⟩
    (forall₂_filterMap fun waiting hwaiting => (h.chart.numbered_of_mem_expecting hwaiting).2)).1
  rw [hr.chart.states hm]
  cases hs : r.chart.states[waiting]? with
  | none => exact ⟨hr, hlt⟩
  | some s =>
    have hlinks : ∀ link ∈ (Derivation.mk (some waiting) (some id)).links, Numbered f r.chart.states.size link := by
      intro link hlink
      rcases List.mem_cons.mp hlink with rfl | hlink
      · exact ⟨(Array.getElem?_eq_some_iff.mp hs).1, m, hm⟩
      · exact List.mem_singleton.mp hlink ▸ ⟨hlt, n, hn⟩
    have hadd : Run.Mirrors f base (Run.add g r s.item.advance k ⟨some waiting, some id⟩) _ :=
      hr.add (hr.within hs).1 hk hlinks
    rw [Derivation.under, Option.bind_some, Option.bind_some, hm, hn] at hadd
    exact ⟨hadd, Nat.lt_of_lt_of_le hlt (size_states_le_add _ _ _ _)⟩

/-- The rules of a category are begun in both runs. -/
theorem begin (h : run.Mirrors f base run') (hk : k < base.columns.size) (symbol : Category) :
    (begin g run k symbol).Mirrors f base (begin g run' k symbol) := by
  unfold Run.begin
  rw [h.chart.isPredicted]
  split
  · exact h
  · next hnot =>
    have hpredicted := h.change (h.chart.modifyPredicted k (·.insert symbol)) (Array.size_modify ..)
      [.predicted k symbol] (Chart.restores_predict (h.size_columns ▸ hk) (Bool.eq_false_iff.mpr hnot))
    refine foldl ?_ fun rule _ hr => hr.add (d := .predicted) hk hk fun link hlink => absurd hlink List.not_mem_nil
    split
    · exact hpredicted
    · exact hpredicted.fail _

/-- Rules are begun, and a dot is moved over what has been completed, in both runs. -/
theorem predict (h : run.Mirrors f base run') (hid : id < run.chart.states.size) (hn : f id = some n)
    (horigin : item.origin < base.columns.size) (hk : k < base.columns.size) (symbol : Category) :
    (predict g run id item k symbol).Mirrors f base (predict g run' n item k symbol) := by
  have hbegun := h.begin (g := g) hk symbol
  unfold Run.predict
  dsimp only
  rw [hbegun.chart.reductors]
  refine (List.rel_foldl (P := fun r r' : Run => r.Mirrors f base r' ∧ id < r.chart.states.size)
    (fun r r' ⟨hr, hlt⟩ reductor m hm => ?_)
    ⟨hbegun, Nat.lt_of_lt_of_le hid (size_states_le_begin run k symbol)⟩
    (forall₂_filterMap fun reductor hreductor => (hbegun.chart.numbered_of_mem_reductors hreductor).2)).1
  rw [hr.chart.states hm]
  cases hs : r.chart.states[reductor]? with
  | none => exact ⟨hr, hlt⟩
  | some s =>
    have hlinks : ∀ link ∈ (Derivation.mk (some id) (some reductor)).links, Numbered f r.chart.states.size link := by
      intro link hlink
      rcases List.mem_cons.mp hlink with rfl | hlink
      · exact ⟨hlt, n, hn⟩
      · exact List.mem_singleton.mp hlink ▸ ⟨(Array.getElem?_eq_some_iff.mp hs).1, m, hm⟩
    have hadd : Run.Mirrors f base (Run.add g r item.advance s.stop ⟨some id, some reductor⟩) _ :=
      hr.add horigin (hr.within hs).2 hlinks
    rw [Derivation.under, Option.bind_some, Option.bind_some, hm, hn] at hadd
    exact ⟨hadd, Nat.lt_of_lt_of_le hlt (size_states_le_add _ _ _ _)⟩

/-- A state is processed in both runs. -/
theorem process (h : run.Mirrors f base run') (hn : f id = some n) (hk : k < base.columns.size) :
    (process g run k id).Mirrors f base (process g run' k n) := by
  unfold Run.process
  rw [h.chart.states hn]
  cases hs : run.chart.states[id]? with
  | none => exact h
  | some s =>
    have hid : id < run.chart.states.size := (Array.getElem?_eq_some_iff.mp hs).1
    have horigin := (h.within hs).1
    have hadvance (stop : Nat) (hstop : stop < base.columns.size) :
        (Run.add g run s.item.advance stop ⟨some id, none⟩).Mirrors f base
          (Run.add g run' s.item.advance stop ⟨some n, none⟩) := by
      have hadd : Run.Mirrors f base (Run.add g run s.item.advance stop ⟨some id, none⟩) _ :=
        h.add horigin hstop fun link hlink => List.mem_singleton.mp hlink ▸ ⟨hid, n, hn⟩
      rwa [Derivation.under, Option.bind_some, Option.bind_none, hn] at hadd
    simp only [Option.map_some, Chart.renumberState]
    split
    · exact h.fail _
    · exact h.complete hid hn hk _ _
    · split
      · exact hadvance k hk
      · split
        · unfold scan
          rw [h.chart.size_columns, h.chart.allows]
          split
          · next hscan =>
            refine hadvance (k + 1) ?_
            rw [← h.size_columns]
            exact of_decide_eq_true (Bool.and_eq_true_iff.mp hscan).1
          · exact h
        · exact h.predict hid hn horigin hk _

/-- The next state is the same in both runs. -/
theorem next (h : run.Mirrors f base run') (k : Nat) :
    Option.Rel (fun id n => f id = some n) (run.next k).1 (run'.next k).1 ∧
      (run.next k).2.Mirrors f base (run'.next k).2 := by
  -- a state is passed over in both runs or in neither
  have hskip {id n : Nat} (hn : f id = some n) : run.isRemoved id = run'.isRemoved n := by
    unfold isRemoved
    rw [h.chart.states hn]
    cases run.chart.states[id]? <;> rfl
  have hk := h.agendas k
  unfold Run.next
  cases hold : run.agendas[k]? with
  | none =>
    rw [hold] at hk
    cases hnew : run'.agendas[k]? with
    | none => exact ⟨.none, h⟩
    | some b =>
      rw [hnew] at hk
      contradiction
  | some a =>
    rw [hold] at hk
    cases hnew : run'.agendas[k]? with
    | none =>
      rw [hnew] at hk
      contradiction
    | some b =>
      rw [hnew] at hk
      cases hk with
      | some hab =>
        have hnext := hab.next hskip
        refine ⟨hnext.1, { h with agendas := fun j => ?_ }⟩
        simp only [Array.getElem?_setIfInBounds]
        split
        · rw [if_pos (Array.getElem?_eq_some_iff.mp hold).1, if_pos (Array.getElem?_eq_some_iff.mp hnew).1]
          exact .some hnext.2
        · exact h.agendas j

/-- A column is worked off in both runs, or neither run stays within the limit. -/
theorem drain (h : run.Mirrors f base run') (limit : Nat) (hk : k < base.columns.size) (steps : Nat) :
    (drain g limit k steps run).1.Mirrors f base (drain g limit k steps run').1 ∧
      (drain g limit k steps run').2 = (drain g limit k steps run).2 := by
  induction steps generalizing run run' with
  | zero => exact ⟨h, rfl⟩
  | succ steps ih =>
    obtain ⟨hid, hrun⟩ := h.next k
    rw [Run.drain, Run.drain]
    rcases hnext : run.next k with ⟨id?, rest⟩
    rcases hnext' : run'.next k with ⟨n?, rest'⟩
    rw [hnext, hnext'] at hid hrun
    cases hid with
    | none => exact ⟨hrun, rfl⟩
    | @some id n hn =>
      have hworked : Run.Mirrors f base { rest with work := rest.work + 1 } { rest' with work := rest'.work + 1 } :=
        { hrun with work := congrArg (· + 1) hrun.work }
      have hprocessed := hworked.process (g := g) hn hk
      dsimp only
      rw [hprocessed.work]
      split
      · exact ⟨hprocessed, rfl⟩
      · exact ih hprocessed

/-- Nothing waits in both runs. -/
theorem clear (h : run.Mirrors f base run') : run.clear.Mirrors f base run'.clear where
  chart := h.chart
  agendas k := by
    have hk := h.agendas k
    simp only [Run.clear, Array.getElem?_map]
    generalize run.agendas[k]? = a, run'.agendas[k]? = b at hk
    cases hk with
    | none => exact .none
    | some _ => exact .some (Agenda.mirrors_empty f)
  work := h.work
  breach := h.breach
  size_columns := h.size_columns
  restores := h.restores

/-- Columns are worked off in both runs, and both end with the same fault. -/
theorem columns (h : run.Mirrors f base run') (budget : Budget) {ks : List Nat}
    (hks : ∀ k ∈ ks, k < base.columns.size) :
    (columns g budget ks run).1.Mirrors f base (columns g budget ks run').1 ∧
      (columns g budget ks run').2 = (columns g budget ks run).2 := by
  induction ks generalizing run run' with
  | nil => exact ⟨h, rfl⟩
  | cons k rest ih =>
    rw [Run.columns, Run.columns]
    split
    · exact ⟨h.clear, rfl⟩
    · have hreset : Run.Mirrors f base { run with work := 0 } { run' with work := 0 } := { h with work := rfl }
      obtain ⟨hdrained, hwithin⟩ := hreset.drain (g := g) budget.limit (hks k List.mem_cons_self) (budget.limit + 1)
      rcases hold : Run.drain g budget.limit k (budget.limit + 1) { run with work := 0 } with ⟨left, within⟩
      rcases hnew : Run.drain g budget.limit k (budget.limit + 1) { run' with work := 0 } with ⟨left', within'⟩
      rw [hold, hnew] at hdrained hwithin
      dsimp only at hdrained hwithin
      subst hwithin
      cases within' with
      | true => exact ih hdrained fun k hk => hks k (List.mem_cons_of_mem _ hk)
      | false => exact ⟨hdrained.clear, rfl⟩

/-- Columns from one on are worked off in both runs. -/
theorem onwards (h : run.Mirrors f base run') (budget : Budget) (first : Nat) :
    (run.onwards g budget first).1.Mirrors f base (run'.onwards g budget first).1 ∧
      (run'.onwards g budget first).2 = (run.onwards g budget first).2 := by
  unfold Run.onwards
  rw [h.chart.size_columns]
  refine h.columns budget fun k hk => ?_
  rw [← h.size_columns]
  have hk := List.mem_range'_1.mp hk
  omega

/-- A rule is inserted in both runs. -/
theorem insertRule (h : run.Mirrors f base run') (budget : Budget) (rule : Nat) (lhs : Category) :
    (run.insertRule g budget rule lhs).1.Mirrors f base (run'.insertRule g budget rule lhs).1 ∧
      (run'.insertRule g budget rule lhs).2 = (run.insertRule g budget rule lhs).2 := by
  have hbegun : (run.beginRule g rule (run.chart.predictedAt lhs)).Mirrors f base
      (run'.beginRule g rule (run.chart.predictedAt lhs)) := by
    refine h.foldl fun k hk hr => ?_
    have hk : k < base.columns.size := by
      rw [← h.size_columns]
      exact List.mem_range.mp (List.mem_filter.mp hk).1
    exact hr.add (d := .predicted) hk hk fun link hlink => absurd hlink List.not_mem_nil
  unfold Run.insertRule
  dsimp only
  rw [h.chart.predictedAt]
  generalize run.chart.predictedAt lhs = begun at hbegun ⊢
  cases begun with
  | nil => exact ⟨hbegun, rfl⟩
  | cons first rest => exact hbegun.onwards budget first

/-- If nothing waits in the second run, nothing waits in the first one. -/
theorem agendas_eq (h : run.Mirrors f base run') (hidle : ∀ agenda ∈ run'.agendas, agenda = .empty) :
    run'.agendas = run.agendas := by
  refine Array.ext_getElem? fun k => ?_
  have hagenda := h.agendas k
  generalize hold : run.agendas[k]? = old at hagenda ⊢
  generalize hnew : run'.agendas[k]? = new at hagenda ⊢
  cases hagenda with
  | none => rfl
  | some hmirrors =>
    rw [hidle _ (Array.mem_of_getElem? hnew)] at hmirrors ⊢
    rw [hmirrors.eq_empty]

end Mirrors

end Run

end IndexedGrammar
