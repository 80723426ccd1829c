import IndexedGrammar.Chart.Parsing
import IndexedGrammar.Proofs.Chart.Columns

/-!
# Runs without a breach

A run begins rules of the grammar, and moves the dots of items that are in the chart. So if the grammar has
the rules of all states, and its index finds only rules that it has, no run meets a breach, whichever states
it processes and whether or not it is given up. So a parse that is not cancelled fails only if it is given up.
-/

namespace IndexedGrammar

/-- The index of a grammar finds only rules that the grammar has. -/
theorem Grammar.Indexed.knowsRulesFor {g : Grammar} (h : g.Indexed) (lhs : Category) :
    g.knowsRulesFor lhs = true := by
  refine List.all_eq_true.mpr fun id hid => ?_
  obtain ⟨r, hr, -⟩ := (h.mem_byLhs lhs id).mp hid
  rw [hr.rule?, Option.isSome_some]

/-- The rules listed for a category are rules of the grammar. -/
theorem Grammar.isSome_of_mem_rulesFor {g : Grammar} {lhs : Category} {numbered : Nat × Rule}
    (h : numbered ∈ g.rulesFor lhs) : (g.rule? numbered.1).isSome := by
  obtain ⟨id, -, hid⟩ := List.mem_filterMap.mp h
  obtain ⟨r, hr, rfl⟩ := Option.map_eq_some_iff.mp hid
  rw [hr, Option.isSome_some]

namespace Run

variable {g : Grammar} {run : Run} {k : Nat}

/-- No breach was met, and the grammar has the rules of all states. -/
structure Unbroken (g : Grammar) (run : Run) : Prop where
  breach : run.breach = none
  known : ∀ {id s}, run.chart.spot? id = some s → (g.rule? s.item.rule).isSome

/-- Entering an item of a known rule meets no breach. -/
theorem breach_enter {item : Item} (hrule : (g.rule? item.rule).isSome) (run : Run) (stop id : Nat) :
    (enter g run item stop id).breach = run.breach := by
  unfold enter
  split
  · next hahead => exact absurd hahead (Grammar.ahead_ne_unknown hrule _)
  · rfl
  · rfl

/-- Adding an item of a known rule meets no breach. -/
theorem Unbroken.add (h : run.Unbroken g) {item : Item} (hrule : (g.rule? item.rule).isSome) (stop : Nat)
    (d : Derivation) : (Run.add g run item stop d).Unbroken g := by
  have hok : (Run.add g run item stop d).breach = none := by
    unfold Run.add
    dsimp only
    split
    · exact h.breach
    · exact (breach_enter hrule _ _ _).trans h.breach
  refine ⟨hok, fun {id s} hs => ?_⟩
  obtain ⟨-, -, ⟨other, -, hchart, -⟩ | ⟨-, -, hchart, -⟩⟩ := add_spec hok
  · rw [hchart, Chart.spot?_pack] at hs
    exact h.known hs
  · rw [hchart, Chart.spot?_grow] at hs
    split at hs
    · obtain rfl := Option.some.inj hs
      exact hrule
    · exact h.known hs

/-- Moving the dot of an item of a known rule meets no breach. -/
theorem Unbroken.advance (h : run.Unbroken g) {item : Item} (hrule : (g.rule? item.rule).isSome) (stop : Nat)
    (d : Derivation) : (Run.add g run item.advance stop d).Unbroken g := by
  refine h.add ?_ stop d
  exact hrule

/-- What each step of a fold leaves unbroken, the fold leaves unbroken. -/
theorem Unbroken.foldl {α : Type} {f : Run → α → Run} {as : List α}
    (hstep : ∀ run, run.Unbroken g → ∀ a ∈ as, (f run a).Unbroken g) (h : run.Unbroken g) :
    (as.foldl f run).Unbroken g := by
  induction as generalizing run with
  | nil => exact h
  | cons a rest ih =>
    exact ih (fun run hrun b hb => hstep run hrun b (List.mem_cons_of_mem a hb))
      (hstep run h a List.mem_cons_self)

/-- The rule of a state is known. -/
theorem Unbroken.isSome_rule (h : run.Unbroken g) {id : Nat} {state : State}
    (hstate : run.chart.states[id]? = some state) : (g.rule? state.item.rule).isSome := by
  have hspot : run.chart.spot? id = some state.spot := by rw [Chart.spot?, hstate, Option.map_some]
  exact h.known hspot

/-- Completing a state meets no breach. -/
theorem Unbroken.complete (h : run.Unbroken g) (id origin k : Nat) (lhs : Category) :
    (Run.complete g run id origin k lhs).Unbroken g := by
  refine foldl (fun run' hrun' waiting _ => ?_) h
  split
  · exact hrun'
  · next state hstate => exact hrun'.advance (hrun'.isSome_rule hstate) _ _

/-- Beginning the rules of a category meets no breach. -/
theorem Unbroken.begin (hg : g.Indexed) (h : run.Unbroken g) (k : Nat) (symbol : Category) :
    (Run.begin g run k symbol).Unbroken g := by
  unfold Run.begin
  split
  · exact h
  · rw [hg.knowsRulesFor symbol]
    have hpredicted : (run.change (run.chart.predict k symbol) [.predicted k symbol]).Unbroken g :=
      ⟨h.breach, h.known⟩
    exact foldl (fun run' hrun' _ hrule => hrun'.add (Grammar.isSome_of_mem_rulesFor hrule) _ _) hpredicted

/-- Predicting a category meets no breach. -/
theorem Unbroken.predict (hg : g.Indexed) (h : run.Unbroken g) (id k : Nat) {item : Item}
    (hrule : (g.rule? item.rule).isSome) (symbol : Category) :
    (Run.predict g run id item k symbol).Unbroken g := by
  refine foldl (fun run' hrun' reductor _ => ?_) (h.begin hg k symbol)
  split
  · exact hrun'
  · exact hrun'.advance hrule _ _

/-- Processing a state meets no breach. -/
theorem Unbroken.process (hg : g.Indexed) (h : run.Unbroken g) (k id : Nat) :
    (Run.process g run k id).Unbroken g := by
  unfold Run.process
  split
  · exact h
  · next state hstate =>
    have hrule := h.isSome_rule hstate
    split
    · next hahead => exact absurd hahead (Grammar.ahead_ne_unknown hrule _)
    · exact h.complete _ _ _ _
    · split
      · exact h.advance hrule _ _
      · split
        · unfold scan
          split
          · exact h.advance hrule _ _
          · exact h
        · exact h.predict hg id k hrule _

/-- Working off a column meets no breach. -/
theorem Unbroken.drain (hg : g.Indexed) (limit steps : Nat) (h : run.Unbroken g) :
    (Run.drain g limit k steps run).1.Unbroken g := by
  have hnext {run : Run} (h : run.Unbroken g) : (run.next k).2.Unbroken g := by
    unfold next
    split
    · exact h
    · exact ⟨h.breach, h.known⟩
  induction steps generalizing run with
  | zero => exact h
  | succ steps ih =>
    have hrun := hnext h
    rw [Run.drain]
    split
    · next hpopped => rwa [hpopped] at hrun
    · next id run' hpopped =>
      rw [hpopped] at hrun
      have hwork : { run' with work := run'.work + 1 }.Unbroken g := ⟨hrun.breach, hrun.known⟩
      dsimp only
      split
      · exact hwork.process hg k id
      · exact ih (hwork.process hg k id)

/-- Working off columns meets no breach. -/
theorem Unbroken.columns (hg : g.Indexed) (budget : Budget) (ks : List Nat) (h : run.Unbroken g) :
    (Run.columns g budget ks run).1.Unbroken g := by
  induction ks generalizing run with
  | nil => exact h
  | cons k rest ih =>
    have hwork : { run with work := 0 }.Unbroken g := ⟨h.breach, h.known⟩
    have hdrained := hwork.drain (k := k) hg budget.limit (budget.limit + 1)
    rw [Run.columns]
    split
    · exact ⟨h.breach, h.known⟩
    · split
      · next run' hdrain =>
        rw [hdrain] at hdrained
        exact ih hdrained
      · next run' hdrain =>
        rw [hdrain] at hdrained
        exact ⟨hdrained.breach, hdrained.known⟩

variable {c : Chart} {agendas : Array Agenda}

/-- A run over a filed chart begins without a breach. -/
theorem unbroken_on (hc : c.Filed g) (agendas : Array Agenda) : (Run.on c agendas).Unbroken g :=
  ⟨rfl, hc.known⟩

/-- A build meets no breach. -/
theorem build_unbroken (hg : g.Indexed) (budget : Budget) (hc : c.Filed g) :
    ((Run.on c agendas).build g budget).1.Unbroken g := by
  have hrule : (g.rule? Grammar.rootId).isSome := hg.isSome_rootRule?
  exact ((unbroken_on hc agendas).add hrule 0 .predicted).columns hg budget _

/-- Inserting a rule that the grammar has meets no breach. -/
theorem insertRule_unbroken (hg : g.Indexed) (budget : Budget) (hc : c.Filed g) {rule : Nat}
    (hrule : (g.rule? rule).isSome) (lhs : Category) :
    ((Run.on c agendas).insertRule g budget rule lhs).1.Unbroken g := by
  have hbegun (begun : List Nat) : ((Run.on c agendas).beginRule g rule begun).Unbroken g :=
    Unbroken.foldl (fun _ hrun _ _ => hrun.add hrule _ _) (unbroken_on hc agendas)
  unfold insertRule
  dsimp only
  split
  · exact hbegun _
  · exact (hbegun _).columns hg budget _

/-- Columns are worked off, or a run without cancellation is given up at one of them. -/
theorem snd_columns (limit : Nat) (ks : List Nat) (run : Run) :
    (columns g ⟨limit, none⟩ ks run).2 = none ∨
      ∃ k, (columns g ⟨limit, none⟩ ks run).2 = some (.unbounded k limit) := by
  induction ks generalizing run with
  | nil => exact .inl rfl
  | cons k rest ih =>
    rw [columns, Budget.isCancelledAt_none, if_neg Bool.false_ne_true]
    split
    · exact ih _
    · exact .inr ⟨k, rfl⟩

end Run

namespace Editor

variable {g : Grammar} {e : Editor}

/-- After a run without a breach there is an editor with its chart. -/
theorem afterRun_eq {outcome : Run × Option Fault} (hbreach : outcome.1.breach = none) :
    ∃ e', e.afterRun outcome = .ok (e', outcome.2) ∧ e'.chart = outcome.1.chart := by
  rw [afterRun, hbreach]
  exact ⟨_, rfl, rfl⟩

/-- A build in an empty chart is a run over it. -/
theorem build_eq (hg : g.Indexed) (hempty : e.chart.states = #[]) :
    e.build g = e.afterRun ((Run.on e.chart e.agendas).build g e.budget) := by
  have hroot : g.rootRule?.isNone = false := Option.isNone_eq_false_iff.mpr hg.isSome_rootRule?
  simp only [build, hempty, hroot, Array.isEmpty_empty, Bool.not_true, Bool.false_eq_true, if_false]

/-- An insertion of a rule in use in a transaction is a run over the chart. -/
theorem insertRule_eq (hopen : e.inTransaction = true) {rule : Nat} {r : Rule} (hr : g.HasRule rule r) :
    e.insertRule g rule = e.afterRun ((Run.on e.chart e.agendas).insertRule g e.budget rule r.lhs) := by
  simp only [insertRule, hopen, hr.isLive, hr.rule?, Bool.not_true, Bool.false_eq_true, if_false]

end Editor

/-- A parse without cancellation comes to its end or is given up. -/
theorem Editor.parse_ok_or_unbounded {g : Grammar} (hg : g.Indexed) (lexicon : Lexicon) (limit : Nat)
    (words : List String) : (∃ e, parse g lexicon ⟨limit, none⟩ words = .ok e) ∨
      ∃ k, parse g lexicon ⟨limit, none⟩ words = .error (.fault (.unbounded k limit)) := by
  let e := new (Chart.forSentence lexicon words) ⟨limit, none⟩
  let outcome := (Run.on e.chart e.agendas).build g ⟨limit, none⟩
  have hbreach : outcome.1.breach = none :=
    (Run.build_unbroken hg ⟨limit, none⟩ (Chart.filed_new g _ _)).breach
  obtain ⟨built, hparse⟩ : ∃ built, parse g lexicon ⟨limit, none⟩ words = finished (.ok (built, outcome.2)) := by
    have hbuild : e.build g = e.afterRun outcome := build_eq hg rfl
    exact ⟨_, congrArg finished (hbuild.trans (by rw [afterRun, hbreach]))⟩
  have hfault : outcome.2 = none ∨ ∃ k, outcome.2 = some (.unbounded k limit) := Run.snd_columns limit _ _
  rcases hfault with hnone | ⟨k, hfault⟩
  · exact .inl ⟨built, by rw [hparse, hnone, finished]⟩
  · exact .inr ⟨k, by rw [hparse, hfault, finished]⟩

end IndexedGrammar
