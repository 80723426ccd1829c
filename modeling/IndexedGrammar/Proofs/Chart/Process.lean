import IndexedGrammar.Proofs.Chart.Run

/-!
# Processing a state

Processing a state makes additions that the chart calls for, and predicts nonterminals that a state
expects. Whatever each of these keeps is kept, and afterwards the chart has everything that the state
calls for by itself, or together with a state that was there before.
-/

namespace IndexedGrammar.Run

variable {g : Grammar} {start : Chart} {k : Nat} {run : Run}

/-- A breach stays noted through an addition. -/
theorem breach_add {item : Item} {stop : Nat} {d : Derivation}
    (hok : (Run.add g run item stop d).breach = none) : run.breach = none :=
  (add_spec hok).1

/-- A breach stays noted through a fold. -/
theorem breach_foldl {α : Type} {f : Run → α → Run}
    (hbreach : ∀ run a, (f run a).breach = none → run.breach = none) {as : List α} {run : Run}
    (hok : (as.foldl f run).breach = none) : run.breach = none := by
  induction as generalizing run with
  | nil => exact hok
  | cons a rest ih => exact hbreach _ _ (ih hok)

/-- A breach stays noted while a state is completed. -/
theorem breach_complete {id origin : Nat} {lhs : Category}
    (hok : (complete g run id origin k lhs).breach = none) : run.breach = none := by
  refine breach_foldl (fun run' i hi => ?_) hok
  split at hi
  · exact hi
  · exact breach_add hi

/-- A breach stays noted while a category is begun. -/
theorem breach_begin {symbol : Category} (hok : (begin g run k symbol).breach = none) :
    run.breach = none ∧
      (run.chart.isPredicted k symbol = false → g.knowsRulesFor symbol = true) := by
  unfold begin at hok
  split at hok
  · next hpredicted => exact ⟨hok, fun hnot => by simp [hpredicted] at hnot⟩
  · have hbegun := breach_foldl (fun _ _ => breach_add) hok
    split at hbegun
    · next hknows => exact ⟨hbegun, fun _ => hknows⟩
    · simp [fail] at hbegun

/-- A breach stays noted while a category is predicted. -/
theorem breach_predict {id : Nat} {item : Item} {symbol : Category}
    (hok : (predict g run id item k symbol).breach = none) :
    (begin g run k symbol).breach = none := by
  refine breach_foldl (fun run' i hi => ?_) hok
  split at hi
  · exact hi
  · exact breach_add hi

/-- A breach stays noted while a state is processed. -/
theorem breach_process {id : Nat} (hok : (process g run k id).breach = none) :
    run.breach = none := by
  unfold process at hok
  split at hok
  · exact hok
  · split at hok
    · simp [fail] at hok
    · exact breach_complete hok
    · split at hok
      · exact breach_add hok
      · split at hok
        · unfold scan at hok
          split at hok
          · exact breach_add hok
          · exact hok
        · exact (breach_begin (breach_predict hok)).1

/-- A breach stays noted while a column is worked off. -/
theorem breach_drain {limit steps : Nat} (hok : (drain g limit k steps run).1.breach = none) :
    run.breach = none := by
  have hnext (run : Run) : (run.next k).2.breach = run.breach := by
    unfold next
    split <;> rfl
  induction steps generalizing run with
  | zero => exact hok
  | succ steps ih =>
    rw [drain] at hok
    rw [← hnext run]
    split at hok
    · next hrun => rwa [hrun]
    · next id run' hrun =>
      rw [hrun]
      dsimp only at hok
      split at hok
      · have hrun' := breach_process hok
        exact hrun'
      · have hrun' := breach_process (ih hok)
        exact hrun'

/-- What every step of a fold keeps, the fold keeps, if no breach is met. What a step brings about
holds at the end if later steps leave it. -/
theorem foldl_keeps {α : Type} {f : Run → α → Run} (motive : Run → Prop)
    (holds : α → Run → Prop) (hbreach : ∀ run a, (f run a).breach = none → run.breach = none)
    {as : List α}
    (hstep : ∀ run a, a ∈ as → motive run → (f run a).breach = none →
      motive (f run a) ∧ holds a (f run a) ∧ ∀ b, holds b run → holds b (f run a))
    {run : Run} (hrun : motive run) (hok : (as.foldl f run).breach = none) :
    motive (as.foldl f run) ∧ (∀ a ∈ as, holds a (as.foldl f run)) ∧
      ∀ b, holds b run → holds b (as.foldl f run) := by
  induction as generalizing run with
  | nil => exact ⟨hrun, fun a ha => absurd ha List.not_mem_nil, fun _ hb => hb⟩
  | cons a rest ih =>
    obtain ⟨hmotive, ha, hstay⟩ := hstep run a List.mem_cons_self hrun (breach_foldl hbreach hok)
    obtain ⟨hend, hall, hlast⟩ :=
      ih (fun run b hb => hstep run b (List.mem_cons_of_mem a hb)) hmotive hok
    refine ⟨hend, fun b hb => ?_, fun b hb => hlast b (hstay b hb)⟩
    rcases List.mem_cons.mp hb with rfl | hb
    · exact hlast b ha
    · exact hall b hb

/-- A property of runs at a column that is kept by additions the chart calls for, and by predicting a
nonterminal that a state expects. -/
structure Kept (g : Grammar) (k : Nat) (motive : Run → Prop) : Prop where
  filed : ∀ {run}, motive run → run.chart.Filed g ∧ k < run.chart.columns.size
  add : ∀ {run item stop d}, motive run → run.chart.Warrants g k item stop d →
    (add g run item stop d).breach = none → motive (add g run item stop d)
  predict : ∀ {run id s symbol}, motive run → run.chart.Live id s → s.stop = k →
    g.Expects s.item symbol → g.isNonterminal symbol = true →
    run.chart.isPredicted k symbol = false →
    motive (run.change (run.chart.predict k symbol) [.predicted k symbol])

/-- Being orderly is kept, also at a later column than the first that need not be idle. -/
theorem kept_orderly (g : Grammar) (start : Chart) {first : Nat} (hfirst : first ≤ k) :
    Kept g k fun run => run.Orderly g start first ∧ k < run.chart.columns.size where
  filed h := ⟨h.1.filed, h.2⟩
  add h hwarrants hok :=
    ⟨h.1.add ((hwarrants.admits h.1.filed h.2).mono hfirst) hok,
      (grows_add h.1.filed hok).1.size_columns.symm ▸ h.2⟩
  predict h _ _ _ _ hnot :=
    ⟨h.1.predict h.2 hnot, Chart.grows_predict.size_columns.symm ▸ h.2⟩

variable {motive : Run → Prop}

/-- What additions and predictions keep where something is kept is kept together with it. -/
theorem Kept.beside (hkept : Kept g k motive) {also : Run → Prop}
    (hadd : ∀ {run item stop d}, motive run → also run → run.chart.Warrants g k item stop d →
      (Run.add g run item stop d).breach = none → also (Run.add g run item stop d))
    (hpredict : ∀ {run id s symbol}, motive run → also run → run.chart.Live id s → s.stop = k →
      g.Expects s.item symbol → g.isNonterminal symbol = true →
      also (run.change (run.chart.predict k symbol) [.predicted k symbol])) :
    Kept g k fun run => motive run ∧ also run where
  filed h := hkept.filed h.1
  add h hwarrants hok := ⟨hkept.add h.1 hwarrants hok, hadd h.1 h.2 hwarrants hok⟩
  predict h hs hstop hexpects hsymbol hnot :=
    ⟨hkept.predict h.1 hs hstop hexpects hsymbol hnot, hpredict h.1 h.2 hs hstop hexpects hsymbol⟩

/-- A fold of additions that the chart calls for, whatever was added before: what is kept is kept, the chart grows, nothing
more is predicted, and everything was added. -/
theorem foldl_adds (hkept : Kept g k motive) {α : Type} {f : Run → α → Run} {as : List α}
    (adds : α → Item → Nat → Derivation → Prop)
    (hbreach : ∀ run a, (f run a).breach = none → run.breach = none)
    (hsome : ∀ a ∈ as, ∃ item stop d, adds a item stop d)
    (hstep : ∀ run' a item stop d, a ∈ as → adds a item stop d → run.chart.Grows run'.chart →
      (∀ j symbol, run'.chart.isPredicted j symbol = run.chart.isPredicted j symbol) →
      f run' a = add g run' item stop d ∧ run'.chart.Warrants g k item stop d)
    (hrun : motive run) (hok : (as.foldl f run).breach = none) :
    motive (as.foldl f run) ∧ run.chart.Grows (as.foldl f run).chart ∧
      (∀ j symbol, (as.foldl f run).chart.isPredicted j symbol = run.chart.isPredicted j symbol) ∧
      ∀ a item stop d, a ∈ as → adds a item stop d → (as.foldl f run).chart.Has item stop d := by
  have hfold := foldl_keeps
    (fun run' => motive run' ∧ run.chart.Grows run'.chart ∧
      ∀ j symbol, run'.chart.isPredicted j symbol = run.chart.isPredicted j symbol)
    (fun a run' => ∀ item stop d, adds a item stop d → run'.chart.Has item stop d)
    hbreach ?_ ⟨hrun, .refl _, fun _ _ => rfl⟩ hok
  · obtain ⟨⟨hmotive, hgrows, hsame⟩, hall, -⟩ := hfold
    exact ⟨hmotive, hgrows, hsame, fun a item stop d ha hadds => hall a ha item stop d hadds⟩
  · intro run' a ha hgiven hok'
    obtain ⟨hrun', hgrows, hsame⟩ := hgiven
    have hhas (item : Item) (stop : Nat) (d : Derivation) (hadds : adds a item stop d) :
        (f run' a).chart.Has item stop d := by
      obtain ⟨heq, -⟩ := hstep run' a item stop d ha hadds hgrows hsame
      rw [heq] at hok' ⊢
      exact (grows_add (hkept.filed hrun').1 hok').2
    obtain ⟨item, stop, d, hadds⟩ := hsome a ha
    obtain ⟨heq, hwarrants⟩ := hstep run' a item stop d ha hadds hgrows hsame
    rw [heq] at hok' hhas ⊢
    have hgrows' := (grows_add (hkept.filed hrun').1 hok').1
    refine ⟨⟨hkept.add hrun' hwarrants hok', hgrows.trans hgrows', fun j symbol => ?_⟩, hhas,
      fun b hb item stop d hadds => (hb item stop d hadds).grows hgrows'⟩
    rw [isPredicted_add hok', hsame]

/-- Completing a state moves the dot of every state that waits for it. -/
theorem complete_spec (hkept : Kept g k motive) (hrun : motive run) {id : Nat} {s : Spot}
    {lhs : Category} (hs : run.chart.Live id s) (hstop : s.stop = k)
    (hcompletes : g.Completes s.item lhs)
    (hok : (complete g run id s.item.origin k lhs).breach = none) :
    motive (complete g run id s.item.origin k lhs) ∧
      run.chart.Grows (complete g run id s.item.origin k lhs).chart ∧
      (∀ i p, run.chart.Live i p → g.Expects p.item lhs → lhs.isEpsilon = false →
        s.item.origin = p.stop →
        (complete g run id s.item.origin k lhs).chart.Has p.item.advance k ⟨some i, some id⟩) ∧
      ∀ j symbol, (complete g run id s.item.origin k lhs).chart.isPredicted j symbol =
        run.chart.isPredicted j symbol := by
  have hfiled := (hkept.filed hrun).1
  -- what waits is read before anything is added, and the chart only grows meanwhile
  have hadds := foldl_adds hkept
    (fun i item stop d => ∃ p, run.chart.Live i p ∧ item = p.item.advance ∧ k = stop ∧ d = ⟨some i, some id⟩)
    ?_ ?_ ?_ hrun hok
  · obtain ⟨hmotive, hgrows, hsame, hall⟩ := hadds
    refine ⟨hmotive, hgrows, fun i p hp hexpects hlhs horigin => ?_, hsame⟩
    exact hall i _ _ _ (hfiled.mem_expecting.mpr ⟨hlhs, p, hp, horigin.symm, hexpects⟩) ⟨p, hp, rfl, rfl, rfl⟩
  · intro run' i hi
    split at hi
    · exact hi
    · exact breach_add hi
  · intro i hi
    obtain ⟨-, p, hp, -⟩ := hfiled.mem_expecting.mp hi
    exact ⟨_, _, _, p, hp, rfl, rfl, rfl⟩
  · rintro run' i item stop d hi ⟨p, hp, rfl, rfl, rfl⟩ hgrows -
    obtain ⟨hlhs, q, hq, hqstop, hexpects⟩ := hfiled.mem_expecting.mp hi
    obtain rfl := hp.unique hq
    obtain ⟨state, hstate, -, hspot⟩ := hgrows.live hp
    have hitem : state.item = p.item := congrArg Spot.item hspot
    refine ⟨by simp only [hstate, hitem], ?_⟩
    have hcalled := Chart.Warrants.complete (k := k) (hgrows.live hp) (hgrows.live hs) hexpects
      hlhs hcompletes hqstop.symm (Nat.le_of_eq hstop.symm)
    rwa [hstop] at hcalled

/-- Every prediction of a chart is one of an earlier chart, or its rules are begun. -/
def Begun (g : Grammar) (earlier c : Chart) : Prop :=
  ∀ j symbol, c.isPredicted j symbol = true → earlier.isPredicted j symbol = true ∨
    ∀ rule r, (rule, r) ∈ g.rulesFor symbol → c.Has ⟨rule, 0, j⟩ j .predicted

/-- Beginning a category predicts it, and adds its rules if it was not predicted. -/
theorem begin_spec (hkept : Kept g k motive) (hrun : motive run) {id : Nat} {s : Spot}
    {symbol : Category} (hs : run.chart.Live id s) (hstop : s.stop = k)
    (hexpects : g.Expects s.item symbol) (hsymbol : g.isNonterminal symbol = true)
    (hok : (begin g run k symbol).breach = none) :
    motive (begin g run k symbol) ∧
      run.chart.Grows (begin g run k symbol).chart ∧
      (begin g run k symbol).chart.isPredicted k symbol = true ∧
      Begun g run.chart (begin g run k symbol).chart := by
  have hk := (hkept.filed hrun).2
  have hknows := (breach_begin hok).2
  unfold begin at hok ⊢
  cases hnot : run.chart.isPredicted k symbol with
  | true =>
    simp only [hnot, if_true] at hok ⊢
    exact ⟨hrun, .refl _, trivial, fun _ _ h => .inl h⟩
  | false =>
    simp only [hnot, Bool.false_eq_true, if_false, if_pos (hknows hnot)] at hok ⊢
    have hpredicted (j : Nat) (other : Category) :
        (run.chart.predict k symbol).isPredicted j other =
          (decide (k = j ∧ symbol = other) || run.chart.isPredicted j other) :=
      Chart.isPredicted_predict hk j other
    -- each rule for the category is added at the start of its right side
    have hadds := foldl_adds hkept
      (fun a item stop d => item = ⟨a.1, 0, k⟩ ∧ k = stop ∧ d = .predicted) (fun _ _ => breach_add)
      (fun _ _ => ⟨_, _, _, rfl, rfl, rfl⟩) ?_ (hkept.predict hrun hs hstop hexpects hsymbol hnot) hok
    · obtain ⟨hmotive, hgrows, hsame, hall⟩ := hadds
      refine ⟨hmotive, Chart.grows_predict.trans hgrows, ?_, fun j other hother => ?_⟩
      · rw [hsame]
        exact (hpredicted k symbol).trans (by simp)
      · rw [hsame] at hother
        have hother' := (hpredicted j other).symm.trans hother
        rw [Bool.or_eq_true, decide_eq_true_iff] at hother'
        rcases hother' with ⟨rfl, rfl⟩ | hother'
        · exact .inr fun rule r hrule => hall (rule, r) _ _ _ hrule ⟨rfl, rfl, rfl⟩
        · exact .inl hother'
    · rintro run' ⟨rule, r⟩ item stop d hrule ⟨rfl, rfl, rfl⟩ - hsame
      refine ⟨rfl, .begun ?_ hrule⟩
      rw [hsame]
      exact (hpredicted k symbol).trans (by simp)

/-- Predicting a category begins its rules, and moves the state's dot over every state of that
category that is complete already. -/
theorem predict_spec (hkept : Kept g k motive) (hrun : motive run) {id : Nat} {s : Spot}
    {symbol : Category} (hs : run.chart.Live id s) (hstop : s.stop = k)
    (hexpects : g.Expects s.item symbol) (hsymbol : g.isNonterminal symbol = true)
    (hok : (predict g run id s.item k symbol).breach = none) :
    motive (predict g run id s.item k symbol) ∧
      run.chart.Grows (predict g run id s.item k symbol).chart ∧
      (predict g run id s.item k symbol).chart.isPredicted k symbol = true ∧
      Begun g run.chart (predict g run id s.item k symbol).chart ∧
      ∀ j t, run.chart.Live j t → g.Completes t.item symbol → t.item.origin = k →
        (predict g run id s.item k symbol).chart.Has s.item.advance t.stop ⟨some id, some j⟩ := by
  have hbegun := breach_predict hok
  unfold predict at hok ⊢
  dsimp only at hok ⊢
  have hepsilon : symbol.isEpsilon = false := (Grammar.isNonterminal_iff.mp hsymbol).1
  obtain ⟨hmotive, hgrows, hpredicted, hrules⟩ :=
    begin_spec hkept hrun hs hstop hexpects hsymbol hbegun
  generalize begin g run k symbol = begun at hok hbegun hmotive hgrows hpredicted hrules ⊢
  have hfiled := (hkept.filed hmotive).1
  -- a state that completed the category before was processed without the one that asks for it now
  have hadds := foldl_adds hkept (fun j item stop d => ∃ t, begun.chart.Live j t ∧
    item = s.item.advance ∧ stop = t.stop ∧ d = ⟨some id, some j⟩) ?_ ?_ ?_ hmotive hok
  · obtain ⟨hend, hgrows', hsame, hall⟩ := hadds
    refine ⟨hend, hgrows.trans hgrows', hgrows'.isPredicted hpredicted,
      fun j other hother => ?_, fun j t ht hcompletes horigin => ?_⟩
    · have hother' := (hsame j other).symm.trans hother
      exact (hrules j other hother').imp_right fun h rule r hrule => (h rule r hrule).grows hgrows'
    · have ht' := hgrows.live ht
      exact hall j _ _ _ (hfiled.mem_reductors.mpr ⟨t, ht', horigin, hcompletes⟩) ⟨t, ht', rfl, rfl, rfl⟩
  · intro run' j hj
    split at hj
    · exact hj
    · exact breach_add hj
  · intro j hj
    obtain ⟨t, ht, -⟩ := hfiled.mem_reductors.mp hj
    exact ⟨_, _, _, t, ht, rfl, rfl, rfl⟩
  · rintro run' j item stop d hj ⟨t, ht, rfl, rfl, rfl⟩ hgrows' -
    obtain ⟨u, hu, horigin, hcompletes⟩ := hfiled.mem_reductors.mp hj
    obtain rfl := ht.unique hu
    obtain ⟨state, hstate, -, hspot⟩ := hgrows'.live ht
    have hstate' : state.stop = t.stop := congrArg Spot.stop hspot
    refine ⟨by simp only [hstate, hstate'], ?_⟩
    have hle : k ≤ t.stop := horigin ▸ (hfiled.bounds ht.spot?).1
    exact .complete ((hgrows.trans hgrows').live hs) (hgrows'.live ht) hexpects hepsilon hcompletes
      (horigin.trans hstop.symm) hle

/-- What processing a state of a column brings about: everything that the state calls for by itself,
or together with a state that is in the chart already. -/
structure Advances (g : Grammar) (k id : Nat) (s : Spot) (c later : Chart) : Prop where
  grows : c.Grows later
  skip : ∀ {symbol}, g.Expects s.item symbol → symbol.isEpsilon = true →
    later.Has s.item.advance k ⟨some id, none⟩
  scan : ∀ {symbol}, g.Expects s.item symbol → symbol.isEpsilon = false →
    g.isPartOfSpeech symbol = true → k + 1 < c.columns.size → c.allows k symbol = true →
    later.Has s.item.advance (k + 1) ⟨some id, none⟩
  predicted : ∀ {symbol}, g.Expects s.item symbol → g.isNonterminal symbol = true →
    later.isPredicted k symbol = true
  crossed : ∀ {j t symbol}, c.Live j t → g.Expects s.item symbol → g.isNonterminal symbol = true →
    g.Completes t.item symbol → t.item.origin = k →
    later.Has s.item.advance t.stop ⟨some id, some j⟩
  moved : ∀ {i p lhs}, c.Live i p → g.Completes s.item lhs → g.Expects p.item lhs →
    lhs.isEpsilon = false → s.item.origin = p.stop →
    later.Has p.item.advance k ⟨some i, some id⟩
  begun : Begun g c later

section Advancing

variable {id : Nat} {s : Spot} {symbol : Category} {c later : Chart}

/-- A completed state asks for nothing but to have the dots of those moved that wait for it. -/
theorem advances_of_complete {lhs : Category} (hlhs : g.Completes s.item lhs) (hgrows : c.Grows later)
    (hmoved : ∀ i p, c.Live i p → g.Expects p.item lhs → lhs.isEpsilon = false → s.item.origin = p.stop →
      later.Has p.item.advance k ⟨some i, some id⟩)
    (hbegun : Begun g c later) : Advances g k id s c later where
  grows := hgrows
  skip h := (h.not_completes hlhs).elim
  scan h := (h.not_completes hlhs).elim
  predicted h := (h.not_completes hlhs).elim
  crossed _ h := (h.not_completes hlhs).elim
  moved hp hs hexpects hepsilon horigin := by
    obtain rfl := hlhs.unique hs
    exact hmoved _ _ hp hexpects hepsilon horigin
  begun := hbegun

/-- A state in front of the empty category asks for nothing but to pass over it. -/
theorem advances_of_skip (hsymbol : g.Expects s.item symbol) (hepsilon : symbol.isEpsilon = true)
    (hgrows : c.Grows later) (hskip : later.Has s.item.advance k ⟨some id, none⟩)
    (hbegun : Begun g c later) : Advances g k id s c later where
  grows := hgrows
  skip _ _ := hskip
  scan h hnot := by simp [← hsymbol.unique h, hepsilon] at hnot
  predicted h hnot := by simp [← hsymbol.unique h, Grammar.isNonterminal, hepsilon] at hnot
  crossed _ h hnot := by simp [← hsymbol.unique h, Grammar.isNonterminal, hepsilon] at hnot
  moved _ h := (hsymbol.not_completes h).elim
  begun := hbegun

/-- A state in front of a part of speech asks for nothing but to be scanned. -/
theorem advances_of_scan (hsymbol : g.Expects s.item symbol) (hepsilon : symbol.isEpsilon = false)
    (hpos : g.isPartOfSpeech symbol = true) (hgrows : c.Grows later)
    (hscan : k + 1 < c.columns.size → c.allows k symbol = true →
      later.Has s.item.advance (k + 1) ⟨some id, none⟩)
    (hbegun : Begun g c later) : Advances g k id s c later where
  grows := hgrows
  skip h hyes := by simp [← hsymbol.unique h, hepsilon] at hyes
  scan h _ _ hk hallows := hscan hk (hsymbol.unique h ▸ hallows)
  predicted h hnot := by simp [← hsymbol.unique h, Grammar.isNonterminal, hpos] at hnot
  crossed _ h hnot := by simp [← hsymbol.unique h, Grammar.isNonterminal, hpos] at hnot
  moved _ h := (hsymbol.not_completes h).elim
  begun := hbegun

/-- A state in front of a nonterminal asks for its prediction, and to have the dot moved over what is complete. -/
theorem advances_of_predict (hsymbol : g.Expects s.item symbol) (hnonterminal : g.isNonterminal symbol = true)
    (hgrows : c.Grows later) (hpredicted : later.isPredicted k symbol = true)
    (hcrossed : ∀ j t, c.Live j t → g.Completes t.item symbol → t.item.origin = k →
      later.Has s.item.advance t.stop ⟨some id, some j⟩)
    (hbegun : Begun g c later) : Advances g k id s c later where
  grows := hgrows
  skip h hyes := by
    rw [← hsymbol.unique h, (Grammar.isNonterminal_iff.mp hnonterminal).1] at hyes
    contradiction
  scan h _ hyes := by
    rw [← hsymbol.unique h, (Grammar.isNonterminal_iff.mp hnonterminal).2] at hyes
    contradiction
  predicted h _ := hsymbol.unique h ▸ hpredicted
  crossed ht h _ hcompletes horigin := by
    obtain rfl := hsymbol.unique h
    exact hcrossed _ _ ht hcompletes horigin
  moved _ h := (hsymbol.not_completes h).elim
  begun := hbegun

end Advancing

/-- Scanning a part of speech moves the dot over it if the input allows it at the column. -/
theorem scan_spec (hkept : Kept g k motive) (hrun : motive run) {id : Nat} {s : Spot} {symbol : Category}
    (hs : run.chart.Live id s) (hstop : s.stop = k) (hsymbol : g.Expects s.item symbol)
    (hepsilon : symbol.isEpsilon = false) (hpos : g.isPartOfSpeech symbol = true)
    (hok : (scan g run id s.item k symbol).breach = none) :
    motive (scan g run id s.item k symbol) ∧
      Advances g k id s run.chart (scan g run id s.item k symbol).chart := by
  unfold scan at hok ⊢
  split at hok
  · next hroom =>
    rw [if_pos hroom]
    obtain ⟨hk, hallows⟩ : k + 1 < run.chart.columns.size ∧ run.chart.allows k symbol = true := by
      simpa using hroom
    have hwarrants : run.chart.Warrants g k s.item.advance (k + 1) ⟨some id, none⟩ :=
      .scan hs hstop hsymbol hepsilon hpos hk hallows
    obtain ⟨hgrows, hhas⟩ := grows_add (hkept.filed hrun).1 hok
    exact ⟨hkept.add hrun hwarrants hok, advances_of_scan hsymbol hepsilon hpos hgrows
      (fun _ _ => hhas) fun j other h => .inl (isPredicted_add hok j other ▸ h)⟩
  · next hroom =>
    rw [if_neg hroom]
    exact ⟨hrun, advances_of_scan hsymbol hepsilon hpos (.refl _)
      (fun hk hallows => by simp [hk, hallows] at hroom) fun _ _ h => .inl h⟩

/-- Processing a state of the current column advances the run. -/
theorem process_spec (hkept : Kept g k motive) (hrun : motive run) {id : Nat} {s : Spot}
    (hs : run.chart.Live id s) (hstop : s.stop = k) (hok : (process g run k id).breach = none) :
    motive (process g run k id) ∧ Advances g k id s run.chart (process g run k id).chart := by
  have hlive := hs
  obtain ⟨state, hstate, -, hspot⟩ := hlive
  have hitem : state.item = s.item := congrArg Spot.item hspot
  unfold process at hok ⊢
  simp only [hstate, hitem] at hok ⊢
  split at hok
  · simp [fail] at hok
  · next lhs hahead =>
    obtain ⟨hmotive, hgrows, hmoved, hsame⟩ := complete_spec hkept hrun hs hstop hahead hok
    exact ⟨hmotive, advances_of_complete hahead hgrows hmoved fun j symbol h => .inl (hsame j symbol ▸ h)⟩
  · next symbol hahead =>
    have hsymbol : g.Expects s.item symbol := hahead
    split at hok
    · next hepsilon =>
      have hwarrants : run.chart.Warrants g k s.item.advance k ⟨some id, none⟩ :=
        .skip hs hstop hsymbol hepsilon
      obtain ⟨hgrows, hhas⟩ := grows_add (hkept.filed hrun).1 hok
      rw [if_pos hepsilon]
      exact ⟨hkept.add hrun hwarrants hok, advances_of_skip hsymbol hepsilon hgrows hhas
        fun j other h => .inl (isPredicted_add hok j other ▸ h)⟩
    · next hepsilon =>
      have hepsilon' : symbol.isEpsilon = false := by simpa using hepsilon
      rw [if_neg hepsilon]
      split at hok
      · next hpos =>
        rw [if_pos hpos]
        exact scan_spec hkept hrun hs hstop hsymbol hepsilon' hpos hok
      · next hpos =>
        rw [if_neg hpos]
        have hnonterminal : g.isNonterminal symbol = true := by
          simpa [Grammar.isNonterminal, hepsilon'] using hpos
        obtain ⟨hmotive, hgrows, hpredicted, hbegun, hover⟩ :=
          predict_spec hkept hrun hs hstop hsymbol hnonterminal hok
        exact ⟨hmotive, advances_of_predict hsymbol hnonterminal hgrows hpredicted hover hbegun⟩

end IndexedGrammar.Run
