import IndexedGrammar.Proofs.Chart.Compaction
import IndexedGrammar.Proofs.Chart.Content
import IndexedGrammar.Proofs.Chart.Sweep

/-!
# Wired charts

In a wired chart every live state has a derivation, and each derivation moves a dot by one symbol: from a live
state of the same rule and origin, over nothing, over a part of speech that the input has there, or over a
completed live state that begins where the first one ends and ends where the new one does. Only a state with
its dot in front of its rule is predicted. The parts of speech are those of all grammars that the chart has
followed, so the current grammar may have fewer.

Runs keep a chart wired, also those that are given up. While states are taken out, those that are about to be
may be left without a derivation. New numbers keep a chart wired too.
-/

namespace IndexedGrammar

/-- No category is a part of speech of the grammar but these. -/
def Grammar.PartsWithin (parts : Category → Prop) (g : Grammar) : Prop :=
  ∀ symbol, g.isPartOfSpeech symbol = true → parts symbol

namespace Chart

/-- One way of getting to a spot through the live states of a chart, with some categories as the parts of
speech. -/
inductive Steps (g : Grammar) (parts : Category → Prop) (c : Chart) : Spot → Derivation → Prop
  /-- A rule is begun. -/
  | begun {item : Item} : item.dot = 0 → Steps g parts c ⟨item, item.origin⟩ .predicted
  /-- A dot moves over the empty category. -/
  | skip {i : Nat} {s : Spot} {symbol : Category} :
      c.Live i s → g.Expects s.item symbol → symbol.isEpsilon = true →
      Steps g parts c (s.step s.stop) ⟨some i, none⟩
  /-- A dot moves over a part of speech that the input has behind it. -/
  | scan {i : Nat} {s : Spot} {symbol : Category} :
      c.Live i s → g.Expects s.item symbol → symbol.isEpsilon = false → parts symbol →
      c.allows s.stop symbol = true → Steps g parts c (s.step (s.stop + 1)) ⟨some i, none⟩
  /-- A dot moves over a category that has been completed behind it. -/
  | complete {i j : Nat} {s t : Spot} {symbol : Category} :
      c.Live i s → c.Live j t → g.Expects s.item symbol → symbol.isEpsilon = false →
      g.Completes t.item symbol → t.item.origin = s.stop →
      Steps g parts c (s.step t.stop) ⟨some i, some j⟩

/-- Every live state has a derivation, unless it is about to be taken out, and each derivation gets to it
through live states. -/
structure Wired (g : Grammar) (parts : Category → Prop) (doomed : Nat → Prop) (c : Chart) : Prop where
  based : ∀ {id s}, c.Live id s → (∃ d, c.Derives id d) ∨ doomed id
  steps : ∀ {id s d}, c.Live id s → c.Derives id d → c.Steps g parts s d

variable {g : Grammar} {parts : Category → Prop} {c later : Chart} {doomed others : Nat → Prop} {s : Spot}
  {d : Derivation}

/-- A step can be taken wherever the states it goes through are live. -/
theorem Steps.mono (h : c.Steps g parts s d) (hlive : ∀ link ∈ d.links, ∀ t, c.Live link t → later.Live link t)
    (hinput : later.input = c.input) : later.Steps g parts s d := by
  cases h with
  | begun hdot => exact .begun hdot
  | skip hi hexpects hsymbol => exact .skip (hlive _ (by simp [Derivation.links]) _ hi) hexpects hsymbol
  | scan hi hexpects hsymbol hpart hallows =>
    refine .scan (hlive _ (by simp [Derivation.links]) _ hi) hexpects hsymbol hpart ?_
    rwa [allows, hinput]
  | complete hi hj hexpects hsymbol hcompletes horigin =>
    exact .complete (hlive _ (by simp [Derivation.links]) _ hi) (hlive _ (by simp [Derivation.links]) _ hj)
      hexpects hsymbol hcompletes horigin

/-- The state before a step is live, with its dot one symbol earlier. -/
theorem Steps.predecessor (h : c.Steps g parts s d) {i : Nat} (hi : d.predecessor = some i) :
    ∃ p, c.Live i p ∧ s.item.dot = p.item.dot + 1 := by
  cases h with
  | begun => exact absurd hi (by simp [Derivation.predicted])
  | skip hp => exact ⟨_, Option.some.inj hi ▸ hp, rfl⟩
  | scan hp => exact ⟨_, Option.some.inj hi ▸ hp, rfl⟩
  | complete hp => exact ⟨_, Option.some.inj hi ▸ hp, rfl⟩

/-- A step to the beginning of a rule stays at the column. -/
theorem Steps.stop_eq_origin (h : c.Steps g parts s d) (hdot : s.item.dot = 0) : s.stop = s.item.origin := by
  cases h with
  | begun => rfl
  | skip => exact absurd hdot (Nat.succ_ne_zero _)
  | scan => exact absurd hdot (Nat.succ_ne_zero _)
  | complete => exact absurd hdot (Nat.succ_ne_zero _)

/-- A step leads to a spot whose dot stands within its rule. -/
theorem Steps.dot_le (h : c.Steps g parts s d) {r : Rule} (hr : g.rule? s.item.rule = some r) :
    s.item.dot ≤ r.rhs.length := by
  cases h with
  | begun hdot => exact hdot ▸ Nat.zero_le _
  | skip _ hexpects => exact hexpects.dot_lt hr
  | scan _ hexpects => exact hexpects.dot_lt hr
  | complete _ _ hexpects => exact hexpects.dot_lt hr

/-- A grammar with the same rules for the states of a chart takes the same steps. -/
theorem Steps.regrammar {g' : Grammar} (h : c.Steps g parts s d)
    (hsame : ∀ id s, c.spot? id = some s → g'.rule? s.item.rule = g.rule? s.item.rule) :
    c.Steps g' parts s d := by
  have hexpects {i : Nat} {s : Spot} {symbol : Category} (hi : c.Live i s)
      (h : g.Expects s.item symbol) : g'.Expects s.item symbol :=
    (ahead_congr (hsame _ _ hi.spot?)).trans h
  cases h with
  | begun hdot => exact .begun hdot
  | skip hi h hsymbol => exact .skip hi (hexpects hi h) hsymbol
  | scan hi h hsymbol hpart hallows => exact .scan hi (hexpects hi h) hsymbol hpart hallows
  | complete hi hj h hsymbol hcompletes horigin =>
    exact .complete hi hj (hexpects hi h) hsymbol ((ahead_congr (hsame _ _ hj.spot?)).trans hcompletes)
      horigin

/-- Steps go through the same states under new numbers. -/
theorem Steps.renumbered (h : c.Steps g parts s d) : c.renumbered.Steps g parts s (c.renumberDerivation d) := by
  have hlive {i : Nat} {s : Spot} (hi : c.Live i s) :
      ∃ n, c.renumber i = some n ∧ c.renumbered.Live n s := by
    obtain ⟨n, hn⟩ := hi.renumber
    exact ⟨n, hn, live_renumbered.mpr ⟨i, hn, hi⟩⟩
  cases h with
  | begun hdot => exact .begun hdot
  | skip hi hexpects hsymbol =>
    obtain ⟨n, hn, hi⟩ := hlive hi
    simp only [renumberDerivation, Option.bind_some, Option.bind_none, hn]
    exact .skip hi hexpects hsymbol
  | scan hi hexpects hsymbol hpart hallows =>
    obtain ⟨n, hn, hi⟩ := hlive hi
    simp only [renumberDerivation, Option.bind_some, Option.bind_none, hn]
    exact .scan hi hexpects hsymbol hpart hallows
  | complete hi hj hexpects hsymbol hcompletes horigin =>
    obtain ⟨n, hn, hi⟩ := hlive hi
    obtain ⟨m, hm, hj⟩ := hlive hj
    simp only [renumberDerivation, Option.bind_some, hn, hm]
    exact .complete hi hj hexpects hsymbol hcompletes horigin

/-- What a chart calls for is got to by a step. -/
theorem Warrants.steps (hparts : g.PartsWithin parts) {k : Nat} {item : Item} {stop : Nat}
    (h : c.Warrants g k item stop d) : c.Steps g parts ⟨item, stop⟩ d := by
  cases h with
  | begun => exact .begun rfl
  | skip hi hstop hexpects hsymbol => exact hstop ▸ .skip hi hexpects hsymbol
  | scan hi hstop hexpects hsymbol hpart _ hallows =>
    subst hstop
    exact .scan hi hexpects hsymbol (hparts _ hpart) hallows
  | complete hi hj hexpects hsymbol hcompletes horigin _ =>
    exact .complete hi hj hexpects hsymbol hcompletes horigin

/-- What is found by the grammar in a chart is got to by a step. -/
theorem Justified.steps (hparts : g.PartsWithin parts) (hc : c.Filed g) (h : c.Justified g) {id : Nat}
    (hs : c.Live id s) (hd : c.Derives id d) : c.Steps g parts s d := by
  have hl := h.derives hs hd
  obtain ⟨predecessor, reductor⟩ := d
  -- which links there are tells which step the derivation was
  cases predecessor with
  | none =>
    cases reductor with
    | none => cases hl <;> exact .begun rfl
    | some j =>
      obtain ⟨t, ht⟩ : ∃ t, c.Live j t := hc.linked hd (by simp [Derivation.links])
      rw [link, Option.bind_none, Option.bind_some, ht.spot?] at hl
      contradiction
  | some i =>
    obtain ⟨p, hp⟩ : ∃ p, c.Live i p := hc.linked hd (by simp [Derivation.links])
    cases reductor with
    | none =>
      rw [link_of_live hp] at hl
      cases hl with
      | skip _ hexpects hempty => exact .skip hp hexpects hempty
      | scan _ hexpects hempty hpos _ hallows => exact .scan hp hexpects hempty (hparts _ hpos) hallows
    | some j =>
      obtain ⟨t, ht⟩ : ∃ t, c.Live j t := hc.linked hd (by simp [Derivation.links])
      rw [link_of_live₂ hp ht] at hl
      cases hl with
      | complete _ _ hexpects hempty hcompletes horigin =>
        exact .complete hp ht hexpects hempty hcompletes horigin

/-- A new chart is wired. -/
theorem wired_new (g : Grammar) (layout : Layout) (input : Input) :
    (new layout input).Wired g parts doomed :=
  ⟨fun h => absurd h not_live_new, fun h => absurd h not_live_new⟩

/-- A grammar with the same rules for the states of a chart finds it wired. -/
theorem Wired.regrammar {g' : Grammar} (h : c.Wired g parts doomed)
    (hsame : ∀ id s, c.spot? id = some s → g'.rule? s.item.rule = g.rule? s.item.rule) :
    c.Wired g' parts doomed :=
  ⟨h.based, fun hs hd => (h.steps hs hd).regrammar hsame⟩

/-- A wired chart is wired under new numbers. -/
theorem Wired.renumbered (h : c.Wired g parts fun _ => False) : c.renumbered.Wired g parts fun _ => False where
  based {n s} hs := by
    obtain ⟨id, hn, hid⟩ := live_renumbered.mp hs
    obtain ⟨d, hd⟩ := (h.based hid).resolve_right not_false
    exact .inl ⟨_, derives_renumbered.mpr ⟨id, d, hn, hd, rfl⟩⟩
  steps {n s e} hs he := by
    obtain ⟨id, d, hn, hd, rfl⟩ := derives_renumbered.mp he
    obtain ⟨other, hn', hid⟩ := live_renumbered.mp hs
    obtain rfl := renumber_injective hn hn'
    exact (h.steps hid hd).renumbered

/-- Only live states need to be taken out. -/
theorem Wired.dismiss (h : c.Wired g parts doomed)
    (hkeep : ∀ id s, doomed id → c.Live id s → others id) : c.Wired g parts others :=
  ⟨fun hs => (h.based hs).imp_right fun hdoomed => hkeep _ _ hdoomed hs, h.steps⟩

/-- A chart with the states and the input of a wired one is wired. -/
theorem Wired.of_states (h : c.Wired g parts doomed) (hstates : later.states = c.states)
    (hinput : later.input = c.input) : later.Wired g parts doomed := by
  have hlive {id : Nat} {s : Spot} : later.Live id s ↔ c.Live id s := by rw [Live, hstates, Live]
  have hderives {id : Nat} {d : Derivation} : later.Derives id d ↔ c.Derives id d := by
    rw [Derives, hstates, Derives]
  constructor
  · intro id s hs
    obtain ⟨d, hd⟩ | hdoomed := h.based (hlive.mp hs)
    · exact .inl ⟨d, hderives.mpr hd⟩
    · exact .inr hdoomed
  · intro id s d hs hd
    exact (h.steps (hlive.mp hs) (hderives.mp hd)).mono (fun _ _ _ => hlive.mpr) hinput

end Chart

/-! Runs -/

namespace Run

variable {g : Grammar} {parts : Category → Prop} {start : Chart} {k : Nat} {run : Run} {agendas : Array Agenda}
  {c : Chart}

/-- Whatever is live after an addition has a derivation if it had one before. -/
theorem based_add (hc : run.chart.Filed g) (hbased : ∀ {id s}, run.chart.Live id s → ∃ d, run.chart.Derives id d)
    {item : Item} {stop : Nat} {d : Derivation} (hok : (add g run item stop d).breach = none) {id : Nat}
    {s : Spot} (hs : (add g run item stop d).chart.Live id s) :
    ∃ e, (add g run item stop d).chart.Derives id e := by
  have hgrows := (grows_add hc hok).1
  obtain ⟨-, -, ⟨other, -, hchart, -⟩ | ⟨-, -, hchart, -⟩⟩ := add_spec hok
  · obtain ⟨e, he⟩ := hbased (Chart.live_pack.mp (hchart ▸ hs))
    exact ⟨e, hgrows.derives he⟩
  · rcases Chart.live_grow.mp (hchart ▸ hs) with hold | ⟨rfl, -⟩
    · obtain ⟨e, he⟩ := hbased hold
      exact ⟨e, hgrows.derives he⟩
    · exact ⟨d, hchart ▸ Chart.derives_grow.mpr (.inr ⟨rfl, rfl⟩)⟩

/-- An addition that a step leads to keeps a chart wired. -/
theorem wired_add (hc : run.chart.Filed g) (h : run.chart.Wired g parts fun _ => False) {item : Item}
    {stop : Nat} {d : Derivation} (hsteps : run.chart.Steps g parts ⟨item, stop⟩ d)
    (hok : (add g run item stop d).breach = none) :
    (add g run item stop d).chart.Wired g parts fun _ => False where
  based hs := .inl (based_add hc (fun hold => (h.based hold).resolve_right not_false) hok hs)
  steps {id s e} hs he := by
    have hgrows := (grows_add hc hok).1
    rcases (only_add hc hok).2 hs he with ⟨hold, he⟩ | ⟨rfl, rfl⟩
    · exact (h.steps hold he).mono (fun _ _ _ => hgrows.live) hgrows.input
    · exact hsteps.mono (fun _ _ _ => hgrows.live) hgrows.input

/-- A property of charts that is kept by additions that a step leads to, and by whatever leaves the states and the
input alone. -/
structure Carried (g : Grammar) (parts : Category → Prop) (motive : Chart → Prop) : Prop where
  add : ∀ {run item stop d}, run.chart.Filed g → motive run.chart →
    run.chart.Steps g parts ⟨item, stop⟩ d → (add g run item stop d).breach = none →
    motive (add g run item stop d).chart
  of_states : ∀ {c later}, motive c → later.states = c.states → later.input = c.input → motive later

/-- Being wired is carried along. -/
theorem carried_wired (g : Grammar) (parts : Category → Prop) :
    Carried g parts fun c => c.Wired g parts fun _ => False where
  add hc h hsteps hok := wired_add hc h hsteps hok
  of_states h hstates hinput := h.of_states hstates hinput

/-- What is carried along is upheld, since whatever a chart calls for is got to by a step. -/
theorem Carried.upheld {motive : Chart → Prop} (hcarried : Carried g parts motive)
    (hparts : g.PartsWithin parts) : Upheld g motive where
  root hc h hok := hcarried.add hc h (.begun rfl) hok
  add hc h hwarrants hok := hcarried.add hc h (hwarrants.steps hparts) hok
  predict _ h _ _ _ _ := hcarried.of_states h rfl rfl

/-- Beginning a rule in use where its category is predicted keeps what is carried along. -/
theorem Carried.beginRule {motive : Chart → Prop} (hcarried : Carried g parts motive) {rule : Nat} {r : Rule}
    (hc : run.chart.Filed g) (h : motive run.chart) (_ : g.HasRule rule r)
    (_ : run.chart.isPredicted k r.lhs = true)
    (hok : (Run.add g run ⟨rule, 0, k⟩ k .predicted).breach = none) :
    motive (Run.add g run ⟨rule, 0, k⟩ k .predicted).chart :=
  hcarried.add hc h (.begun rfl) hok

end Run

/-! Removals -/

namespace Removal

variable {g : Grammar} {parts : Category → Prop} {r : Removal} {others : Nat → Prop}

/-- Taking out a state leaves those without a derivation to be taken out. -/
theorem TakenOut.wired {id : Nat} {s : Spot} {pending : List Nat} {out : Removal × List Nat}
    (htaken : TakenOut g id s r out) (h : r.chart.Wired g parts fun j => j ∈ id :: pending ∨ others j) :
    out.1.chart.Wired g parts fun j => j ∈ out.2 ++ pending ∨ others j where
  based {j t} hj := by
    obtain ⟨hold, hne⟩ := htaken.live_iff.mp hj
    by_cases hsome : ∃ e, out.1.chart.Derives j e
    · exact .inl hsome
    · right
      rcases h.based hold with ⟨d, hd⟩ | hmem | hothers
      · exact .inl (List.mem_append_left _ (htaken.orphans hd hne fun e he => hsome ⟨e, he⟩))
      · exact .inl (List.mem_append_right _ ((List.mem_cons.mp hmem).resolve_left hne))
      · exact .inr hothers
  steps {j t d} hj hd := by
    obtain ⟨hold, -, hthrough⟩ := htaken.derives_iff.mp hd
    refine (h.steps (htaken.live_iff.mp hj).1 hold).mono (fun link hlink u hu => ?_) htaken.input
    exact htaken.live_iff.mpr ⟨hu, fun heq => hthrough (heq ▸ hlink)⟩

/-- What is filed and wired is swept. -/
theorem swept_wired (g : Grammar) (parts : Category → Prop) :
    Swept g fun doomed r => r.chart.Filed g ∧ r.chart.Wired g parts doomed where
  filed h := h.1
  dismiss h hkeep _ := ⟨h.1, h.2.dismiss hkeep⟩
  takeOut h _ htaken := ⟨htaken.filed, htaken.wired h.2⟩

/-- Unpredicting a category keeps a chart wired. -/
theorem unpredict_wired (h : r.chart.Filed g ∧ r.chart.Wired g parts fun _ => False) (k : Nat)
    (begun : List (Nat × State × Rule)) (category : Category) :
    (unpredict g k begun r category).chart.Filed g ∧
      (unpredict g k begun r category).chart.Wired g parts fun _ => False := by
  have hforget : (r.forget k category).chart.Wired g parts fun _ => False := h.2.of_states rfl rfl
  rw [unpredict_eq]
  exact (swept_wired g parts).sweeps
    ⟨filed_forget h.1 k category, hforget.dismiss fun _ _ hfalse _ => hfalse.elim⟩

/-- Reviewing a column keeps a chart wired. -/
theorem reviewColumn_wired (h : r.chart.Filed g ∧ r.chart.Wired g parts fun _ => False) (k : Nat) :
    (r.reviewColumn g k).chart.Filed g ∧ (r.reviewColumn g k).chart.Wired g parts fun _ => False := by
  have hfold (begun : List (Nat × State × Rule)) (categories : List Category) {r : Removal}
      (h : r.chart.Filed g ∧ r.chart.Wired g parts fun _ => False) :
      (categories.foldl (unpredict g k begun) r).chart.Filed g ∧
        (categories.foldl (unpredict g k begun) r).chart.Wired g parts fun _ => False := by
    induction categories generalizing r with
    | nil => exact h
    | cons category rest ih => exact ih (unpredict_wired h k begun category)
  refine hfold _ _ ?_
  rwa [chart_ite_fail]

/-- Settling keeps a chart wired. -/
theorem settle_wired (h : r.chart.Filed g ∧ r.chart.Wired g parts fun _ => False) :
    (r.settle g).chart.Filed g ∧ (r.settle g).chart.Wired g parts fun _ => False := by
  fun_induction settle g r with
  | case1 => exact h
  | case2 r k _ ih =>
    have hleft : ({ r with review := r.review.erase k } : Removal).chart.Filed g ∧
        ({ r with review := r.review.erase k } : Removal).chart.Wired g parts fun _ => False := h
    exact ih (reviewColumn_wired hleft k)

/-- Taking a rule out keeps a chart wired. -/
theorem removeRule_wired (h : r.chart.Filed g) (hwired : r.chart.Wired g parts fun _ => False) (rule : Nat) :
    (r.removeRule g rule).chart.Wired g parts fun _ => False := by
  refine (settle_wired ((swept_wired g parts).sweeps ⟨h, ?_⟩)).2
  exact hwired.dismiss fun _ _ hfalse _ => hfalse.elim

end Removal

end IndexedGrammar
