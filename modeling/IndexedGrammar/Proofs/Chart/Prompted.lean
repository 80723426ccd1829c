import IndexedGrammar.Proofs.Chart.Asked
import IndexedGrammar.Proofs.Chart.Wired

/-!
# Prompted charts

Nothing is in a prompted chart without something that led to it. Its derivations go through live states, rules are
begun only for categories that are predicted at the column, and a column predicts only what its live states ask for.
States may still prop each other up, as those of a unit cycle do, so a prompted chart can hold more than the grammar
finds in its input.

Runs keep a chart prompted, also those that are given up, and so do new numbers. A prompted chart that is closed as
well sustains itself: what its states call for is there, and what is there was called for.
-/

namespace IndexedGrammar

namespace Chart

/-- Every state was derived from live states or begun for a prediction, and every prediction is asked for. -/
structure Prompted (g : Grammar) (c : Chart) : Prop where
  wired : c.Wired g (fun _ => True) fun _ => False
  begun : ∀ {id s r}, c.Live id s → s.item.dot = 0 → s.item.rule ≠ Grammar.rootId →
    g.rule? s.item.rule = some r → c.isPredicted s.item.origin r.lhs = true
  asked : ∀ {k symbol}, c.isPredicted k symbol = true → Asked g (fun s => ∃ id, c.Live id s) k symbol

/-- What the states and the predictions of a chart call for is there, and they were called for themselves. -/
structure Sustained (g : Grammar) (c : Chart) : Prop where
  closed : c.Closed g
  prompted : c.Prompted g

variable {g g' : Grammar} {c : Chart} {id : Nat} {s : Spot}

/-- A state that ends where it begins is on a rule for a category that is predicted there. -/
theorem Prompted.isPredicted_lhs (h : c.Prompted g) (hc : c.Filed g) (hs : c.Live id s)
    (hbegun : s.stop ≤ s.item.origin) (hroot : s.item.rule ≠ Grammar.rootId) {r : Rule}
    (hr : g.rule? s.item.rule = some r) : c.isPredicted s.item.origin r.lhs = true := by
  -- by induction on the dot, back to where the rule was begun
  obtain ⟨n, hn⟩ : ∃ n, s.item.dot = n := ⟨_, rfl⟩
  induction n generalizing id s with
  | zero => exact h.begun hs hn hroot hr
  | succ n ih =>
    obtain ⟨d, hd⟩ := (h.wired.based hs).resolve_right not_false
    cases h.wired.steps hs hd with
    | begun hdot => exact absurd (hn.symm.trans hdot) (Nat.succ_ne_zero n)
    | @skip i p symbol hp => exact ih (s := p) hp hbegun hroot hr (Nat.succ.inj hn)
    | @scan i p symbol hp =>
      exact absurd (Nat.le_trans hbegun (hc.bounds hp.spot?).1) (Nat.not_succ_le_self _)
    | @complete i j p t symbol hp ht _ _ _ horigin =>
      have hstop : p.stop ≤ p.item.origin := Nat.le_trans (horigin ▸ (hc.bounds ht.spot?).1) hbegun
      exact ih (s := p) hp hstop hroot hr (Nat.succ.inj hn)

/-- The live states of a column ask for every nonterminal that one of them expects. -/
theorem Prompted.asked_of_expects (h : c.Prompted g) (hc : c.Filed g) (hs : c.Live id s) {symbol : Category}
    (hexpects : g.Expects s.item symbol) (hsymbol : g.isNonterminal symbol = true) :
    Asked g (fun s => ∃ id, c.Live id s) s.stop symbol := by
  by_cases hacross : s.item.origin < s.stop ∨ s.item.rule = Grammar.rootId
  · exact .across ⟨id, hs⟩ rfl hacross hexpects hsymbol
  · obtain ⟨hbegun, hroot⟩ := not_or.mp hacross
    have hstop := Nat.not_lt.mp hbegun
    obtain ⟨r, hr⟩ := Option.isSome_iff_exists.mp (hc.known hs.spot?)
    have hpredicted := h.isPredicted_lhs hc hs hstop hroot hr
    rw [Nat.le_antisymm (hc.bounds hs.spot?).1 hstop] at hpredicted
    exact .begun ⟨id, hs⟩ rfl hstop hroot hr (h.asked hpredicted) hexpects hsymbol

/-- A new chart is prompted. -/
theorem prompted_new (g : Grammar) (layout : Layout) (input : Input) : (new layout input).Prompted g where
  wired := wired_new g layout input
  begun hs := absurd hs not_live_new
  asked {k symbol} h := absurd ((isPredicted_new layout input k symbol).symm.trans h) Bool.false_ne_true

/-- A grammar with the same parts of speech, and the same rules for the states of a chart, finds it prompted. -/
theorem Prompted.regrammar (h : c.Prompted g)
    (hsame : ∀ id s, c.spot? id = some s → g'.rule? s.item.rule = g.rule? s.item.rule)
    (hpos : g'.partsOfSpeech = g.partsOfSpeech) : c.Prompted g' where
  wired := h.wired.regrammar hsame
  begun hs hdot hroot hr := h.begun hs hdot hroot ((hsame _ _ hs.spot?).symm.trans hr)
  asked hpredicted := (h.asked hpredicted).congr (fun _ ⟨_, hs⟩ => hsame _ _ hs.spot?) hpos

/-- A chart stays prompted under new numbers. -/
theorem Prompted.renumbered (h : c.Prompted g) : c.renumbered.Prompted g where
  wired := h.wired.renumbered
  begun hs hdot hroot hr := by
    obtain ⟨id, -, hs⟩ := live_renumbered.mp hs
    exact (isPredicted_renumbered _ _).trans (h.begun hs hdot hroot hr)
  asked {k symbol} hpredicted := by
    refine (h.asked ((isPredicted_renumbered k symbol).symm.trans hpredicted)).mono ?_
    rintro s _ ⟨id, hs⟩ - - -
    obtain ⟨n, hn⟩ := hs.renumber
    exact ⟨n, live_renumbered.mpr ⟨id, hn, hs⟩⟩

/-- A chart that holds what a grammar finds is prompted. -/
theorem Holds.prompted (h : c.Holds g) (hg : g.Indexed) (hc : c.Filed g) : c.Prompted g where
  wired := {
    based := fun hs => by
      obtain ⟨l, hl⟩ := h.justified.live hs
      obtain ⟨j, d, hj, hd, -⟩ := (h.derivation _ l).mpr hl
      exact .inl ⟨d, hc.unique hj hs ▸ hd⟩
    steps := fun hs hd => h.justified.steps (fun _ _ => trivial) hc hs hd }
  begun hs _ hroot hr := by
    obtain ⟨l, hl⟩ := h.justified.live hs
    obtain ⟨r', hr', -⟩ := hl.hasRule hg
    obtain rfl := Option.some.inj (hr'.rule?.symm.trans hr)
    exact (h.isPredicted _ _).mpr (hl.wanted_lhs hg hr' hroot)
  asked {k symbol} hpredicted :=
    (((h.isPredicted k symbol).mp hpredicted).asked hg).mono fun s _ hs _ _ _ => (h.live s).mpr hs

/-- A chart that holds what a grammar finds sustains itself. -/
theorem Holds.sustained (h : c.Holds g) (hg : g.Indexed) (hc : c.Filed g) : c.Sustained g :=
  ⟨h.closed hc.size_columns, h.prompted hg hc⟩

end Chart

namespace Run

variable {g : Grammar} {run : Run} {k : Nat}

/-- An addition that a step leads to keeps a chart prompted, if its rule is begun only for a prediction. -/
theorem prompted_add (hc : run.chart.Filed g) (h : run.chart.Prompted g) {item : Item} {stop : Nat}
    {d : Derivation} (hsteps : run.chart.Steps g (fun _ => True) ⟨item, stop⟩ d)
    (hbegun : item.dot = 0 → item.rule ≠ Grammar.rootId → ∀ r, g.rule? item.rule = some r →
      run.chart.isPredicted item.origin r.lhs = true)
    (hok : (add g run item stop d).breach = none) : (add g run item stop d).chart.Prompted g where
  wired := wired_add hc h.wired hsteps hok
  begun hs hdot hroot hr := by
    rw [isPredicted_add hok]
    rcases (only_add hc hok).1 hs with hold | ⟨-, rfl⟩
    · exact h.begun hold hdot hroot hr
    · exact hbegun hdot hroot _ hr
  asked hpredicted := by
    rw [isPredicted_add hok] at hpredicted
    exact (h.asked hpredicted).mono fun _ _ ⟨j, hj⟩ _ _ _ => ⟨j, (grows_add hc hok).1.live hj⟩

/-- Beginning a rule where its category is predicted keeps a chart prompted. -/
theorem prompted_begun (hc : run.chart.Filed g) (h : run.chart.Prompted g) {rule : Nat} {r : Rule}
    (hr : g.HasRule rule r) (hpredicted : run.chart.isPredicted k r.lhs = true)
    (hok : (add g run ⟨rule, 0, k⟩ k .predicted).breach = none) :
    (add g run ⟨rule, 0, k⟩ k .predicted).chart.Prompted g := by
  refine prompted_add hc h (.begun rfl) (fun _ _ r' hr' => ?_) hok
  obtain rfl := Option.some.inj (hr.rule?.symm.trans hr')
  exact hpredicted

/-- What a chart calls for is begun only for a prediction. -/
theorem prompted_of_warrants (hg : g.Indexed) (hc : run.chart.Filed g) (h : run.chart.Prompted g) {item : Item}
    {stop : Nat} {d : Derivation} (hwarrants : run.chart.Warrants g k item stop d)
    (hok : (add g run item stop d).breach = none) : (add g run item stop d).chart.Prompted g := by
  refine prompted_add hc h (hwarrants.steps fun _ _ => trivial) (fun hdot _ r hr => ?_) hok
  cases hwarrants with
  | begun hpredicted hrule =>
    obtain ⟨hr', rfl⟩ := hg.mem_rulesFor.mp hrule
    obtain rfl := Option.some.inj (hr'.rule?.symm.trans hr)
    exact hpredicted
  | skip => contradiction
  | scan => contradiction
  | complete => contradiction

/-- Runs keep a chart prompted. -/
theorem upheld_prompted (hg : g.Indexed) : Upheld g (Chart.Prompted g) where
  root hc h hok := prompted_add hc h (.begun rfl) (fun _ hroot => absurd rfl hroot) hok
  add hc h hwarrants hok := prompted_of_warrants hg hc h hwarrants hok
  predict {c k id s symbol} hc h hs hstop hexpects hsymbol := by
    have hk : k < c.columns.size := hstop ▸ (hc.bounds hs.spot?).2
    have hpredicted {j : Nat} {other : Category} : (c.predict k symbol).isPredicted j other = true ↔
        (k = j ∧ symbol = other) ∨ c.isPredicted j other = true := by
      rw [Chart.isPredicted_predict hk, Bool.or_eq_true, decide_eq_true_iff]
    refine ⟨h.wired.of_states rfl rfl, fun ht hdot hroot hr => hpredicted.mpr (.inr (h.begun ht hdot hroot hr)), ?_⟩
    intro j other hother
    rcases hpredicted.mp hother with ⟨rfl, rfl⟩ | hold
    · exact hstop ▸ h.asked_of_expects hc hs hexpects hsymbol
    · exact h.asked hold

end Run

end IndexedGrammar
