import IndexedGrammar.Proofs.Chart.Derivable
import IndexedGrammar.Proofs.Chart.Upheld

/-!
# What a finished chart holds

A run adds only what the grammar finds in the input, and when all states have been processed the chart
is closed under every way of finding more. So a chart that was built without being given up holds
exactly what the grammar finds. Inserting a rule into such a chart leads to a chart that holds exactly
what the larger grammar finds, since every state that was there already counts as processed.
-/

namespace IndexedGrammar

namespace Chart

/-- A spot is found in a way, with the states gone through read as spots. -/
def HasDerivation (c : Chart) (s : Spot) (l : Link) : Prop :=
  ∃ id d, c.Live id s ∧ c.Derives id d ∧ c.link d = l

/-- A chart holds exactly what a grammar finds in its input. -/
structure Holds (g : Grammar) (c : Chart) : Prop where
  live : ∀ s, (∃ id, c.Live id s) ↔ Findable g c.input c.layout.last s
  derivation : ∀ s l, c.HasDerivation s l ↔ Derivable g c.input c.layout.last s l
  isPredicted : ∀ k symbol,
    c.isPredicted k symbol = true ↔ Wanted g c.input c.layout.last k symbol

/-- Everything in a chart is found by a grammar. -/
structure Justified (g : Grammar) (c : Chart) : Prop where
  live : ∀ {id s}, c.Live id s → Findable g c.input c.layout.last s
  derives : ∀ {id s d}, c.Live id s → c.Derives id d →
    Derivable g c.input c.layout.last s (c.link d)
  isPredicted : ∀ {k symbol}, c.isPredicted k symbol = true →
    Wanted g c.input c.layout.last k symbol

/-- The states processed have moved their dots wherever they can, alone or in pairs. -/
structure Moved (g : Grammar) (done : Nat → Prop) (c : Chart) : Prop where
  skip : ∀ {id s symbol}, done id → c.Live id s → g.Expects s.item symbol →
    symbol.isEpsilon = true → c.HasDerivation (s.step s.stop) ⟨some s, none⟩
  scan : ∀ {id s symbol}, done id → c.Live id s → g.Expects s.item symbol →
    symbol.isEpsilon = false → g.isPartOfSpeech symbol = true → s.stop + 1 < c.columns.size →
    c.allows s.stop symbol = true → c.HasDerivation (s.step (s.stop + 1)) ⟨some s, none⟩
  complete : ∀ {i j s t symbol}, done i → done j → c.Live i s → c.Live j t →
    g.Expects s.item symbol → g.isNonterminal symbol = true → g.Completes t.item symbol →
    t.item.origin = s.stop → c.HasDerivation (s.step t.stop) ⟨some s, some t⟩

/-- The states processed have led to everything they call for. -/
structure Served (g : Grammar) (done : Nat → Prop) (c : Chart) : Prop extends Moved g done c where
  predicted : ∀ {id s symbol}, done id → c.Live id s → g.Expects s.item symbol →
    g.isNonterminal symbol = true → c.isPredicted s.stop symbol = true

/-- The rules of every predicted category are begun. -/
def RulesBegun (g : Grammar) (c : Chart) : Prop :=
  ∀ {k symbol rule r}, c.isPredicted k symbol = true → (rule, r) ∈ g.rulesFor symbol →
    c.HasDerivation ⟨⟨rule, 0, k⟩, k⟩ .predicted

/-- A chart that is closed under what its live states and its predictions call for. -/
structure Closed (g : Grammar) (c : Chart) : Prop where
  root : c.HasDerivation ⟨⟨Grammar.rootId, 0, 0⟩, 0⟩ .predicted
  rulesBegun : c.RulesBegun g
  served : c.Served g fun id => ∃ s, c.Live id s

variable {g : Grammar} {c later : Chart}

/-- A derivation through live states goes through the same spots later. -/
theorem Grows.link_eq (hgrows : c.Grows later) {d : Derivation}
    (hlinks : ∀ link ∈ d.links, ∃ t, c.Live link t) : later.link d = c.link d := by
  have hspot {link : Nat} (hlink : link ∈ d.links) : later.spot? link = c.spot? link := by
    obtain ⟨t, ht⟩ := hlinks link hlink
    rw [ht.spot?, (hgrows.live ht).spot?]
  obtain ⟨predecessor, reductor⟩ := d
  simp only [link, Link.mk.injEq]
  constructor
  · cases predecessor with
    | none => rfl
    | some i => exact hspot (by simp [Derivation.links])
  · cases reductor with
    | none => rfl
    | some j => exact hspot (by simp [Derivation.links])

/-- A state that was live is on the same spot later. -/
theorem Grows.live_of (hgrows : c.Grows later) {id : Nat} (hlive : ∃ s, c.Live id s) {s : Spot}
    (hs : later.Live id s) : c.Live id s := by
  obtain ⟨t, ht⟩ := hlive
  obtain rfl := hs.unique (hgrows.live ht)
  exact ht

/-- What is found in a chart is found in the same way later. -/
theorem HasDerivation.grows {s : Spot} {l : Link} (h : c.HasDerivation s l) (hc : c.Filed g)
    (hgrows : c.Grows later) : later.HasDerivation s l := by
  obtain ⟨id, d, hlive, hd, rfl⟩ := h
  exact ⟨id, d, hgrows.live hlive, hgrows.derives hd,
    hgrows.link_eq fun _ hlink => hc.linked hd hlink⟩

/-- Dots that were moved in a chart are moved later. -/
theorem Moved.grows {done : Nat → Prop} (h : c.Moved g done) (hc : c.Filed g)
    (hlive : ∀ id, done id → ∃ s, c.Live id s) (hgrows : c.Grows later) : later.Moved g done := by
  have hold {id : Nat} {s : Spot} (hdone : done id) (hs : later.Live id s) : c.Live id s :=
    hgrows.live_of (hlive id hdone) hs
  constructor
  · intro id s symbol hdone hs hexpects hsymbol
    exact (h.skip hdone (hold hdone hs) hexpects hsymbol).grows hc hgrows
  · intro id s symbol hdone hs hexpects hsymbol hpos hk hallows
    rw [hgrows.size_columns] at hk
    rw [allows, hgrows.input] at hallows
    exact (h.scan hdone (hold hdone hs) hexpects hsymbol hpos hk hallows).grows hc hgrows
  · intro i j s t symbol hi hj hs ht hexpects hsymbol hcompletes horigin
    exact (h.complete hi hj (hold hi hs) (hold hj ht) hexpects hsymbol hcompletes horigin).grows hc
      hgrows

/-- What was served in a chart is served later. -/
theorem Served.grows {done : Nat → Prop} (h : c.Served g done) (hc : c.Filed g)
    (hlive : ∀ id, done id → ∃ s, c.Live id s) (hgrows : c.Grows later) : later.Served g done where
  toMoved := h.toMoved.grows hc hlive hgrows
  predicted {id _ _} hdone hs hexpects hsymbol :=
    hgrows.isPredicted (h.predicted hdone (hgrows.live_of (hlive id hdone) hs) hexpects hsymbol)

/-- What is in a chart is found there. -/
theorem Has.hasDerivation {item : Item} {stop : Nat} {d : Derivation} (h : c.Has item stop d) :
    c.HasDerivation ⟨item, stop⟩ (c.link d) := by
  obtain ⟨id, hlive, hd⟩ := h
  exact ⟨id, d, hlive, hd, rfl⟩

/-- A derivation by a prediction goes through nothing. -/
@[simp] theorem link_predicted : c.link .predicted = .predicted := rfl

/-- A derivation that moves a dot over no state goes through the state before. -/
theorem link_of_live {i : Nat} {s : Spot} (hs : c.Live i s) : c.link ⟨some i, none⟩ = ⟨some s, none⟩ := by
  simp only [link, Option.bind_some, Option.bind_none, hs.spot?]

/-- A derivation that moves a dot over a state goes through both. -/
theorem link_of_live₂ {i j : Nat} {s t : Spot} (hs : c.Live i s) (ht : c.Live j t) :
    c.link ⟨some i, some j⟩ = ⟨some s, some t⟩ := by
  simp only [link, Option.bind_some, hs.spot?, ht.spot?]

/-! Soundness -/

/-- What a chart calls for is found by the grammar. -/
theorem Warrants.derivable (hc : c.Filed g) (h : c.Justified g) {k : Nat} {item : Item} {stop : Nat}
    {d : Derivation} (hwarrants : c.Warrants g k item stop d) :
    Derivable g c.input c.layout.last ⟨item, stop⟩ (c.link d) := by
  cases hwarrants with
  | begun hpredicted hrule =>
    obtain ⟨s, ⟨l, hs⟩, rfl, hexpects, hnonterminal⟩ := h.isPredicted hpredicted
    exact .predict hs hexpects hnonterminal hrule
  | skip hs hstop hexpects hsymbol =>
    obtain ⟨l, hs'⟩ := h.live hs
    rw [link_of_live hs, ← hstop]
    exact .skip hs' hexpects hsymbol
  | scan hs hstop hexpects hsymbol hpos hk hallows =>
    obtain ⟨l, hs'⟩ := h.live hs
    rw [link_of_live hs]
    subst hstop
    exact .scan hs' hexpects hsymbol hpos (by rw [hc.size_columns] at hk; omega) hallows
  | complete hs ht hexpects hsymbol hcompletes horigin _ =>
    obtain ⟨l, hs'⟩ := h.live hs
    obtain ⟨m, ht'⟩ := h.live ht
    rw [link_of_live₂ hs ht]
    exact .complete hs' ht' hexpects hsymbol hcompletes horigin

/-- In a new chart there is nothing to be justified. -/
theorem justified_new (g : Grammar) (layout : Layout) (input : Input) : (new layout input).Justified g where
  live hs := (not_live_new hs).elim
  derives hs := (not_live_new hs).elim
  isPredicted {k symbol} h := absurd ((isPredicted_new layout input k symbol).symm.trans h) Bool.false_ne_true

/-! Closed charts -/

/-- A closed chart has everything that the grammar finds. -/
theorem Closed.hasDerivation (h : c.Closed g) (hg : g.Indexed) (hunscanned : g.RootUnscanned) (hc : c.Filed g)
    {s : Spot} {l : Link} (hl : Derivable g c.input c.layout.last s l) : c.HasDerivation s l := by
  -- by induction on what is derivable: each step was taken when its state was served
  induction hl with
  | root => exact h.root
  | predict _ hexpects hsymbol hrule ih =>
    obtain ⟨id, d, hs, -, -⟩ := ih
    exact h.rulesBegun (h.served.predicted ⟨_, hs⟩ hs hexpects hsymbol) hrule
  | skip _ hexpects hsymbol ih =>
    obtain ⟨id, d, hs, -, -⟩ := ih
    exact h.served.skip ⟨_, hs⟩ hs hexpects hsymbol
  | scan _ hexpects hsymbol hpos hlast hallows ih =>
    obtain ⟨id, d, hs, -, -⟩ := ih
    exact h.served.scan ⟨_, hs⟩ hs hexpects hsymbol hpos
      (by rw [hc.size_columns]; omega) hallows
  | complete hs ht hexpects hempty hcompletes horigin ihs iht =>
    have hsymbol := hs.isNonterminal_of_completes hg hunscanned ht hexpects hempty hcompletes
    obtain ⟨i, d, hi, -, -⟩ := ihs
    obtain ⟨j, e, hj, -, -⟩ := iht
    exact h.served.complete ⟨_, hi⟩ ⟨_, hj⟩ hi hj hexpects hsymbol hcompletes horigin

/-- A closed chart predicts everything that the grammar wants. -/
theorem Closed.isPredicted (h : c.Closed g) (hg : g.Indexed) (hunscanned : g.RootUnscanned) (hc : c.Filed g)
    {k : Nat} {symbol : Category} (hwanted : Wanted g c.input c.layout.last k symbol) :
    c.isPredicted k symbol = true := by
  obtain ⟨s, ⟨l, hl⟩, rfl, hexpects, hsymbol⟩ := hwanted
  obtain ⟨id, d, hs, -, -⟩ := h.hasDerivation hg hunscanned hc hl
  exact h.served.predicted ⟨_, hs⟩ hs hexpects hsymbol

/-- A closed chart in which everything is found by the grammar holds exactly what it finds. -/
theorem Closed.holds (h : c.Closed g) (hg : g.Indexed) (hunscanned : g.RootUnscanned) (hc : c.Filed g)
    (hjustified : c.Justified g) : c.Holds g where
  live s := by
    constructor
    · rintro ⟨id, hs⟩
      exact hjustified.live hs
    · rintro ⟨l, hl⟩
      obtain ⟨id, d, hs, -, -⟩ := h.hasDerivation hg hunscanned hc hl
      exact ⟨id, hs⟩
  derivation s l := by
    refine ⟨?_, h.hasDerivation hg hunscanned hc⟩
    rintro ⟨id, d, hs, hd, rfl⟩
    exact hjustified.derives hs hd
  isPredicted k symbol := ⟨hjustified.isPredicted, h.isPredicted hg hunscanned hc⟩

/-- Everything in a chart that holds what a grammar finds is found by it. -/
theorem Holds.justified (h : c.Holds g) : c.Justified g where
  live {id s} hs := (h.live s).mp ⟨id, hs⟩
  derives {id s d} hs hd := (h.derivation s _).mp ⟨id, d, hs, hd, rfl⟩
  isPredicted hpredicted := (h.isPredicted _ _).mp hpredicted

/-- A chart that holds what a grammar finds is closed. -/
theorem Holds.closed (h : c.Holds g) (hsize : c.columns.size = c.layout.last + 1) : c.Closed g where
  root := (h.derivation _ _).mpr .root
  rulesBegun {k symbol rule r} hpredicted hrule := by
    obtain ⟨s, ⟨l, hl⟩, rfl, hexpects, hsymbol⟩ := (h.isPredicted k symbol).mp hpredicted
    exact (h.derivation _ _).mpr (.predict hl hexpects hsymbol hrule)
  served := {
    skip := fun {id s symbol} _ hs hexpects hsymbol => by
      obtain ⟨l, hl⟩ := h.justified.live hs
      exact (h.derivation _ _).mpr (.skip hl hexpects hsymbol)
    scan := fun {id s symbol} _ hs hexpects hsymbol hpos hk hallows => by
      obtain ⟨l, hl⟩ := h.justified.live hs
      rw [hsize] at hk
      exact (h.derivation _ _).mpr (.scan hl hexpects hsymbol hpos (Nat.lt_of_succ_lt_succ hk) hallows)
    predicted := fun {id s symbol} _ hs hexpects hsymbol =>
      (h.isPredicted _ _).mpr ⟨s, h.justified.live hs, rfl, hexpects, hsymbol⟩
    complete := fun {i j s t symbol} _ _ hs ht hexpects hsymbol hcompletes horigin => by
      obtain ⟨l, hl⟩ := h.justified.live hs
      obtain ⟨m, hm⟩ := h.justified.live ht
      exact (h.derivation _ _).mpr
        (.complete hl hm hexpects (Grammar.isNonterminal_iff.mp hsymbol).1 hcompletes horigin) }

/-! One more rule -/

/-- What is found without a rule is found with it. -/
theorem Justified.of_without {g' : Grammar} {rule : Nat} (hwithout : g.Without rule g') (h : c.Justified g') :
    c.Justified g where
  live hs := by
    obtain ⟨l, hl⟩ := h.live hs
    exact ⟨l, hl.of_without hwithout⟩
  derives hs hd := (h.derives hs hd).of_without hwithout
  isPredicted hpredicted := (h.isPredicted hpredicted).of_without hwithout

/-- What is found without a rule is not on it. -/
theorem Justified.rule_ne {g' : Grammar} {rule : Nat} (hwithout : g.Without rule g') (h : c.Justified g')
    {id : Nat} {s : Spot} (hs : c.Live id s) : s.item.rule ≠ rule := by
  obtain ⟨l, hl⟩ := h.live hs
  exact hl.rule_ne hwithout

variable {g' : Grammar} {rule : Nat}

/-- A chart that is closed without a rule serves all its states with the rule, if none of them is on it. -/
theorem Closed.served_with (h : c.Closed g') (hwithout : g.Without rule g')
    (hrule : ∀ {id s}, c.Live id s → s.item.rule ≠ rule) : c.Served g fun id => ∃ s, c.Live id s where
  skip hid hs hexpects hsymbol := h.served.skip hid hs ((hwithout.expects (hrule hs)).mpr hexpects) hsymbol
  scan {_ _ symbol} hid hs hexpects hsymbol hpos :=
    h.served.scan hid hs ((hwithout.expects (hrule hs)).mpr hexpects) hsymbol
      (hwithout.isPartOfSpeech symbol ▸ hpos)
  predicted {_ _ symbol} hid hs hexpects hsymbol :=
    h.served.predicted hid hs ((hwithout.expects (hrule hs)).mpr hexpects) (hwithout.isNonterminal symbol ▸ hsymbol)
  complete {_ _ _ _ symbol} hi hj hs ht hexpects hsymbol hcompletes :=
    h.served.complete hi hj hs ht ((hwithout.expects (hrule hs)).mpr hexpects)
      (hwithout.isNonterminal symbol ▸ hsymbol) ((hwithout.completes (hrule ht)).mpr hcompletes)

/-- In a chart that is closed without a rule, all other rules are begun where their categories are predicted. -/
theorem Closed.begun_with (h : c.Closed g') (hwithout : g.Without rule g') {r : Rule} (hr : g.HasRule rule r)
    {k other : Nat} {symbol : Category} {q : Rule} (hpredicted : c.isPredicted k symbol = true)
    (hother : (other, q) ∈ g.rulesFor symbol) :
    c.HasDerivation ⟨⟨other, 0, k⟩, k⟩ .predicted ∨ other = rule ∧ symbol = r.lhs := by
  by_cases heq : other = rule
  · subst heq
    obtain ⟨hq, rfl⟩ := hwithout.indexed.mem_rulesFor.mp hother
    exact .inr ⟨rfl, by rw [hq.unique hr]⟩
  · exact .inl (h.rulesBegun hpredicted (hwithout.mem_rulesFor.mpr ⟨hother, heq⟩))

end Chart

namespace Run

variable {g : Grammar} {start : Chart} {k : Nat} {run : Run}

/-- What an addition adds at most. -/
theorem only_add (h : run.chart.Filed g) {item : Item} {stop : Nat} {d : Derivation}
    (hok : (add g run item stop d).breach = none) :
    (∀ {j t}, (add g run item stop d).chart.Live j t →
      run.chart.Live j t ∨ j = run.chart.states.size ∧ t = ⟨item, stop⟩) ∧
    ∀ {j t e}, (add g run item stop d).chart.Live j t → (add g run item stop d).chart.Derives j e →
      run.chart.Live j t ∧ run.chart.Derives j e ∨ t = ⟨item, stop⟩ ∧ e = d := by
  obtain ⟨-, -, ⟨id, hfind, hchart, -⟩ | ⟨-, -, hchart, -⟩⟩ := add_spec hok
  · have hlive := h.find?_iff.mp hfind
    rw [hchart]
    refine ⟨fun hj => .inl (Chart.live_pack.mp hj), fun hj hd => ?_⟩
    rcases (Chart.derives_pack hlive).mp hd with hd | ⟨rfl, rfl⟩
    · exact .inl ⟨Chart.live_pack.mp hj, hd⟩
    · exact .inr ⟨(Chart.live_pack.mp hj).unique hlive, rfl⟩
  · rw [hchart]
    refine ⟨fun hj => Chart.live_grow.mp hj, fun hj hd => ?_⟩
    rcases Chart.live_grow.mp hj with hj | ⟨rfl, rfl⟩
    · rcases Chart.derives_grow.mp hd with hd | ⟨rfl, -⟩
      · exact .inl ⟨hj, hd⟩
      · exact absurd hj Chart.not_live_size
    · rcases Chart.derives_grow.mp hd with hd | ⟨-, rfl⟩
      · obtain ⟨t, ht⟩ := hd.live
        exact absurd ht Chart.not_live_size
      · exact .inr ⟨rfl, rfl⟩

/-- An addition that the grammar finds keeps everything justified. -/
theorem justified_add (hc : run.chart.Filed g) (h : run.chart.Justified g) {item : Item} {stop : Nat}
    {d : Derivation} (hlinks : ∀ link ∈ d.links, ∃ t, run.chart.Live link t)
    (hderivable : Derivable g run.chart.input run.chart.layout.last ⟨item, stop⟩ (run.chart.link d))
    (hok : (add g run item stop d).breach = none) : (add g run item stop d).chart.Justified g := by
  obtain ⟨hlive, hderives⟩ := only_add hc hok
  have hgrows := (grows_add hc hok).1
  constructor
  · intro id s hs
    rw [hgrows.input, hgrows.layout]
    rcases hlive hs with hs | ⟨-, rfl⟩
    · exact h.live hs
    · exact ⟨_, hderivable⟩
  · intro id s e hs he
    rw [hgrows.input, hgrows.layout]
    rcases hderives hs he with ⟨hs, he⟩ | ⟨rfl, rfl⟩
    · rw [hgrows.link_eq fun _ hlink => hc.linked he hlink]
      exact h.derives hs he
    · rw [hgrows.link_eq hlinks]
      exact hderivable
  · intro j symbol hpredicted
    rw [hgrows.input, hgrows.layout]
    rw [isPredicted_add hok] at hpredicted
    exact h.isPredicted hpredicted

/-- Predicting a nonterminal that a state expects keeps everything justified. -/
theorem justified_predict {c : Chart} (h : c.Justified g) (hk : k < c.columns.size) {id : Nat}
    {s : Spot} {symbol : Category} (hs : c.Live id s) (hstop : s.stop = k)
    (hexpects : g.Expects s.item symbol) (hsymbol : g.isNonterminal symbol = true) :
    (c.predict k symbol).Justified g where
  live hs := h.live hs
  derives hs hd := h.derives hs hd
  isPredicted {j other} hother := by
    rw [Chart.isPredicted_predict hk, Bool.or_eq_true, decide_eq_true_iff] at hother
    rcases hother with ⟨rfl, rfl⟩ | hother
    · exact ⟨s, h.live hs, hstop, hexpects, hsymbol⟩
    · exact h.isPredicted hother

/-- Beginning a rule where its category is predicted keeps everything justified. -/
theorem justified_begun (hg : g.Indexed) (hc : run.chart.Filed g) (h : run.chart.Justified g) {rule : Nat}
    {r : Rule} (hr : g.HasRule rule r) (hpredicted : run.chart.isPredicted k r.lhs = true)
    (hok : (add g run ⟨rule, 0, k⟩ k .predicted).breach = none) :
    (add g run ⟨rule, 0, k⟩ k .predicted).chart.Justified g :=
  have hwarrants : run.chart.Warrants g k ⟨rule, 0, k⟩ k .predicted :=
    .begun hpredicted (hg.mem_rulesFor.mpr ⟨hr, rfl⟩)
  justified_add hc h hwarrants.linked (hwarrants.derivable hc h) hok

/-- Runs keep everything justified. -/
theorem upheld_justified (g : Grammar) : Upheld g (Chart.Justified g) where
  root hc h hok := justified_add hc h (by simp [Derivation.predicted, Derivation.links]) .root hok
  add hc h hwarrants hok := justified_add hc h hwarrants.linked (hwarrants.derivable hc h) hok
  predict hc h hs hstop := justified_predict h (hstop ▸ (hc.bounds hs.spot?).2) hs hstop

/-! Completeness -/

/-- What holds while a column is worked off: every live state was processed or waits. -/
structure Under (g : Grammar) (start : Chart) (k : Nat) (done : Nat → Prop) (run : Run) : Prop where
  orderly : run.Orderly g start k
  covered : ∀ {id s}, run.chart.Live id s → done id ∨ run.Waits s.stop id

/-- An addition has its state wait. -/
theorem Under.add {done : Nat → Prop} (h : run.Under g start k done) {item : Item} {stop : Nat}
    {d : Derivation} (hadmits : run.chart.Admits k item stop d)
    (hok : (Run.add g run item stop d).breach = none) :
    (Run.add g run item stop d).Under g start k done where
  orderly := h.orderly.add hadmits hok
  covered {j t} ht := by
    obtain ⟨-, -, ⟨id, hfind, hchart, -, hwaits⟩ | ⟨hnone, -, hchart, -, hwaits⟩⟩ := add_spec hok
    · rw [hchart] at ht
      exact (h.covered (Chart.live_pack.mp ht)).imp_right hwaits.mpr
    · rw [hchart] at ht
      have hwaits' {i other : Nat} : (Run.add g run item stop d).Waits i other ↔ _ :=
        hwaits (h.orderly.size_agendas ▸ hadmits.stop_lt)
      rcases Chart.live_grow.mp ht with ht | ⟨rfl, rfl⟩
      · exact (h.covered ht).imp_right fun hold => hwaits'.mpr (.inl hold)
      · exact .inr (hwaits'.mpr (.inr ⟨rfl, rfl⟩))

/-- What holds while a column is worked off is kept, also while a later column is. -/
theorem kept_under (g : Grammar) (start : Chart) (done : Nat → Prop) {first : Nat} (hfirst : first ≤ k) :
    Kept g k fun run => run.Under g start first done ∧ k < run.chart.columns.size where
  filed h := ⟨h.1.orderly.filed, h.2⟩
  add h hwarrants hok :=
    ⟨h.1.add ((hwarrants.admits h.1.orderly.filed h.2).mono hfirst) hok,
      (grows_add h.1.orderly.filed hok).1.size_columns.symm ▸ h.2⟩
  predict h _ _ _ _ hnot :=
    ⟨⟨h.1.orderly.predict h.2 hnot, h.1.covered⟩, Chart.grows_predict.size_columns.symm ▸ h.2⟩

/-- Processing a state serves it together with the states processed before. -/
theorem Advances.served {c later : Chart} {done : Nat → Prop} {id : Nat} {s : Spot}
    (h : Advances g k id s c later) (hc : c.Filed g) (hserved : c.Served g done)
    (hlive : ∀ j, done j → ∃ t, c.Live j t) (hs : c.Live id s) (hstop : s.stop = k) :
    later.Served g fun j => done j ∨ j = id := by
  subst hstop
  have hold := hserved.grows hc hlive h.grows
  have hspot {t : Spot} (ht : later.Live id t) : t = s := ht.unique (h.grows.live hs)
  have hs' := h.grows.live hs
  refine ⟨⟨?_, ?_, ?_⟩, ?_⟩
  · rintro j t symbol (hj | rfl) ht hexpects hsymbol
    · exact hold.skip hj ht hexpects hsymbol
    · obtain rfl := hspot ht
      have hhas := (h.skip hexpects hsymbol).hasDerivation
      rwa [Chart.link_of_live hs'] at hhas
  · rintro j t symbol (hj | rfl) ht hexpects hsymbol hpos hk hallows
    · exact hold.scan hj ht hexpects hsymbol hpos hk hallows
    · obtain rfl := hspot ht
      rw [h.grows.size_columns] at hk
      rw [Chart.allows, h.grows.input] at hallows
      have hhas := (h.scan hexpects hsymbol hpos hk hallows).hasDerivation
      rwa [Chart.link_of_live hs'] at hhas
  -- either of the two states that meet may be the one just processed, or both
  · rintro i j p t symbol hi hj hp ht hexpects hsymbol hcompletes horigin
    have hbefore {i : Nat} {u : Spot} (hi : done i ∨ i = id) (hu : later.Live i u) : c.Live i u :=
      h.grows.live_of (hi.elim (hlive i) fun heq => ⟨s, heq ▸ hs⟩) hu
    have hp' := hbefore hi hp
    have ht' := hbefore hj ht
    rcases hi with hi | rfl
    · rcases hj with hj | rfl
      · exact hold.complete hi hj hp ht hexpects hsymbol hcompletes horigin
      · obtain rfl := hspot ht
        have hepsilon := (Grammar.isNonterminal_iff.mp hsymbol).1
        have hhas := (h.moved hp' hcompletes hexpects hepsilon horigin).hasDerivation
        rwa [Chart.link_of_live₂ hp ht] at hhas
    · obtain rfl := hspot hp
      have hhas := (h.crossed ht' hexpects hsymbol hcompletes horigin).hasDerivation
      rwa [Chart.link_of_live₂ hp ht] at hhas
  · rintro j t symbol (hj | rfl) ht hexpects hsymbol
    · exact hold.predicted hj ht hexpects hsymbol
    · obtain rfl := hspot ht
      exact h.predicted hexpects hsymbol

/-- What a run keeps from column to column on its way to a closed chart. -/
structure Progress (g : Grammar) (start : Chart) (k : Nat) (run : Run) : Prop where
  orderly : run.Orderly g start k
  rulesBegun : run.chart.RulesBegun g
  root : run.chart.HasDerivation ⟨⟨Grammar.rootId, 0, 0⟩, 0⟩ .predicted
  served : ∃ done, (∀ id, done id → ∃ s, run.chart.Live id s) ∧
    (∀ {id s}, run.chart.Live id s → done id ∨ run.Waits s.stop id) ∧ run.chart.Served g done

/-- Serving a state that waits makes progress, whichever it is. -/
theorem Progress.serve {first : Nat} (h : run.Progress g start first) (hfirst : first ≤ k)
    {agenda rest : Agenda} {id : Nat} (work : Nat) (hagenda : run.agendas[k]? = some agenda)
    (hrest : ∀ other, other ∈ agenda.toList ↔ other = id ∨ other ∈ rest.toList)
    (hok : (process g { run with agendas := run.agendas.setIfInBounds k rest, work := work } k id).breach =
      none) :
    (process g { run with agendas := run.agendas.setIfInBounds k rest, work := work } k id).Progress g start
      first := by
  obtain ⟨done, hlive, hcovered, hserved⟩ := h.served
  obtain ⟨s, hs, hstop⟩ := h.orderly.waiting ⟨agenda, hagenda, (hrest id).mpr (.inl rfl)⟩
  -- the state left the agenda but counts as processed, so every state is still covered
  have hunder : ({ run with
      agendas := run.agendas.setIfInBounds k rest, work := work } : Run).Under g start first
        fun j => done j ∨ j = id := {
    orderly := h.orderly.leave work hagenda fun other hother => (hrest other).mpr (.inr hother)
    covered := by
      intro j t ht
      rcases hcovered ht with hdone | ⟨other, hother, hj⟩
      · exact .inl (.inl hdone)
      · by_cases hk : k = t.stop
        · rw [← hk] at hother ⊢
          obtain rfl := Option.some.inj (hagenda.symm.trans hother)
          rcases (hrest j).mp hj with rfl | hj
          · exact .inl (.inr rfl)
          · refine .inr ⟨rest, ?_, hj⟩
            show (run.agendas.setIfInBounds k rest)[k]? = _
            rw [Array.getElem?_setIfInBounds, if_pos rfl,
              if_pos (Array.getElem?_eq_some_iff.mp hagenda).1]
        · refine .inr ⟨other, ?_, hj⟩
          show (run.agendas.setIfInBounds k rest)[t.stop]? = _
          rw [Array.getElem?_setIfInBounds, if_neg hk, hother] }
  have hk : k < run.chart.columns.size := hstop ▸ (h.orderly.filed.bounds hs.spot?).2
  obtain ⟨⟨hafter, -⟩, hadvances⟩ :=
    process_spec (kept_under g start _ hfirst) ⟨hunder, hk⟩ hs hstop hok
  have hfiled := h.orderly.filed
  refine ⟨hafter.orderly, ?_, h.root.grows hfiled hadvances.grows,
    fun j => done j ∨ j = id, ?_, hafter.covered,
    hadvances.served hfiled hserved hlive hs hstop⟩
  -- a category predicted meanwhile had its rules added when it was
  · intro j symbol rule r hpredicted hrule
    rcases hadvances.begun j symbol hpredicted with hold | hnew
    · exact (h.rulesBegun hold hrule).grows hfiled hadvances.grows
    · exact (hnew rule r hrule).hasDerivation
  · rintro j (hj | rfl)
    · obtain ⟨t, ht⟩ := hlive j hj
      exact ⟨t, hadvances.grows.live ht⟩
    · exact ⟨s, hadvances.grows.live hs⟩

/-- Progress is kept from column to column. -/
theorem worked_progress (g : Grammar) (start : Chart) :
    Worked g start fun k run => run.Progress g start k where
  orderly h := h.orderly
  idle h hidle := { h with orderly := (worked_orderly g start).idle h.orderly hidle }
  work work h :=
    ⟨(worked_orderly g start).work work h.orderly, h.rulesBegun, h.root, h.served⟩
  process work h hagenda hpop _ _ hok :=
    h.serve (Nat.le_refl _) work hagenda (fun _ => Agenda.mem_toList_of_pop? hpop) hok

/-- Once nothing waits any more, the chart is closed. -/
theorem Progress.closed (h : run.Progress g start k) (hk : run.chart.columns.size ≤ k) : run.chart.Closed g := by
  obtain ⟨done, -, hcovered, hserved⟩ := h.served
  have hdone {id : Nat} (hlive : ∃ s, run.chart.Live id s) : done id := by
    obtain ⟨s, hs⟩ := hlive
    refine (hcovered hs).resolve_right (h.orderly.idle ?_)
    exact Nat.lt_of_lt_of_le (h.orderly.filed.bounds hs.spot?).2 hk
  exact {
    root := h.root
    rulesBegun := h.rulesBegun
    served := {
      skip := fun hid => hserved.skip (hdone hid)
      scan := fun hid => hserved.scan (hdone hid)
      predicted := fun hid => hserved.predicted (hdone hid)
      complete := fun hi hj => hserved.complete (hdone hi) (hdone hj) } }

/-! Builds and insertions -/

variable {agendas : Array Agenda} {c : Chart}

/-- Beginning the synthetic rule in a new chart makes progress. -/
theorem progress_root {layout : Layout} {input : Input}
    (hsize : agendas.size = (Chart.new layout input).columns.size)
    (hidle : ∀ agenda ∈ agendas, agenda = .empty)
    (hroot : (Run.add g (Run.on (.new layout input) agendas) ⟨Grammar.rootId, 0, 0⟩ 0 .predicted).breach =
      none) :
    (Run.add g (Run.on (.new layout input) agendas) ⟨Grammar.rootId, 0, 0⟩ 0 .predicted).Progress g
      (.new layout input) 0 := by
  have hfiled := Chart.filed_new g layout input
  have hcolumns : 0 < (Chart.new layout input).columns.size := hfiled.size_columns ▸ Nat.succ_pos _
  have hbegin : (Run.on (.new layout input) agendas).Under g (.new layout input) 0
      fun _ => False := {
    orderly := orderly_on hfiled hsize hidle 0
    covered := fun hs => (Chart.not_live_new hs).elim }
  have hadded := hbegin.add (admits_begun hcolumns (Nat.le_refl 0)) hroot
  exact {
    orderly := hadded.orderly
    rulesBegun := fun {k symbol rule r} h => by
      rw [isPredicted_add hroot] at h
      exact absurd ((Chart.isPredicted_new layout input k symbol).symm.trans h) Bool.false_ne_true
    root := (grows_add hfiled hroot).2.hasDerivation
    served := ⟨fun _ => False, fun _ h => h.elim, hadded.covered, {
      skip := fun h => h.elim
      scan := fun h => h.elim
      predicted := fun h => h.elim
      complete := fun h => h.elim }⟩ }

/-- A build that is not given up makes progress to the end. -/
theorem build_progress {layout : Layout} {input : Input} (budget : Budget)
    (hsize : agendas.size = (Chart.new layout input).columns.size)
    (hidle : ∀ agenda ∈ agendas, agenda = .empty)
    (hok : ((Run.on (.new layout input) agendas).build g budget).1.breach = none)
    (hfault : ((Run.on (.new layout input) agendas).build g budget).2 = none) :
    ((Run.on (.new layout input) agendas).build g budget).1.Progress g (.new layout input)
      (Chart.new layout input).columns.size :=
  (onwards_spec (worked_progress g (.new layout input)) budget (Nat.zero_le _)
    (progress_root hsize hidle (breach_columns hok)) hok).2 hfault

/-- A build that is not given up leads to a closed chart. -/
theorem build_closed {layout : Layout} {input : Input} (budget : Budget)
    (hsize : agendas.size = (Chart.new layout input).columns.size)
    (hidle : ∀ agenda ∈ agendas, agenda = .empty)
    (hok : ((Run.on (.new layout input) agendas).build g budget).1.breach = none)
    (hfault : ((Run.on (.new layout input) agendas).build g budget).2 = none) :
    ((Run.on (.new layout input) agendas).build g budget).1.chart.Closed g := by
  have hprogress := build_progress budget hsize hidle hok hfault
  exact hprogress.closed (Nat.le_of_eq hprogress.orderly.grows.size_columns)

/-- A build leads to a chart in which everything is found by the grammar. -/
theorem build_justified {layout : Layout} {input : Input} (budget : Budget)
    (hsize : agendas.size = (Chart.new layout input).columns.size)
    (hidle : ∀ agenda ∈ agendas, agenda = .empty)
    (hok : ((Run.on (.new layout input) agendas).build g budget).1.breach = none) :
    ((Run.on (.new layout input) agendas).build g budget).1.chart.Justified g :=
  (upheld_justified g).build budget (Chart.filed_new g layout input) (Chart.justified_new g layout input) hsize
    hidle hok

/-- Beginning a rule at columns where its left-hand side is predicted predicts nothing more, and has the rule begun at
each of them. -/
theorem Under.beginRule {done : Nat → Prop} {first rule : Nat} {begun : List Nat}
    (h : run.Under g start first done)
    (hbegun : ∀ k ∈ begun, first ≤ k ∧ k < run.chart.columns.size)
    (hok : (run.beginRule g rule begun).breach = none) :
    (run.beginRule g rule begun).Under g start first done ∧
      (∀ j symbol, (run.beginRule g rule begun).chart.isPredicted j symbol = run.chart.isPredicted j symbol) ∧
      ∀ k ∈ begun, (run.beginRule g rule begun).chart.Has ⟨rule, 0, k⟩ k .predicted := by
  have hfold := foldl_keeps
    (fun run' => run'.Under g start first done ∧ run'.chart.columns.size = run.chart.columns.size ∧
      ∀ j symbol, run'.chart.isPredicted j symbol = run.chart.isPredicted j symbol)
    (fun k run' => run'.chart.Has ⟨rule, 0, k⟩ k .predicted) (fun _ _ => breach_add)
    ?_ ⟨h, rfl, fun _ _ => rfl⟩ hok
  · obtain ⟨⟨hunder, -, hsame⟩, hall, -⟩ := hfold
    exact ⟨hunder, hsame, hall⟩
  · intro run' k hk hgiven hok'
    obtain ⟨hunder, hsize, hsame⟩ := hgiven
    obtain ⟨hfirst, hlt⟩ := hbegun k hk
    obtain ⟨hgrows, hhas⟩ := grows_add hunder.orderly.filed hok'
    exact ⟨⟨hunder.add (admits_begun (hsize ▸ hlt) hfirst) hok', hgrows.size_columns.trans hsize,
      fun j symbol => by rw [isPredicted_add hok', hsame]⟩, hhas, fun _ hb => hb.grows hgrows⟩

section Insertion

variable {g' : Grammar} {rule : Nat} {r : Rule}

/-- Beginning a rule wherever its left-hand side is predicted, in a chart that is closed without the rule, makes
progress. -/
theorem progress_beginRule {first : Nat} {rest : List Nat} (hwithout : g.Without rule g')
    (hr : g.HasRule rule r) (hc : c.Filed g) (h : c.Closed g') (hrule : ∀ {id s}, c.Live id s → s.item.rule ≠ rule)
    (hsize : agendas.size = c.columns.size) (hidle : ∀ agenda ∈ agendas, agenda = .empty)
    (hlist : c.predictedAt r.lhs = first :: rest)
    (hok : ((Run.on c agendas).beginRule g rule (c.predictedAt r.lhs)).breach = none) :
    ((Run.on c agendas).beginRule g rule (c.predictedAt r.lhs)).Progress g c first := by
  have hstart : (Run.on c agendas).Under g c first fun id => ∃ s, c.Live id s :=
    ⟨orderly_on hc hsize hidle first, fun hs => .inl ⟨_, hs⟩⟩
  obtain ⟨hunder, hsame, hall⟩ := hstart.beginRule
    (fun k hk => ⟨le_of_mem_predictedAt hlist hk, (mem_predictedAt.mp hk).1⟩) hok
  have hgrows := hunder.orderly.grows
  exact {
    orderly := hunder.orderly
    rulesBegun := fun {k symbol other q} hpredicted hother => by
      have hpredicted' : c.isPredicted k symbol = true := (hsame k symbol).symm.trans hpredicted
      rcases h.begun_with hwithout hr hpredicted' hother with hold | ⟨rfl, rfl⟩
      · exact hold.grows hc hgrows
      · exact (hall k (mem_predictedAt.mpr
          ⟨Chart.lt_columns_of_isPredicted hpredicted', hpredicted'⟩)).hasDerivation
    root := h.root.grows hc hgrows
    served := ⟨fun id => ∃ s, c.Live id s, fun id hid => hid.imp fun s hs => hgrows.live hs, hunder.covered,
      (h.served_with hwithout hrule).grows hc (fun _ hid => hid) hgrows⟩ }

/-- If the left-hand side of a rule is predicted nowhere, then a chart that is closed without the rule is closed with
it. -/
theorem closed_of_predictedAt_nil (hwithout : g.Without rule g') (hr : g.HasRule rule r) (h : c.Closed g')
    (hrule : ∀ {id s}, c.Live id s → s.item.rule ≠ rule) (hnone : c.predictedAt r.lhs = []) : c.Closed g where
  root := h.root
  rulesBegun hpredicted hother := by
    rcases h.begun_with hwithout hr hpredicted hother with hold | ⟨-, rfl⟩
    · exact hold
    · have hmem := mem_predictedAt.mpr ⟨Chart.lt_columns_of_isPredicted hpredicted, hpredicted⟩
      rw [hnone] at hmem
      exact absurd hmem List.not_mem_nil
  served := h.served_with hwithout hrule

/-- Inserting a rule, unless it is given up, leads from a chart that is closed without the rule to one that is closed
with it. -/
theorem insertRule_closed (hwithout : g.Without rule g') (hr : g.HasRule rule r) (hc : c.Filed g)
    (h : c.Closed g') (hrule : ∀ {id s}, c.Live id s → s.item.rule ≠ rule) (budget : Budget)
    (hsize : agendas.size = c.columns.size) (hidle : ∀ agenda ∈ agendas, agenda = .empty)
    (hok : ((Run.on c agendas).insertRule g budget rule r.lhs).1.breach = none)
    (hfault : ((Run.on c agendas).insertRule g budget rule r.lhs).2 = none) :
    ((Run.on c agendas).insertRule g budget rule r.lhs).1.chart.Closed g := by
  have hrun : (Run.on c agendas).chart = c := rfl
  cases hlist : c.predictedAt r.lhs with
  | nil =>
    have hsame : ((Run.on c agendas).insertRule g budget rule r.lhs).1.chart = c := by
      simp only [insertRule, hrun, hlist]
      rfl
    rw [hsame]
    exact closed_of_predictedAt_nil hwithout hr h hrule hlist
  | cons first rest =>
    have heq : (Run.on c agendas).insertRule g budget rule r.lhs =
        ((Run.on c agendas).beginRule g rule (c.predictedAt r.lhs)).onwards g budget first := by
      simp only [insertRule, hrun, hlist]
    rw [heq] at hok hfault ⊢
    have hfirst : first < c.columns.size := (mem_predictedAt.mp (hlist ▸ List.mem_cons_self)).1
    obtain ⟨hfinished, hend⟩ := onwards_spec (worked_progress g c) budget (Nat.le_of_lt hfirst)
      (progress_beginRule hwithout hr hc h hrule hsize hidle hlist (breach_columns hok)) hok
    exact (hend hfault).closed (Nat.le_of_eq hfinished.grows.size_columns)

/-- Inserting a rule, unless it is given up, leads from a chart that holds what the grammar finds without
the rule to one that holds what it finds with it. -/
theorem insertRule_holds (hunasked : g.RootUnasked) (hwithout : g.Without rule g') (hr : g.HasRule rule r)
    (hc : c.Filed g) (h : c.Holds g') (budget : Budget) (hsize : agendas.size = c.columns.size)
    (hidle : ∀ agenda ∈ agendas, agenda = .empty)
    (hok : ((Run.on c agendas).insertRule g budget rule r.lhs).1.breach = none)
    (hfault : ((Run.on c agendas).insertRule g budget rule r.lhs).2 = none) :
    ((Run.on c agendas).insertRule g budget rule r.lhs).1.chart.Holds g := by
  have hg := hwithout.indexed
  have hclosed := insertRule_closed hwithout hr hc (h.closed hc.size_columns) (h.justified.rule_ne hwithout) budget
    hsize hidle hok hfault
  have hjustified := (upheld_justified g).insertRule budget hc (h.justified.of_without hwithout) hsize hidle
    (fun hc h hpredicted => justified_begun hg hc h hr hpredicted) hok
  exact hclosed.holds hg (hunasked.unscanned hg)
    (Run.insertRule_finished budget hc hsize hidle hok).filed hjustified

end Insertion

end Run

end IndexedGrammar
