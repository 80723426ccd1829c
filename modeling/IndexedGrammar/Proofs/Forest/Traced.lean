import IndexedGrammar.Forest.Site
import IndexedGrammar.Proofs.Chart.Wired
import IndexedGrammar.Proofs.Parse.Found

/-!
# Tracing derivations

Reading the derivations of a state backwards gives rows of sites that dots were moved over, and reading the
completed states of a site gives rules for its category with such rows, each once. This needs no more than that
derivations go through live states, so it holds of every chart, also of one that was given up.
-/

namespace IndexedGrammar.Chart

/-! Adding what is new -/

section AddNew

variable {α β : Type} [DecidableEq α]

/-- After adding what is new, what was known or new is there. -/
theorem mem_addNew {known new : List α} {a : α} : a ∈ addNew known new ↔ a ∈ known ∨ a ∈ new := by
  unfold addNew
  induction new generalizing known with
  | nil => simp
  | cons first rest ih =>
    rw [List.foldl_cons, ih]
    split
    · next hmem =>
      constructor
      · exact Or.imp_right (List.mem_cons_of_mem _)
      · intro h
        rcases h with h | h
        · exact .inl h
        · rcases List.mem_cons.mp h with heq | h
          · exact .inl (heq ▸ hmem)
          · exact .inr h
    · simp [or_assoc]

/-- Adding what is new adds nothing twice. -/
theorem nodup_addNew {known : List α} (new : List α) (h : known.Nodup) : (addNew known new).Nodup := by
  unfold addNew
  induction new generalizing known with
  | nil => exact h
  | cons first rest ih =>
    refine ih ?_
    dsimp only
    split
    · exact h
    · next hmem => exact nodup_concat h hmem

/-- What is there after adding several lists. -/
theorem mem_foldl_addNew (f : β → List α) {bs : List β} {known : List α} {a : α} :
    a ∈ bs.foldl (fun known b => addNew known (f b)) known ↔ a ∈ known ∨ ∃ b ∈ bs, a ∈ f b := by
  induction bs generalizing known with
  | nil => simp
  | cons b bs ih => rw [List.foldl_cons, ih, mem_addNew, or_assoc, List.exists_mem_cons_iff]

/-- Adding several lists adds nothing twice. -/
theorem nodup_foldl_addNew (f : β → List α) (bs : List β) {known : List α} (h : known.Nodup) :
    (bs.foldl (fun known b => addNew known (f b)) known).Nodup := by
  induction bs generalizing known with
  | nil => exact h
  | cons b bs ih => exact ih (nodup_addNew _ h)

end AddNew

/-- A chart with its states where they should be: those at the beginning of a rule end where they begin, and each
derivation of another moves the dot of a live state. -/
structure Traced (g : Grammar) (c : Chart) : Prop where
  filed : c.Filed g
  begun : ∀ {id s}, c.Live id s → s.item.dot = 0 → s.stop = s.item.origin
  steps : ∀ {id s d}, c.Live id s → c.Derives id d →
    c.Steps g (fun symbol => g.isPartOfSpeech symbol = true) s d

/-- A chart in which the derivations of each live state lead back to where its rule was begun. -/
structure Grounded (g : Grammar) (c : Chart) : Prop extends Traced g c where
  derived : ∀ {id s}, c.Live id s → ∃ d, c.Derives id d

/-- What a dot is moved over: nothing, a word, or what a live state has completed. -/
inductive Crosses (g : Grammar) (c : Chart) : Site → Prop
  | nothing {symbol : Category} (k : Nat) : symbol.isEpsilon = true → Crosses g c ⟨symbol, k, k⟩
  | word {symbol : Category} (k : Nat) :
      symbol.isEpsilon = false → g.isPartOfSpeech symbol = true → Crosses g c ⟨symbol, k, k + 1⟩
  | completed {id : Nat} {s : Spot} {symbol : Category} :
      c.Live id s → g.Completes s.item symbol → symbol.isEpsilon = false →
      Crosses g c ⟨symbol, s.item.origin, s.stop⟩

variable {g : Grammar} {c : Chart}

/-- A filed chart that is wired is grounded. -/
theorem Filed.grounded (hc : c.Filed g)
    (h : c.Wired g (fun symbol => g.isPartOfSpeech symbol = true) fun _ => False) : c.Grounded g where
  filed := hc
  begun hs hdot := by
    obtain ⟨d, hd⟩ := (h.based hs).resolve_right not_false
    cases h.steps hs hd with
    | begun => rfl
    | skip => exact absurd hdot (Nat.succ_ne_zero _)
    | scan => exact absurd hdot (Nat.succ_ne_zero _)
    | complete => exact absurd hdot (Nat.succ_ne_zero _)
  steps := h.steps
  derived hs := (h.based hs).resolve_right not_false

/-- The dot of a live state stands within its rule. -/
theorem Grounded.dot_le (h : c.Grounded g) {id : Nat} {s : Spot} (hs : c.Live id s) {r : Rule}
    (hr : g.rule? s.item.rule = some r) : s.item.dot ≤ r.rhs.length := by
  obtain ⟨d, hd⟩ := h.derived hs
  exact (h.steps hs hd).dot_le hr

/-- The dot before a step stands one symbol earlier. -/
theorem dot_of_step {state : State} {p : Spot} {dot : Nat} (hstep : state.spot = p.step state.stop)
    (hdot : state.spot.item.dot = dot + 1) : p.item.dot = dot := by
  have hadvance : state.spot.item.dot = p.item.dot + 1 := congrArg (fun s : Spot => s.item.dot) hstep
  omega

/-! Reading derivations -/

/-- The sequences read off one derivation. -/
def sequencesVia (c : Chart) (g : Grammar) (state : State) (dot : Nat) (d : Derivation) :
    List (List Site) :=
  match c.crossed? g state dot d, d.predecessor with
  | some site, some i => (c.sequences g dot i).map (· ++ [site])
  | _, _ => []

/-- The sequences read off a state come from its derivations, one after the other. -/
theorem sequences_succ {dot id : Nat} {state : State} (hstate : c.states[id]? = some state) :
    c.sequences g (dot + 1) id =
      state.derivations.foldl (fun known d => addNew known (c.sequencesVia g state dot d)) [] := by
  rw [sequences, hstate]
  dsimp only
  congr 1
  funext known d
  unfold sequencesVia
  cases c.crossed? g state dot d <;> cases d.predecessor <;> rfl

/-- A sequence read off a derivation: one read off the predecessor, and what the dot was moved over. -/
theorem mem_sequences_succ {dot id : Nat} {parts : List Site} :
    parts ∈ c.sequences g (dot + 1) id ↔ ∃ state d site i, c.states[id]? = some state ∧
      d ∈ state.derivations ∧ c.crossed? g state dot d = some site ∧ d.predecessor = some i ∧
      ∃ rest ∈ c.sequences g dot i, rest ++ [site] = parts := by
  cases hstate : c.states[id]? with
  | none => simp [sequences, hstate]
  | some state =>
    rw [sequences_succ hstate, mem_foldl_addNew]
    constructor
    · intro h
      obtain ⟨d, hd, hparts⟩ := h.resolve_left List.not_mem_nil
      unfold sequencesVia at hparts
      split at hparts
      · next site i hsite hi =>
        obtain ⟨rest, hrest, heq⟩ := List.mem_map.mp hparts
        exact ⟨state, d, site, i, rfl, hd, hsite, hi, rest, hrest, heq⟩
      · exact absurd hparts List.not_mem_nil
    · intro hgiven
      obtain ⟨state', d, site, i, hstate', hd, hsite, hi, rest, hrest, heq⟩ := hgiven
      obtain rfl := Option.some.inj hstate'
      refine .inr ⟨d, hd, ?_⟩
      rw [sequencesVia, hsite, hi]
      exact List.mem_map.mpr ⟨rest, hrest, heq⟩

/-- A derivation of a live state was a prediction, or moved the dot of a live state over a site. -/
theorem Traced.derives_cases (h : c.Traced g) {id : Nat} {state : State} {d : Derivation}
    (hstate : c.states[id]? = some state) (hremoved : state.removed = false)
    (hd : d ∈ state.derivations) :
    state.item.dot = 0 ∨ ∃ i p symbol, d.predecessor = some i ∧ c.Live i p ∧
      g.Expects p.item symbol ∧ state.spot = p.step state.stop ∧
      c.Crosses g ⟨symbol, p.stop, state.stop⟩ ∧
      c.crossed? g state p.item.dot d = some ⟨symbol, p.stop, state.stop⟩ := by
  have hsteps := h.steps ⟨state, hstate, hremoved, rfl⟩ ⟨state, hstate, hremoved, hd⟩
  -- the symbol is read off the rule, which the dot stays on
  have hread {i : Nat} {p : Spot} {symbol : Category} (hp : c.Live i p) (hexpects : g.Expects p.item symbol)
      (hitem : state.item = p.item.advance) : ∃ before r, c.states[i]? = some before ∧ before.stop = p.stop ∧
        g.rule? state.item.rule = some r ∧ r.rhs[p.item.dot]? = some symbol := by
    obtain ⟨before, hbefore, -, hspot⟩ := hp
    obtain ⟨r, hr, hsymbol⟩ := Grammar.expects_iff.mp hexpects
    exact ⟨before, r, hbefore, congrArg Spot.stop hspot, hitem ▸ hr, hsymbol⟩
  generalize hspot : state.spot = s at hsteps
  cases hsteps with
  | @begun item hdot =>
    have hitem : state.item = item := congrArg Spot.item hspot
    exact .inl (hitem ▸ hdot)
  | @skip i p symbol hp hexpects hempty =>
    have hstop : state.stop = p.stop := congrArg Spot.stop hspot
    obtain ⟨before, r, hbefore, hends, hr, hsymbol⟩ := hread hp hexpects (congrArg Spot.item hspot)
    refine .inr ⟨i, p, symbol, rfl, hp, hexpects, by rw [hstop], hstop ▸ .nothing _ hempty, ?_⟩
    simp [crossed?, hr, hsymbol, hbefore, hends]
  | @scan i p symbol hp hexpects hempty hpos hallows =>
    have hstop : state.stop = p.stop + 1 := congrArg Spot.stop hspot
    obtain ⟨before, r, hbefore, hends, hr, hsymbol⟩ := hread hp hexpects (congrArg Spot.item hspot)
    refine .inr ⟨i, p, symbol, rfl, hp, hexpects, by rw [hstop], hstop ▸ .word _ hempty hpos, ?_⟩
    simp [crossed?, hr, hsymbol, hbefore, hends]
  | @complete i j p t symbol hp ht hexpects hempty hcompletes horigin =>
    have hstop : state.stop = t.stop := congrArg Spot.stop hspot
    obtain ⟨before, r, hbefore, -, hr, hsymbol⟩ := hread hp hexpects (congrArg Spot.item hspot)
    refine .inr ⟨i, p, symbol, rfl, hp, hexpects, by rw [hstop], ?_, ?_⟩
    · rw [hstop, ← horigin]
      exact .completed ht hcompletes hempty
    · obtain ⟨after, hafter, -, rfl⟩ := ht
      have horigin : after.item.origin = p.stop := horigin
      have hstop : after.stop = state.stop := hstop.symm
      simp [crossed?, hr, hsymbol, hbefore, hafter, horigin, hstop]

/-- What is read off a derivation of a live state whose dot was moved is the site that it was moved over, from the state
before. -/
theorem Traced.crossed_spec (h : c.Traced g) {id dot i : Nat} {s : Spot} {state : State} {d : Derivation}
    {site : Site} (hs : c.Live id s) (hdot : s.item.dot = dot + 1) (hstate : c.states[id]? = some state)
    (hd : d ∈ state.derivations) (hsite : c.crossed? g state dot d = some site) (hi : d.predecessor = some i) :
    ∃ p symbol, c.Live i p ∧ p.item.dot = dot ∧ g.Expects p.item symbol ∧ s = p.step s.stop ∧
      site = ⟨symbol, p.stop, s.stop⟩ ∧ c.Crosses g site := by
  obtain ⟨hremoved, rfl⟩ := hs.state hstate
  rcases h.derives_cases hstate hremoved hd with hzero |
    ⟨i', p, symbol, hi', hp, hexpects, hstep, hcrosses, hcrossed⟩
  · exact absurd (hzero.symm.trans hdot) (Nat.succ_ne_zero dot).symm
  · obtain rfl := Option.some.inj (hi.symm.trans hi')
    have hpdot := dot_of_step hstep hdot
    rw [hpdot, hsite] at hcrossed
    obtain rfl := Option.some.inj hcrossed
    exact ⟨p, symbol, hp, hpdot, hexpects, hstep, rfl, hcrosses⟩

/-- The sequences read off a live state are rows of sites that dots were moved over, one for each symbol before its
dot. -/
theorem Traced.row_of_mem_sequences (h : c.Traced g) {id : Nat} {s : Spot} {r : Rule} {parts : List Site}
    (hs : c.Live id s) (hr : g.rule? s.item.rule = some r) (hparts : parts ∈ c.sequences g s.item.dot id) :
    Row (c.Crosses g) s.item.origin (r.rhs.take s.item.dot) s.stop parts := by
  generalize hdot : s.item.dot = dot at hparts
  induction dot generalizing id s parts with
  | zero =>
    rw [sequences, List.mem_singleton] at hparts
    exact row_nil.mpr ⟨hparts, (h.begun hs hdot).symm⟩
  | succ dot ih =>
    obtain ⟨state, d, site, i, hstate, hd, hsite, hi, rest, hrest, rfl⟩ := mem_sequences_succ.mp hparts
    obtain ⟨p, symbol, hp, hpdot, hexpects, hstep, rfl, hcrosses⟩ := h.crossed_spec hs hdot hstate hd hsite hi
    obtain ⟨hrule, horigin⟩ := Spot.of_step hstep
    have hr' : g.rule? p.item.rule = some r := hrule ▸ hr
    obtain ⟨q, hq, hsymbol⟩ := Grammar.expects_iff.mp hexpects
    obtain rfl := Option.some.inj (hr'.symm.trans hq)
    rw [hpdot] at hsymbol
    rw [take_succ_of_getElem? hsymbol]
    exact row_concat.mpr ⟨rest, p.stop, horigin ▸ ih hp hr' hpdot hrest, hcrosses, rfl⟩

/-! Reading completed states -/

/-- The completed states of a category between two columns are those that are live. -/
theorem Filed.mem_completed (hc : c.Filed g) {lhs : Category} {start stop id : Nat} :
    id ∈ c.completed lhs start stop ↔
      ∃ s, c.Live id s ∧ s.item.origin = start ∧ s.stop = stop ∧ g.Completes s.item lhs := by
  unfold completed
  rw [List.mem_filter, hc.mem_reductors]
  constructor
  · intro hgiven
    obtain ⟨⟨s, hs, horigin, hcompletes⟩, hstop⟩ := hgiven
    obtain ⟨state, hstate, hremoved, hspot⟩ := hs
    subst hspot
    rw [hstate] at hstop
    exact ⟨_, ⟨state, hstate, hremoved, rfl⟩, horigin, of_decide_eq_true hstop, hcompletes⟩
  · intro hgiven
    obtain ⟨s, hs, horigin, hstop, hcompletes⟩ := hgiven
    refine ⟨⟨s, hs, horigin, hcompletes⟩, ?_⟩
    obtain ⟨state, hstate, -, hspot⟩ := hs
    subst hspot
    rw [hstate]
    exact decide_eq_true hstop

/-- The ways of making up a site that are read off one completed state. -/
def waysVia (c : Chart) (g : Grammar) (id : Nat) : List (Nat × Option Nat × List Site) :=
  match c.states[id]? with
  | none => []
  | some state =>
    match g.rule? state.item.rule with
    | none => []
    | some rule => (c.sequences g state.item.dot id).map fun parts =>
        (state.item.rule, rule.origin, parts)

/-- The ways of making up a nonterminal come from its completed states, one after the other. -/
theorem waysOf_eq {site : Site} (hsymbol : g.isNonterminal site.category = true) :
    c.waysOf g site = (c.completed site.category site.start site.stop).foldl
      (fun known id => addNew known (c.waysVia g id)) [] := by
  unfold waysOf isComposite
  rw [if_pos hsymbol]
  congr 1
  funext known id
  unfold waysVia
  cases c.states[id]? with
  | none => rfl
  | some state => cases hrule : g.rule? state.item.rule <;> simp [hrule, addNew]

/-- A way of making up a site is read off a completed state. -/
theorem mem_waysOf {site : Site} {rule : Nat} {origin : Option Nat} {parts : List Site} :
    (rule, origin, parts) ∈ c.waysOf g site ↔ g.isNonterminal site.category = true ∧
      ∃ id ∈ c.completed site.category site.start site.stop, ∃ state r, c.states[id]? = some state ∧
        g.rule? state.item.rule = some r ∧ state.item.rule = rule ∧ r.origin = origin ∧
        parts ∈ c.sequences g state.item.dot id := by
  cases hsymbol : g.isNonterminal site.category with
  | false => simp [waysOf, isComposite, hsymbol]
  | true =>
    rw [waysOf_eq hsymbol, mem_foldl_addNew, and_iff_right rfl]
    constructor
    · intro h
      obtain ⟨id, hid, hread⟩ := h.resolve_left List.not_mem_nil
      unfold waysVia at hread
      split at hread
      · exact absurd hread List.not_mem_nil
      · next state hstate =>
        split at hread
        · exact absurd hread List.not_mem_nil
        · next r hr =>
          obtain ⟨parts', hparts, heq⟩ := List.mem_map.mp hread
          simp only [Prod.mk.injEq] at heq
          obtain ⟨hrule, horigin, rfl⟩ := heq
          exact ⟨id, hid, state, r, hstate, hr, hrule, horigin, hparts⟩
    · intro hgiven
      obtain ⟨id, hid, state, r, hstate, hr, hrule, horigin, hparts⟩ := hgiven
      refine .inr ⟨id, hid, ?_⟩
      rw [waysVia, hstate]
      simp only [hr, ← hrule, ← horigin]
      exact List.mem_map.mpr ⟨parts, hparts, rfl⟩

/-- No way of making up a site is read twice. -/
theorem nodup_waysOf (c : Chart) (g : Grammar) (site : Site) : (c.waysOf g site).Nodup := by
  cases hsymbol : g.isNonterminal site.category with
  | false =>
    unfold waysOf isComposite
    rw [if_neg (by simp [hsymbol])]
    exact List.nodup_nil
  | true =>
    rw [waysOf_eq hsymbol]
    exact nodup_foldl_addNew _ _ List.nodup_nil

/-- The ways of making up a site are rules for its category, with rows of sites that dots were moved over. -/
theorem Traced.row_of_mem_waysOf (h : c.Traced g) {site : Site} {rule : Nat} {origin : Option Nat}
    {parts : List Site} (hway : (rule, origin, parts) ∈ c.waysOf g site) :
    ∃ r, (∃ id s, c.Live id s ∧ s.item.rule = rule) ∧ g.rule? rule = some r ∧ r.lhs = site.category ∧
      r.origin = origin ∧ Row (c.Crosses g) site.start r.rhs site.stop parts := by
  obtain ⟨-, id, hid, state, r, hstate, hr, rfl, horigin, hparts⟩ := Chart.mem_waysOf.mp hway
  obtain ⟨s, hs, hstart, hstop, hcompletes⟩ := h.filed.mem_completed.mp hid
  obtain ⟨-, rfl⟩ := hs.state hstate
  obtain ⟨r', hr', hlength, hlhs⟩ := Grammar.completes_iff.mp hcompletes
  obtain rfl := Option.some.inj (hr.symm.trans hr')
  have hrow := h.row_of_mem_sequences hs hr hparts
  rw [List.take_of_length_le hlength, hstart, hstop] at hrow
  exact ⟨r, ⟨id, state.spot, hs, rfl⟩, hr, hlhs, horigin, hrow⟩

end IndexedGrammar.Chart
