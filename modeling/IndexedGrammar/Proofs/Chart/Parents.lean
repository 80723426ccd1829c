import IndexedGrammar.Proofs.Chart.Wired
import Mathlib.Algebra.BigOperators.Group.Finset.Sigma
import Mathlib.Data.List.Flatten

/-!
# Links and parents

A state lists its parents, which are meant to be the states that have a derivation through it, once for each
link. Adding a derivation adds as many entries as links, so whatever the two numbers had to do with each other
before, they have to do with each other afterwards. New numbers keep both. A removal keeps the entries of every
state that stays, and takes links away, so the entries can become more than the links but never fewer. What
holds of each pair of states holds of all of them together, if no state was taken out.
-/

namespace IndexedGrammar

/-- The states that the derivations of a state go through, once for each link. -/
def State.links (s : State) : List Nat :=
  s.derivations.flatMap Derivation.links

namespace Chart

/-- How many links there are from one state to another. -/
def linkCount (c : Chart) (parent id : Nat) : Nat :=
  match c.states[parent]? with
  | some s => s.links.count id
  | none => 0

/-- How often a state lists another one as a parent. -/
def parentCount (c : Chart) (id parent : Nat) : Nat :=
  match c.states[id]? with
  | some s => s.parents.count parent
  | none => 0

/-- A state that was not taken out. -/
def IsLive (c : Chart) (id : Nat) : Prop :=
  ∃ s, c.Live id s

variable {g : Grammar} {c later : Chart} {id parent : Nat} {d : Derivation}

/-- Whether a state is live can be looked up. -/
theorem isLive_iff : c.IsLive id ↔ (c.states[id]?.any fun s => !s.removed) = true := by
  rw [Option.any_eq_true]
  constructor
  · rintro ⟨-, s, hs, hremoved, -⟩
    exact ⟨s, hs, by rw [hremoved]; rfl⟩
  · rintro ⟨s, hs, hremoved⟩
    exact ⟨_, s, hs, by simpa using hremoved, rfl⟩

instance : Decidable (c.IsLive id) :=
  decidable_of_iff _ isLive_iff.symm

/-- The links of a state that is there. -/
theorem linkCount_eq {s : State} (hs : c.states[parent]? = some s) :
    c.linkCount parent id = s.links.count id := by
  simp only [linkCount, hs]

/-- The parents of a state that is there. -/
theorem parentCount_eq {s : State} (hs : c.states[id]? = some s) :
    c.parentCount id parent = s.parents.count parent := by
  simp only [parentCount, hs]

/-- What is not there has no parents. -/
theorem parentCount_eq_zero (hid : c.states[id]? = none) : c.parentCount id parent = 0 := by
  simp only [parentCount, hid]

/-- In a filed chart the links of live states lead to live states. -/
theorem Filed.isLive_of_linkCount (hc : c.Filed g) (hparent : c.IsLive parent)
    (hlink : 0 < c.linkCount parent id) : c.IsLive id := by
  obtain ⟨-, s, hs, hremoved, -⟩ := hparent
  rw [linkCount_eq hs] at hlink
  obtain ⟨d, hd, hmem⟩ := List.mem_flatMap.mp (List.count_pos_iff.mp hlink)
  exact hc.linked ⟨s, hs, hremoved, hd⟩ hmem

/-! Adding -/

/-- Packing a derivation that is not there yet adds its links to those of the state. -/
theorem linkCount_pack {s : State} (hs : c.states[id]? = some s) (hd : d ∉ s.derivations) (p x : Nat) :
    (c.pack id d).linkCount p x = c.linkCount p x + if p = id then d.links.count x else 0 := by
  simp only [linkCount, getElem?_pack hs hd]
  by_cases hp : p = id
  · subst hp
    simp [hs, State.links]
  · cases c.states[p]? with
    | none => simp [hp]
    | some t => simp [hp, State.links]

/-- Packing a derivation that is not there yet adds an entry for each link. -/
theorem parentCount_pack {s t : State} (hs : c.states[id]? = some s) (hd : d ∉ s.derivations) {x : Nat}
    (hx : c.states[x]? = some t) (p : Nat) :
    (c.pack id d).parentCount x p = c.parentCount x p + if p = id then d.links.count x else 0 := by
  simp only [parentCount, getElem?_pack hs hd, hx, Option.map_some, List.count_append, List.count_replicate,
    beq_iff_eq, eq_comm (a := p)]

/-- A new state has the links of its derivation. -/
theorem linkCount_grow {item : Item} {stop : Nat} (p x : Nat) : (c.grow g item stop d).linkCount p x =
    if p = c.states.size then d.links.count x else c.linkCount p x := by
  by_cases hp : p = c.states.size
  · simp [linkCount, getElem?_grow, hp, State.links]
  · simp only [linkCount, getElem?_grow, if_neg hp]
    cases c.states[p]? <;> rfl

/-- The states get an entry for each link of a new state, the new state included. -/
theorem parentCount_grow {item : Item} {stop x : Nat} (hx : x ≤ c.states.size) (p : Nat) :
    (c.grow g item stop d).parentCount x p =
      c.parentCount x p + if p = c.states.size then d.links.count x else 0 := by
  by_cases hnew : x = c.states.size
  · have hnone : c.states[x]? = none := Array.getElem?_eq_none (Nat.le_of_eq hnew.symm)
    rw [parentCount_eq_zero hnone, Nat.zero_add]
    simp only [parentCount, getElem?_grow, if_pos hnew, List.count_replicate, beq_iff_eq, eq_comm (a := p)]
  · have hlt : x < c.states.size := Nat.lt_of_le_of_ne hx hnew
    simp only [parentCount, getElem?_grow, if_neg hnew, Array.getElem?_eq_getElem hlt, Option.map_some,
      List.count_append, List.count_replicate, beq_iff_eq, eq_comm (a := p)]

/-- How the links of one state to another compare to its entries there: there are never more links, and as many
if nothing was severed. -/
structure Compares (severed : Prop) (links entries : Nat) : Prop where
  le : links ≤ entries
  eq : ¬severed → links = entries

/-- Equal numbers compare. -/
theorem Compares.refl (severed : Prop) (n : Nat) : Compares severed n n :=
  ⟨Nat.le_refl n, fun _ => rfl⟩

/-- What compares does so when the same is added. -/
theorem Compares.add {severed : Prop} {links entries : Nat} (h : Compares severed links entries) (k : Nat) :
    Compares severed (links + k) (entries + k) :=
  ⟨Nat.add_le_add_right h.le k, fun hnot => congrArg (· + k) (h.eq hnot)⟩

/-- The links between live states compare to the entries, and only states of the chart are listed as parents. -/
structure Booked (severed : Prop) (c : Chart) : Prop where
  compares : ∀ {x p}, c.IsLive x → c.IsLive p → Compares severed (c.linkCount p x) (c.parentCount x p)
  bounded : ∀ {x p}, c.spot? p = none → c.parentCount x p = 0

variable {severed : Prop}

/-- A chart with the states of a booked one is booked. -/
theorem Booked.of_states (h : c.Booked severed) (hstates : later.states = c.states) : later.Booked severed := by
  have hlive {id : Nat} : later.IsLive id ↔ c.IsLive id := by
    simp only [IsLive, Live, hstates]
  have hlinks (p x : Nat) : later.linkCount p x = c.linkCount p x := by
    rw [linkCount, hstates, linkCount]
  have hparents (x p : Nat) : later.parentCount x p = c.parentCount x p := by
    rw [parentCount, hstates, parentCount]
  refine ⟨fun hx hp => ?_, fun hp => ?_⟩
  · rw [hlinks, hparents]
    exact h.compares (hlive.mp hx) (hlive.mp hp)
  · rw [hparents]
    rw [spot?, hstates] at hp
    exact h.bounded hp

/-- The chart in which nothing has been found is booked. -/
theorem booked_new (layout : Layout) (input : Input) : (new layout input).Booked severed := by
  refine ⟨fun hx => ?_, fun _ => rfl⟩
  obtain ⟨-, state, hstate, -⟩ := hx
  simp [new] at hstate

/-- Packing keeps a chart booked. -/
theorem Booked.pack (h : c.Booked severed) (hid : c.IsLive id) (d : Derivation) :
    (c.pack id d).Booked severed := by
  obtain ⟨-, s, hs, -⟩ := hid
  by_cases hd : d ∈ s.derivations
  · rwa [pack_eq_self hs hd]
  · refine ⟨fun {x p} hx hp => ?_, fun {x p} hp => ?_⟩
    · simp only [IsLive, live_pack] at hx hp
      have hcompares := h.compares hx hp
      obtain ⟨-, t, ht, -⟩ := hx
      rw [linkCount_pack hs hd, parentCount_pack hs hd ht]
      exact hcompares.add _
    · rw [spot?_pack] at hp
      have hne : p ≠ id := by
        rintro rfl
        simp [spot?, hs] at hp
      cases hx : c.states[x]? with
      | none => exact parentCount_eq_zero (by rw [getElem?_pack hs hd, hx, Option.map_none])
      | some t => rw [parentCount_pack hs hd hx, if_neg hne, h.bounded hp]

/-- Recording and filing a new state keeps a chart booked. -/
theorem Booked.grow (h : c.Booked severed) (hc : c.Filed g) (item : Item) (stop : Nat) (d : Derivation) :
    (c.grow g item stop d).Booked severed := by
  have hnone : c.states[c.states.size]? = none := Array.getElem?_eq_none (Nat.le_refl _)
  have hlive {x : Nat} : (c.grow g item stop d).IsLive x ↔ c.IsLive x ∨ x = c.states.size := by
    simp only [IsLive, live_grow, exists_or, exists_and_left, exists_eq, and_true]
  refine ⟨fun {x p} hx hp => ?_, fun {x p} hp => ?_⟩
  · have hle : x ≤ c.states.size := by
      rcases hlive.mp hx with ⟨t, ht⟩ | rfl
      · exact Nat.le_of_lt ht.lt_size
      · exact Nat.le_refl _
    rw [linkCount_grow, parentCount_grow hle]
    split
    · next hnew =>
      rw [h.bounded (by rw [hnew, spot?, hnone]; rfl), Nat.zero_add]
      exact .refl severed _
    · next hold =>
      have hp := (hlive.mp hp).resolve_right hold
      rcases hlive.mp hx with hx | rfl
      · exact h.compares hx hp
      · -- nothing that was there before goes through the new state
        have hlinks : c.linkCount p c.states.size = 0 := by
          by_contra hne
          obtain ⟨t, ht⟩ := hc.isLive_of_linkCount hp (Nat.pos_of_ne_zero hne)
          exact Nat.lt_irrefl _ ht.lt_size
        rw [hlinks, parentCount_eq_zero hnone]
        exact .refl severed 0
  · rw [spot?_grow] at hp
    split at hp
    · contradiction
    · next hold =>
      by_cases hle : x ≤ c.states.size
      · rw [parentCount_grow hle, if_neg hold, h.bounded hp]
      · have hbeyond : c.states[x]? = none := Array.getElem?_eq_none (Nat.le_of_not_le hle)
        refine parentCount_eq_zero ?_
        rw [getElem?_grow, if_neg (fun heq => hle (Nat.le_of_eq heq)), hbeyond, Option.map_none]

end Chart

/-- Being booked is carried along. -/
theorem Run.carried_booked (g : Grammar) (parts : Category → Prop) (severed : Prop) :
    Run.Carried g parts fun c => c.Booked severed where
  add {run item stop d} hc h _ hok := by
    obtain ⟨-, -, ⟨id, hfind, hchart, -⟩ | ⟨-, -, hchart, -⟩⟩ := Run.add_spec hok
    · rw [hchart]
      exact h.pack ⟨_, hc.find?_iff.mp hfind⟩ d
    · rw [hchart]
      exact h.grow hc item stop d
  of_states h hstates _ := h.of_states hstates

/-! Taking out -/

namespace Chart

/-- What a removal leaves of a chart: every state is where it was and lists the same parents. It may have been taken
out, and it may have lost derivations. -/
def Sheds (c later : Chart) : Prop :=
  ∀ id : Nat, (later.states[id]? = none ∧ c.states[id]? = none) ∨
    ∃ s s', c.states[id]? = some s ∧ later.states[id]? = some s' ∧ s'.parents = s.parents ∧
      s'.derivations.Sublist s.derivations ∧ (s'.removed = false → s.removed = false)

variable {c middle later : Chart} {severed : Prop}

/-- A chart with the same states lost nothing. -/
theorem sheds_of_states (hstates : later.states = c.states) : c.Sheds later := by
  intro id
  rw [hstates]
  cases c.states[id]? with
  | none => exact .inl ⟨rfl, rfl⟩
  | some s => exact .inr ⟨s, s, rfl, rfl, rfl, .refl _, fun h => h⟩

/-- One loss after another is a loss. -/
theorem Sheds.trans (h : c.Sheds middle) (h' : middle.Sheds later) : c.Sheds later := by
  intro id
  rcases h id with ⟨hmiddle, hc⟩ | ⟨s, t, hs, ht, hparents, hderivations, hremoved⟩
  · rcases h' id with ⟨hlater, -⟩ | ⟨t, -, ht, -⟩
    · exact .inl ⟨hlater, hc⟩
    · rw [hmiddle] at ht
      contradiction
  · rcases h' id with ⟨-, hmiddle⟩ | ⟨t', u, ht', hu, hparents', hderivations', hremoved'⟩
    · rw [hmiddle] at ht
      contradiction
    · obtain rfl := Option.some.inj (ht.symm.trans ht')
      exact .inr ⟨s, u, hs, hu, hparents'.trans hparents, hderivations'.trans hderivations,
        hremoved ∘ hremoved'⟩

/-- What is still live was live. -/
theorem Sheds.isLive (h : c.Sheds later) {id : Nat} (hid : later.IsLive id) : c.IsLive id := by
  obtain ⟨-, s', hs', hlive, -⟩ := hid
  rcases h id with ⟨hnone, -⟩ | ⟨s, s'', hs, hs'', -, -, hremoved⟩
  · rw [hnone] at hs'
    contradiction
  · obtain rfl := Option.some.inj (hs'.symm.trans hs'')
    exact ⟨_, s, hs, hremoved hlive, rfl⟩

/-- Changing a state so that it keeps its parents and gains nothing is a loss. -/
theorem sheds_modify (id : Nat) {f : State → State} (hparents : ∀ s, (f s).parents = s.parents)
    (hderivations : ∀ s, (f s).derivations.Sublist s.derivations)
    (hremoved : ∀ s, (f s).removed = false → s.removed = false) :
    c.Sheds { c with states := c.states.modify id f } := by
  intro j
  show ((c.states.modify id f)[j]? = none ∧ _) ∨ ∃ s s', _ ∧ (c.states.modify id f)[j]? = some s' ∧ _
  rw [Array.getElem?_modify]
  cases c.states[j]? with
  | none => simp
  | some s =>
    right
    split
    · exact ⟨s, f s, rfl, rfl, hparents s, hderivations s, hremoved s⟩
    · exact ⟨s, s, rfl, rfl, rfl, .refl _, fun h => h⟩

end Chart

namespace Removal

variable {g : Grammar}

/-- What every step of a fold keeps of a chart, the fold keeps. -/
theorem sheds_foldl {α : Type} {f : Removal → α → Removal}
    (hstep : ∀ (r : Removal) (a : α), r.chart.Sheds (f r a).chart)
    (r : Removal) (as : List α) : r.chart.Sheds (as.foldl f r).chart := by
  induction as generalizing r with
  | nil => exact Chart.sheds_of_states rfl
  | cons a rest ih => exact (hstep r a).trans (ih (f r a))

/-- Once a state is struck, taking it out keeps all parents. -/
theorem sheds_strike (r : Removal) (id : Nat) (state : State) :
    (r.chart.strike id).Sheds (r.takeOut g id state).1.chart := by
  refine release_induction (motive := fun out => (r.chart.strike id).Sheds out.chart) id state.parents ?_ ?_
  · exact Chart.sheds_of_states (states_unfile _ _ _ _)
  · intro out parent derivations h
    exact h.trans (Chart.sheds_modify parent (fun _ => rfl) (fun _ => List.filter_sublist) fun _ h => h)

/-- Taking a state out keeps all parents. -/
theorem sheds_takeOut (r : Removal) (id : Nat) (state : State) :
    r.chart.Sheds (r.takeOut g id state).1.chart := by
  have hstrike : r.chart.Sheds (r.chart.strike id) :=
    Chart.sheds_modify id (fun _ => rfl) (fun _ => .refl _) fun _ h => by contradiction
  exact hstrike.trans (sheds_strike r id state)

/-- A sweep keeps all parents. -/
theorem sheds_sweep (r : Removal) (pending : List Nat) : r.chart.Sheds (r.sweep g pending).chart :=
  sweep_induction (motive := fun out => r.chart.Sheds out.chart)
    (fun out id state h _ _ => h.trans (sheds_takeOut out id state)) pending (Chart.sheds_of_states rfl)

/-- A review of a column keeps all parents. -/
theorem sheds_reviewColumn (r : Removal) (k : Nat) : r.chart.Sheds (r.reviewColumn g k).chart := by
  have hunpredict (begun : List (Nat × State × Rule)) (r : Removal) (category : Category) :
      r.chart.Sheds (unpredict g k begun r category).chart := by
    rw [unpredict_eq]
    have hforget : r.chart.Sheds (r.forget k category).chart := Chart.sheds_of_states rfl
    exact hforget.trans (sheds_foldl (fun r id => sheds_sweep r [id]) _ _)
  unfold reviewColumn
  refine Chart.Sheds.trans ?_ (sheds_foldl (hunpredict _) _ _)
  rw [chart_ite_fail]
  exact Chart.sheds_of_states rfl

/-- Settling keeps all parents. -/
theorem sheds_settle (r : Removal) : r.chart.Sheds (r.settle g).chart := by
  fun_induction settle g r with
  | case1 => exact Chart.sheds_of_states rfl
  | case2 r k _ ih => exact (sheds_reviewColumn { r with review := r.review.erase k } k).trans ih

/-- Nothing else goes with a rule if no column has to be reviewed. -/
theorem removeRule_of_isEmpty {r : Removal} {rule : Nat}
    (hreview : (r.sweepRule g rule).review.isEmpty = true) : r.removeRule g rule = r.sweepRule g rule := by
  have hmin : (r.sweepRule g rule).review.min? = none :=
    Std.ExtTreeSet.min?_eq_none_iff.mpr (Std.ExtTreeSet.isEmpty_iff.mp hreview)
  exact settle_of_none hmin

/-- Taking a rule out keeps all parents. -/
theorem sheds_removeRule (r : Removal) (rule : Nat) : r.chart.Sheds (r.removeRule g rule).chart := by
  have hswept : r.chart.Sheds (r.sweepRule g rule).chart := sheds_foldl (fun r id => sheds_sweep r [id]) _ _
  exact hswept.trans (sheds_settle _)

/-- A sweep that begins with a state takes it out. -/
theorem not_isLive_sweep (r : Removal) (id : Nat) (pending : List Nat) :
    ¬(r.sweep g (id :: pending)).chart.IsLive id := by
  by_cases hlive : r.chart.IsLive id
  · obtain ⟨-, state, hstate, hremoved, -⟩ := hlive
    rw [sweep_of_live hstate hremoved]
    intro hlater
    have htaken := (sheds_sweep (g := g) _ _).isLive hlater
    obtain ⟨-, struck, hstruck, hleft, -⟩ := (sheds_strike r id state).isLive htaken
    simp only [Chart.strike, Array.getElem?_modify, hstate, if_true, Option.map_some] at hstruck
    obtain rfl := Option.some.inj hstruck
    contradiction
  · exact fun hlater => hlive ((sheds_sweep r _).isLive hlater)

/-- Taking a rule out takes out every state on it. -/
theorem not_isLive_removeRule (r : Removal) {rule id : Nat} (hid : id ∈ r.chart.byRule.ids rule) :
    ¬(r.removeRule g rule).chart.IsLive id := by
  intro hlive
  have hswept := (sheds_settle (g := g) _).isLive hlive
  obtain ⟨before, after, hids⟩ := List.append_of_mem hid
  rw [hids, List.foldl_append, List.foldl_cons] at hswept
  exact not_isLive_sweep _ id [] ((sheds_foldl (fun r id => sheds_sweep r [id]) _ _).isLive hswept)

end Removal

namespace Chart

variable {g : Grammar} {c later : Chart} {severed : Prop}

/-- A state that stays has lost a link to another state that stays. -/
def Severs (c later : Chart) : Prop :=
  ∃ x p, later.IsLive x ∧ later.IsLive p ∧ later.linkCount p x < c.linkCount p x

/-- What was listed as a parent is listed as often. -/
theorem Sheds.parentCount (h : c.Sheds later) (x p : Nat) :
    later.parentCount x p = c.parentCount x p := by
  rcases h x with ⟨hlater, hc⟩ | ⟨s, s', hs, hs', hparents, -⟩
  · rw [parentCount_eq_zero hlater, parentCount_eq_zero hc]
  · rw [parentCount_eq hs, parentCount_eq hs', hparents]

/-- No link is new. -/
theorem Sheds.linkCount_le (h : c.Sheds later) (p x : Nat) : later.linkCount p x ≤ c.linkCount p x := by
  rcases h p with ⟨hlater, -⟩ | ⟨s, s', hs, hs', -, hderivations, -⟩
  · simp [linkCount, hlater]
  · rw [linkCount_eq hs, linkCount_eq hs']
    exact (hderivations.flatMap Derivation.links).count_le x

/-- A chart that has lost links between states that stay is booked as one in which something was severed. -/
theorem Booked.sheds (h : c.Booked severed) (hsheds : c.Sheds later) :
    later.Booked (severed ∨ c.Severs later) := by
  refine ⟨fun {x p} hx hp => ?_, fun {x p} hp => ?_⟩
  · have hcompares := h.compares (hsheds.isLive hx) (hsheds.isLive hp)
    have hle := hsheds.linkCount_le p x
    rw [hsheds.parentCount]
    refine ⟨Nat.le_trans hle hcompares.le, fun hnot => ?_⟩
    rw [not_or] at hnot
    have hkept : ¬later.linkCount p x < c.linkCount p x := fun hlt => hnot.2 ⟨x, p, hx, hp, hlt⟩
    rw [← hcompares.eq hnot.1]
    exact Nat.le_antisymm hle (Nat.le_of_not_lt hkept)
  · rw [hsheds.parentCount]
    refine h.bounded ?_
    rcases hsheds p with ⟨-, hc⟩ | ⟨s, s', -, hs', -⟩
    · rw [spot?, hc, Option.map_none]
    · rw [spot?, hs'] at hp
      contradiction

/-! New numbers -/

/-- What is counted in a list is counted under new numbers. -/
theorem count_filterMap_renumber {p m : Nat} (hp : c.renumber p = some m) (ids : List Nat) :
    (ids.filterMap c.renumber).count m = ids.count p := by
  rw [List.count_filterMap, List.count]
  refine List.countP_congr fun id _ => ?_
  rw [beq_iff_eq, beq_iff_eq]
  exact ⟨fun hid => renumber_injective hid hp, fun hid => hid ▸ hp⟩

/-- The links of a state under new numbers. -/
theorem links_renumberState (s : State) :
    (renumberState c.renumber s).links = s.links.filterMap c.renumber := by
  rw [State.links, derivations_renumberState, List.flatMap_map, State.links, List.filterMap_flatMap]
  simp only [Derivation.links_under]

/-- Links are counted alike under new numbers. -/
theorem linkCount_renumbered {x p n m : Nat} (hx : c.renumber x = some n) (hp : c.renumber p = some m) :
    c.renumbered.linkCount m n = c.linkCount p x := by
  obtain ⟨⟨-, s, hs, hremoved, -⟩, -⟩ := renumber_eq_some_iff.mp hp
  rw [linkCount_eq (getElem?_renumbered.mpr ⟨p, s, hp, hs, hremoved, rfl⟩), linkCount_eq hs,
    links_renumberState, count_filterMap_renumber hx]

/-- Parents are counted alike under new numbers. -/
theorem parentCount_renumbered {x p n m : Nat} (hx : c.renumber x = some n) (hp : c.renumber p = some m) :
    c.renumbered.parentCount n m = c.parentCount x p := by
  obtain ⟨⟨-, s, hs, hremoved, -⟩, -⟩ := renumber_eq_some_iff.mp hx
  rw [parentCount_eq (getElem?_renumbered.mpr ⟨x, s, hx, hs, hremoved, rfl⟩), parentCount_eq hs]
  exact count_filterMap_renumber hp s.parents

/-- New numbers keep a chart booked. -/
theorem Booked.renumbered (h : c.Booked severed) : c.renumbered.Booked severed := by
  refine ⟨fun {n m} hn hm => ?_, fun {n m} hm => ?_⟩
  · obtain ⟨s, hn⟩ := hn
    obtain ⟨t, hm⟩ := hm
    obtain ⟨x, hx, hlive⟩ := live_renumbered.mp hn
    obtain ⟨p, hp, hlive'⟩ := live_renumbered.mp hm
    rw [linkCount_renumbered hx hp, parentCount_renumbered hx hp]
    exact h.compares ⟨_, hlive⟩ ⟨_, hlive'⟩
  · cases hn : c.renumbered.states[n]? with
    | none => exact parentCount_eq_zero hn
    | some s' =>
      obtain ⟨x, s, -, -, -, rfl⟩ := getElem?_renumbered.mp hn
      rw [parentCount_eq hn]
      refine List.count_eq_zero.mpr fun hmem => ?_
      -- a parent with a new number is a state of the chart
      obtain ⟨p, -, hp⟩ := List.mem_filterMap.mp hmem
      obtain ⟨⟨t, ht⟩, -⟩ := renumber_eq_some_iff.mp hp
      rw [spot?_renumbered.mpr (live_renumbered.mpr ⟨p, hp, ht⟩)] at hm
      contradiction

/-! Totals -/

/-- No state was taken out. -/
def Whole (c : Chart) : Prop :=
  ∀ id s, c.spot? id = some s → c.Live id s

/-- How many entries the lists of parents have altogether. -/
def parentTotal (c : Chart) : Nat :=
  total (fun s => s.parents.length) c.states.toList

/-- How many links the derivations have altogether. -/
def linkTotal (c : Chart) : Nat :=
  total (fun s => s.links.length) c.states.toList

/-- A total adds up what stands at each place of a list. -/
theorem total_eq_sum {α : Type} (size : α → Nat) (as : List α) :
    total size as = ∑ i ∈ Finset.range as.length, (as[i]?).elim 0 size := by
  induction as with
  | nil => rfl
  | cons a rest ih =>
    rw [List.length_cons, Finset.sum_range_succ', total, ih, Nat.add_comm]
    rfl

/-- A list of numbers below a bound is as long as the counts of these numbers add up to. -/
theorem length_eq_sum_count {n : Nat} {ids : List Nat} (h : ∀ id, n ≤ id → ids.count id = 0) :
    ids.length = ∑ id ∈ Finset.range n, ids.count id := by
  have hbelow : ∀ id ∈ (ids : Multiset Nat), id ∈ Finset.range n := by
    intro id hid
    by_contra hnot
    have hzero := h id (by simpa using hnot)
    exact List.count_eq_zero.mp hzero hid
  have hcard := Multiset.sum_count_eq_card hbelow
  simp only [Multiset.coe_count, Multiset.coe_card] at hcard
  rw [← hcard]

/-- The entries add up to those for each pair of states. -/
theorem Booked.parentTotal_eq (h : c.Booked severed) : c.parentTotal =
    ∑ x ∈ Finset.range c.states.size, ∑ p ∈ Finset.range c.states.size, c.parentCount x p := by
  rw [parentTotal, total_eq_sum, Array.length_toList]
  refine Finset.sum_congr rfl fun x hx => ?_
  obtain ⟨s, hs⟩ : ∃ s, c.states[x]? = some s := ⟨_, Array.getElem?_eq_getElem (Finset.mem_range.mp hx)⟩
  have hbounded : ∀ p, c.states.size ≤ p → s.parents.count p = 0 := by
    intro p hp
    rw [← parentCount_eq hs]
    exact h.bounded (by rw [spot?, Array.getElem?_eq_none hp, Option.map_none])
  rw [Array.getElem?_toList, hs, Option.elim_some, length_eq_sum_count hbounded]
  exact Finset.sum_congr rfl fun p _ => (parentCount_eq hs).symm

/-- In a chart from which no state was taken out, the links add up to those for each pair of states. -/
theorem Filed.linkTotal_eq (hc : c.Filed g) (hwhole : c.Whole) : c.linkTotal =
    ∑ p ∈ Finset.range c.states.size, ∑ x ∈ Finset.range c.states.size, c.linkCount p x := by
  rw [linkTotal, total_eq_sum, Array.length_toList]
  refine Finset.sum_congr rfl fun p hp => ?_
  obtain ⟨s, hs⟩ : ∃ s, c.states[p]? = some s := ⟨_, Array.getElem?_eq_getElem (Finset.mem_range.mp hp)⟩
  have hlive : c.IsLive p := ⟨_, hwhole p _ (by rw [spot?, hs, Option.map_some])⟩
  have hbounded : ∀ x, c.states.size ≤ x → s.links.count x = 0 := by
    intro x hx
    rw [← linkCount_eq hs]
    by_contra hne
    obtain ⟨t, ht⟩ := hc.isLive_of_linkCount hlive (Nat.pos_of_ne_zero hne)
    exact absurd ht.lt_size (Nat.not_lt.mpr hx)
  rw [Array.getElem?_toList, hs, Option.elim_some, length_eq_sum_count hbounded]
  exact Finset.sum_congr rfl fun x _ => (linkCount_eq hs).symm

/-- If nothing was severed and no state was taken out, there are as many entries as links altogether. -/
theorem Booked.total_eq (h : c.Booked severed) (hnot : ¬severed) (hc : c.Filed g) (hwhole : c.Whole) :
    c.parentTotal = c.linkTotal := by
  have hlive {id : Nat} (hid : id ∈ Finset.range c.states.size) : c.IsLive id :=
    ⟨_, hwhole id _ (by rw [spot?, Array.getElem?_eq_getElem (Finset.mem_range.mp hid), Option.map_some])⟩
  rw [h.parentTotal_eq, hc.linkTotal_eq hwhole, Finset.sum_comm]
  exact Finset.sum_congr rfl fun p hp => Finset.sum_congr rfl fun x hx =>
    ((h.compares (hlive hx) (hlive hp)).eq hnot).symm

end Chart

end IndexedGrammar
