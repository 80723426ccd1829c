import IndexedGrammar.Proofs.Chart.Arising

/-!
# How many states a chart can have

A live state is a rule with a dot somewhere in it, begun at a column and found up to the same column or a later
one. No two live states agree in all of these, so there are no more of them than there are such places. The rules
are those that the grammar has in use, and those of which states are left in the chart.
-/

namespace IndexedGrammar

namespace Grammar

variable {g : Grammar} {rules : List Nat} {last : Nat}

/-- The places of the dot of a rule between two of the columns `0, …, last`. -/
def spotsOf (g : Grammar) (last rule : Nat) : List Spot :=
  match g.rule? rule with
  | none => []
  | some r =>
    (List.range (r.rhs.length + 1)).flatMap fun dot =>
      (List.range (last + 1)).flatMap fun stop =>
        (List.range (stop + 1)).map fun origin => ⟨⟨rule, dot, origin⟩, stop⟩

/-- The places of the dots of some rules between two of the columns `0, …, last`. -/
def spots (g : Grammar) (rules : List Nat) (last : Nat) : List Spot :=
  rules.flatMap (g.spotsOf last)

/-- The dot of a rule stands within its right-hand side, and the rule is found from a column to the same one or a
later one. -/
theorem mem_spotsOf {rule : Nat} {s : Spot} : s ∈ g.spotsOf last rule ↔
    s.item.rule = rule ∧ (∃ r, g.rule? rule = some r ∧ s.item.dot ≤ r.rhs.length) ∧
      s.item.origin ≤ s.stop ∧ s.stop ≤ last := by
  unfold spotsOf
  cases g.rule? rule with
  | none => simp
  | some r =>
    simp only [List.mem_flatMap, List.mem_map, List.mem_range, Nat.lt_succ_iff, Option.some.injEq, exists_eq_left']
    constructor
    · rintro ⟨dot, hdot, stop, hstop, origin, horigin, rfl⟩
      exact ⟨rfl, hdot, horigin, hstop⟩
    · rintro ⟨rfl, hdot, horigin, hstop⟩
      exact ⟨s.item.dot, hdot, s.stop, hstop, s.item.origin, horigin, rfl⟩

/-- The places of the dots of some rules are those of each of them. -/
theorem mem_spots {s : Spot} : s ∈ g.spots rules last ↔
    s.item.rule ∈ rules ∧ (∃ r, g.rule? s.item.rule = some r ∧ s.item.dot ≤ r.rhs.length) ∧
      s.item.origin ≤ s.stop ∧ s.stop ≤ last := by
  simp only [spots, List.mem_flatMap, mem_spotsOf]
  constructor
  · rintro ⟨rule, hrule, rfl, hwithin⟩
    exact ⟨hrule, hwithin⟩
  · rintro ⟨hrule, hwithin⟩
    exact ⟨s.item.rule, hrule, rfl, hwithin⟩

/-- Each place of the dot of a rule is listed once. -/
theorem nodup_spotsOf (g : Grammar) (last rule : Nat) : (g.spotsOf last rule).Nodup := by
  unfold spotsOf
  split
  · exact List.nodup_nil
  · refine List.nodup_flatMap.mpr ⟨fun dot _ => List.nodup_flatMap.mpr ⟨fun stop _ => ?_, ?_⟩, ?_⟩
    · exact List.nodup_range.map fun a b heq => congrArg (fun s : Spot => s.item.origin) heq
    · refine List.nodup_range.imp fun {a b} hne s ha hb => ?_
      obtain ⟨i, -, rfl⟩ := List.mem_map.mp ha
      obtain ⟨j, -, heq⟩ := List.mem_map.mp hb
      exact hne (congrArg Spot.stop heq).symm
    · refine List.nodup_range.imp fun {a b} hne s ha hb => ?_
      simp only [List.mem_flatMap, List.mem_map] at ha hb
      obtain ⟨stop, -, origin, -, rfl⟩ := ha
      obtain ⟨stop', -, origin', -, heq⟩ := hb
      exact hne (congrArg (fun s : Spot => s.item.dot) heq).symm

/-- Each place of a dot is listed once, if each rule is. -/
theorem nodup_spots (hrules : rules.Nodup) : (g.spots rules last).Nodup := by
  refine List.nodup_flatMap.mpr ⟨fun rule _ => g.nodup_spotsOf last rule, hrules.imp fun hne s ha hb => ?_⟩
  exact hne ((mem_spotsOf.mp ha).1.symm.trans (mem_spotsOf.mp hb).1)

/-- A rule of the grammar has a number. -/
theorem lt_size_of_rule? {rule : Nat} {r : Rule} (h : g.rule? rule = some r) : rule < g.slots.size := by
  obtain ⟨slot, hslot, -⟩ := Option.map_eq_some_iff.mp h
  exact (Array.getElem?_eq_some_iff.mp hslot).1

end Grammar

namespace Chart

variable {g : Grammar} {c : Chart} {rules : List Nat}

/-- The spots of the live states, oldest first. -/
def liveSpots (c : Chart) : List Spot :=
  (c.states.toList.filter fun state => !state.removed).map State.spot

/-- There are as many live spots as live states. -/
theorem length_liveSpots (c : Chart) : c.liveSpots.length = c.liveCount := by
  rw [liveSpots, List.length_map, liveCount, List.countP_eq_length_filter]

/-- The spots of the live states are those at which some state is live. -/
theorem mem_liveSpots {s : Spot} : s ∈ c.liveSpots ↔ ∃ id, c.Live id s := by
  simp only [liveSpots, List.mem_map, List.mem_filter, Bool.not_eq_true']
  constructor
  · rintro ⟨state, ⟨hmem, hremoved⟩, rfl⟩
    obtain ⟨id, hid⟩ := List.getElem?_of_mem hmem
    exact ⟨id, state, Array.getElem?_toList ▸ hid, hremoved, rfl⟩
  · rintro ⟨id, state, hstate, hremoved, rfl⟩
    exact ⟨state, ⟨Array.mem_toList_iff.mpr (Array.mem_of_getElem? hstate), hremoved⟩, rfl⟩

/-- No two live states of a filed chart have the same spot. -/
theorem Filed.nodup_liveSpots (hc : c.Filed g) : c.liveSpots.Nodup := by
  refine List.pairwise_map.mpr (List.pairwise_filter.mpr (List.pairwise_iff_getElem.mpr ?_))
  intro i j hi hj hlt hfirst hsecond heq
  rw [Bool.not_eq_true'] at hfirst hsecond
  have hlive {k : Nat} (hk : k < c.states.toList.length) (hremoved : c.states.toList[k].removed = false) :
      c.Live k c.states.toList[k].spot :=
    ⟨_, by rw [← Array.getElem?_toList, List.getElem?_eq_getElem hk], hremoved, rfl⟩
  exact Nat.ne_of_lt hlt (hc.unique (hlive hi hfirst) (heq ▸ hlive hj hsecond))

/-- Every live state is on one of some rules, with its dot within it. -/
def Placed (g : Grammar) (rules : List Nat) (c : Chart) : Prop :=
  ∀ id s, c.Live id s → s.item.rule ∈ rules ∧ ∃ r, g.rule? s.item.rule = some r ∧ s.item.dot ≤ r.rhs.length

/-- A live state on one of some rules stands at a place of its dot. -/
theorem Placed.mem_spots (h : c.Placed g rules) (hc : c.Filed g) {id : Nat} {s : Spot} (hs : c.Live id s) :
    s ∈ g.spots rules c.layout.last := by
  obtain ⟨hrule, hdot⟩ := h id s hs
  obtain ⟨horigin, hstop⟩ := hc.bounds hs.spot?
  rw [hc.size_columns] at hstop
  exact Grammar.mem_spots.mpr ⟨hrule, hdot, horigin, Nat.lt_succ_iff.mp hstop⟩

/-- The live states on some rules are no more than the places of their dots. -/
theorem Placed.liveCount_le (h : c.Placed g rules) (hc : c.Filed g) :
    c.liveCount ≤ (g.spots rules c.layout.last).length := by
  rw [← length_liveSpots]
  refine (List.subperm_of_subset hc.nodup_liveSpots fun s hs => ?_).length_le
  obtain ⟨id, hid⟩ := mem_liveSpots.mp hs
  exact h.mem_spots hc hid

/-- The numbers of the rules that the grammar has in use, and of those that live states are on. -/
def rulesInUse (g : Grammar) (c : Chart) : List Nat :=
  (List.range g.slots.size).filter fun rule =>
    g.isLive rule || c.liveSpots.any fun s => s.item.rule = rule

/-- Each rule in use is listed once. -/
theorem nodup_rulesInUse (g : Grammar) (c : Chart) : (c.rulesInUse g).Nodup :=
  List.nodup_range.filter _

/-- A rule is in use if the grammar has it in use, or if some live state is on it. -/
theorem Filed.mem_rulesInUse (hc : c.Filed g) {rule : Nat} :
    rule ∈ c.rulesInUse g ↔ g.isLive rule = true ∨ ∃ id s, c.Live id s ∧ s.item.rule = rule := by
  simp only [rulesInUse, List.mem_filter, List.mem_range, Bool.or_eq_true, List.any_eq_true, decide_eq_true_eq,
    mem_liveSpots]
  constructor
  · rintro ⟨-, hlive | ⟨s, ⟨id, hs⟩, hrule⟩⟩
    · exact .inl hlive
    · exact .inr ⟨id, s, hs, hrule⟩
  · rintro (hlive | ⟨id, s, hs, rfl⟩)
    · obtain ⟨r, hr⟩ := Grammar.exists_hasRule hlive
      exact ⟨Grammar.lt_size_of_rule? hr.rule?, .inl hlive⟩
    · obtain ⟨r, hr⟩ := Option.isSome_iff_exists.mp (hc.known hs.spot?)
      exact ⟨Grammar.lt_size_of_rule? hr, .inr ⟨s, ⟨id, hs⟩, rfl⟩⟩

/-- The live states of a wired chart are on the rules in use. -/
theorem Wired.placed {parts : Category → Prop} (h : c.Wired g parts fun _ => False) (hc : c.Filed g) :
    c.Placed g (c.rulesInUse g) := by
  intro id s hs
  obtain ⟨r, hr⟩ := Option.isSome_iff_exists.mp (hc.known hs.spot?)
  obtain ⟨d, hd⟩ := (h.based hs).resolve_right not_false
  exact ⟨hc.mem_rulesInUse.mpr (.inr ⟨id, s, hs, rfl⟩), r, hr, (h.steps hs hd).dot_le hr⟩

end Chart

namespace Run

variable {g : Grammar} {rules : List Nat} {run : Run}

/-- An addition with its dot within one of the rules keeps the live states on them. -/
theorem placed_add (hc : run.chart.Filed g) (h : run.chart.Placed g rules) {item : Item} {stop : Nat}
    {d : Derivation} (hitem : item.rule ∈ rules ∧ ∃ r, g.rule? item.rule = some r ∧ item.dot ≤ r.rhs.length)
    (hok : (add g run item stop d).breach = none) : (add g run item stop d).chart.Placed g rules := by
  intro id s hs
  rcases (only_add hc hok).1 hs with hold | ⟨-, rfl⟩
  · exact h id s hold
  · exact hitem

/-- Beginning a rule that the grammar has in use keeps the live states on the rules. -/
theorem placed_begin (hrules : ∀ rule, g.isLive rule = true → rule ∈ rules) (hc : run.chart.Filed g)
    (h : run.chart.Placed g rules) {rule : Nat} {r : Rule} (hr : g.HasRule rule r) {k stop : Nat}
    {d : Derivation} (hok : (add g run ⟨rule, 0, k⟩ stop d).breach = none) :
    (add g run ⟨rule, 0, k⟩ stop d).chart.Placed g rules :=
  placed_add hc h ⟨hrules rule hr.isLive, r, hr.rule?, Nat.zero_le _⟩ hok

/-- Runs keep the live states on some rules, if these are all that the grammar has in use. -/
theorem upheld_placed (hg : g.Indexed) (hrules : ∀ rule, g.isLive rule = true → rule ∈ rules) :
    Upheld g (Chart.Placed g rules) where
  root hc h hok := by
    obtain ⟨name, hroot, -⟩ := hg.rootRule?
    exact placed_begin hrules hc h hroot hok
  add {run k item stop d} hc h hwarrants hok := by
    -- a dot is only moved in front of the end of its rule
    have hmoved {i : Nat} {s : Spot} {symbol : Category} (hs : run.chart.Live i s)
        (hexpects : g.Expects s.item symbol) :
        s.item.advance.rule ∈ rules ∧
          ∃ r, g.rule? s.item.advance.rule = some r ∧ s.item.advance.dot ≤ r.rhs.length := by
      obtain ⟨hrule, r, hr, -⟩ := h _ _ hs
      exact ⟨hrule, r, hr, hexpects.dot_lt hr⟩
    cases hwarrants with
    | begun _ hrule => exact placed_begin hrules hc h (hg.mem_rulesFor.mp hrule).1 hok
    | skip hs _ hexpects => exact placed_add hc h (hmoved hs hexpects) hok
    | scan hs _ hexpects => exact placed_add hc h (hmoved hs hexpects) hok
    | complete hs _ hexpects => exact placed_add hc h (hmoved hs hexpects) hok
  predict _ h _ _ _ _ := h

end Run

/-- The live states of a reachable editor are on the rules in use. -/
theorem Editor.Reachable.placed {g : Grammar} {e : Editor} (h : Reachable e g) :
    e.chart.Placed g (e.chart.rulesInUse g) :=
  (arises_iff_reachable.mpr h).wired.chart.placed h.sound.filed

end IndexedGrammar
