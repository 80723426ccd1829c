import IndexedGrammar.Proofs.Chart.Mirrors
import IndexedGrammar.Proofs.Forest.Nodes

/-!
# Forests under new numbers

Sites name categories and columns, not states. So charts that mirror each other read alike, site by site and in the same
order, and their forests are the same, with the same numbers for the nodes. Only how deep the walk may go depends on
what was taken out, and it may go deep enough in either chart.
-/

namespace IndexedGrammar

namespace Chart.Mirrors

variable {f : Nat → Option Nat} {g : Grammar} {c d : Chart} {id n : Nat}

/-- A derivation crosses the same site in both charts. -/
theorem crossed? (h : c.Mirrors f d) (hn : f id = some n) {s : State} (hs : c.states[id]? = some s) {e : Derivation}
    (he : e ∈ s.derivations) (dot : Nat) :
    d.crossed? g (renumberState f s) dot (e.under f) = c.crossed? g s dot e := by
  have hlinked {link : Nat} (hlink : link ∈ e.links) :
      ∃ m t, f link = some m ∧ c.states[link]? = some t ∧ d.states[m]? = some (renumberState f t) :=
    h.exists_state (h.linked hn hs he hlink)
  obtain ⟨predecessor, reductor⟩ := e
  unfold Chart.crossed?
  simp only [renumberState, Derivation.under]
  cases predecessor with
  | none => rfl
  | some i =>
    obtain ⟨m, p, hm, hp, hp'⟩ := hlinked (show i ∈ _ by simp [Derivation.links])
    cases reductor with
    | none => simp [hm, hp, hp', renumberState]
    | some j =>
      obtain ⟨l, t, hl, ht, ht'⟩ := hlinked (show j ∈ _ by simp [Derivation.links])
      simp [hm, hp, hp', hl, ht, ht', renumberState]

/-- What a derivation of a state leads back to has a number. -/
theorem predecessor (h : c.Mirrors f d) (hn : f id = some n) {s : State} (hs : c.states[id]? = some s) {e : Derivation}
    (he : e ∈ s.derivations) {i : Nat} (hi : e.predecessor = some i) :
    ∃ m, f i = some m ∧ (e.under f).predecessor = some m := by
  obtain ⟨-, m, hm⟩ := h.linked hn hs he (show i ∈ _ by simp [Derivation.links, hi])
  exact ⟨m, hm, by rw [Derivation.under, hi, Option.bind_some, hm]⟩

/-- The same sites are read off a state in both charts. -/
theorem sitesOf (h : c.Mirrors f d) (hn : f id = some n) (dot : Nat) : d.sitesOf g dot n = c.sitesOf g dot id := by
  induction dot generalizing id n with
  | zero => rfl
  | succ dot ih =>
    rw [Chart.sitesOf, Chart.sitesOf, h.states hn]
    cases hs : c.states[id]? with
    | none => rfl
    | some s =>
      simp only [Option.map_some, derivations_renumberState, List.flatMap_map]
      refine List.flatMap_congr fun e he => ?_
      rw [h.crossed? hn hs he]
      cases c.crossed? g s dot e with
      | none => rfl
      | some site =>
        cases hi : e.predecessor with
        | none => simp [Derivation.under, hi]
        | some i =>
          obtain ⟨m, hm, hm'⟩ := h.predecessor hn hs he hi
          simp only [hm', ih hm]

/-- The same sequences are read off a state in both charts. -/
theorem sequences (h : c.Mirrors f d) (hn : f id = some n) (dot : Nat) :
    d.sequences g dot n = c.sequences g dot id := by
  induction dot generalizing id n with
  | zero => rfl
  | succ dot ih =>
    cases hs : c.states[id]? with
    | none => rw [Chart.sequences, Chart.sequences, h.states hn, hs, Option.map_none]
    | some s =>
      have hs' : d.states[n]? = some (renumberState f s) := by rw [h.states hn, hs, Option.map_some]
      rw [sequences_succ hs, sequences_succ hs', derivations_renumberState, List.foldl_map]
      refine List.foldl_ext _ _ _ fun known e he => ?_
      congr 1
      unfold sequencesVia
      rw [h.crossed? hn hs he]
      cases c.crossed? g s dot e with
      | none => rfl
      | some site =>
        cases hi : e.predecessor with
        | none => simp [Derivation.under, hi]
        | some i =>
          obtain ⟨m, hm, hm'⟩ := h.predecessor hn hs he hi
          simp only [hm', ih hm]

/-- The same completed states of a category lie between two columns. -/
theorem completed (h : c.Mirrors f d) (lhs : Category) (origin stop : Nat) :
    d.completed lhs origin stop = (c.completed lhs origin stop).filterMap f := by
  unfold Chart.completed
  rw [h.reductors, List.filter_filterMap, List.filterMap_filter]
  refine List.filterMap_congr fun id hid => ?_
  obtain ⟨n, s, hn, hs, hs'⟩ := h.exists_state (h.numbered_of_mem_reductors hid)
  simp [hn, hs, hs', renumberState, Option.filter]

/-- Completed states that lie between two columns have states in both charts. -/
theorem exists_completed (h : c.Mirrors f d) {lhs : Category} {origin stop : Nat}
    (hid : id ∈ c.completed lhs origin stop) :
    ∃ n s, f id = some n ∧ c.states[id]? = some s ∧ d.states[n]? = some (renumberState f s) :=
  h.exists_state (h.numbered_of_mem_reductors (List.mem_filter.mp hid).1)

/-- The completed states between two columns, number by number. -/
theorem completed_eq_map (h : c.Mirrors f d) (lhs : Category) (origin stop : Nat) :
    d.completed lhs origin stop = (c.completed lhs origin stop).map fun id => (f id).getD 0 := by
  rw [h.completed, ← List.filterMap_eq_map]
  refine List.filterMap_congr fun id hid => ?_
  obtain ⟨n, -, hn, -⟩ := h.exists_completed hid
  simp [hn]

/-- The same sites are below a site in both charts. -/
theorem sitesBelow (h : c.Mirrors f d) : d.sitesBelow g = c.sitesBelow g := by
  funext site
  unfold Chart.sitesBelow
  split
  · rw [h.completed_eq_map, List.flatMap_map]
    refine List.flatMap_congr fun id hid => ?_
    obtain ⟨n, s, hn, hs, hs'⟩ := h.exists_completed hid
    simp only [hn, hs, hs', Option.getD_some]
    exact h.sitesOf hn s.item.dot
  · rfl

/-- A site is made up in the same ways in both charts. -/
theorem waysOf (h : c.Mirrors f d) : d.waysOf g = c.waysOf g := by
  funext site
  cases hsymbol : g.isNonterminal site.category with
  | false => simp [Chart.waysOf, isComposite, hsymbol]
  | true =>
    rw [waysOf_eq hsymbol, waysOf_eq hsymbol, h.completed_eq_map, List.foldl_map]
    refine List.foldl_ext _ _ _ fun known id hid => congrArg (addNew known) ?_
    obtain ⟨n, s, hn, hs, hs'⟩ := h.exists_completed hid
    simp only [waysVia, hn, hs, hs', Option.getD_some, renumberState, h.sequences hn]

/-- The same sites cannot be read in both charts. -/
theorem isUnreadable (h : c.Mirrors f d) : d.isUnreadable g = c.isUnreadable g := by
  funext site
  unfold Chart.isUnreadable
  rw [h.completed_eq_map, List.any_map]
  refine congrArg (isComposite g site && ·) (Bool.eq_iff_iff.mpr ?_)
  rw [List.any_eq_true, List.any_eq_true]
  refine exists_congr fun id => and_congr_right fun hid => ?_
  obtain ⟨n, s, hn, hs, hs'⟩ := h.exists_completed hid
  simp only [Function.comp_apply, hn, hs, hs', Option.getD_some, renumberState]

/-- The same whole sentences are found in both charts. -/
theorem rootSites (h : c.Mirrors f d) : d.rootSites g = c.rootSites g := by
  have hcolumns : d.finalColumns = c.finalColumns := by rw [finalColumns, h.size_columns, h.layout, finalColumns]
  unfold Chart.rootSites Chart.accepted
  refine congrArg (addNew []) ?_
  cases g.rootRule? with
  | none => rfl
  | some r =>
    simp only [acceptedAs, hcolumns, List.filterMap_flatMap]
    refine List.flatMap_congr fun k _ => ?_
    rw [h.completed_eq_map, List.filterMap_map]
    refine List.filterMap_congr fun id hid => ?_
    obtain ⟨n, s, hn, hs, hs'⟩ := h.exists_completed hid
    simp [hn, hs, hs', renumberState]

/-- The walk meets the same sites in the same order in both charts. -/
theorem discover (h : c.Mirrors f d) {terminal : Category → Prop} (hc : c.Filed g)
    (hcsteps : ∀ {id s e}, c.Live id s → c.Derives id e → c.Steps g terminal s e) (hd : d.Filed g)
    (hdsteps : ∀ {id s e}, d.Live id s → d.Derives id e → d.Steps g terminal s e) :
    Forest.discover d g = Forest.discover c g := by
  rw [hc.discover_eq hcsteps (Nat.le_add_right _ (Forest.derivationCount d + (d.rootSites g).length + 1)),
    hd.discover_eq hdsteps (Nat.le_add_left _ (Forest.derivationCount c + (c.rootSites g).length + 1)),
    h.rootSites, h.sitesBelow]

/-- The forests are the same, and so is what reading them meets. -/
theorem forest (h : c.Mirrors f d) {terminal : Category → Prop} (hc : c.Filed g)
    (hcsteps : ∀ {id s e}, c.Live id s → c.Derives id e → c.Steps g terminal s e) (hd : d.Filed g)
    (hdsteps : ∀ {id s e}, d.Live id s → d.Derives id e → d.Steps g terminal s e) :
    Forest.ofChart d g = Forest.ofChart c g ∧ Forest.read d g = Forest.read c g := by
  have hword (k : Nat) : d.word? k = c.word? k := by rw [word?, h.input, word?]
  have hforest : Forest.ofChart d g = Forest.ofChart c g := by
    unfold Forest.ofChart Forest.kindOf
    simp only [h.discover hc hcsteps hd hdsteps, h.rootSites, h.waysOf, hword]
  refine ⟨hforest, ?_⟩
  unfold Forest.read
  simp only [hforest, h.isUnreadable]

end Chart.Mirrors

end IndexedGrammar
