import IndexedGrammar.Chart.Removal
import IndexedGrammar.Proofs.Chart.Derivable
import IndexedGrammar.Proofs.Chart.Filed
import IndexedGrammar.Proofs.Saturation

/-!
# What a column asks for

The states that reach a column from an earlier one ask for the nonterminals behind their dots, and so
do the states that were begun at the column for a category that is asked for. Categories that only ask
for each other are not asked for. A review keeps exactly the predictions that the live states of its
column ask for, and what a grammar wants at a column is asked for by what it finds there.
-/

namespace IndexedGrammar

/-- The categories that the spots found at a column ask for. -/
inductive Asked (g : Grammar) (found : Spot → Prop) (k : Nat) : Category → Prop
  /-- A spot from an earlier column, or on the synthetic rule, asks for what it expects. -/
  | across {s : Spot} {symbol : Category} :
      found s → s.stop = k → s.item.origin < k ∨ s.item.rule = Grammar.rootId →
      g.Expects s.item symbol → g.isNonterminal symbol = true → Asked g found k symbol
  /-- A spot begun at the column for a category that is asked for asks for what it expects. -/
  | begun {s : Spot} {r : Rule} {symbol : Category} :
      found s → s.stop = k → k ≤ s.item.origin → s.item.rule ≠ Grammar.rootId →
      g.rule? s.item.rule = some r → Asked g found k r.lhs →
      g.Expects s.item symbol → g.isNonterminal symbol = true → Asked g found k symbol

variable {g : Grammar} {input : Input} {last k : Nat} {symbol : Category}

/-- Something found at the column expects what is asked for there. -/
theorem Asked.expects {found : Spot → Prop} (h : Asked g found k symbol) :
    ∃ s, found s ∧ s.stop = k ∧ g.Expects s.item symbol ∧ g.isNonterminal symbol = true := by
  cases h with
  | across hs hstop _ hexpects hsymbol => exact ⟨_, hs, hstop, hexpects, hsymbol⟩
  | begun hs hstop _ _ _ _ hexpects hsymbol => exact ⟨_, hs, hstop, hexpects, hsymbol⟩

/-- What is asked for depends only on the spots of the column that expect nonterminals. -/
theorem Asked.mono {found found' : Spot → Prop} (h : Asked g found k symbol)
    (hfound : ∀ s symbol, found s → s.stop = k → g.Expects s.item symbol →
      g.isNonterminal symbol = true → found' s) : Asked g found' k symbol := by
  induction h with
  | across hs hstop hacross hexpects hsymbol =>
    exact .across (hfound _ _ hs hstop hexpects hsymbol) hstop hacross hexpects hsymbol
  | begun hs hstop hbegun hroot hr _ hexpects hsymbol ih =>
    exact .begun (hfound _ _ hs hstop hexpects hsymbol) hstop hbegun hroot hr ih hexpects hsymbol

/-- The same is asked for under a grammar with the same rules for what was found, and the same parts of speech. -/
theorem Asked.congr {g' : Grammar} {found : Spot → Prop} (h : Asked g found k symbol)
    (hrule : ∀ s, found s → g'.rule? s.item.rule = g.rule? s.item.rule)
    (hpos : g'.partsOfSpeech = g.partsOfSpeech) : Asked g' found k symbol := by
  have hexpects {s : Spot} {symbol : Category} (hs : found s) (h : g.Expects s.item symbol) :
      g'.Expects s.item symbol := by
    rw [Grammar.Expects, Chart.ahead_congr (hrule s hs)]
    exact h
  have hnonterminal {symbol : Category} (h : g.isNonterminal symbol = true) :
      g'.isNonterminal symbol = true := by
    rwa [Grammar.isNonterminal, Grammar.isPartOfSpeech, hpos]
  induction h with
  | across hs hstop hacross hexpects' hsymbol =>
    exact .across hs hstop hacross (hexpects hs hexpects') (hnonterminal hsymbol)
  | begun hs hstop hbegun hroot hr _ hexpects' hsymbol ih =>
    exact .begun hs hstop hbegun hroot ((hrule _ hs).trans hr) ih (hexpects hs hexpects')
      (hnonterminal hsymbol)

/-- A spot found at the column where it begins is on a rule for a category that is asked for there. -/
theorem Derivable.asked_lhs (hg : g.Indexed) {s : Spot} {l : Link} (h : Derivable g input last s l)
    {r : Rule} (hr : g.HasRule s.item.rule r) (hroot : s.item.rule ≠ Grammar.rootId)
    (hbegun : s.stop ≤ s.item.origin) : Asked g (Findable g input last) s.stop r.lhs := by
  induction h generalizing r with
  | root => exact absurd rfl hroot
  | @predict s l symbol rule r' hs hexpects hsymbol hrule ih =>
    obtain ⟨hr', rfl⟩ := hg.mem_rulesFor.mp hrule
    obtain rfl := hr.unique hr'
    by_cases hacross : s.item.origin < s.stop ∨ s.item.rule = Grammar.rootId
    · exact .across ⟨l, hs⟩ rfl hacross hexpects hsymbol
    · obtain ⟨hstop, hroot'⟩ := not_or.mp hacross
      obtain ⟨q, hq, -⟩ := hs.hasRule hg
      exact .begun ⟨l, hs⟩ rfl (Nat.not_lt.mp hstop) hroot' hq.rule?
        (ih hq hroot' (Nat.not_lt.mp hstop)) hexpects hsymbol
  | skip _ _ _ ih => exact ih hr hroot hbegun
  | scan hs => exact absurd (Nat.le_trans hbegun hs.bounds.1) (Nat.not_succ_le_self _)
  | @complete s t l m symbol hs ht _ _ _ horigin ih _ =>
    have hstop : t.stop = s.stop :=
      Nat.le_antisymm (Nat.le_trans hbegun hs.bounds.1) (horigin ▸ ht.bounds.1)
    rw [show (s.step t.stop).stop = s.stop from hstop]
    exact ih hr hroot (hstop ▸ hbegun)

/-- What a grammar wants at a column is asked for there by what it finds. -/
theorem Wanted.asked (hg : g.Indexed) (h : Wanted g input last k symbol) :
    Asked g (Findable g input last) k symbol := by
  obtain ⟨s, ⟨l, hs⟩, rfl, hexpects, hsymbol⟩ := h
  by_cases hacross : s.item.origin < s.stop ∨ s.item.rule = Grammar.rootId
  · exact .across ⟨l, hs⟩ rfl hacross hexpects hsymbol
  · obtain ⟨hstop, hroot⟩ := not_or.mp hacross
    obtain ⟨r, hr, -⟩ := hs.hasRule hg
    exact .begun ⟨l, hs⟩ rfl (Nat.not_lt.mp hstop) hroot hr.rule?
      (hs.asked_lhs hg hr hroot (Nat.not_lt.mp hstop)) hexpects hsymbol

namespace Removal

variable {c : Chart} {ids : List Nat}

/-- The states begun at a column are live, and on another rule than the synthetic one. -/
theorem mem_begunAt {id : Nat} {state : State} {r : Rule} :
    (id, state, r) ∈ begunAt g c k ids ↔ id ∈ ids ∧ c.states[id]? = some state ∧
      g.rule? state.item.rule = some r ∧ state.removed = false ∧ k ≤ state.item.origin ∧
      state.item.rule ≠ Grammar.rootId := by
  simp only [begunAt, List.mem_filterMap, Option.bind_eq_bind, Option.bind_eq_some_iff]
  constructor
  · rintro ⟨id', hid, state', hstate, r', hr, hite⟩
    split at hite
    · contradiction
    · next hcond =>
      simp only [Option.some.injEq, Prod.mk.injEq] at hite
      obtain ⟨rfl, rfl, rfl⟩ := hite
      simp only [Bool.or_eq_true, decide_eq_true_iff, not_or, Nat.not_lt,
        Bool.not_eq_true] at hcond
      exact ⟨hid, hstate, hr, hcond.1.1, hcond.1.2, hcond.2⟩
  · rintro ⟨hid, hstate, hr, hremoved, horigin, hroot⟩
    refine ⟨id, hid, state, hstate, r, hr, ?_⟩
    simp [hremoved, hroot, horigin]

/-- The states that reach a column from an earlier one, or are on the synthetic rule, ask for the
nonterminals that they expect. -/
theorem mem_askedAt : symbol ∈ askedAt g c k ids ↔ ∃ id ∈ ids, ∃ s, c.Live id s ∧
    (s.item.origin < k ∨ s.item.rule = Grammar.rootId) ∧ g.Expects s.item symbol ∧
      g.isNonterminal symbol = true := by
  simp only [askedAt, List.mem_filterMap, Option.bind_eq_bind, Option.bind_eq_some_iff]
  constructor
  · rintro ⟨id, hid, state, hstate, r, hr, symbol', hsymbol', hite⟩
    split at hite
    · next hcond =>
      obtain rfl := Option.some.inj hite
      simp only [Bool.and_eq_true, Bool.or_eq_true, decide_eq_true_iff, Bool.not_eq_true'] at hcond
      exact ⟨id, hid, state.spot, ⟨state, hstate, hcond.1.1, rfl⟩, hcond.1.2,
        Grammar.expects_iff.mpr ⟨r, hr, hsymbol'⟩, hcond.2⟩
    · contradiction
  · rintro ⟨id, hid, -, ⟨state, hstate, hremoved, rfl⟩, hacross, hexpects, hsymbol⟩
    obtain ⟨r, hr, hsymbol'⟩ := Grammar.expects_iff.mp hexpects
    refine ⟨id, hid, state, hstate, r, hr, symbol, hsymbol', if_pos ?_⟩
    have hacross' : state.item.origin < k ∨ state.item.rule = Grammar.rootId := hacross
    simpa [hremoved, hsymbol] using hacross'

/-- The steps from the category of a rule begun at a column to the nonterminal behind the dot. -/
def askingSteps (g : Grammar) (c : Chart) (k : Nat) (ids : List Nat) : List (Category × Category) :=
  (begunAt g c k ids).filterMap fun (_, state, rule) =>
    match rule.rhs[state.item.dot]? with
    | some symbol => if g.isNonterminal symbol then some (rule.lhs, symbol) else none
    | none => none

/-- A state begun at a column leads from the category of its rule to the nonterminal that it expects. -/
theorem mem_askingSteps {lhs : Category} : (lhs, symbol) ∈ askingSteps g c k ids ↔
    ∃ id ∈ ids, ∃ s r, c.Live id s ∧ g.rule? s.item.rule = some r ∧ k ≤ s.item.origin ∧
      s.item.rule ≠ Grammar.rootId ∧ r.lhs = lhs ∧ g.Expects s.item symbol ∧ g.isNonterminal symbol = true := by
  simp only [askingSteps, List.mem_filterMap]
  constructor
  · rintro ⟨⟨id, state, r⟩, hbegun, hstep⟩
    obtain ⟨hid, hstate, hr, hremoved, horigin, hroot⟩ := mem_begunAt.mp hbegun
    split at hstep
    · next symbol' hsymbol' =>
      split at hstep
      · next hnonterminal =>
        obtain ⟨rfl, rfl⟩ := Prod.mk.inj (Option.some.inj hstep)
        exact ⟨id, hid, state.spot, r, ⟨state, hstate, hremoved, rfl⟩, hr, horigin, hroot, rfl,
          Grammar.expects_iff.mpr ⟨r, hr, hsymbol'⟩, hnonterminal⟩
      · contradiction
    · contradiction
  · rintro ⟨id, hid, -, r, ⟨state, hstate, hremoved, rfl⟩, hr, horigin, hroot, rfl, hexpects, hsymbol⟩
    obtain ⟨r', hr', hsymbol'⟩ := Grammar.expects_iff.mp hexpects
    obtain rfl := Option.some.inj (hr.symm.trans hr')
    refine ⟨(id, state, r), mem_begunAt.mpr ⟨hid, hstate, hr, hremoved, horigin, hroot⟩, ?_⟩
    have hsymbol'' : r.rhs[state.item.dot]? = some symbol := hsymbol'
    simp only [hsymbol'', hsymbol, if_true]

/-- What is still wanted at a column of a chart is what its live states ask for. -/
theorem mem_wanted (hc : c.Filed g) {column : Column} (hcolumn : c.columns[k]? = some column) :
    symbol ∈ wanted g c k column.states.toList ↔
      Asked g (fun s => ∃ id, c.Live id s) k symbol := by
  show symbol ∈ reachable (askingSteps g c k column.states.toList)
    (Std.ExtTreeSet.ofList (askedAt g c k column.states.toList)) ↔ _
  rw [mem_reachable]
  simp only [Std.ExtTreeSet.mem_ofList, List.contains_iff_mem]
  -- a path of steps from what is asked for across columns is how a category is asked for
  constructor
  · rintro ⟨base, hbase, hpath⟩
    induction hpath with
    | refl =>
      obtain ⟨id, hid, s, hs, hacross, hexpects, hsymbol⟩ := mem_askedAt.mp hbase
      exact .across ⟨id, hs⟩ ((hc.mem_states_iff hcolumn hs).mp hid) hacross hexpects hsymbol
    | tail _ hedge ih =>
      obtain ⟨id, hid, s, r, hs, hr, horigin, hroot, rfl, hexpects, hsymbol⟩ := mem_askingSteps.mp hedge
      exact .begun ⟨id, hs⟩ ((hc.mem_states_iff hcolumn hs).mp hid) horigin hroot hr ih hexpects hsymbol
  · intro h
    induction h with
    | across hs hstop hacross hexpects hsymbol =>
      obtain ⟨id, hs⟩ := hs
      have hid := (hc.mem_states_iff hcolumn hs).mpr hstop
      exact ⟨_, mem_askedAt.mpr ⟨id, hid, _, hs, hacross, hexpects, hsymbol⟩, .refl⟩
    | begun hs hstop hbegun hroot hr _ hexpects hsymbol ih =>
      obtain ⟨base, hbase, hpath⟩ := ih
      obtain ⟨id, hs⟩ := hs
      have hid := (hc.mem_states_iff hcolumn hs).mpr hstop
      exact ⟨base, hbase, hpath.tail
        (mem_askingSteps.mpr ⟨id, hid, _, _, hs, hr, hbegun, hroot, rfl, hexpects, hsymbol⟩)⟩

/-- What is stale at a column is predicted there, and no live state asks for it. -/
theorem mem_stale (hc : c.Filed g) : symbol ∈ stale g c k ↔
    c.isPredicted k symbol = true ∧ ¬Asked g (fun s => ∃ id, c.Live id s) k symbol := by
  unfold stale Chart.isPredicted
  cases hcolumn : c.columns[k]? with
  | none => simp
  | some column =>
    simp only [List.mem_filter, Std.ExtTreeSet.mem_toList, Std.ExtTreeSet.mem_iff_contains,
      Bool.not_eq_true', ← mem_wanted hc hcolumn, Bool.not_eq_true]

end Removal

end IndexedGrammar
