import IndexedGrammar.Proofs.Chart.View

/-!
# Filed charts

In a filed chart every state can be found where it should be, and nowhere else: a live state by its
item, among those that wait for what it expects or among the completed states that begin with it, and
every state under its rule and at the column it ends at. The derivations of live states go through
live states, which know of it. Every grammar that has the rules of the states finds the same chart
filed.

Adding a state, adding a derivation and predicting a category keep a chart filed.
-/

namespace IndexedGrammar.Chart

/-- Every state can be found where it should be, and nowhere else. -/
structure Filed (g : Grammar) (c : Chart) : Prop where
  size_columns : c.columns.size = c.layout.last + 1
  bounds : ∀ {id s}, c.spot? id = some s → s.item.origin ≤ s.stop ∧ s.stop < c.columns.size
  known : ∀ {id s}, c.spot? id = some s → (g.rule? s.item.rule).isSome
  find?_iff : ∀ {item stop id}, c.find? item stop = some id ↔ c.Live id ⟨item, stop⟩
  mem_expecting : ∀ {k symbol id}, id ∈ c.expecting k symbol ↔
    symbol.isEpsilon = false ∧ ∃ s, c.Live id s ∧ s.stop = k ∧ g.Expects s.item symbol
  nodup_expecting : ∀ k symbol, (c.expecting k symbol).Nodup
  mem_reductors : ∀ {k lhs id}, id ∈ c.reductors k lhs ↔
    ∃ s, c.Live id s ∧ s.item.origin = k ∧ g.Completes s.item lhs
  nodup_reductors : ∀ k lhs, (c.reductors k lhs).Nodup
  mem_byRule : ∀ {rule id}, id ∈ c.byRule.ids rule ↔
    ∃ s, c.spot? id = some s ∧ s.item.rule = rule
  lists_iff : ∀ {k id}, c.Lists k id ↔ ∃ s, c.spot? id = some s ∧ s.stop = k
  linked : ∀ {id d link}, c.Derives id d → link ∈ d.links → ∃ t, c.Live link t
  parented : ∀ {id d link}, c.Derives id d → link ∈ d.links → c.HasParent link id
  tidy_byRule : c.byRule.Tidy
  tidy_columns : ∀ {k : Nat} {column : Column}, c.columns[k]? = some column →
    column.expecting.Tidy ∧ column.reductors.Tidy

variable {g : Grammar} {c : Chart}

/-- A spot has at most one live number. -/
theorem Filed.unique (h : c.Filed g) {i j : Nat} {s : Spot} (hi : c.Live i s) (hj : c.Live j s) :
    i = j :=
  Option.some.inj ((h.find?_iff.mpr hi).symm.trans (h.find?_iff.mpr hj))

/-- What a live state begins with and ends at are columns. -/
theorem Filed.lt_columns (h : c.Filed g) {id : Nat} {s : Spot} (hs : c.Live id s) :
    s.item.origin < c.columns.size ∧ s.stop < c.columns.size :=
  ⟨Nat.lt_of_le_of_lt (h.bounds hs.spot?).1 (h.bounds hs.spot?).2, (h.bounds hs.spot?).2⟩

/-- What is not filed is not live. -/
theorem Filed.not_live (h : c.Filed g) {item : Item} {stop id : Nat}
    (hnone : c.find? item stop = none) : ¬c.Live id ⟨item, stop⟩ := by
  intro hlive
  rw [h.find?_iff.mpr hlive] at hnone
  contradiction

/-- A live state is listed at the column it ends at, and at no other. -/
theorem Filed.mem_states_iff (h : c.Filed g) {k id : Nat} {column : Column} {s : Spot}
    (hcolumn : c.columns[k]? = some column) (hs : c.Live id s) : id ∈ column.states.toList ↔ s.stop = k := by
  have hlisted : c.Lists k id ↔ id ∈ column.states.toList := by
    simp only [Lists, hcolumn, Option.some.injEq, exists_eq_left', Array.mem_toList_iff]
  rw [← hlisted, h.lists_iff, hs.spot?]
  simp

/-! Rolls of live states -/

/-- A roll of the live states whose spots are of a kind: each of them stands on it once. -/
structure IsRoll (c : Chart) (P : Spot → Prop) (ids : List Nat) : Prop where
  nodup : ids.Nodup
  mem_iff : ∀ {id}, id ∈ ids ↔ ∃ s, c.Live id s ∧ P s

/-- In a filed chart, those that wait at a column for a category that is not empty are on a roll. -/
theorem Filed.isRoll_expecting (h : c.Filed g) (k : Nat) (symbol : Category) :
    c.IsRoll (fun s => s.stop = k ∧ g.Expects s.item symbol ∧ symbol.isEpsilon = false)
      (c.expecting k symbol) where
  nodup := h.nodup_expecting k symbol
  mem_iff {id} := by
    rw [h.mem_expecting]
    constructor
    · rintro ⟨hsymbol, s, hs, hk, hexpects⟩
      exact ⟨s, hs, hk, hexpects, hsymbol⟩
    · rintro ⟨s, hs, hk, hexpects, hsymbol⟩
      exact ⟨hsymbol, s, hs, hk, hexpects⟩

/-- In a filed chart, the completed states that begin at a column are on a roll. -/
theorem Filed.isRoll_reductors (h : c.Filed g) (k : Nat) (lhs : Category) :
    c.IsRoll (fun s => s.item.origin = k ∧ g.Completes s.item lhs) (c.reductors k lhs) :=
  ⟨h.nodup_reductors k lhs, h.mem_reductors⟩

/-- Who is on the roll of those that wait. -/
theorem IsRoll.mem_expecting {k : Nat} {symbol : Category} {ids : List Nat}
    (h : c.IsRoll (fun s => s.stop = k ∧ g.Expects s.item symbol ∧ symbol.isEpsilon = false) ids) {id : Nat} :
    id ∈ ids ↔ symbol.isEpsilon = false ∧ ∃ s, c.Live id s ∧ s.stop = k ∧ g.Expects s.item symbol := by
  rw [h.mem_iff]
  constructor
  · rintro ⟨s, hs, hk, hexpects, hsymbol⟩
    exact ⟨hsymbol, s, hs, hk, hexpects⟩
  · rintro ⟨hsymbol, s, hs, hk, hexpects⟩
    exact ⟨s, hs, hk, hexpects, hsymbol⟩

/-! One chart for several grammars -/

/-- What stands behind a dot depends only on the item's rule. -/
theorem ahead_congr {g g' : Grammar} {item : Item}
    (h : g'.rule? item.rule = g.rule? item.rule) :
    g'.ahead item.rule item.dot = g.ahead item.rule item.dot := by
  unfold Grammar.ahead
  rw [h]

/-- A grammar in which the rules of the states are the same finds a chart filed too. -/
theorem Filed.regrammar {g' : Grammar} (h : c.Filed g)
    (hsame : ∀ id s, c.spot? id = some s → g'.rule? s.item.rule = g.rule? s.item.rule) :
    c.Filed g' where
  size_columns := h.size_columns
  bounds := h.bounds
  known hs := hsame _ _ hs ▸ h.known hs
  find?_iff := h.find?_iff
  mem_expecting {k symbol id} := by
    rw [h.mem_expecting]
    refine and_congr_right fun _ => exists_congr fun s => and_congr_right fun hs => ?_
    rw [Grammar.Expects, Grammar.Expects, ahead_congr (hsame _ _ hs.spot?)]
  nodup_expecting := h.nodup_expecting
  mem_reductors {k lhs id} := by
    rw [h.mem_reductors]
    refine exists_congr fun s => and_congr_right fun hs => ?_
    rw [Grammar.Completes, Grammar.Completes, ahead_congr (hsame _ _ hs.spot?)]
  nodup_reductors := h.nodup_reductors
  mem_byRule := h.mem_byRule
  lists_iff := h.lists_iff
  linked := h.linked
  parented := h.parented
  tidy_byRule := h.tidy_byRule
  tidy_columns := h.tidy_columns

/-- The chart in which nothing has been found is filed. -/
theorem filed_new (g : Grammar) (layout : Layout) (input : Input) : (new layout input).Filed g where
  size_columns := Array.size_replicate
  bounds {id s} hs := by
    rw [spot?_new] at hs
    contradiction
  known {id s} hs := by
    rw [spot?_new] at hs
    contradiction
  find?_iff {item stop id} := by
    rw [find?_new]
    exact ⟨fun hnone => absurd hnone (by simp), fun hs => absurd hs not_live_new⟩
  mem_expecting {k symbol id} := by
    rw [expecting_new]
    refine ⟨fun hid => absurd hid List.not_mem_nil, ?_⟩
    rintro ⟨-, s, hs, -⟩
    exact absurd hs not_live_new
  nodup_expecting k symbol := by
    rw [expecting_new]
    exact List.nodup_nil
  mem_reductors {k lhs id} := by
    rw [reductors_new]
    refine ⟨fun hid => absurd hid List.not_mem_nil, ?_⟩
    rintro ⟨s, hs, -⟩
    exact absurd hs not_live_new
  nodup_reductors k lhs := by
    rw [reductors_new]
    exact List.nodup_nil
  mem_byRule {rule id} := by
    show id ∈ Index.ids ∅ rule ↔ _
    simp [spot?_new]
  lists_iff {k id} := by
    refine ⟨fun hid => absurd hid not_lists_new, ?_⟩
    rintro ⟨s, hs, -⟩
    rw [spot?_new] at hs
    contradiction
  linked hd _ := absurd hd not_derives_new
  parented hd _ := absurd hd not_derives_new
  tidy_byRule := Index.tidy_empty
  tidy_columns {k column} hcolumn := by
    rw [columns_new hcolumn]
    exact ⟨Index.tidy_empty, Index.tidy_empty⟩

/-! Each way of adding to a chart -/

/-- Giving a live state one more derivation keeps a chart filed. -/
theorem Filed.pack (h : c.Filed g) {id : Nat} {s : Spot} {d : Derivation} (hs : c.Live id s)
    (hlinks : ∀ link ∈ d.links, ∃ t, c.Live link t) : (c.pack id d).Filed g where
  size_columns := by rw [columns_pack, layout_pack, h.size_columns]
  bounds {j t} := by
    rw [spot?_pack, columns_pack]
    exact h.bounds
  known {j t} := by
    rw [spot?_pack]
    exact h.known
  find?_iff {item stop j} := by
    rw [live_pack, ← h.find?_iff, find?, columns_pack, find?]
  mem_expecting {k symbol j} := by
    simp only [live_pack, ← h.mem_expecting, expecting, columns_pack]
  nodup_expecting k symbol := by
    simpa only [expecting, columns_pack] using h.nodup_expecting k symbol
  mem_reductors {k lhs j} := by
    simp only [live_pack, ← h.mem_reductors, reductors, columns_pack]
  nodup_reductors k lhs := by
    simpa only [reductors, columns_pack] using h.nodup_reductors k lhs
  mem_byRule {rule j} := by
    rw [byRule_pack, h.mem_byRule]
    simp only [spot?_pack]
  lists_iff {k j} := by
    simp only [spot?_pack, ← h.lists_iff, Lists, columns_pack]
  linked {j e link} := by
    simp only [derives_pack hs, live_pack]
    rintro (he | ⟨rfl, rfl⟩) hlink
    · exact h.linked he hlink
    · exact hlinks link hlink
  parented {j e link} := by
    rw [derives_pack hs]
    rintro (he | ⟨rfl, rfl⟩) hlink
    · exact (h.parented he hlink).pack
    · obtain ⟨t, ht⟩ := hlinks link hlink
      exact hasParent_pack hs hlink ht.spot? fun hold => h.parented hold hlink
  tidy_byRule := by
    rw [byRule_pack]
    exact h.tidy_byRule
  tidy_columns {k column} := by
    rw [columns_pack]
    exact h.tidy_columns

/-- A new number is not live yet. -/
theorem not_live_size {s : Spot} : ¬c.Live c.states.size s := fun hs =>
  Nat.lt_irrefl _ hs.lt_size

/-- Adding a number that is not there to a list that has no repetition gives one that has none. -/
theorem nodup_concat {α : Type} {ids : List α} {id : α} (h : ids.Nodup) (hid : id ∉ ids) :
    (ids ++ [id]).Nodup := by
  rw [List.nodup_append]
  refine ⟨h, List.pairwise_singleton _ id, ?_⟩
  rintro a ha b hb rfl
  exact hid (List.mem_singleton.mp hb ▸ ha)

/-- What is in a list to which a number was added under a condition. -/
theorem mem_ite_concat {P : Prop} [Decidable P] {ids : List Nat} {id new : Nat} :
    id ∈ (if P then ids ++ [new] else ids) ↔ id ∈ ids ∨ P ∧ id = new := by
  split
  · next h => simp [h]
  · next h => simp [h]

section Grow

variable {item : Item} {stop : Nat} {d : Derivation}

/-- The new state is put on a roll if its spot is of the kind. -/
theorem IsRoll.grow {P : Spot → Prop} {ids : List Nat} (h : c.IsRoll P ids) [Decidable (P ⟨item, stop⟩)] :
    (c.grow g item stop d).IsRoll P (if P ⟨item, stop⟩ then ids ++ [c.states.size] else ids) where
  nodup := by
    split
    · refine nodup_concat h.nodup fun hmem => ?_
      obtain ⟨s, hs, -⟩ := h.mem_iff.mp hmem
      exact not_live_size hs
    · exact h.nodup
  mem_iff {id} := by rw [mem_ite_concat, h.mem_iff, exists_live_grow]

/-- Those that wait are still on a roll when a state was added. -/
theorem Filed.isRoll_expecting_grow (h : c.Filed g) (hstop : stop < c.columns.size) (k : Nat)
    (symbol : Category) : (c.grow g item stop d).IsRoll
      (fun s => s.stop = k ∧ g.Expects s.item symbol ∧ symbol.isEpsilon = false)
      ((c.grow g item stop d).expecting k symbol) := by
  rw [expecting_grow hstop]
  exact (h.isRoll_expecting k symbol).grow

/-- The completed states are still on a roll when a state was added. -/
theorem Filed.isRoll_reductors_grow (h : c.Filed g) (horigin : item.origin < c.columns.size) (k : Nat)
    (lhs : Category) : (c.grow g item stop d).IsRoll
      (fun s => s.item.origin = k ∧ g.Completes s.item lhs) ((c.grow g item stop d).reductors k lhs) := by
  rw [reductors_grow horigin]
  exact (h.isRoll_reductors k lhs).grow

/-- In a filed chart to which a state is added that was not there, all live states are found. -/
theorem Filed.find?_grow_iff (h : c.Filed g) (hnone : c.find? item stop = none)
    (hstop : stop < c.columns.size) {other : Item} {k id : Nat} :
    (c.grow g item stop d).find? other k = some id ↔ (c.grow g item stop d).Live id ⟨other, k⟩ := by
  rw [find?_grow hstop, live_grow]
  split
  · next heq =>
    obtain ⟨rfl, rfl⟩ := heq
    constructor
    · intro hid
      exact .inr ⟨(Option.some.inj hid).symm, rfl⟩
    · rintro (hid | ⟨rfl, -⟩)
      · exact absurd hid (h.not_live hnone)
      · rfl
  · next hne =>
    rw [h.find?_iff]
    refine ⟨.inl, ?_⟩
    rintro (hid | ⟨-, heq⟩)
    · exact hid
    · exact absurd ⟨congrArg Spot.item heq.symm, congrArg Spot.stop heq.symm⟩ hne

/-- Adding a state keeps the columns tidy. -/
theorem Filed.tidy_columns_grow (h : c.Filed g) {k : Nat} {column : Column}
    (hcolumn : (c.grow g item stop d).columns[k]? = some column) :
    column.expecting.Tidy ∧ column.reductors.Tidy := by
  rw [columns_grow, Option.map_eq_some_iff] at hcolumn
  obtain ⟨old, hold, rfl⟩ := hcolumn
  obtain ⟨hexpecting, hreductors⟩ := h.tidy_columns hold
  constructor
  · dsimp only
    split
    · split
      · exact hexpecting.push _ _
      · exact hexpecting
    · exact hexpecting
  · dsimp only
    split
    · split
      · exact hreductors.push _ _
      · exact hreductors
    · exact hreductors

/-- Adding a state that is not there keeps a chart filed. -/
theorem Filed.grow (h : c.Filed g)
    (hnone : c.find? item stop = none) (horigin : item.origin ≤ stop) (hstop : stop < c.columns.size)
    (hknown : (g.rule? item.rule).isSome) (hlinks : ∀ link ∈ d.links, ∃ t, c.Live link t) :
    (c.grow g item stop d).Filed g where
  size_columns := by rw [size_columns_grow, layout_grow, h.size_columns]
  bounds {j t} := by
    rw [spot?_grow, size_columns_grow]
    split
    · intro ht
      obtain rfl := Option.some.inj ht
      exact ⟨horigin, hstop⟩
    · exact h.bounds
  known {j t} := by
    rw [spot?_grow]
    split
    · intro ht
      obtain rfl := Option.some.inj ht
      exact hknown
    · exact h.known
  find?_iff := h.find?_grow_iff hnone hstop
  mem_expecting := (h.isRoll_expecting_grow hstop _ _).mem_expecting
  nodup_expecting k symbol := (h.isRoll_expecting_grow hstop k symbol).nodup
  mem_reductors := (h.isRoll_reductors_grow (Nat.lt_of_le_of_lt horigin hstop) _ _).mem_iff
  nodup_reductors k lhs := (h.isRoll_reductors_grow (Nat.lt_of_le_of_lt horigin hstop) k lhs).nodup
  mem_byRule {rule j} := by rw [byRule_grow, Index.ids_push, mem_ite_concat, h.mem_byRule, exists_spot?_grow]
  lists_iff {k j} := by rw [lists_grow hstop, h.lists_iff, exists_spot?_grow]
  linked {j e link} := by
    simp only [derives_grow, live_grow]
    rintro (he | ⟨rfl, rfl⟩) hlink
    · obtain ⟨t, ht⟩ := h.linked he hlink
      exact ⟨t, .inl ht⟩
    · obtain ⟨t, ht⟩ := hlinks link hlink
      exact ⟨t, .inl ht⟩
  parented {j e link} := by
    rw [derives_grow]
    rintro (he | ⟨rfl, rfl⟩) hlink
    · exact (h.parented he hlink).grow
    · obtain ⟨t, ht⟩ := hlinks link hlink
      exact hasParent_grow hlink ht.spot?
  tidy_byRule := by
    rw [byRule_grow]
    exact h.tidy_byRule.push _ _
  tidy_columns := h.tidy_columns_grow

end Grow

/-- A chart that differs only in what it predicts is filed too. -/
theorem Filed.repredict (h : c.Filed g) {c' : Chart} {f : Nat → Column → CategorySet}
    (hcolumns : ∀ j : Nat, c'.columns[j]? =
      c.columns[j]?.map fun column : Column => { column with predicted := f j column })
    (hsize : c'.columns.size = c.columns.size) (hstates : c'.states = c.states)
    (hbyRule : c'.byRule = c.byRule) (hlayout : c'.layout = c.layout) : c'.Filed g where
  size_columns := by rw [hsize, hlayout, h.size_columns]
  bounds {id s} := by
    rw [spot?, hstates, hsize]
    exact h.bounds
  known {id s} := by
    rw [spot?, hstates]
    exact h.known
  find?_iff {item stop id} := by
    rw [find?_repredicted hcolumns, Live, hstates]
    exact h.find?_iff
  mem_expecting {k symbol id} := by
    simp only [expecting_repredicted hcolumns, Live, hstates]
    exact h.mem_expecting
  nodup_expecting k symbol := by
    rw [expecting_repredicted hcolumns]
    exact h.nodup_expecting k symbol
  mem_reductors {k lhs id} := by
    simp only [reductors_repredicted hcolumns, Live, hstates]
    exact h.mem_reductors
  nodup_reductors k lhs := by
    rw [reductors_repredicted hcolumns]
    exact h.nodup_reductors k lhs
  mem_byRule {rule id} := by
    simp only [hbyRule, spot?, hstates]
    exact h.mem_byRule
  lists_iff {k id} := by
    simp only [lists_repredicted hcolumns, spot?, hstates]
    exact h.lists_iff
  linked {id d link} := by
    simp only [Derives, Live, hstates]
    exact h.linked
  parented {id d link} := by
    simp only [Derives, HasParent, hstates]
    exact h.parented
  tidy_byRule := by
    rw [hbyRule]
    exact h.tidy_byRule
  tidy_columns {k column} := by
    rw [hcolumns, Option.map_eq_some_iff]
    rintro ⟨old, hold, rfl⟩
    exact (h.tidy_columns hold : old.expecting.Tidy ∧ old.reductors.Tidy)

/-- Predicting a category keeps a chart filed. -/
theorem Filed.predict (h : c.Filed g) (k : Nat) (symbol : Category) :
    (c.predict k symbol).Filed g :=
  h.repredict columns_predict Array.size_modify rfl rfl rfl

end IndexedGrammar.Chart
