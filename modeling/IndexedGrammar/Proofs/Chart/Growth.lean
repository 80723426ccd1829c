import IndexedGrammar.Proofs.Chart.Filed

/-!
# Growing charts

A run only adds to a chart, so that everything in it is still there later. Each addition is called for
by states and predictions that are there already, and what a chart calls for, a later one does too.
-/

namespace IndexedGrammar

namespace Chart

/-- Everything in a chart is still in a later one. -/
structure Grows (c later : Chart) : Prop where
  size_columns : later.columns.size = c.columns.size
  layout : later.layout = c.layout
  input : later.input = c.input
  spot? : ∀ {id s}, c.spot? id = some s → later.spot? id = some s
  live : ∀ {id s}, c.Live id s → later.Live id s
  derives : ∀ {id d}, c.Derives id d → later.Derives id d
  isPredicted : ∀ {k symbol}, c.isPredicted k symbol = true → later.isPredicted k symbol = true

/-- A chart grows out of itself. -/
theorem Grows.refl (c : Chart) : c.Grows c :=
  ⟨rfl, rfl, rfl, id, id, id, id⟩

/-- Growing further is growing. -/
theorem Grows.trans {c later latest : Chart} (h : c.Grows later) (h' : later.Grows latest) :
    c.Grows latest where
  size_columns := h'.size_columns.trans h.size_columns
  layout := h'.layout.trans h.layout
  input := h'.input.trans h.input
  spot? hs := h'.spot? (h.spot? hs)
  live hs := h'.live (h.live hs)
  derives hd := h'.derives (h.derives hd)
  isPredicted hk := h'.isPredicted (h.isPredicted hk)

variable {g : Grammar} {c : Chart}

/-- A chart grows when a derivation is packed. -/
theorem grows_pack {id : Nat} {s : Spot} {d : Derivation} (hs : c.Live id s) :
    c.Grows (c.pack id d) where
  size_columns := by rw [columns_pack]
  layout := layout_pack
  input := input_pack
  spot? {j t} ht := by rwa [spot?_pack]
  live ht := live_pack.mpr ht
  derives hd := (derives_pack hs).mpr (.inl hd)
  isPredicted {k symbol} hk := by rwa [isPredicted, columns_pack]

/-- A chart grows when a state is added. -/
theorem grows_grow {item : Item} {stop : Nat} {d : Derivation} : c.Grows (c.grow g item stop d) where
  size_columns := size_columns_grow
  layout := layout_grow
  input := input_grow
  spot? {j t} ht := by rwa [spot?_grow, if_neg (Nat.ne_of_lt (lt_size_of_spot? ht))]
  live ht := live_grow.mpr (.inl ht)
  derives hd := derives_grow.mpr (.inl hd)
  isPredicted {k symbol} hk := by rwa [isPredicted_grow]

/-- A chart grows when a category is predicted. -/
theorem grows_predict {k : Nat} {symbol : Category} : c.Grows (c.predict k symbol) where
  size_columns := Array.size_modify
  layout := rfl
  input := rfl
  spot? := id
  live := id
  derives := id
  isPredicted {j other} hj := by
    unfold isPredicted at hj ⊢
    rw [columns_predict]
    cases hcolumn : c.columns[j]? with
    | none => simp [hcolumn] at hj
    | some column =>
      simp only [hcolumn] at hj
      simp only [Option.map_some]
      split
      · rw [Std.ExtTreeSet.contains_insert, hj, Bool.or_true]
      · exact hj

/-- A state with a derivation in the chart. -/
def Has (c : Chart) (item : Item) (stop : Nat) (d : Derivation) : Prop :=
  ∃ id, c.Live id ⟨item, stop⟩ ∧ c.Derives id d

/-- What is in a chart is in a later one. -/
theorem Has.grows {later : Chart} {item : Item} {stop : Nat} {d : Derivation}
    (h : c.Has item stop d) (hgrows : c.Grows later) : later.Has item stop d := by
  obtain ⟨id, hlive, hderives⟩ := h
  exact ⟨id, hgrows.live hlive, hgrows.derives hderives⟩

/-- What the states and predictions of a chart call for at a column: an item with a derivation that
is to be found up to a column. -/
inductive Warrants (g : Grammar) (c : Chart) (k : Nat) : Item → Nat → Derivation → Prop
  /-- A predicted category calls for its rules. -/
  | begun {symbol : Category} {rule : Nat} {r : Rule} :
      c.isPredicted k symbol = true → (rule, r) ∈ g.rulesFor symbol →
      Warrants g c k ⟨rule, 0, k⟩ k .predicted
  /-- A state before the empty category calls for the state behind it. -/
  | skip {id : Nat} {s : Spot} {symbol : Category} :
      c.Live id s → s.stop = k → g.Expects s.item symbol → symbol.isEpsilon = true →
      Warrants g c k s.item.advance k ⟨some id, none⟩
  /-- A state before a part of speech calls for the state behind it. -/
  | scan {id : Nat} {s : Spot} {symbol : Category} :
      c.Live id s → s.stop = k → g.Expects s.item symbol → symbol.isEpsilon = false →
      g.isPartOfSpeech symbol = true → k + 1 < c.columns.size → c.allows k symbol = true →
      Warrants g c k s.item.advance (k + 1) ⟨some id, none⟩
  /-- A state and a completed state behind it call for the state behind both. -/
  | complete {i j : Nat} {s t : Spot} {symbol : Category} :
      c.Live i s → c.Live j t → g.Expects s.item symbol → symbol.isEpsilon = false →
      g.Completes t.item symbol → t.item.origin = s.stop → k ≤ t.stop →
      Warrants g c k s.item.advance t.stop ⟨some i, some j⟩

/-- An addition that a chart has room for: it lies within the columns, no further left than the
current one, and goes through live states. -/
structure Admits (c : Chart) (k : Nat) (item : Item) (stop : Nat) (d : Derivation) : Prop where
  origin_le : item.origin ≤ stop
  le_stop : k ≤ stop
  stop_lt : stop < c.columns.size
  linked : ∀ link ∈ d.links, ∃ t, c.Live link t

/-- An addition that lies no further left than a column lies no further left than earlier ones. -/
theorem Admits.mono {k first : Nat} {item : Item} {stop : Nat} {d : Derivation}
    (h : c.Admits k item stop d) (hfirst : first ≤ k) : c.Admits first item stop d :=
  { h with le_stop := Nat.le_trans hfirst h.le_stop }

/-- What a chart calls for goes through live states. -/
theorem Warrants.linked {k : Nat} {item : Item} {stop : Nat} {d : Derivation}
    (h : c.Warrants g k item stop d) : ∀ link ∈ d.links, ∃ t, c.Live link t := by
  intro link hlink
  cases h with
  | begun => simp [Derivation.predicted, Derivation.links] at hlink
  | skip hs =>
    obtain rfl : link = _ := by simpa [Derivation.links] using hlink
    exact ⟨_, hs⟩
  | scan hs =>
    obtain rfl : link = _ := by simpa [Derivation.links] using hlink
    exact ⟨_, hs⟩
  | complete hs ht =>
    obtain rfl | rfl : link = _ ∨ link = _ := by simpa [Derivation.links] using hlink
    · exact ⟨_, hs⟩
    · exact ⟨_, ht⟩

/-- A filed chart has room for what it calls for. -/
theorem Warrants.admits {k : Nat} {item : Item} {stop : Nat} {d : Derivation} (hc : c.Filed g)
    (hk : k < c.columns.size) (h : c.Warrants g k item stop d) : c.Admits k item stop d := by
  have hlinked := h.linked
  cases h with
  | begun => exact ⟨Nat.le_refl k, Nat.le_refl k, hk, hlinked⟩
  | skip hs hstop => exact ⟨hstop ▸ (hc.bounds hs.spot?).1, Nat.le_refl k, hk, hlinked⟩
  | scan hs hstop _ _ _ hlt =>
    exact ⟨Nat.le_succ_of_le (hstop ▸ (hc.bounds hs.spot?).1), Nat.le_succ k, hlt, hlinked⟩
  | complete hs ht _ _ _ horigin hle =>
    exact ⟨Nat.le_trans (hc.bounds hs.spot?).1 (horigin ▸ (hc.bounds ht.spot?).1), hle,
      (hc.bounds ht.spot?).2, hlinked⟩

end Chart

end IndexedGrammar
