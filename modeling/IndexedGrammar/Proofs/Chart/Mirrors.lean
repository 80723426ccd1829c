import IndexedGrammar.Proofs.Chart.Journal
import IndexedGrammar.Proofs.Chart.Numbering

/-!
# Charts under new numbers

A chart mirrors another one if it is that chart under new numbers, where some of the states that were taken out have
no number any more. So one of the two may have been compacted while the other one was not. Nothing that the indexes
of the first chart find has lost its number, and no derivation of a state with a number goes through one without.

Every change of a chart, made in the same way in both, leaves charts that mirror each other. This does not ask for
the charts to be filed: a state that was taken out may be on a rule which has been given away since.
-/

namespace IndexedGrammar

/-- A number below a bound that has a new one. -/
def Numbered (f : Nat → Option Nat) (size id : Nat) : Prop :=
  id < size ∧ ∃ n, f id = some n

/-- What has a new number has it below a higher bound. -/
theorem Numbered.mono {f : Nat → Option Nat} {size larger id : Nat} (h : Numbered f size id) (hle : size ≤ larger) :
    Numbered f larger id :=
  ⟨Nat.lt_of_lt_of_le h.1 hle, h.2⟩

/-- The indexes of a column are tidy and find only what has a new number. -/
structure Column.Finds (f : Nat → Option Nat) (size : Nat) (column : Column) : Prop where
  lookup : ∀ {item : Item} {id}, column.lookup[item]? = some id → Numbered f size id
  expecting : ∀ {symbol id}, id ∈ column.expecting.ids symbol → Numbered f size id
  reductors : ∀ {lhs id}, id ∈ column.reductors.ids lhs → Numbered f size id
  tidy_expecting : column.expecting.Tidy
  tidy_reductors : column.reductors.Tidy

/-- What is found stays below a higher bound. -/
theorem Column.Finds.mono {f : Nat → Option Nat} {size larger : Nat} {column : Column} (h : column.Finds f size)
    (hle : size ≤ larger) : column.Finds f larger where
  lookup hid := (h.lookup hid).mono hle
  expecting hid := (h.expecting hid).mono hle
  reductors hid := (h.reductors hid).mono hle
  tidy_expecting := h.tidy_expecting
  tidy_reductors := h.tidy_reductors

/-- What a column finds has new numbers under two numberings, one after the other, if it has them under each. -/
theorem Column.Finds.bind {f f' : Nat → Option Nat} {size size' : Nat} {column : Column} (h : column.Finds f size)
    (h' : (Chart.renumberColumn f column).Finds f' size') : column.Finds (fun id => (f id).bind f') size := by
  have hnumbered {id : Nat} (hid : Numbered f size id) (hfound : ∀ {x}, f id = some x → Numbered f' size' x) :
      Numbered (fun id => (f id).bind f') size id := by
    obtain ⟨hlt, x, hx⟩ := hid
    obtain ⟨-, y, hy⟩ := hfound hx
    exact ⟨hlt, y, Option.bind_eq_some_iff.mpr ⟨x, hx, hy⟩⟩
  refine ⟨fun {item id} hid => hnumbered (h.lookup hid) fun {x} hx => ?_,
    fun {symbol id} hid => hnumbered (h.expecting hid) fun {x} hx => ?_,
    fun {lhs id} hid => hnumbered (h.reductors hid) fun {x} hx => ?_, h.tidy_expecting, h.tidy_reductors⟩
  · have hfound : (Chart.renumberColumn f column).lookup[item]? = some x := by
      simp only [Chart.renumberColumn, Std.ExtTreeMap.getElem?_filterMap, Option.pbind_eq_bind, hid,
        Option.bind_some, hx]
    exact h'.lookup hfound
  · have hfound : x ∈ (Chart.renumberColumn f column).expecting.ids symbol := by
      simp only [Chart.renumberColumn, Index.ids_renumber]
      exact List.mem_filterMap.mpr ⟨id, hid, hx⟩
    exact h'.expecting hfound
  · have hfound : x ∈ (Chart.renumberColumn f column).reductors.ids lhs := by
      simp only [Chart.renumberColumn, Index.ids_renumber]
      exact List.mem_filterMap.mpr ⟨id, hid, hx⟩
    exact h'.reductors hfound

/-- The second chart is the first one under new numbers. Only states that were taken out have none, and neither an
index nor a derivation of another state leads to them. -/
structure Chart.Mirrors (f : Nat → Option Nat) (c d : Chart) : Prop where
  numbering : Numbering f c.states.size d.states.size
  states : ∀ {id n}, f id = some n → d.states[n]? = c.states[id]?.map (renumberState f)
  dropped : ∀ {id}, f id = none → ∃ s, c.states[id]? = some s ∧ s.removed = true
  linked : ∀ {id n s e link}, f id = some n → c.states[id]? = some s → e ∈ s.derivations → link ∈ e.links →
    Numbered f c.states.size link
  within : ∀ {id s}, c.spot? id = some s → s.item.origin < c.columns.size ∧ s.stop < c.columns.size
  columns : d.columns = c.columns.map (renumberColumn f)
  finds : ∀ {k : Nat} {column}, c.columns[k]? = some column → column.Finds f c.states.size
  byRule : d.byRule = c.byRule.renumber f
  tidy_byRule : c.byRule.Tidy
  layout : d.layout = c.layout
  input : d.input = c.input

namespace Chart.Mirrors

variable {f f' : Nat → Option Nat} {c d d' : Chart} {id n : Nat}

/-! Looking at both charts -/

/-- What has a new number has a state in both charts. -/
theorem exists_state (h : c.Mirrors f d) (hid : Numbered f c.states.size id) :
    ∃ n s, f id = some n ∧ c.states[id]? = some s ∧ d.states[n]? = some (renumberState f s) := by
  obtain ⟨hlt, n, hn⟩ := hid
  refine ⟨n, c.states[id], hn, Array.getElem?_eq_getElem hlt, ?_⟩
  rw [h.states hn, Array.getElem?_eq_getElem hlt, Option.map_some]

/-- A state that was not taken out has a number. -/
theorem exists_number (h : c.Mirrors f d) {s : State} (hs : c.states[id]? = some s) (hlive : s.removed = false) :
    ∃ n, f id = some n := by
  cases hn : f id with
  | some n => exact ⟨n, rfl⟩
  | none =>
    obtain ⟨t, ht, hremoved⟩ := h.dropped hn
    obtain rfl := Option.some.inj (hs.symm.trans ht)
    exact absurd (hlive.symm.trans hremoved) (by simp)

/-- The charts have the same columns. -/
theorem size_columns (h : c.Mirrors f d) : d.columns.size = c.columns.size := by
  rw [h.columns, Array.size_map]

/-- An item is found as the same state. -/
theorem find? (h : c.Mirrors f d) (item : Item) (k : Nat) : d.find? item k = (c.find? item k).bind f :=
  find?_renumberColumns h.columns item k

/-- The same states wait for a category. -/
theorem expecting (h : c.Mirrors f d) (k : Nat) (symbol : Category) :
    d.expecting k symbol = (c.expecting k symbol).filterMap f :=
  expecting_renumberColumns h.columns k symbol

/-- The same completed states begin at a column. -/
theorem reductors (h : c.Mirrors f d) (k : Nat) (lhs : Category) :
    d.reductors k lhs = (c.reductors k lhs).filterMap f :=
  reductors_renumberColumns h.columns k lhs

/-- The same categories are predicted at a column. -/
theorem isPredicted (h : c.Mirrors f d) (k : Nat) (symbol : Category) :
    d.isPredicted k symbol = c.isPredicted k symbol :=
  isPredicted_renumberColumns h.columns k symbol

/-- A category is predicted at the same columns. -/
theorem predictedAt (h : c.Mirrors f d) (category : Category) : d.predictedAt category = c.predictedAt category := by
  unfold Chart.predictedAt
  rw [h.size_columns]
  exact List.filter_congr fun k _ => h.isPredicted k category

/-- The same parts of speech can be found at a position. -/
theorem allows (h : c.Mirrors f d) (k : Nat) (category : Category) : d.allows k category = c.allows k category := by
  rw [Chart.allows, h.input, Chart.allows]

/-- The same states are on a rule. -/
theorem ids_byRule (h : c.Mirrors f d) (rule : Nat) : d.byRule.ids rule = (c.byRule.ids rule).filterMap f := by
  rw [h.byRule, Index.ids_renumber]

/-- What is found by its item has a new number. -/
theorem numbered_of_find? (h : c.Mirrors f d) {item : Item} {k : Nat} (hid : c.find? item k = some id) :
    Numbered f c.states.size id := by
  obtain ⟨column, hcolumn, hlookup⟩ := Option.bind_eq_some_iff.mp hid
  exact (h.finds hcolumn).lookup hlookup

/-- What waits for a category has a new number. -/
theorem numbered_of_mem_expecting (h : c.Mirrors f d) {k : Nat} {symbol : Category} (hid : id ∈ c.expecting k symbol) :
    Numbered f c.states.size id := by
  unfold Chart.expecting at hid
  split at hid
  · next column hcolumn => exact (h.finds hcolumn).expecting hid
  · exact absurd hid List.not_mem_nil

/-- Completed states that a column finds have new numbers. -/
theorem numbered_of_mem_reductors (h : c.Mirrors f d) {k : Nat} {lhs : Category} (hid : id ∈ c.reductors k lhs) :
    Numbered f c.states.size id := by
  unfold Chart.reductors at hid
  split at hid
  · next column hcolumn => exact (h.finds hcolumn).reductors hid
  · exact absurd hid List.not_mem_nil

/-- An item is found as a state in one chart exactly if it is found as its new number in the other. -/
theorem find?_eq_iff (h : c.Mirrors f d) (hid : f id = some n) {item : Item} {k : Nat} :
    d.find? item k = some n ↔ c.find? item k = some id := by
  rw [h.find?, Option.bind_eq_some_iff]
  constructor
  · rintro ⟨other, hother, hn⟩
    exact h.numbering.injective hn hid ▸ hother
  · exact fun hfind => ⟨id, hfind, hid⟩

/-- A derivation through states with new numbers is among those of a state exactly if it is under new numbers. -/
theorem mem_derivations_iff (h : c.Mirrors f d) (hid : f id = some n) {s : State} (hs : c.states[id]? = some s)
    {e : Derivation} (he : ∀ link ∈ e.links, Numbered f c.states.size link) :
    e.under f ∈ (renumberState f s).derivations ↔ e ∈ s.derivations := by
  rw [derivations_renumberState, List.mem_map]
  constructor
  · rintro ⟨other, hother, heq⟩
    have hothers (link : Nat) (hlink : link ∈ other.links) : ∃ x, f link = some x :=
      (h.linked hid hs hother hlink).2
    exact Derivation.under_injective h.numbering hothers (fun link hlink => (he link hlink).2) heq ▸ hother
  · exact fun hmem => ⟨e, hmem, rfl⟩

/-- What is read off the states of a list that were not taken out is the same in both charts. -/
theorem filterMap_states {α : Type} (h : c.Mirrors f d) {F : State → Option α}
    (hsame : ∀ s, F (renumberState f s) = F s) (hremoved : ∀ s, s.removed = true → F s = none) (ids : List Nat) :
    (ids.filterMap f).filterMap (fun n => d.states[n]?.bind F) = ids.filterMap fun id => c.states[id]?.bind F := by
  rw [List.filterMap_filterMap]
  refine List.filterMap_congr fun id _ => ?_
  cases hn : f id with
  | none =>
    obtain ⟨s, hs, hgone⟩ := h.dropped hn
    rw [hs, Option.bind_none, Option.bind_some, hremoved s hgone]
  | some n =>
    rw [Option.bind_some, h.states hn]
    cases c.states[id]? with
    | none => rfl
    | some s => exact hsame s

/-- Of a list, those states that were not taken out and have a property are the same in both charts. -/
theorem filterMap_numbers (h : c.Mirrors f d) {p : State → Bool}
    (hsame : ∀ s, p (renumberState f s) = p s) (hremoved : ∀ s, s.removed = true → p s = false) (ids : List Nat) :
    (ids.filterMap f).filterMap (fun n => d.states[n]?.bind fun s => if p s then some n else none) =
      (ids.filterMap fun id => c.states[id]?.bind fun s => if p s then some id else none).filterMap f := by
  rw [List.filterMap_filterMap, List.filterMap_filterMap]
  refine List.filterMap_congr fun id _ => ?_
  cases hn : f id with
  | none =>
    obtain ⟨s, hs, hgone⟩ := h.dropped hn
    simp [hs, hremoved s hgone]
  | some n =>
    rw [Option.bind_some, h.states hn]
    cases c.states[id]? with
    | none => rfl
    | some s =>
      simp only [Option.map_some, Option.bind_some, hsame]
      split
      · rw [Option.bind_some, hn]
      · rfl

/-! One numbering after another -/

/-- A chart that is numbered anew and then once more is mirrored under both numberings, one after the other. -/
theorem trans (h : c.Mirrors f d) (h' : d.Mirrors f' d') : c.Mirrors (fun id => (f id).bind f') d' where
  numbering := h.numbering.trans h'.numbering
  states {id n} hn := by
    obtain ⟨m, hm, hn⟩ := Option.bind_eq_some_iff.mp hn
    rw [h'.states hn, h.states hm, Option.map_map]
    exact congrArg (Option.map · _) (funext renumberState_renumberState)
  dropped {id} hn := by
    cases hm : f id with
    | none => exact h.dropped hm
    | some m =>
      rw [hm, Option.bind_some] at hn
      obtain ⟨s', hs', hremoved⟩ := h'.dropped hn
      rw [h.states hm] at hs'
      obtain ⟨s, hs, rfl⟩ := Option.map_eq_some_iff.mp hs'
      exact ⟨s, hs, hremoved⟩
  linked {id n s e link} hn hs he hlink := by
    obtain ⟨m, hm, hn⟩ := Option.bind_eq_some_iff.mp hn
    -- a link survives the first numbering, so the second one applies to what it became
    obtain ⟨hlt, x, hx⟩ := h.linked hm hs he hlink
    have hs' : d.states[m]? = some (renumberState f s) := by rw [h.states hm, hs, Option.map_some]
    have hlink' : x ∈ (e.under f).links := by
      rw [Derivation.links_under]
      exact List.mem_filterMap.mpr ⟨link, hlink, hx⟩
    obtain ⟨-, y, hy⟩ := h'.linked hn hs' (List.mem_map.mpr ⟨e, he, rfl⟩) hlink'
    exact ⟨hlt, y, Option.bind_eq_some_iff.mpr ⟨x, hx, hy⟩⟩
  within := h.within
  columns := by
    rw [h'.columns, h.columns, Array.map_map]
    exact congrArg (Array.map · _) (funext renumberColumn_renumberColumn)
  finds {k column} hcolumn := by
    have hcolumn' : d.columns[k]? = some (renumberColumn f column) := by
      rw [getElem?_renumberColumns h.columns, hcolumn, Option.map_some]
    exact (h.finds hcolumn).bind (h'.finds hcolumn')
  byRule := by rw [h'.byRule, h.byRule, Index.renumber_renumber]
  tidy_byRule := h.tidy_byRule
  layout := h'.layout.trans h.layout
  input := h'.input.trans h.input

/-! Changing both charts -/

/-- A state that is changed in the same way in both charts, and keeps its spot. -/
theorem modifyState (h : c.Mirrors f d) (hid : f id = some n) {F G : State → State}
    (hsame : ∀ {s}, c.states[id]? = some s → renumberState f (F s) = G (renumberState f s))
    (hlinks : ∀ {s e link}, c.states[id]? = some s → e ∈ (F s).derivations → link ∈ e.links →
      e ∈ s.derivations ∨ Numbered f c.states.size link)
    (hspot : ∀ s, (F s).spot = s.spot) :
    Mirrors f { c with states := c.states.modify id F } { d with states := d.states.modify n G } where
  numbering := by simpa only [Array.size_modify] using h.numbering
  states {j m} hm := by
    simp only [Array.getElem?_modify]
    rw [h.states hm]
    by_cases hj : id = j
    · subst hj
      obtain rfl := Option.some.inj (hid.symm.trans hm)
      simp only [if_true, Option.map_map]
      cases hs : c.states[id]? with
      | none => rfl
      | some s => simp only [Option.map_some, Function.comp_apply, hsame hs]
    · have hm' : n ≠ m := fun heq => hj (h.numbering.injective (heq ▸ hid) hm)
      rw [if_neg hj, if_neg hm']
  dropped {j} hj := by
    have hne : id ≠ j := fun heq => by
      rw [← heq, hid] at hj
      contradiction
    simp only [Array.getElem?_modify, if_neg hne]
    exact h.dropped hj
  -- a derivation that the change brings in has to link numbered states
  linked {j m s e link} hm hs he hlink := by
    simp only [Array.getElem?_modify] at hs
    simp only [Array.size_modify]
    split at hs
    · next hj =>
      subst hj
      obtain ⟨t, ht, rfl⟩ := Option.map_eq_some_iff.mp hs
      exact (hlinks ht he hlink).elim (fun he => h.linked hm ht he hlink) (·)
    · exact h.linked hm hs he hlink
  within {j s} hs := by
    have hbefore : c.spot? j = some s := by
      rw [← hs, spot?, spot?, Array.getElem?_modify]
      split
      · rw [Option.map_map]
        exact congrArg (Option.map · _) (funext fun s => (hspot s).symm)
      · rfl
    exact h.within hbefore
  columns := h.columns
  finds hcolumn := by simpa only [Array.size_modify] using h.finds hcolumn
  byRule := h.byRule
  tidy_byRule := h.tidy_byRule
  layout := h.layout
  input := h.input

/-- A column that is changed in the same way in both charts. -/
theorem modifyColumn (h : c.Mirrors f d) (k : Nat) {F G : Column → Column}
    (hsame : ∀ {column}, c.columns[k]? = some column → renumberColumn f (F column) = G (renumberColumn f column))
    (hfinds : ∀ {column}, c.columns[k]? = some column → (F column).Finds f c.states.size) :
    Mirrors f { c with columns := c.columns.modify k F } { d with columns := d.columns.modify k G } where
  numbering := h.numbering
  states := h.states
  dropped := h.dropped
  linked := h.linked
  within hs := by
    simp only [Array.size_modify]
    exact h.within hs
  columns := by
    refine Array.ext_getElem? fun j => ?_
    simp only [Array.getElem?_modify, Array.getElem?_map, h.columns]
    split
    · next hj =>
      subst hj
      cases hcolumn : c.columns[k]? with
      | none => rfl
      | some column => simp only [Option.map_some, hsame hcolumn]
    · rfl
  finds {j column} hcolumn := by
    simp only [Array.getElem?_modify] at hcolumn
    split at hcolumn
    · next hj =>
      subst hj
      obtain ⟨old, hold, rfl⟩ := Option.map_eq_some_iff.mp hcolumn
      exact hfinds hold
    · exact h.finds hcolumn
  byRule := h.byRule
  tidy_byRule := h.tidy_byRule
  layout := h.layout
  input := h.input

/-- A state that is added to both charts. -/
theorem push (h : c.Mirrors f d) {s : State}
    (hlinks : ∀ e ∈ s.derivations, ∀ link ∈ e.links, Numbered f c.states.size link)
    (hwithin : s.item.origin < c.columns.size ∧ s.stop < c.columns.size) :
    Mirrors f { c with states := c.states.push s } { d with states := d.states.push (renumberState f s) } where
  numbering := by
    simp only [Array.size_push]
    exact h.numbering.succ
  states {j m} hm := by
    simp only [Array.getElem?_push]
    by_cases hj : j = c.states.size
    · subst hj
      obtain rfl := Option.some.inj (h.numbering.next.symm.trans hm)
      simp
    · have hm' : m ≠ d.states.size := fun heq => hj (h.numbering.injective hm (heq ▸ h.numbering.next))
      rw [if_neg hj, if_neg hm', h.states hm]
  dropped {j} hj := by
    obtain ⟨t, ht, hremoved⟩ := h.dropped hj
    refine ⟨t, ?_, hremoved⟩
    have hlt := (Array.getElem?_eq_some_iff.mp ht).1
    rw [Array.getElem?_push, if_neg (Nat.ne_of_lt hlt), ht]
  linked {j m t e link} hm ht he hlink := by
    simp only [Array.size_push]
    rw [Array.getElem?_push] at ht
    split at ht
    · obtain rfl := Option.some.inj ht
      exact (hlinks e he link hlink).mono (Nat.le_succ _)
    · exact (h.linked hm ht he hlink).mono (Nat.le_succ _)
  within {j t} ht := by
    simp only [spot?, Array.getElem?_push] at ht
    split at ht
    · obtain rfl := Option.some.inj ht
      exact hwithin
    · exact h.within ht
  columns := h.columns
  finds hcolumn := by
    simp only [Array.size_push]
    exact (h.finds hcolumn).mono (Nat.le_succ _)
  byRule := h.byRule
  tidy_byRule := h.tidy_byRule
  layout := h.layout
  input := h.input

/-- A state that is filed under a rule in both charts. -/
theorem pushRule (h : c.Mirrors f d) (hid : f id = some n) (rule : Nat) :
    Mirrors f { c with byRule := c.byRule.push rule id } { d with byRule := d.byRule.push rule n } :=
  { h with
    byRule := by rw [Index.renumber_push _ _ hid, h.byRule]
    tidy_byRule := h.tidy_byRule.push rule id }

/-- A derivation that is noted with the states it goes through in both charts. -/
theorem linkParents (h : c.Mirrors f d) (hid : f id = some n) {e : Derivation}
    (he : ∀ link ∈ e.links, Numbered f c.states.size link) :
    (c.linkParents id e).Mirrors f (d.linkParents n (e.under f)) := by
  unfold Chart.linkParents
  rw [Derivation.links_under]
  generalize e.links = links at he
  induction links generalizing c d with
  | nil => exact h
  | cons link rest ih =>
    obtain ⟨-, m, hm⟩ := he link List.mem_cons_self
    rw [List.filterMap_cons_some hm, List.foldl_cons, List.foldl_cons]
    have hfirst := h.modifyState hm (F := fun s => { s with parents := s.parents ++ [id] })
      (G := fun s => { s with parents := s.parents ++ [n] })
      (fun {s} _ => by simp only [renumberState, List.filterMap_append, List.filterMap_cons_some hid,
        List.filterMap_nil])
      (fun _ he _ => .inl he) fun _ => rfl
    refine ih hfirst fun link hlink => ?_
    rw [Array.size_modify]
    exact he link (List.mem_cons_of_mem _ hlink)

/-- A state that is given one more derivation in both charts, unless it has it. -/
theorem pack (h : c.Mirrors f d) (hid : Numbered f c.states.size id) (hn : f id = some n) {e : Derivation}
    (he : ∀ link ∈ e.links, Numbered f c.states.size link) : (c.pack id e).Mirrors f (d.pack n (e.under f)) := by
  obtain ⟨m, s, hm, hs, hs'⟩ := h.exists_state hid
  obtain rfl := Option.some.inj (hn.symm.trans hm)
  unfold Chart.pack
  rw [hs, hs']
  dsimp only
  by_cases hmem : e ∈ s.derivations
  · rw [if_pos hmem, if_pos ((h.mem_derivations_iff hn hs he).mpr hmem)]
    exact h
  · rw [if_neg hmem, if_neg fun hmem' => hmem ((h.mem_derivations_iff hn hs he).mp hmem')]
    have hderived := h.modifyState hn (F := fun s => { s with derivations := s.derivations ++ [e] })
      (G := fun s => { s with derivations := s.derivations ++ [e.under f] })
      (fun {s} _ => by simp only [renumberState, List.map_append, List.map_cons, List.map_nil, Derivation.under])
      (fun {s e' link} _ he' hlink => by
        rcases List.mem_append.mp he' with he' | he'
        · exact .inl he'
        · obtain rfl := List.mem_singleton.mp he'
          exact .inr (he link hlink))
      fun _ => rfl
    refine hderived.linkParents hn fun link hlink => ?_
    rw [Array.size_modify]
    exact he link hlink

/-- A new state that is filed under its item and its rule in both charts. -/
theorem record (h : c.Mirrors f d) {item : Item} {stop : Nat} {e : Derivation}
    (hwithin : item.origin < c.columns.size ∧ stop < c.columns.size)
    (he : ∀ link ∈ e.links, Numbered f c.states.size link) :
    (c.record item stop e).Mirrors f (d.record item stop (e.under f)) := by
  have hnext := h.numbering.next
  have hpushed := h.push (s := ⟨item, stop, [e], [], false⟩)
    (fun e' he' => List.mem_singleton.mp he' ▸ he) hwithin
  -- the state, then the parents of what it links to, then the column, then the rule
  have hlinked := hpushed.linkParents hnext (e := e) fun link hlink => by
    rw [Array.size_push]
    exact (he link hlink).mono (Nat.le_succ _)
  have hsize := size_states_record c item stop e
  have hfiled := hlinked.modifyColumn stop
    (F := fun column => { column with
      lookup := column.lookup.insert item c.states.size, states := column.states.push c.states.size })
    (G := fun column => { column with
      lookup := column.lookup.insert item d.states.size, states := column.states.push d.states.size })
    (fun {column} _ => by
      simp only [renumberColumn, Column.mk.injEq, and_true]
      refine ⟨?_, Std.ExtTreeMap.ext_getElem? fun {other} => ?_⟩
      · simp [hnext]
      · simp only [Std.ExtTreeMap.getElem?_filterMap, Option.pbind_eq_bind, Std.ExtTreeMap.getElem?_insert]
        split
        · exact hnext
        · rfl)
    (fun {column} hcolumn => by
      have hfinds := hlinked.finds hcolumn
      refine ⟨fun {other id} hid => ?_, hfinds.expecting, hfinds.reductors, hfinds.tidy_expecting,
        hfinds.tidy_reductors⟩
      rw [Std.ExtTreeMap.getElem?_insert] at hid
      split at hid
      · obtain rfl := Option.some.inj hid
        exact ⟨Nat.lt_of_lt_of_eq (Nat.lt_succ_self _) hsize.symm, _, hnext⟩
      · exact hfinds.lookup hid)
  exact hfiled.pushRule hnext item.rule

/-- A completed state that is filed under its left-hand side in both charts. -/
theorem fileReductor (h : c.Mirrors f d) (hid : Numbered f c.states.size id) (hn : f id = some n) (origin : Nat)
    (lhs : Category) : (c.fileReductor origin lhs id).Mirrors f (d.fileReductor origin lhs n) := by
  refine h.modifyColumn origin (fun {column} _ => ?_) fun {column} hcolumn => ?_
  · simp only [renumberColumn, Index.renumber_push _ _ hn]
  · have hfinds := h.finds hcolumn
    refine ⟨hfinds.lookup, hfinds.expecting, fun {other id'} hid' => ?_, hfinds.tidy_expecting,
      hfinds.tidy_reductors.push _ _⟩
    rcases Index.of_mem_push hid' with hid' | rfl
    · exact hfinds.reductors hid'
    · exact hid

/-- A state that is filed under the category it waits for in both charts. -/
theorem fileExpecting (h : c.Mirrors f d) (hid : Numbered f c.states.size id) (hn : f id = some n) (stop : Nat)
    (symbol : Category) : (c.fileExpecting stop symbol id).Mirrors f (d.fileExpecting stop symbol n) := by
  unfold Chart.fileExpecting
  split
  · exact h
  · refine h.modifyColumn stop (fun {column} _ => ?_) fun {column} hcolumn => ?_
    · simp only [renumberColumn, Index.renumber_push _ _ hn]
    · have hfinds := h.finds hcolumn
      refine ⟨hfinds.lookup, fun {other id'} hid' => ?_, hfinds.reductors, hfinds.tidy_expecting.push _ _,
        hfinds.tidy_reductors⟩
      rcases Index.of_mem_push hid' with hid' | rfl
      · exact hfinds.expecting hid'
      · exact hid

/-- A state that is taken out of both charts. -/
theorem strike (h : c.Mirrors f d) (hid : f id = some n) : (c.strike id).Mirrors f (d.strike n) :=
  h.modifyState hid (fun _ => rfl) (fun _ he _ => .inl he) fun _ => rfl

/-- A derivation goes through a state exactly if it goes through its new number under new numbers. -/
theorem mem_links_under (h : c.Mirrors f d) (hid : f id = some n) (e : Derivation) :
    n ∈ (e.under f).links ↔ id ∈ e.links := by
  rw [Derivation.links_under, h.numbering.mem_filterMap hid]

/-- Derivations through a state that are taken away from another one in both charts. -/
theorem dropLinks (h : c.Mirrors f d) (hid : f id = some n) {through m : Nat} (hthrough : f through = some m) :
    (c.dropLinks id through).Mirrors f (d.dropLinks n m) := by
  refine h.modifyState hid (fun {s} _ => ?_) (fun _ he _ => .inl (List.mem_filter.mp he).1) fun _ => rfl
  simp only [renumberState, State.mk.injEq, true_and, and_true]
  rw [List.filter_map]
  refine congrArg _ (List.filter_congr fun e _ => ?_)
  exact decide_eq_decide.mpr (not_congr (h.mem_links_under hthrough e).symm)

/-- A column whose predictions change in the same way in both charts. -/
theorem modifyPredicted (h : c.Mirrors f d) (k : Nat) (F : CategorySet → CategorySet) :
    Mirrors f { c with columns := c.columns.modify k fun column => { column with predicted := F column.predicted } }
      { d with columns := d.columns.modify k fun column => { column with predicted := F column.predicted } } :=
  h.modifyColumn k (fun _ => rfl) fun hcolumn =>
    have hfinds := h.finds hcolumn
    ⟨hfinds.lookup, hfinds.expecting, hfinds.reductors, hfinds.tidy_expecting, hfinds.tidy_reductors⟩

end Chart.Mirrors

end IndexedGrammar
