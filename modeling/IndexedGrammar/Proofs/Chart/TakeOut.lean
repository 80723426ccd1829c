import IndexedGrammar.Proofs.Chart.Journal
import Mathlib.Data.List.Induction

/-!
# Taking a state out

A live state that is taken out is forgotten wherever it was filed, and its parents lose their
derivations through it. The chart stays filed; the state is gone, and so are the derivations through
it, but nothing else. The parents handed on are those that have no derivation any more.
-/

namespace IndexedGrammar

namespace Removal

/-- A removal can be taken back to an earlier one by what it noted since. -/
def LeadsBack (r earlier : Removal) : Prop :=
  ∃ changes, r.changes = changes ++ earlier.changes ∧
    r.chart.Restores changes earlier.chart

/-- Nothing done is nothing to take back. -/
theorem LeadsBack.refl (r : Removal) : r.LeadsBack r :=
  ⟨[], rfl, .refl _⟩

/-- What leads back further leads back. -/
theorem LeadsBack.trans {r middle earlier : Removal} (h : r.LeadsBack middle)
    (h' : middle.LeadsBack earlier) : r.LeadsBack earlier := by
  obtain ⟨later, hlater, hrestores⟩ := h
  obtain ⟨changes, hchanges, hrestores'⟩ := h'
  exact ⟨later ++ changes, by rw [hlater, hchanges, List.append_assoc], hrestores.trans hrestores'⟩

variable {g : Grammar}

/-! Releasing the parents -/

/-- The state of a parent after it was released. -/
def releaseState (id : Nat) (parents : List Nat) (j : Nat) (s : State) : State :=
  if j ∈ parents ∧ s.removed = false then
    { s with derivations := s.derivations.filter fun d => id ∉ d.links } else s

/-- Releasing a state keeps its spot. -/
@[simp] theorem spot_releaseState (id : Nat) (parents : List Nat) (j : Nat) (s : State) :
    (releaseState id parents j s).spot = s.spot := by
  unfold releaseState
  split <;> rfl

/-- Releasing a state keeps its flag. -/
@[simp] theorem removed_releaseState (id : Nat) (parents : List Nat) (j : Nat) (s : State) :
    (releaseState id parents j s).removed = s.removed := by
  unfold releaseState
  split <;> rfl

/-- Releasing a state keeps its parents. -/
@[simp] theorem parents_releaseState (id : Nat) (parents : List Nat) (j : Nat) (s : State) :
    (releaseState id parents j s).parents = s.parents := by
  unfold releaseState
  split <;> rfl

/-- What releasing the parents of a state does: live parents keep the derivations that do not go
through it, and those left without any are handed on. -/
structure Released (id : Nat) (parents : List Nat) (r : Removal) (out : Removal × List Nat) :
    Prop where
  states : ∀ j, out.1.chart.states[j]? = r.chart.states[j]?.map (releaseState id parents j)
  columns : out.1.chart.columns = r.chart.columns
  byRule : out.1.chart.byRule = r.chart.byRule
  layout : out.1.chart.layout = r.chart.layout
  input : out.1.chart.input = r.chart.input
  review : out.1.review = r.review
  breach : out.1.breach = r.breach
  back : out.1.LeadsBack r
  orphans : ∀ j, j ∈ out.2 ↔ j ∈ parents ∧
    ∃ s, out.1.chart.states[j]? = some s ∧ s.removed = false ∧ s.derivations = []

/-- Releasing one more parent. -/
theorem release_concat (r : Removal) (id : Nat) (parents : List Nat) (parent : Nat) :
    r.release id (parents ++ [parent]) =
      match (r.release id parents).1.chart.states[parent]? with
      | none => r.release id parents
      | some state =>
        if state.removed then r.release id parents
        else if state.derivations.all fun d => id ∈ d.links then
          ((r.release id parents).1.dropLinks parent id state.derivations,
            parent :: (r.release id parents).2)
        else ((r.release id parents).1.dropLinks parent id state.derivations,
          (r.release id parents).2) := by
  unfold release
  rw [List.foldl_append]
  rfl

/-- Releasing a parent that is released changes nothing more. -/
theorem releaseState_concat (id : Nat) (parents : List Nat) (parent j : Nat) (s : State) :
    releaseState id (parents ++ [parent]) j s =
      if j = parent ∧ s.removed = false then
        { releaseState id parents j s with
          derivations := (releaseState id parents j s).derivations.filter fun d => id ∉ d.links }
      else releaseState id parents j s := by
  unfold releaseState
  by_cases hremoved : s.removed = false
  · by_cases hj : j = parent
    · subst hj
      by_cases hmem : j ∈ parents
      · simp [hremoved, hmem]
      · simp [hremoved, hmem]
    · simp [hj, hremoved]
  · simp [hremoved]

section Released

variable {id : Nat} {parents : List Nat} {r : Removal} {out : Removal × List Nat} {parent : Nat}

/-- Nothing is released at first. -/
theorem released_nil (r : Removal) (id : Nat) : Released id [] r (r.release id []) where
  states j := by
    have hsame : releaseState id [] j = fun s => s := by
      funext s
      simp [releaseState]
    rw [hsame]
    exact Option.map_id'.symm
  columns := rfl
  byRule := rfl
  layout := rfl
  input := rfl
  review := rfl
  breach := rfl
  back := .refl r
  orphans j := by simp [release]

/-- A parent that is not there, or not live, stays as it is. -/
theorem Released.skip (h : Released id parents r out)
    (hnot : ∀ s, out.1.chart.states[parent]? = some s → s.removed = true) :
    Released id (parents ++ [parent]) r out := by
  refine { h with states := fun j => ?_, orphans := fun j => ?_ }
  · rw [h.states]
    cases hs : r.chart.states[j]? with
    | none => rfl
    | some s =>
      rw [Option.map_some, Option.map_some, releaseState_concat, if_neg]
      rintro ⟨rfl, hlive⟩
      have hremoved := hnot (releaseState id parents j s) (by rw [h.states, hs]; rfl)
      simp [hlive] at hremoved
  · rw [h.orphans, List.mem_append, List.mem_singleton]
    refine ⟨fun hj => ⟨.inl hj.1, hj.2⟩, ?_⟩
    rintro ⟨hj | rfl, s, hs, hremoved, hnil⟩
    · exact ⟨hj, s, hs, hremoved, hnil⟩
    · simp [hnot s hs] at hremoved

variable {state : State}

/-- The states after a live parent lost its derivations through a state. -/
theorem states_dropLinks (hparent : r.chart.states[parent]? = some state) (j : Nat) :
    (r.dropLinks parent id state.derivations).chart.states[j]? =
      if parent = j then
        some { state with derivations := state.derivations.filter fun d => id ∉ d.links }
      else r.chart.states[j]? := by
  simp only [Removal.dropLinks, Chart.dropLinks, Array.getElem?_modify]
  split
  · next hj =>
    subst hj
    rw [hparent, Option.map_some]
  · rfl

/-- A live parent loses its derivations through the state, and is handed on if it is left without any. -/
theorem Released.dropLinks (h : Released id parents r out)
    (hparent : out.1.chart.states[parent]? = some state) (hlive : state.removed = false)
    {orphans : List Nat} (horphans : ∀ j, j ∈ orphans ↔
      j ∈ out.2 ∨ j = parent ∧ state.derivations.filter (fun d => id ∉ d.links) = []) :
    Released id (parents ++ [parent]) r
      (out.1.dropLinks parent id state.derivations, orphans) where
  states j := by
    rw [states_dropLinks hparent]
    split
    · next hj =>
      subst hj
      have hs := h.states parent
      rw [hparent] at hs
      obtain ⟨s, hs, hstate⟩ := Option.map_eq_some_iff.mp hs.symm
      rw [hs, Option.map_some, releaseState_concat, hstate, if_pos]
      exact ⟨rfl, by rw [← removed_releaseState id parents parent s, hstate, hlive]⟩
    · next hj =>
      rw [h.states]
      congr 1
      funext s
      rw [releaseState_concat, if_neg fun hboth => hj hboth.1.symm]
  columns := h.columns
  byRule := h.byRule
  layout := h.layout
  input := h.input
  review := h.review
  breach := h.breach
  back := by
    have hback : (out.1.dropLinks parent id state.derivations).LeadsBack out.1 :=
      ⟨_, rfl, Chart.restores_dropLinks hparent⟩
    exact hback.trans h.back
  orphans j := by
    rw [horphans, h.orphans, List.mem_append, List.mem_singleton]
    simp only [states_dropLinks hparent]
    -- only the parent itself can become an orphan here
    by_cases hj : parent = j
    · subst hj
      simp only [hparent, Option.some.injEq, exists_eq_left', hlive, true_and, or_true, if_true]
      refine ⟨?_, .inr⟩
      rintro (⟨-, hnil⟩ | hnil)
      · rw [hnil, List.filter_nil]
      · exact hnil
    · simp [hj, Ne.symm hj]

/-- Releasing the parents of a state. -/
theorem release_spec (r : Removal) (id : Nat) (parents : List Nat) :
    Released id parents r (r.release id parents) := by
  -- by the parents from the end, as each is released after those before it
  induction parents using List.reverseRecOn with
  | nil => exact released_nil r id
  | append_singleton parents parent ih =>
    rw [release_concat]
    generalize r.release id parents = out at ih
    cases hparent : out.1.chart.states[parent]? with
    | none => exact ih.skip fun s hs => by simp [hparent] at hs
    | some state =>
      dsimp only
      by_cases hremoved : state.removed = true
      · rw [if_pos hremoved]
        exact ih.skip fun s hs => Option.some.inj (hparent.symm.trans hs) ▸ hremoved
      · rw [if_neg hremoved]
        have hlive : state.removed = false := by simpa using hremoved
        split
        · next hall =>
          have hnil : state.derivations.filter (fun d => id ∉ d.links) = [] := by
            simpa [List.filter_eq_nil_iff] using hall
          refine ih.dropLinks hparent hlive fun j => ?_
          rw [and_iff_left hnil, List.mem_cons, or_comm]
        · next hall =>
          have hnil : state.derivations.filter (fun d => id ∉ d.links) ≠ [] := by
            simpa [List.filter_eq_nil_iff] using hall
          refine ih.dropLinks hparent hlive fun j => ?_
          rw [or_iff_left fun hboth => hnil hboth.2]

end Released

/-! Forgetting a state -/

/-- A change of columns alone, which can be taken back. -/
structure ColumnsChanged (f : Nat → Column → Column) (r out : Removal) : Prop where
  columns : ∀ k, out.chart.columns[k]? = r.chart.columns[k]?.map (f k)
  size_columns : out.chart.columns.size = r.chart.columns.size
  states : out.chart.states = r.chart.states
  byRule : out.chart.byRule = r.chart.byRule
  layout : out.chart.layout = r.chart.layout
  input : out.chart.input = r.chart.input
  breach : out.breach = r.breach
  back : out.LeadsBack r

/-- One change of columns after another. -/
theorem ColumnsChanged.trans {f f' : Nat → Column → Column} {r middle out : Removal}
    (h : ColumnsChanged f r middle) (h' : ColumnsChanged f' middle out) :
    ColumnsChanged (fun k column => f' k (f k column)) r out where
  columns k := by
    rw [h'.columns, h.columns, Option.map_map]
    rfl
  size_columns := h'.size_columns.trans h.size_columns
  states := h'.states.trans h.states
  byRule := h'.byRule.trans h.byRule
  layout := h'.layout.trans h.layout
  input := h'.input.trans h.input
  breach := h'.breach.trans h.breach
  back := h'.back.trans h.back

/-- Changing one column in a way that can be taken back. -/
theorem columnsChanged_modifyColumn {r : Removal} {k : Nat} {column : Column} {f : Column → Column}
    {f' : Nat → Column → Column} {undo : Undo} (hcolumn : r.chart.columns[k]? = some column)
    (hback : Chart.Restores [undo]
      { r.chart with columns := r.chart.columns.modify k f } r.chart)
    (hhere : f' k column = f column) (helse : ∀ j column, k ≠ j → f' j column = column) :
    ColumnsChanged f' r (r.modifyColumn k f undo) where
  columns j := by
    show (r.chart.columns.modify k f)[j]? = _
    rw [Array.getElem?_modify]
    split
    · next hj =>
      subst hj
      rw [hcolumn, Option.map_some, Option.map_some, hhere]
    · next hj =>
      rw [funext fun column => helse j column hj]
      exact Option.map_id'.symm
  size_columns := Array.size_modify
  states := rfl
  byRule := rfl
  layout := rfl
  input := rfl
  breach := rfl
  back := ⟨_, rfl, hback⟩

/-- Forgetting the state of an item that is filed. -/
theorem unfileItem_spec {r : Removal} {id : Nat} {state : State}
    (hfind : r.chart.find? state.item state.stop = some id) :
    ColumnsChanged (fun k column => { column with
      lookup := if state.stop = k then column.lookup.erase state.item else column.lookup })
      r (r.unfileItem id state) := by
  obtain ⟨column, hcolumn, hlookup⟩ := Option.bind_eq_some_iff.mp hfind
  simp only [unfileItem, if_pos hfind]
  refine columnsChanged_modifyColumn hcolumn (Chart.restores_unfileItem hcolumn hlookup) ?_ ?_
  · rw [if_pos rfl]
  · intro j column hj
    rw [if_neg hj]

/-- Forgetting a completed state that is filed. -/
theorem unfileReductor_spec {r : Removal} {origin id : Nat} {lhs : Category} {column : Column}
    (hcolumn : r.chart.columns[origin]? = some column) (htidy : column.reductors.Tidy)
    (hid : id ∈ column.reductors.ids lhs) :
    ColumnsChanged (fun k column => { column with
      reductors := if origin = k then
        column.reductors.put lhs ((column.reductors.ids lhs).erase id) else column.reductors })
      r (r.unfileReductor origin lhs id) := by
  have herase := Index.erase?_eq_some_iff.mpr ⟨hid, rfl⟩
  simp only [unfileReductor, Chart.reductors, hcolumn, Option.bind_some, herase]
  refine columnsChanged_modifyColumn hcolumn (Chart.restores_unfileReductor hcolumn htidy hid) ?_ ?_
  · rw [if_pos rfl]
  · intro j column hj
    rw [if_neg hj]

/-- Forgetting a waiting state that is filed. -/
theorem unfileExpecting_spec {r : Removal} {stop id : Nat} {symbol : Category} {column : Column}
    (hcolumn : r.chart.columns[stop]? = some column) (htidy : column.expecting.Tidy)
    (hid : id ∈ column.expecting.ids symbol) :
    ColumnsChanged (fun k column => { column with
      expecting := if stop = k then
        column.expecting.put symbol ((column.expecting.ids symbol).erase id) else column.expecting })
      r (r.unfileExpecting stop symbol id) := by
  have herase := Index.erase?_eq_some_iff.mpr ⟨hid, rfl⟩
  simp only [unfileExpecting, Chart.expecting, hcolumn, Option.bind_some, herase]
  refine columnsChanged_modifyColumn hcolumn (Chart.restores_unfileExpecting hcolumn htidy hid) ?_ ?_
  · rw [if_pos rfl]
  · intro j column hj
    rw [if_neg hj]

/-- Forgetting the state of an item puts no column up for review. -/
theorem review_unfileItem (r : Removal) (id : Nat) (state : State) :
    (r.unfileItem id state).review = r.review := by
  unfold unfileItem
  split <;> rfl

/-- Forgetting a completed state puts no column up for review. -/
theorem review_unfileReductor (r : Removal) (origin : Nat) (lhs : Category) (id : Nat) :
    (r.unfileReductor origin lhs id).review = r.review := by
  unfold unfileReductor
  split <;> rfl

/-- Forgetting a waiting state puts no column up for review by itself. -/
theorem review_unfileExpecting (r : Removal) (stop : Nat) (symbol : Category) (id : Nat) :
    (r.unfileExpecting stop symbol id).review = r.review := by
  unfold unfileExpecting
  split <;> rfl

/-- A column after a state was forgotten wherever it was filed. -/
def unfiledColumn (g : Grammar) (id : Nat) (s : Spot) (k : Nat) (column : Column) : Column :=
  { column with
    lookup := if s.stop = k then column.lookup.erase s.item else column.lookup
    expecting := match g.ahead s.item.rule s.item.dot with
      | .expects symbol => if s.stop = k ∧ symbol.isEpsilon = false then
          column.expecting.put symbol ((column.expecting.ids symbol).erase id)
        else column.expecting
      | _ => column.expecting
    reductors := match g.ahead s.item.rule s.item.dot with
      | .complete lhs => if s.item.origin = k then
          column.reductors.put lhs ((column.reductors.ids lhs).erase id)
        else column.reductors
      | _ => column.reductors }

/-- What is put up for review does not count as a change of columns. -/
theorem ColumnsChanged.reviewing {f : Nat → Column → Column} {r out : Removal} (h : ColumnsChanged f r out)
    (review : Std.ExtTreeSet Nat) : ColumnsChanged f r { out with review } :=
  ⟨h.columns, h.size_columns, h.states, h.byRule, h.layout, h.input, h.breach, h.back⟩

/-- Changes of columns that come to the same. -/
theorem ColumnsChanged.congr {f f' : Nat → Column → Column} {r out : Removal} (h : ColumnsChanged f r out)
    (hsame : ∀ k column, f k column = f' k column) : ColumnsChanged f' r out :=
  { h with columns := fun k => (h.columns k).trans (congrArg (Option.map · _) (funext (hsame k))) }

/-- Forgetting a state that is filed where it should be. -/
theorem columnsChanged_unfile {c : Chart} (h : c.Filed g) {r : Removal}
    (hcolumns : r.chart.columns = c.columns) {id : Nat} {state : State}
    (hs : c.Live id state.spot) :
    ColumnsChanged (unfiledColumn g id state.spot) r (r.unfile g id state) := by
  have hfind : r.chart.find? state.item state.stop = some id := by
    rw [Chart.find?, hcolumns]
    exact h.find?_iff.mpr hs
  obtain ⟨horigin, hstop⟩ := h.lt_columns hs
  -- the item is forgotten at any rate, and then at most one of the two lists changes
  have hitem := unfileItem_spec hfind
  unfold unfile
  generalize r.unfileItem id state = r' at hitem
  dsimp only
  split
  · next hahead => exact absurd hahead (Grammar.ahead_ne_unknown (h.known hs.spot?) _)
  · next lhs hahead =>
    have hid : id ∈ c.reductors state.item.origin lhs := h.mem_reductors.mpr ⟨_, hs, rfl, hahead⟩
    have hcolumn : c.columns[state.item.origin]? = some _ := Array.getElem?_eq_getElem horigin
    rw [Chart.reductors, hcolumn] at hid
    have hcolumn' := hitem.columns state.item.origin
    rw [hcolumns, hcolumn, Option.map_some] at hcolumn'
    have hreductor := unfileReductor_spec hcolumn' (h.tidy_columns hcolumn).2 hid
    refine (hitem.trans hreductor).congr fun k column => ?_
    simp only [unfiledColumn, State.spot, hahead]
    rfl
  · next symbol hahead =>
    split
    · next hepsilon =>
      refine hitem.congr fun k column => ?_
      simp only [unfiledColumn, State.spot, hahead, hepsilon, Bool.true_eq_false, and_false, if_false]
      rfl
    · next hepsilon =>
      have hepsilon' : symbol.isEpsilon = false := by simpa using hepsilon
      have hid : id ∈ c.expecting state.stop symbol :=
        h.mem_expecting.mpr ⟨hepsilon', _, hs, rfl, hahead⟩
      have hcolumn : c.columns[state.stop]? = some _ := Array.getElem?_eq_getElem hstop
      rw [Chart.expecting, hcolumn] at hid
      have hcolumn' := hitem.columns state.stop
      rw [hcolumns, hcolumn, Option.map_some] at hcolumn'
      have hexpecting := unfileExpecting_spec hcolumn' (h.tidy_columns hcolumn).1 hid
      have hboth : ColumnsChanged (unfiledColumn g id state.spot) r
          (r'.unfileExpecting state.stop symbol id) := by
        refine (hitem.trans hexpecting).congr fun k column => ?_
        simp only [unfiledColumn, State.spot, hahead, hepsilon', and_true]
        rfl
      split
      · exact hboth.reviewing _
      · exact hboth

/-- Forgetting a state puts its column up for review if it expects a nonterminal, and no other column. -/
theorem mem_review_unfile {r : Removal} {id : Nat} {state : State} {k : Nat} :
    k ∈ (r.unfile g id state).review ↔ k ∈ r.review ∨
      k = state.stop ∧ ∃ symbol, g.Expects state.item symbol ∧ g.isNonterminal symbol = true := by
  have hitem := review_unfileItem r id state
  -- nothing is put up for review unless the state expects a nonterminal
  have hsame {out : Removal} (hreview : out.review = r.review)
      (hnone : ∀ symbol, g.Expects state.item symbol → g.isNonterminal symbol = false) :
      k ∈ out.review ↔ k ∈ r.review ∨
        k = state.stop ∧ ∃ symbol, g.Expects state.item symbol ∧ g.isNonterminal symbol = true := by
    rw [hreview]
    refine ⟨.inl, ?_⟩
    rintro (hk | ⟨-, symbol, hexpects, hnonterminal⟩)
    · exact hk
    · simp [hnone symbol hexpects] at hnonterminal
  unfold unfile
  dsimp only
  split
  · next hahead =>
    refine hsame hitem fun symbol hexpects => ?_
    rw [Grammar.Expects, hahead] at hexpects
    contradiction
  · next lhs hahead =>
    refine hsame ((review_unfileReductor _ _ _ _).trans hitem) fun symbol hexpects => ?_
    rw [Grammar.Expects, hahead] at hexpects
    contradiction
  · next symbol hahead =>
    have hexpects : g.Expects state.item symbol := hahead
    split
    · next hepsilon =>
      refine hsame hitem fun other hother => ?_
      obtain rfl := hexpects.unique hother
      simp [Grammar.isNonterminal, hepsilon]
    · have hexpecting := (review_unfileExpecting (r.unfileItem id state) state.stop symbol id).trans hitem
      split
      · next hnonterminal =>
        rw [Std.ExtTreeSet.mem_insert, Std.compare_eq_iff_eq, hexpecting, or_comm, eq_comm,
          and_iff_left ⟨symbol, hexpects, hnonterminal⟩]
      · next hterminal =>
        refine hsame hexpecting fun other hother => ?_
        obtain rfl := hexpects.unique hother
        exact Bool.eq_false_iff.mpr hterminal

/-! What the columns find afterwards -/

section Unfiled

variable {c c' : Chart} {id : Nat} {s : Spot}

/-- Items that are found after a state was forgotten. -/
theorem find?_unfiled (hcolumns : ∀ k, c'.columns[k]? = c.columns[k]?.map (unfiledColumn g id s k))
    (item : Item) (k : Nat) :
    c'.find? item k = if s.item = item ∧ s.stop = k then none else c.find? item k := by
  unfold Chart.find?
  rw [hcolumns]
  cases c.columns[k]? with
  | none => simp
  | some column =>
    simp only [Option.map_some, Option.bind_some, unfiledColumn]
    by_cases hk : s.stop = k
    · simp only [hk, if_true, and_true, Std.ExtTreeMap.getElem?_erase, Std.compare_eq_iff_eq]
    · simp only [hk, if_false, and_false]

/-- States that wait after a state was forgotten. -/
theorem expecting_unfiled
    (hcolumns : ∀ k, c'.columns[k]? = c.columns[k]?.map (unfiledColumn g id s k)) (k : Nat)
    (symbol : Category) : c'.expecting k symbol =
      if s.stop = k ∧ g.Expects s.item symbol ∧ symbol.isEpsilon = false then
        (c.expecting k symbol).erase id else c.expecting k symbol := by
  unfold Chart.expecting Grammar.Expects
  rw [hcolumns]
  cases c.columns[k]? with
  | none => simp
  | some column =>
    simp only [Option.map_some, unfiledColumn]
    cases g.ahead s.item.rule s.item.dot with
    | unknown => simp
    | complete lhs => simp
    | expects other =>
      simp only [Grammar.Ahead.expects.injEq]
      by_cases hk : s.stop = k
      · by_cases hother : other = symbol
        · subst hother
          cases hepsilon : other.isEpsilon with
          | true => simp
          | false => simp [hk, Index.ids_put]
        · cases other.isEpsilon with
          | true => simp [hother]
          | false => simp [hk, Index.ids_put, hother]
      · simp [hk]

/-- Completed states that are found after a state was forgotten. -/
theorem reductors_unfiled
    (hcolumns : ∀ k, c'.columns[k]? = c.columns[k]?.map (unfiledColumn g id s k)) (k : Nat)
    (lhs : Category) : c'.reductors k lhs =
      if s.item.origin = k ∧ g.Completes s.item lhs then
        (c.reductors k lhs).erase id else c.reductors k lhs := by
  unfold Chart.reductors Grammar.Completes
  rw [hcolumns]
  cases c.columns[k]? with
  | none => simp
  | some column =>
    simp only [Option.map_some, unfiledColumn]
    cases g.ahead s.item.rule s.item.dot with
    | unknown => simp
    | expects symbol => simp
    | complete other =>
      simp only [Grammar.Ahead.complete.injEq]
      by_cases hk : s.item.origin = k
      · by_cases hother : other = lhs
        · simp [hk, hother, Index.ids_put]
        · simp [hk, hother, Index.ids_put]
      · simp [hk]

/-- What is predicted after a state was forgotten. -/
theorem isPredicted_unfiled
    (hcolumns : ∀ k, c'.columns[k]? = c.columns[k]?.map (unfiledColumn g id s k)) (k : Nat)
    (symbol : Category) : c'.isPredicted k symbol = c.isPredicted k symbol := by
  unfold Chart.isPredicted
  rw [hcolumns]
  cases c.columns[k]? <;> rfl

/-- States that are listed after a state was forgotten. -/
theorem lists_unfiled (hcolumns : ∀ k, c'.columns[k]? = c.columns[k]?.map (unfiledColumn g id s k))
    {k j : Nat} : c'.Lists k j ↔ c.Lists k j := by
  unfold Chart.Lists
  rw [hcolumns]
  cases c.columns[k]? <;> simp [unfiledColumn]

end Unfiled

/-- What is in a list without repetitions from which a number was taken out under a condition. -/
theorem mem_ite_erase {P : Prop} [Decidable P] {ids : List Nat} (hids : ids.Nodup) {id gone : Nat} :
    id ∈ (if P then ids.erase gone else ids) ↔ id ∈ ids ∧ ¬(P ∧ id = gone) := by
  split
  · next h => rw [hids.mem_erase_iff, and_comm, and_iff_right h]
  · next h => exact (and_iff_left fun hboth => h hboth.1).symm

/-- Whoever is no longer live is struck off the rolls. -/
theorem isRoll_erase {c c' : Chart} {P : Spot → Prop} {ids : List Nat} (h : c.IsRoll P ids) {id : Nat}
    {s : Spot} (hs : c.Live id s) (hlive_iff : ∀ {j t}, c'.Live j t ↔ c.Live j t ∧ j ≠ id)
    [Decidable (P s)] : c'.IsRoll P (if P s then ids.erase id else ids) where
  nodup := by
    split
    · exact h.nodup.erase id
    · exact h.nodup
  mem_iff {j} := by
    rw [mem_ite_erase h.nodup, h.mem_iff]
    simp only [hlive_iff]
    constructor
    · rintro ⟨⟨t, ht, hP⟩, hnot⟩
      refine ⟨t, ⟨ht, ?_⟩, hP⟩
      rintro rfl
      obtain rfl := ht.unique hs
      exact hnot ⟨hP, rfl⟩
    · rintro ⟨t, ⟨ht, hne⟩, hP⟩
      exact ⟨⟨t, ht, hP⟩, fun hgone => hne hgone.2⟩

section Filed

variable {c c' : Chart} {id : Nat} {s : Spot}

/-- All live states are found after a state was forgotten that is no longer live. -/
theorem find?_unfiled_iff (h : c.Filed g) (hs : c.Live id s)
    (hcolumns : ∀ k, c'.columns[k]? = c.columns[k]?.map (unfiledColumn g id s k))
    (hlive_iff : ∀ {j t}, c'.Live j t ↔ c.Live j t ∧ j ≠ id) {item : Item} {stop j : Nat} :
    c'.find? item stop = some j ↔ c'.Live j ⟨item, stop⟩ := by
  rw [find?_unfiled hcolumns, hlive_iff]
  split
  · next heq =>
    obtain ⟨rfl, rfl⟩ := heq
    exact ⟨fun hnone => absurd hnone (by simp), fun hj => absurd (h.unique hj.1 hs) hj.2⟩
  · next hne =>
    rw [h.find?_iff]
    refine ⟨fun hj => ⟨hj, ?_⟩, And.left⟩
    rintro rfl
    have heq := hj.unique hs
    exact hne ⟨congrArg Spot.item heq.symm, congrArg Spot.stop heq.symm⟩

/-- Those that wait are still on a roll after a state was forgotten. -/
theorem isRoll_expecting_unfiled (h : c.Filed g) (hs : c.Live id s)
    (hcolumns : ∀ k, c'.columns[k]? = c.columns[k]?.map (unfiledColumn g id s k))
    (hlive_iff : ∀ {j t}, c'.Live j t ↔ c.Live j t ∧ j ≠ id) (k : Nat) (symbol : Category) :
    c'.IsRoll (fun t => t.stop = k ∧ g.Expects t.item symbol ∧ symbol.isEpsilon = false)
      (c'.expecting k symbol) := by
  rw [expecting_unfiled hcolumns]
  exact isRoll_erase (h.isRoll_expecting k symbol) hs hlive_iff

/-- The completed states are still on a roll after a state was forgotten. -/
theorem isRoll_reductors_unfiled (h : c.Filed g) (hs : c.Live id s)
    (hcolumns : ∀ k, c'.columns[k]? = c.columns[k]?.map (unfiledColumn g id s k))
    (hlive_iff : ∀ {j t}, c'.Live j t ↔ c.Live j t ∧ j ≠ id) (k : Nat) (lhs : Category) :
    c'.IsRoll (fun t => t.item.origin = k ∧ g.Completes t.item lhs) (c'.reductors k lhs) := by
  rw [reductors_unfiled hcolumns]
  exact isRoll_erase (h.isRoll_reductors k lhs) hs hlive_iff

/-- Forgetting a state keeps the columns tidy. -/
theorem tidy_columns_unfiled (h : c.Filed g)
    (hcolumns : ∀ k, c'.columns[k]? = c.columns[k]?.map (unfiledColumn g id s k)) {k : Nat}
    {column : Column} (hcolumn : c'.columns[k]? = some column) :
    column.expecting.Tidy ∧ column.reductors.Tidy := by
  rw [hcolumns] at hcolumn
  obtain ⟨old, hold, rfl⟩ := Option.map_eq_some_iff.mp hcolumn
  obtain ⟨hexpecting, hreductors⟩ := h.tidy_columns hold
  constructor
  · dsimp only [unfiledColumn]
    split
    · split
      · exact hexpecting.put _ _
      · exact hexpecting
    · exact hexpecting
  · dsimp only [unfiledColumn]
    split
    · split
      · exact hreductors.put _ _
      · exact hreductors
    · exact hreductors

/-- A chart is filed after one of its states was forgotten wherever it was filed, if the derivations
through the state are gone. -/
theorem filed_unfiled (h : c.Filed g) (hs : c.Live id s)
    (hcolumns : ∀ k, c'.columns[k]? = c.columns[k]?.map (unfiledColumn g id s k))
    (hsize : c'.columns.size = c.columns.size) (hlayout : c'.layout = c.layout)
    (hbyRule : c'.byRule = c.byRule) (hspot : ∀ j, c'.spot? j = c.spot? j)
    (hlive_iff : ∀ {j t}, c'.Live j t ↔ c.Live j t ∧ j ≠ id)
    (hderives_iff : ∀ {j d}, c'.Derives j d ↔ c.Derives j d ∧ j ≠ id ∧ id ∉ d.links)
    (hparent : ∀ {j parent}, c.HasParent j parent → c'.HasParent j parent) : c'.Filed g where
  size_columns := by rw [hsize, hlayout, h.size_columns]
  bounds {j t} := by
    rw [hspot, hsize]
    exact h.bounds
  known {j t} := by
    rw [hspot]
    exact h.known
  find?_iff := find?_unfiled_iff h hs hcolumns hlive_iff
  mem_expecting := (isRoll_expecting_unfiled h hs hcolumns hlive_iff _ _).mem_expecting
  nodup_expecting k symbol := (isRoll_expecting_unfiled h hs hcolumns hlive_iff k symbol).nodup
  mem_reductors := (isRoll_reductors_unfiled h hs hcolumns hlive_iff _ _).mem_iff
  nodup_reductors k lhs := (isRoll_reductors_unfiled h hs hcolumns hlive_iff k lhs).nodup
  mem_byRule {rule j} := by
    simp only [hbyRule, hspot]
    exact h.mem_byRule
  lists_iff {k j} := by
    simp only [lists_unfiled hcolumns, hspot]
    exact h.lists_iff
  linked {j d link} hd hlink := by
    obtain ⟨hd, -, hid⟩ := hderives_iff.mp hd
    obtain ⟨t, ht⟩ := h.linked hd hlink
    exact ⟨t, hlive_iff.mpr ⟨ht, fun heq => hid (heq ▸ hlink)⟩⟩
  parented hd hlink := hparent (h.parented (hderives_iff.mp hd).1 hlink)
  tidy_byRule := by
    rw [hbyRule]
    exact h.tidy_byRule
  tidy_columns := tidy_columns_unfiled h hcolumns

end Filed

/-! What the states are afterwards -/

/-- A state after one state was struck and its parents were released. -/
def takenOutState (id : Nat) (parents : List Nat) (j : Nat) (s : State) : State :=
  releaseState id parents j (if id = j then { s with removed := true } else s)

section TakenOut

variable {c c' : Chart} {id : Nat} {parents : List Nat}

/-- Taking a state out keeps all spots. -/
theorem spot?_takenOut (hstates : ∀ j, c'.states[j]? = c.states[j]?.map (takenOutState id parents j))
    (j : Nat) : c'.spot? j = c.spot? j := by
  rw [Chart.spot?, hstates, Option.map_map, Chart.spot?]
  congr 1
  funext s
  simp only [Function.comp_apply, takenOutState, spot_releaseState]
  split <;> rfl

/-- The live states are the others. -/
theorem live_takenOut (hstates : ∀ j, c'.states[j]? = c.states[j]?.map (takenOutState id parents j))
    {j : Nat} {t : Spot} : c'.Live j t ↔ c.Live j t ∧ j ≠ id := by
  simp only [Chart.Live, hstates, Option.map_eq_some_iff, takenOutState]
  constructor
  · rintro ⟨-, ⟨old, hold, rfl⟩, hremoved, hspot⟩
    rw [removed_releaseState] at hremoved
    rw [spot_releaseState] at hspot
    split at hremoved
    · contradiction
    · next hj =>
      rw [if_neg hj] at hspot
      exact ⟨⟨old, hold, hremoved, hspot⟩, Ne.symm hj⟩
  · rintro ⟨⟨old, hold, hremoved, hspot⟩, hj⟩
    refine ⟨_, ⟨old, hold, rfl⟩, ?_, ?_⟩
    · rw [removed_releaseState, if_neg (Ne.symm hj), hremoved]
    · rw [spot_releaseState, if_neg (Ne.symm hj), hspot]

/-- The derivations of live states are those of the others that do not go through the state, if these are
known to it. -/
theorem derives_takenOut (hstates : ∀ j, c'.states[j]? = c.states[j]?.map (takenOutState id parents j))
    (hparents : ∀ {j d}, c.Derives j d → id ∈ d.links → j ∈ parents) {j : Nat} {d : Derivation} :
    c'.Derives j d ↔ c.Derives j d ∧ j ≠ id ∧ id ∉ d.links := by
  constructor
  · rintro ⟨s, hs, hremoved, hd⟩
    have hne : j ≠ id := ((live_takenOut hstates).mp ⟨s, hs, hremoved, rfl⟩).2
    rw [hstates] at hs
    obtain ⟨old, hold, rfl⟩ := Option.map_eq_some_iff.mp hs
    rw [takenOutState, removed_releaseState, if_neg (Ne.symm hne)] at hremoved
    simp only [takenOutState, if_neg (Ne.symm hne), releaseState] at hd
    split at hd
    · rw [List.mem_filter] at hd
      exact ⟨⟨old, hold, hremoved, hd.1⟩, hne, by simpa using hd.2⟩
    · next hnot =>
      have hd' : c.Derives j d := ⟨old, hold, hremoved, hd⟩
      exact ⟨hd', hne, fun hlink => hnot ⟨hparents hd' hlink, hremoved⟩⟩
  · rintro ⟨⟨old, hold, hremoved, hd⟩, hne, hlink⟩
    refine ⟨_, by rw [hstates, hold]; rfl, ?_, ?_⟩
    · rw [takenOutState, removed_releaseState, if_neg (Ne.symm hne), hremoved]
    · simp only [takenOutState, if_neg (Ne.symm hne), releaseState]
      split
      · exact List.mem_filter.mpr ⟨hd, by simpa using hlink⟩
      · exact hd

/-- Taking a state out keeps all parents. -/
theorem hasParent_takenOut
    (hstates : ∀ j, c'.states[j]? = c.states[j]?.map (takenOutState id parents j)) {j parent : Nat}
    (hj : c.HasParent j parent) : c'.HasParent j parent := by
  obtain ⟨old, hold, hmem⟩ := hj
  refine ⟨_, by rw [hstates, hold]; rfl, ?_⟩
  rw [takenOutState, parents_releaseState]
  split <;> exact hmem

end TakenOut

/-- What taking a live state out does: the state is gone, and so are the derivations through it. The
parents handed on are those left without a derivation. -/
structure TakenOut (g : Grammar) (id : Nat) (s : Spot) (r : Removal) (out : Removal × List Nat) :
    Prop where
  filed : out.1.chart.Filed g
  size_columns : out.1.chart.columns.size = r.chart.columns.size
  layout : out.1.chart.layout = r.chart.layout
  input : out.1.chart.input = r.chart.input
  spot? : ∀ j, out.1.chart.spot? j = r.chart.spot? j
  live_iff : ∀ {j t}, out.1.chart.Live j t ↔ r.chart.Live j t ∧ j ≠ id
  derives_iff : ∀ {j d}, out.1.chart.Derives j d ↔ r.chart.Derives j d ∧ j ≠ id ∧ id ∉ d.links
  isPredicted : ∀ k symbol, out.1.chart.isPredicted k symbol = r.chart.isPredicted k symbol
  breach : out.1.breach = r.breach
  back : out.1.LeadsBack r
  review : ∀ k, k ∈ out.1.review ↔ k ∈ r.review ∨
    k = s.stop ∧ ∃ symbol, g.Expects s.item symbol ∧ g.isNonterminal symbol = true
  orphans : ∀ {j d}, r.chart.Derives j d → j ≠ id → (∀ e, ¬out.1.chart.Derives j e) → j ∈ out.2
  orphaned : ∀ j ∈ out.2, ∀ d, ¬out.1.chart.Derives j d

/-- The states after one was taken out. -/
theorem states_takeOut (r : Removal) (id : Nat) (state : State) (j : Nat) :
    (r.takeOut g id state).1.chart.states[j]? =
      r.chart.states[j]?.map (takenOutState id state.parents j) := by
  rw [takeOut, (release_spec _ id state.parents).states, states_unfile]
  show ((r.chart.states.modify id _)[j]?).map _ = _
  rw [Array.getElem?_modify]
  unfold takenOutState
  split
  · rw [Option.map_map]
    rfl
  · rfl

/-- A live state of a filed chart knows the states that have derivations through it. -/
theorem mem_parents {c : Chart} (h : c.Filed g) {id : Nat} {state : State}
    (hstate : c.states[id]? = some state) {j : Nat} {d : Derivation} (hd : c.Derives j d)
    (hlink : id ∈ d.links) : j ∈ state.parents := by
  obtain ⟨t, ht, hmem⟩ := h.parented hd hlink
  obtain rfl := Option.some.inj (hstate.symm.trans ht)
  exact hmem

/-- Taking a live state out. -/
theorem takeOut_spec {r : Removal} (h : r.chart.Filed g) {id : Nat} {state : State}
    (hstate : r.chart.states[id]? = some state) (hlive : state.removed = false) :
    TakenOut g id state.spot r (r.takeOut g id state) := by
  have hs : r.chart.Live id state.spot := ⟨state, hstate, hlive, rfl⟩
  let struck : Removal :=
    { r with chart := r.chart.strike id, changes := .struck id :: r.changes }
  have hstruck : struck.LeadsBack r := ⟨_, rfl, Chart.restores_strike hstate hlive⟩
  have hunfiled := columnsChanged_unfile h (r := struck) rfl hs
  have hreview (k : Nat) : k ∈ (struck.unfile g id state).review ↔ _ := mem_review_unfile
  have hreleased := release_spec (struck.unfile g id state) id state.parents
  have hstates := states_takeOut (g := g) r id state
  have htake : r.takeOut g id state = (struck.unfile g id state).release id state.parents := rfl
  -- what was proved of unfiling and releasing is all that is used of them below
  rw [htake] at hstates ⊢
  generalize (struck.unfile g id state).release id state.parents = out at hreleased hstates
  generalize struck.unfile g id state = unfiled at hunfiled hreview hreleased
  have hcolumns (k : Nat) : out.1.chart.columns[k]? =
      r.chart.columns[k]?.map (unfiledColumn g id state.spot k) := by
    rw [hreleased.columns, hunfiled.columns]
    rfl
  have hsize : out.1.chart.columns.size = r.chart.columns.size :=
    (congrArg Array.size hreleased.columns).trans hunfiled.size_columns
  have hlive_iff {j : Nat} {t : Spot} : out.1.chart.Live j t ↔ r.chart.Live j t ∧ j ≠ id :=
    live_takenOut hstates
  have hderives_iff {j : Nat} {d : Derivation} : out.1.chart.Derives j d ↔
      r.chart.Derives j d ∧ j ≠ id ∧ id ∉ d.links := derives_takenOut hstates (mem_parents h hstate)
  exact {
    filed := filed_unfiled h hs hcolumns hsize (hreleased.layout.trans hunfiled.layout)
      (hreleased.byRule.trans hunfiled.byRule) (spot?_takenOut hstates) hlive_iff hderives_iff
      (hasParent_takenOut hstates)
    size_columns := hsize
    layout := hreleased.layout.trans hunfiled.layout
    input := hreleased.input.trans hunfiled.input
    spot? := spot?_takenOut hstates
    live_iff := hlive_iff
    derives_iff := hderives_iff
    isPredicted := isPredicted_unfiled hcolumns
    breach := hreleased.breach.trans hunfiled.breach
    back := hreleased.back.trans (hunfiled.back.trans hstruck)
    review := fun k => by
      rw [hreleased.review]
      exact hreview k
    orphans := by
      rintro j d hd hne hnone
      obtain ⟨t, ht⟩ := hd.live
      obtain ⟨s, hs', hremoved, -⟩ := hlive_iff.mpr ⟨ht, hne⟩
      -- it is left without a derivation, so the one it had went through the state
      have hlink : id ∈ d.links := by
        by_contra hlink
        exact hnone d (hderives_iff.mpr ⟨hd, hne, hlink⟩)
      have hnil : s.derivations = [] :=
        List.eq_nil_iff_forall_not_mem.mpr fun e he => hnone e ⟨s, hs', hremoved, he⟩
      exact (hreleased.orphans j).mpr ⟨mem_parents h hstate hd hlink, s, hs', hremoved, hnil⟩
    orphaned := by
      rintro j hj d ⟨s, hs', -, hd⟩
      obtain ⟨-, s', hs'', -, hnil⟩ := (hreleased.orphans j).mp hj
      obtain rfl := Option.some.inj (hs'.symm.trans hs'')
      rw [hnil] at hd
      exact List.not_mem_nil hd }

end Removal

end IndexedGrammar
