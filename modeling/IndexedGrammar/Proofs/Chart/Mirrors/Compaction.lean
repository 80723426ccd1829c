import IndexedGrammar.Proofs.Chart.Compaction
import IndexedGrammar.Proofs.Chart.Mirrors
import IndexedGrammar.Proofs.Chart.Parents

/-!
# Compacted charts mirror what they were

A filed chart is mirrored by the chart that compacting makes of it, provided that its states list only states as their
parents. Where nothing was taken out, compacting changes nothing. Charts that mirror each other have the same live
states, list the same ones at each column in the same order, and are written alike.
-/

namespace IndexedGrammar.Chart

variable {f : Nat → Option Nat} {g : Grammar} {c d : Chart} {id n : Nat}

/-! Numbers after compacting -/

/-- The new number of a state after compacting, also of one that is still to come. -/
def relocate (c : Chart) (id : Nat) : Option Nat :=
  if id < c.states.size then c.renumber id else some (c.renumbered.states.size + (id - c.states.size))

/-- A state that there is keeps its place among the live ones. -/
theorem relocate_of_lt (hid : id < c.states.size) : c.relocate id = c.renumber id :=
  if_pos hid

/-- Compacting counts the live states up in the same order. -/
theorem filterMap_renumber {m : Nat} (hm : m ≤ c.states.size) :
    (List.range m).filterMap c.renumber = List.range ((c.states.toList.take m).countP isKept) := by
  induction m with
  | zero => rfl
  | succ m ih =>
    have hstate : c.states[m]? = some c.states[m] := Array.getElem?_eq_getElem hm
    have htake : c.states.toList.take (m + 1) = c.states.toList.take m ++ [c.states[m]] := by
      rw [List.take_add_one, Array.getElem?_toList, hstate, Option.toList_some]
    rw [List.range_succ, List.filterMap_append, ih (Nat.le_of_succ_le hm), htake, List.countP_append]
    cases hremoved : c.states[m].removed with
    | true =>
      have hnone : c.renumber m = none := by rw [renumber_eq, hstate, Option.bind_some, if_pos hremoved]
      simp [hnone, isKept, hremoved]
    | false =>
      have hsome : c.renumber m = some ((c.states.toList.take m).countP isKept) := by
        rw [renumber_eq, hstate, Option.bind_some, if_neg (by simp [hremoved])]
      simp [hsome, isKept, hremoved, List.range_succ]

/-- As many states are left as were live. -/
theorem size_renumbered (c : Chart) : c.renumbered.states.size = c.states.toList.countP isKept := by
  show ((c.states.filter _).map _).size = _
  rw [Array.size_map, ← Array.length_toList, Array.toList_filter, List.countP_eq_length_filter]
  rfl

/-- Compacting numbers the states anew. -/
theorem numbering_relocate (c : Chart) : Numbering c.relocate c.states.size c.renumbered.states.size where
  kept := by
    have hsame : (List.range c.states.size).filterMap c.relocate = (List.range c.states.size).filterMap c.renumber :=
      List.filterMap_congr fun id hid => relocate_of_lt (List.mem_range.mp hid)
    rw [hsame, filterMap_renumber (Nat.le_refl _), size_renumbered, List.take_of_length_le (by simp)]
  beyond k := by
    rw [relocate, if_neg (by omega)]
    congr 1
    omega

/-- What is live has a new number. -/
theorem Live.numbered {s : Spot} (h : c.Live id s) : Numbered c.relocate c.states.size id := by
  obtain ⟨n, hn⟩ := h.renumber
  exact ⟨h.lt_size, n, (relocate_of_lt h.lt_size).trans hn⟩

/-- The states of a chart list only states as their parents. -/
def ParentsInRange (c : Chart) : Prop :=
  ∀ s ∈ c.states, ∀ parent ∈ s.parents, parent < c.states.size

/-- The states of a chart that is booked list only states as their parents. -/
theorem Booked.parentsInRange {severed : Prop} (h : c.Booked severed) : c.ParentsInRange := by
  intro s hmem parent hparent
  obtain ⟨id, hs⟩ := Array.getElem?_of_mem hmem
  refine Nat.lt_of_not_le fun hle => ?_
  have hcount := h.bounded (x := id) (p := parent)
    (by rw [spot?, Array.getElem?_eq_none hle, Option.map_none])
  rw [parentCount_eq hs] at hcount
  exact List.count_eq_zero.mp hcount hparent

/-! Indexes of a filed chart -/

/-- Everything that a column of a filed chart finds is live. -/
theorem Filed.live_of_column (hc : c.Filed g) {k : Nat} {column : Column} (hcolumn : c.columns[k]? = some column) :
    (∀ {item : Item} {id}, column.lookup[item]? = some id → ∃ s, c.Live id s) ∧
      (∀ {symbol id}, id ∈ column.expecting.ids symbol → ∃ s, c.Live id s) ∧
      ∀ {lhs id}, id ∈ column.reductors.ids lhs → ∃ s, c.Live id s := by
  refine ⟨fun {item id} hid => ?_, fun {symbol id} hid => ?_, fun {lhs id} hid => ?_⟩
  · exact ⟨_, hc.find?_iff.mp (show c.find? item k = some id by rw [find?, hcolumn, Option.bind_some, hid])⟩
  · obtain ⟨-, s, hs, -⟩ := hc.mem_expecting.mp (show id ∈ c.expecting k symbol by rwa [expecting, hcolumn])
    exact ⟨s, hs⟩
  · obtain ⟨s, hs, -⟩ := hc.mem_reductors.mp (show id ∈ c.reductors k lhs by rwa [reductors, hcolumn])
    exact ⟨s, hs⟩

/-- A column of a filed chart finds only what has a new number, if live states have. -/
theorem Filed.finds (hc : c.Filed g) (hlive : ∀ {id s}, c.Live id s → Numbered f c.states.size id) {k : Nat}
    {column : Column} (hcolumn : c.columns[k]? = some column) : column.Finds f c.states.size := by
  obtain ⟨hlookup, hexpecting, hreductors⟩ := hc.live_of_column hcolumn
  obtain ⟨htidy, htidy'⟩ := hc.tidy_columns hcolumn
  refine ⟨fun hid => ?_, fun hid => ?_, fun hid => ?_, htidy, htidy'⟩
  · exact hlive (hlookup hid).choose_spec
  · exact hlive (hexpecting hid).choose_spec
  · exact hlive (hreductors hid).choose_spec

/-- A filed chart lies between its first and its last column. -/
theorem Filed.within (hc : c.Filed g) {s : Spot} (hs : c.spot? id = some s) :
    s.item.origin < c.columns.size ∧ s.stop < c.columns.size :=
  ⟨Nat.lt_of_le_of_lt (hc.bounds hs).1 (hc.bounds hs).2, (hc.bounds hs).2⟩

/-- A state of a filed chart stands at its new number with all numbers in it relocated. -/
theorem Filed.getElem?_relocated (hc : c.Filed g) (hparents : c.ParentsInRange) {n : Nat}
    (hn : c.relocate id = some n) :
    c.renumbered.states[n]? = c.states[id]?.map (renumberState c.relocate) := by
  by_cases hid : id < c.states.size
  · rw [relocate_of_lt hid] at hn
    obtain ⟨⟨-, s, hs, hlive, -⟩, -⟩ := renumber_eq_some_iff.mp hn
    have hsame : renumberState c.renumber s = renumberState c.relocate s := by
      refine renumberState_congr (fun e he link hlink => ?_) fun parent hparent => ?_
      · obtain ⟨t, ht⟩ := hc.linked ⟨s, hs, hlive, he⟩ hlink
        exact (relocate_of_lt ht.lt_size).symm
      · exact (relocate_of_lt (hparents s (Array.mem_of_getElem? hs) parent hparent)).symm
    rw [getElem?_renumbered.mpr ⟨id, s, hn, hs, hlive, hsame⟩, hs, Option.map_some]
  · have hn' : ¬n < c.renumbered.states.size := fun hlt => hid ((c.numbering_relocate.lt_iff hn).mpr hlt)
    rw [Array.getElem?_eq_none (Nat.le_of_not_lt hid), Array.getElem?_eq_none (Nat.le_of_not_lt hn'), Option.map_none]

/-- The columns of a filed chart list and look up the relocated numbers. -/
theorem Filed.columns_relocated (hc : c.Filed g) :
    c.renumbered.columns = c.columns.map (renumberColumn c.relocate) := by
  show c.columns.map _ = _
  refine Array.ext_getElem? fun k => ?_
  rw [Array.getElem?_map, Array.getElem?_map]
  cases hcolumn : c.columns[k]? with
  | none => rfl
  | some column =>
    obtain ⟨hlookup, hexpecting, hreductors⟩ := hc.live_of_column hcolumn
    refine congrArg some (renumberColumn_congr (fun id hid => ?_) (fun hid => ?_) (fun symbol id hid => ?_)
      fun lhs id hid => ?_)
    · obtain ⟨s, hs, -⟩ := hc.lists_iff.mp ⟨column, hcolumn, hid⟩
      exact (relocate_of_lt (lt_size_of_spot? hs)).symm
    · exact (relocate_of_lt (hlookup hid).choose_spec.lt_size).symm
    · exact (relocate_of_lt (hexpecting hid).choose_spec.lt_size).symm
    · exact (relocate_of_lt (hreductors hid).choose_spec.lt_size).symm

/-- A filed chart is mirrored by what compacting makes of it. -/
theorem Filed.mirrors_renumbered (hc : c.Filed g) (hparents : c.ParentsInRange) :
    c.Mirrors c.relocate c.renumbered where
  numbering := c.numbering_relocate
  states := hc.getElem?_relocated hparents
  dropped {id} hn := by
    have hid : id < c.states.size := by
      by_contra hid
      simp [relocate, hid] at hn
    refine ⟨c.states[id], Array.getElem?_eq_getElem hid, ?_⟩
    rw [relocate_of_lt hid, renumber_eq, Array.getElem?_eq_getElem hid, Option.bind_some] at hn
    by_contra hlive
    simp [hlive] at hn
  linked {id n s e link} hn hs he hlink := by
    have hid : id < c.states.size := (Array.getElem?_eq_some_iff.mp hs).1
    rw [relocate_of_lt hid] at hn
    obtain ⟨⟨t, ht⟩, -⟩ := renumber_eq_some_iff.mp hn
    obtain ⟨u, hu⟩ := hc.linked ⟨s, hs, (ht.state hs).1, he⟩ hlink
    exact hu.numbered
  within := hc.within
  columns := hc.columns_relocated
  finds := hc.finds Live.numbered
  byRule := by
    refine Index.renumber_congr fun rule id hid => ?_
    obtain ⟨s, hs, -⟩ := hc.mem_byRule.mp hid
    exact (relocate_of_lt (lt_size_of_spot? hs)).symm
  tidy_byRule := hc.tidy_byRule
  layout := rfl
  input := rfl

/-- A state whose numbers all stay is the same. -/
theorem renumberState_some (s : State) : renumberState some s = s := by
  simp [renumberState]

/-- A tidy index whose numbers all stay is the same. -/
theorem renumber_some {κ : Type} [Ord κ] [Std.TransOrd κ] [Std.LawfulEqOrd κ] {index : Index κ} (h : index.Tidy) :
    index.renumber some = index :=
  (Index.tidy_renumber _ _).eq_of_ids h fun key => by rw [Index.ids_renumber, List.filterMap_some]

/-- A column whose numbers all stay is the same. -/
theorem renumberColumn_some {column : Column} (hexpecting : column.expecting.Tidy)
    (hreductors : column.reductors.Tidy) : renumberColumn some column = column := by
  have hlookup : (column.lookup.filterMap fun _ id => some id) = column.lookup := by
    apply Std.ExtTreeMap.ext_getElem?
    intro item
    simp [Std.ExtTreeMap.getElem?_filterMap]
  simp only [renumberColumn, renumber_some hexpecting, renumber_some hreductors, hlookup, Array.filterMap_some]

/-- A chart that mirrors another one with all numbers as they were is that chart. -/
theorem Mirrors.eq_of_some (h : c.Mirrors some d) : d = c := by
  have hstates : d.states = c.states := Array.ext_getElem? fun n => by
    rw [h.states rfl, funext renumberState_some, Option.map_id']
  have hcolumns : d.columns = c.columns := Array.ext_getElem? fun k => by
    rw [getElem?_renumberColumns h.columns]
    cases hcolumn : c.columns[k]? with
    | none => rfl
    | some column =>
      have hfinds := h.finds hcolumn
      rw [Option.map_some, renumberColumn_some hfinds.tidy_expecting hfinds.tidy_reductors]
  have hbyRule : d.byRule = c.byRule := h.byRule.trans (renumber_some h.tidy_byRule)
  obtain ⟨_, _, _, _, _⟩ := d
  exact (Chart.mk.injEq ..).mpr ⟨hstates, hcolumns, hbyRule, h.layout, h.input⟩

/-- If nothing was taken out, every number stays. -/
theorem relocate_of_hasRemoved (hwhole : c.hasRemoved = false) : c.relocate = some := by
  have hkept {m : Nat} (hm : m ≤ c.states.size) : (c.states.toList.take m).countP isKept = m := by
    rw [hasRemoved, Array.any_eq_false'] at hwhole
    refine (List.countP_eq_length.mpr fun s hs => ?_).trans (by simpa using hm)
    have hlive := hwhole s (Array.mem_toList_iff.mp (List.mem_of_mem_take hs))
    simpa [isKept] using hlive
  funext id
  unfold relocate
  split
  · next hid =>
    have hstate : c.states[id].removed = false := by
      rw [hasRemoved, Array.any_eq_false'] at hwhole
      simpa using hwhole _ (Array.getElem_mem hid)
    simp [renumber_eq, Array.getElem?_eq_getElem hid, hstate, hkept (Nat.le_of_lt hid)]
  · next hid =>
    have hsize : c.renumbered.states.size = c.states.size := by
      rw [size_renumbered]
      exact (congrArg _ (List.take_of_length_le (by simp)).symm).trans (hkept (Nat.le_refl _))
    rw [hsize]
    congr 1
    omega

/-- If nothing was taken out, compacting a filed chart leaves it as it is. -/
theorem Filed.renumbered_eq_self (hc : c.Filed g) (hparents : c.ParentsInRange) (hwhole : c.hasRemoved = false) :
    c.renumbered = c := by
  have hmirrors := hc.mirrors_renumbered hparents
  rw [relocate_of_hasRemoved hwhole] at hmirrors
  exact hmirrors.eq_of_some

/-! What is shown of a chart -/

/-- The states at a column that were not taken out, in the order in which they are shown. -/
def shown (c : Chart) (k : Nat) : List Spot :=
  match c.columns[k]? with
  | none => []
  | some column => column.states.toList.filterMap fun id =>
      c.states[id]?.bind fun s => if s.removed then none else some s.spot

/-- Reading a list place by place. -/
theorem filterMap_range_getElem? {α β : Type} (as : List α) (F : α → Option β) :
    (List.range as.length).filterMap (fun i => as[i]?.bind F) = as.filterMap F := by
  induction as using List.reverseRecOn with
  | nil => rfl
  | append_singleton as a ih =>
    rw [List.length_append, List.length_singleton, List.range_succ, List.filterMap_append, List.filterMap_append, ← ih]
    congr 1
    · refine List.filterMap_congr fun i hi => ?_
      rw [List.getElem?_append_left (List.mem_range.mp hi)]
    · simp only [List.filterMap_cons, List.filterMap_nil, List.getElem?_concat_length, Option.bind_some]

namespace Mirrors

/-- Charts that mirror each other have the same live states. -/
theorem liveStates (h : c.Mirrors f d) : d.liveStates = c.liveStates := by
  have hread (c : Chart) : (c.states.toList.filterMap fun s => if s.removed then none else some (s.item, s.stop)) =
      (List.range c.states.size).filterMap fun id => c.states[id]?.bind fun s =>
        if s.removed then none else some (s.item, s.stop) := by
    rw [← filterMap_range_getElem?]
    simp only [Array.length_toList, Array.getElem?_toList]
  unfold Chart.liveStates
  dsimp only
  have hsame := h.filterMap_states (F := fun s => if s.removed then none else some (s.item, s.stop)) (fun _ => rfl)
    (fun s hs => if_pos hs) (List.range c.states.size)
  rw [hread, hread, ← h.numbering.kept, hsame]

/-- Charts that mirror each other show the same states at each column, in the same order. -/
theorem shown (h : c.Mirrors f d) (k : Nat) : d.shown k = c.shown k := by
  unfold Chart.shown
  rw [getElem?_renumberColumns h.columns]
  cases c.columns[k]? with
  | none => rfl
  | some column =>
    simp only [Option.map_some, toList_states_renumberColumn]
    exact h.filterMap_states (fun _ => rfl) (fun s hs => if_pos hs) _

/-- Charts that mirror each other are written alike. -/
theorem text (h : c.Mirrors f d) (g : Grammar) : d.text g = c.text g := by
  unfold Chart.text
  rw [h.columns, Array.toList_map, List.zipIdx_map, List.map_map]
  refine congrArg String.join (List.map_congr_left fun entry _ => ?_)
  obtain ⟨column, k⟩ := entry
  simp only [Function.comp_apply, Prod.map_apply, toList_states_renumberColumn, id_eq]
  refine congrArg (fun lines => _ ++ String.join lines) ?_
  refine h.filterMap_states (F := fun state => do
    let r ← g.rule? state.item.rule
    if state.removed then none
    else some ("  " ++ toString state.item.origin ++ ".." ++ toString k ++ ": " ++
      r.dottedText state.item.dot ++ "\n")) (fun _ => rfl) (fun s hs => ?_) _
  simp [hs]

end Mirrors

end IndexedGrammar.Chart
