import IndexedGrammar.Chart.Compaction
import IndexedGrammar.Proofs.Index
import Mathlib.Data.List.Range

/-!
# New numbers

A numbering gives new numbers to some of the states of a chart, in the same order and without gaps, and new
numbers to all states that are still to come. Here it is shown what becomes of derivations, states, columns and
lookups under new numbers, whichever numbering it is, and that one numbering after another is a numbering.
-/

namespace IndexedGrammar

/-- New numbers for the first `m` numbers. Those that keep one are counted up to `n` in the same order, and all
that are still to come keep their distance. -/
structure Numbering (f : Nat → Option Nat) (m n : Nat) : Prop where
  kept : (List.range m).filterMap f = List.range n
  beyond : ∀ k, f (m + k) = some (n + k)

namespace Numbering

variable {f f' : Nat → Option Nat} {l m n i j x y : Nat}

/-- One numbering after another. -/
theorem trans (h : Numbering f l m) (h' : Numbering f' m n) : Numbering (fun id => (f id).bind f') l n where
  kept := by rw [← List.filterMap_filterMap, h.kept, h'.kept]
  beyond k := by rw [h.beyond, Option.bind_some, h'.beyond]

/-- There is a number for the next state. -/
theorem next (h : Numbering f m n) : f m = some n :=
  h.beyond 0

/-- What numbers what there is numbers one more. -/
theorem succ (h : Numbering f m n) : Numbering f (m + 1) (n + 1) where
  kept := by
    rw [List.range_succ, List.filterMap_append, h.kept, List.filterMap_cons_some h.next, List.filterMap_nil,
      List.range_succ]
  beyond k := by rw [Nat.add_right_comm, Nat.add_assoc m, h.beyond, Nat.add_right_comm, Nat.add_assoc n]

/-- What numbers what there is numbers any more of it. -/
theorem add (h : Numbering f m n) (k : Nat) : Numbering f (m + k) (n + k) := by
  induction k with
  | zero => exact h
  | succ k ih => exact ih.succ

/-- A new number tells how many states before it keep one. -/
theorem eq_length (h : Numbering f m n) (hi : f i = some x) : x = ((List.range i).filterMap f).length := by
  have hkept := (h.add (i + 1)).kept
  rw [show m + (i + 1) = i + (m + 1) by omega, List.range_add, List.filterMap_append, List.range_succ_eq_map,
    List.map_cons, Nat.add_zero, List.filterMap_cons_some hi] at hkept
  have hx := congrArg (·[((List.range i).filterMap f).length]?) hkept
  simp only [List.getElem?_append_right (Nat.le_refl _), Nat.sub_self, List.getElem?_cons_zero] at hx
  obtain ⟨hlt, hx⟩ := List.getElem?_eq_some_iff.mp hx.symm
  rw [← hx, List.getElem_range]

/-- New numbers are in the same order. -/
theorem lt (h : Numbering f m n) (hi : f i = some x) (hj : f j = some y) (hij : i < j) : x < y := by
  rw [h.eq_length hi, h.eq_length hj]
  obtain ⟨k, rfl⟩ := Nat.exists_eq_add_of_lt hij
  rw [show i + k + 1 = i + (k + 1) by omega, List.range_add, List.filterMap_append, List.range_succ_eq_map,
    List.map_cons, Nat.add_zero, List.filterMap_cons_some hi, List.length_append, List.length_cons]
  omega

/-- Different states have different new numbers. -/
theorem injective (h : Numbering f m n) (hi : f i = some x) (hj : f j = some x) : i = j := by
  rcases Nat.lt_trichotomy i j with hlt | heq | hlt
  · exact absurd (h.lt hi hj hlt) (Nat.lt_irrefl x)
  · exact heq
  · exact absurd (h.lt hj hi hlt) (Nat.lt_irrefl x)

/-- New numbers of what there is are those that are counted up. -/
theorem lt_iff (h : Numbering f m n) (hi : f i = some x) : i < m ↔ x < n := by
  constructor <;> intro hlt
  · exact List.mem_range.mp (h.kept ▸ List.mem_filterMap.mpr ⟨i, List.mem_range.mpr hlt, hi⟩)
  · refine Nat.lt_of_not_le fun hle => ?_
    obtain ⟨k, rfl⟩ := Nat.exists_eq_add_of_le hle
    obtain rfl := Option.some.inj ((h.beyond k).symm.trans hi)
    omega

/-- A list has the new number of what it has, and no other. -/
theorem mem_filterMap (h : Numbering f m n) (hi : f i = some x) {ids : List Nat} :
    x ∈ ids.filterMap f ↔ i ∈ ids := by
  rw [List.mem_filterMap]
  constructor
  · rintro ⟨j, hj, hx⟩
    exact h.injective hx hi ▸ hj
  · exact fun hmem => ⟨i, hmem, hi⟩

/-- Taking a number out of a list takes its new number out. -/
theorem filterMap_erase (h : Numbering f m n) (hi : f i = some x) (ids : List Nat) :
    (ids.erase i).filterMap f = (ids.filterMap f).erase x := by
  induction ids with
  | nil => rfl
  | cons j rest ih =>
    by_cases hij : j = i
    · subst hij
      rw [List.erase_cons_head, List.filterMap_cons_some hi, List.erase_cons_head]
    · rw [List.erase_cons_tail (by simpa using hij)]
      cases hj : f j with
      | none => rw [List.filterMap_cons_none hj, List.filterMap_cons_none hj, ih]
      | some y =>
        have hxy : y ≠ x := fun heq => hij (h.injective hj (heq ▸ hi))
        rw [List.filterMap_cons_some hj, List.filterMap_cons_some hj, List.erase_cons_tail (by simpa using hxy), ih]

/-- Taking a number out of an index takes its new number out. -/
theorem erase?_renumber {κ : Type} [Ord κ] [Std.TransOrd κ] [Std.LawfulEqOrd κ] [DecidableEq κ]
    (h : Numbering f m n) (hi : f i = some x) (index : Index κ) (key : κ) :
    (index.renumber f).erase? key x = (index.erase? key i).map fun erased => erased.renumber f := by
  simp only [Index.erase?, Index.ids_renumber, h.mem_filterMap hi]
  split
  · rw [Option.map_some, Index.renumber_put, h.filterMap_erase hi]
  · rfl

end Numbering

namespace Derivation

variable {f : Nat → Option Nat} {m n : Nat} {d e : Derivation}

/-- A derivation under new numbers. -/
def under (f : Nat → Option Nat) (d : Derivation) : Derivation :=
  ⟨d.predecessor.bind f, d.reductor.bind f⟩

/-- What a derivation goes through under new numbers. -/
theorem links_under (d : Derivation) : (d.under f).links = d.links.filterMap f := by
  have htoList (link : Option Nat) : (link.bind f).toList = link.toList.filterMap f := by
    cases link with
    | none => rfl
    | some id => cases hid : f id <;> simp [hid]
  simp only [under, links, List.filterMap_append, htoList]

/-- Derivations are the same if what they go through is the same under a map that tells it apart. -/
theorem eq_of_bind {α : Type} {f : Nat → Option α} (hd : ∀ i ∈ d.links, ∃ x, f i = some x)
    (he : ∀ j ∈ e.links, ∃ x, f j = some x) (hapart : ∀ i ∈ d.links, ∀ j ∈ e.links, f i = f j → i = j)
    (hpredecessor : d.predecessor.bind f = e.predecessor.bind f)
    (hreductor : d.reductor.bind f = e.reductor.bind f) : d = e := by
  have hpart {a b : Option Nat} (ha : ∀ i ∈ a.toList, i ∈ d.links) (hb : ∀ j ∈ b.toList, j ∈ e.links)
      (heq : a.bind f = b.bind f) : a = b := by
    cases a with
    | none =>
      cases b with
      | none => rfl
      | some j =>
        obtain ⟨y, hy⟩ := he j (hb j (by simp))
        simp [hy] at heq
    | some i =>
      cases b with
      | none =>
        obtain ⟨x, hx⟩ := hd i (ha i (by simp))
        simp [hx] at heq
      | some j => exact congrArg some (hapart i (ha i (by simp)) j (hb j (by simp)) heq)
  obtain ⟨predecessor, reductor⟩ := d
  obtain ⟨predecessor', reductor'⟩ := e
  rw [Derivation.mk.injEq]
  exact ⟨hpart (fun _ => List.mem_append_left _) (fun _ => List.mem_append_left _) hpredecessor,
    hpart (fun _ => List.mem_append_right _) (fun _ => List.mem_append_right _) hreductor⟩

/-- Derivations that lose no link stay different. -/
theorem under_injective (hf : Numbering f m n) (hd : ∀ link ∈ d.links, ∃ x, f link = some x)
    (he : ∀ link ∈ e.links, ∃ x, f link = some x) (h : d.under f = e.under f) : d = e := by
  obtain ⟨hpredecessor, hreductor⟩ := Derivation.mk.inj h
  refine eq_of_bind hd he (fun i hi j hj heq => ?_) hpredecessor hreductor
  obtain ⟨x, hx⟩ := hd i hi
  exact hf.injective hx (heq.symm.trans hx)

end Derivation

namespace Chart

variable {f f' : Nat → Option Nat} {c d : Chart}

/-- A state's derivations under new numbers. -/
theorem derivations_renumberState (s : State) :
    (renumberState f s).derivations = s.derivations.map (Derivation.under f) :=
  rfl

/-- New numbers after new numbers for a state. -/
theorem renumberState_renumberState (s : State) :
    renumberState f' (renumberState f s) = renumberState (fun id => (f id).bind f') s := by
  simp only [renumberState, List.map_map, List.filterMap_filterMap, State.mk.injEq, true_and, and_true]
  refine List.map_congr_left fun d _ => ?_
  simp only [Function.comp_apply, Option.bind_assoc]

/-- A state in which the same numbers stay the same is renumbered to the same. -/
theorem renumberState_congr {s : State} (hlinks : ∀ d ∈ s.derivations, ∀ link ∈ d.links, f link = f' link)
    (hparents : ∀ parent ∈ s.parents, f parent = f' parent) : renumberState f s = renumberState f' s := by
  have hbind {link : Option Nat} (h : ∀ id ∈ link.toList, f id = f' id) : link.bind f = link.bind f' := by
    cases link with
    | none => rfl
    | some id => exact h id (by simp)
  simp only [renumberState, State.mk.injEq, true_and, and_true]
  refine ⟨List.map_congr_left fun d hd => ?_, List.filterMap_congr hparents⟩
  have hd := hlinks d hd
  simp only [Derivation.links, List.mem_append] at hd
  rw [hbind fun id hid => hd id (.inl hid), hbind fun id hid => hd id (.inr hid)]

/-- New numbers after new numbers for a column. -/
theorem renumberColumn_renumberColumn (column : Column) :
    renumberColumn f' (renumberColumn f column) = renumberColumn (fun id => (f id).bind f') column := by
  simp only [renumberColumn, Array.filterMap_filterMap, Index.renumber_renumber, Column.mk.injEq, true_and, and_true]
  apply Std.ExtTreeMap.ext_getElem?
  intro item
  simp only [Std.ExtTreeMap.getElem?_filterMap, Option.pbind_eq_bind, Option.bind_assoc]

/-- The states of a column under new numbers, as a list. -/
theorem toList_states_renumberColumn (column : Column) :
    (renumberColumn f column).states.toList = column.states.toList.filterMap f :=
  Array.toList_filterMap

/-- A column in which the same numbers stay the same is renumbered to the same. -/
theorem renumberColumn_congr {column : Column} (hstates : ∀ id ∈ column.states, f id = f' id)
    (hlookup : ∀ {item : Item} {id}, column.lookup[item]? = some id → f id = f' id)
    (hexpecting : ∀ symbol, ∀ id ∈ column.expecting.ids symbol, f id = f' id)
    (hreductors : ∀ lhs, ∀ id ∈ column.reductors.ids lhs, f id = f' id) :
    renumberColumn f column = renumberColumn f' column := by
  simp only [renumberColumn, Index.renumber_congr hexpecting, Index.renumber_congr hreductors, Column.mk.injEq,
    and_true]
  constructor
  · refine Array.toList_inj.mp ?_
    rw [Array.toList_filterMap, Array.toList_filterMap]
    exact List.filterMap_congr fun id hid => hstates id (Array.mem_toList_iff.mp hid)
  · apply Std.ExtTreeMap.ext_getElem?
    intro item
    simp only [Std.ExtTreeMap.getElem?_filterMap, Option.pbind_eq_bind]
    cases hitem : column.lookup[item]? with
    | none => rfl
    | some id => exact hlookup hitem

/-! Columns under new numbers -/

section Columns

variable (hcolumns : d.columns = c.columns.map (renumberColumn f))

include hcolumns

/-- A column of a chart under new numbers. -/
theorem getElem?_renumberColumns (k : Nat) : d.columns[k]? = c.columns[k]?.map (renumberColumn f) := by
  rw [hcolumns, Array.getElem?_map]

/-- Items under new numbers. -/
theorem find?_renumberColumns (item : Item) (k : Nat) : d.find? item k = (c.find? item k).bind f := by
  unfold find?
  rw [getElem?_renumberColumns hcolumns]
  cases c.columns[k]? with
  | none => rfl
  | some column =>
    simp only [Option.map_some, Option.bind_some, renumberColumn, Std.ExtTreeMap.getElem?_filterMap,
      Option.pbind_eq_bind]

/-- Waiting states under new numbers. -/
theorem expecting_renumberColumns (k : Nat) (symbol : Category) :
    d.expecting k symbol = (c.expecting k symbol).filterMap f := by
  unfold expecting
  rw [getElem?_renumberColumns hcolumns]
  cases c.columns[k]? with
  | none => rfl
  | some column => exact Index.ids_renumber _ _ _

/-- Completed states under new numbers. -/
theorem reductors_renumberColumns (k : Nat) (lhs : Category) :
    d.reductors k lhs = (c.reductors k lhs).filterMap f := by
  unfold reductors
  rw [getElem?_renumberColumns hcolumns]
  cases c.columns[k]? with
  | none => rfl
  | some column => exact Index.ids_renumber _ _ _

/-- Predictions stay under new numbers. -/
theorem isPredicted_renumberColumns (k : Nat) (symbol : Category) :
    d.isPredicted k symbol = c.isPredicted k symbol := by
  unfold isPredicted
  rw [getElem?_renumberColumns hcolumns]
  cases c.columns[k]? <;> rfl

end Columns

end Chart

end IndexedGrammar
