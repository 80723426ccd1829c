import IndexedGrammar.Chart.Compaction
import IndexedGrammar.Proofs.Chart.Filed
import IndexedGrammar.Proofs.Chart.Numbering
import Mathlib.Data.List.Nodup

/-!
# What compacting keeps

Compacting a filed chart numbers its live states anew, in the same order. The new numbers stand for
the same spots with the same derivations, and the chart is filed. Nothing that is left refers to a
state that was taken out, so compacting meets no breach.
-/

namespace IndexedGrammar.Chart

/-- A state that was not taken out. -/
def isKept (s : State) : Bool := !s.removed

/-- The new numbers of states, counted from a number on. -/
def numbersFrom (next : Nat) : List State → List (Option Nat)
  | [] => []
  | s :: rest =>
    if s.removed then none :: numbersFrom next rest else some next :: numbersFrom (next + 1) rest

/-- The new numbers are counted up state by state. -/
theorem renumbering_toList (c : Chart) :
    c.renumbering.toList = numbersFrom 0 c.states.toList := by
  have hfold (states : List State) (numbers : Array (Option Nat)) (next : Nat) :
      (states.foldl (fun (acc : Array (Option Nat) × Nat) state =>
        if state.removed then (acc.1.push none, acc.2)
        else (acc.1.push (some acc.2), acc.2 + 1)) (numbers, next)).1.toList =
        numbers.toList ++ numbersFrom next states := by
    induction states generalizing numbers next with
    | nil => simp [numbersFrom]
    | cons s rest ih =>
      rw [List.foldl_cons, numbersFrom]
      by_cases hs : s.removed = true
      · simp only [if_pos hs, ih]
        simp
      · simp only [if_neg hs, ih]
        simp
  rw [renumbering, ← Array.foldl_toList, hfold]
  rfl

/-- A kept state gets as its number how many kept states stand before it. -/
theorem getElem?_numbersFrom (next : Nat) (states : List State) (i : Nat) :
    (numbersFrom next states)[i]? = states[i]?.map fun s =>
      if s.removed then none else some (next + (states.take i).countP isKept) := by
  induction states generalizing next i with
  | nil => simp [numbersFrom]
  | cons s rest ih =>
    cases i with
    | zero =>
      rw [numbersFrom]
      cases hs : s.removed <;> simp [hs]
    | succ i =>
      rw [numbersFrom]
      cases hs : s.removed with
      | true =>
        have hkept : isKept s = false := by simp [isKept, hs]
        simp only [if_true, List.getElem?_cons_succ, ih, List.take_succ_cons, List.countP_cons, hkept,
          Bool.false_eq_true, if_false, Nat.add_zero]
      | false =>
        have hkept : isKept s = true := by simp [isKept, hs]
        simp only [Bool.false_eq_true, if_false, List.getElem?_cons_succ, ih, List.take_succ_cons,
          List.countP_cons, hkept, if_true]
        congr 1
        funext t
        rw [Nat.add_right_comm, Nat.add_assoc]

/-- The new number of a state. -/
def renumber (c : Chart) (id : Nat) : Option Nat :=
  (c.renumbering[id]?).join

/-- The new number of a state: how many kept states stand before it. -/
theorem renumber_eq (c : Chart) (id : Nat) :
    c.renumber id = c.states[id]?.bind fun s =>
      if s.removed then none else some ((c.states.toList.take id).countP isKept) := by
  rw [renumber, ← Array.getElem?_toList, renumbering_toList, getElem?_numbersFrom,
    Array.getElem?_toList]
  cases c.states[id]? with
  | none => rfl
  | some s => simp

/-- A kept element stands in the filtered list behind the kept ones before it. -/
theorem getElem?_filter_countP {α : Type} {p : α → Bool} {as : List α} {i : Nat} {a : α}
    (ha : as[i]? = some a) (hp : p a = true) : (as.filter p)[(as.take i).countP p]? = some a := by
  induction as generalizing i with
  | nil => simp at ha
  | cons first rest ih =>
    cases i with
    | zero =>
      obtain rfl : first = a := by simpa using ha
      simp [List.filter_cons_of_pos hp]
    | succ i =>
      have hrest := ih (show rest[i]? = some a by simpa using ha)
      rw [List.take_succ_cons, List.countP_cons]
      cases hfirst : p first with
      | true => simpa [List.filter_cons_of_pos hfirst] using hrest
      | false =>
        rw [List.filter_cons_of_neg (by simp [hfirst])]
        simpa using hrest

/-- Every element of the filtered list is a kept one behind the kept ones before it. -/
theorem exists_of_getElem?_filter {α : Type} {p : α → Bool} {as : List α} {n : Nat} {a : α}
    (ha : (as.filter p)[n]? = some a) :
    ∃ i : Nat, as[i]? = some a ∧ p a = true ∧ (as.take i).countP p = n := by
  induction as generalizing n with
  | nil => simp at ha
  | cons first rest ih =>
    cases hfirst : p first with
    | true =>
      rw [List.filter_cons_of_pos hfirst] at ha
      cases n with
      | zero =>
        obtain rfl : first = a := by simpa using ha
        exact ⟨0, by simp, hfirst, by simp⟩
      | succ n =>
        obtain ⟨i, hi, hp, hn⟩ := ih (show (rest.filter p)[n]? = some a by simpa using ha)
        exact ⟨i + 1, by simpa using hi, hp, by simp [hfirst, hn]⟩
    | false =>
      rw [List.filter_cons_of_neg (by simp [hfirst])] at ha
      obtain ⟨i, hi, hp, hn⟩ := ih ha
      exact ⟨i + 1, by simpa using hi, hp, by simp [hfirst, hn]⟩

/-- Kept elements before a later one are more. -/
theorem countP_take_lt {α : Type} {p : α → Bool} {as : List α} {i j : Nat} {a : α}
    (ha : as[i]? = some a) (hp : p a = true) (hij : i < j) :
    (as.take i).countP p < (as.take j).countP p := by
  induction as generalizing i j with
  | nil => simp at ha
  | cons first rest ih =>
    cases j with
    | zero => omega
    | succ j =>
      cases i with
      | zero =>
        obtain rfl : first = a := by simpa using ha
        simp [hp]
      | succ i =>
        have hrest := ih (show rest[i]? = some a by simpa using ha) (by omega : i < j)
        simp only [List.take_succ_cons, List.countP_cons]
        omega

variable {g : Grammar} {c : Chart}

/-- Live states alone have new numbers. -/
theorem renumber_eq_some_iff {id n : Nat} : c.renumber id = some n ↔
    (∃ s, c.Live id s) ∧ (c.states.toList.take id).countP isKept = n := by
  rw [renumber_eq, Option.bind_eq_some_iff]
  constructor
  · rintro ⟨state, hstate, hnumber⟩
    split at hnumber
    · contradiction
    · next hremoved =>
      exact ⟨⟨state.spot, state, hstate, by simpa using hremoved, rfl⟩, Option.some.inj hnumber⟩
  · rintro ⟨⟨s, state, hstate, hremoved, -⟩, rfl⟩
    exact ⟨state, hstate, by simp [hremoved]⟩

/-- A live state has a new number. -/
theorem Live.renumber {id : Nat} {s : Spot} (h : c.Live id s) : ∃ n, c.renumber id = some n :=
  ⟨_, renumber_eq_some_iff.mpr ⟨⟨s, h⟩, rfl⟩⟩

/-- Different states have different new numbers. -/
theorem renumber_injective {i j n : Nat} (hi : c.renumber i = some n) (hj : c.renumber j = some n) :
    i = j := by
  obtain ⟨⟨s, state, hstate, hremoved, -⟩, hn⟩ := renumber_eq_some_iff.mp hi
  obtain ⟨⟨t, other, hother, hremoved', -⟩, hn'⟩ := renumber_eq_some_iff.mp hj
  rcases Nat.lt_trichotomy i j with hlt | heq | hlt
  · have := countP_take_lt (p := isKept) (Array.getElem?_toList ▸ hstate) (by simp [isKept, hremoved]) hlt
    omega
  · exact heq
  · have := countP_take_lt (p := isKept) (Array.getElem?_toList ▸ hother) (by simp [isKept, hremoved']) hlt
    omega

/-- The chart under new numbers. -/
def renumbered (c : Chart) : Chart :=
  { c with
    states := (c.states.filter fun state => !state.removed).map (renumberState c.renumber)
    columns := c.columns.map (renumberColumn c.renumber)
    byRule := c.byRule.renumber c.renumber }

/-- The states under new numbers. -/
theorem getElem?_renumbered {n : Nat} {s' : State} : c.renumbered.states[n]? = some s' ↔
    ∃ id s, c.renumber id = some n ∧ c.states[id]? = some s ∧ s.removed = false ∧
      renumberState c.renumber s = s' := by
  have hmap : c.renumbered.states[n]? =
      ((c.states.toList.filter isKept)[n]?).map (renumberState c.renumber) := by
    show (((c.states.filter fun state => !state.removed).map _)[n]?) = _
    rw [Array.getElem?_map, ← Array.getElem?_toList, Array.toList_filter]
    rfl
  rw [hmap, Option.map_eq_some_iff]
  constructor
  · rintro ⟨s, hs, rfl⟩
    obtain ⟨id, hid, hkept, hn⟩ := exists_of_getElem?_filter hs
    have hstate : c.states[id]? = some s := by simpa using hid
    have hremoved : s.removed = false := by simpa [isKept] using hkept
    exact ⟨id, s, renumber_eq_some_iff.mpr ⟨⟨s.spot, s, hstate, hremoved, rfl⟩, hn⟩, hstate, hremoved,
      rfl⟩
  · rintro ⟨id, s, hid, hstate, hremoved, rfl⟩
    obtain ⟨-, rfl⟩ := renumber_eq_some_iff.mp hid
    exact ⟨s, getElem?_filter_countP (by simpa using hstate) (by simp [isKept, hremoved]), rfl⟩

/-- What is live under new numbers. -/
theorem live_renumbered {n : Nat} {s : Spot} :
    c.renumbered.Live n s ↔ ∃ id, c.renumber id = some n ∧ c.Live id s := by
  constructor
  · rintro ⟨s', hs', -, rfl⟩
    obtain ⟨id, state, hid, hstate, hremoved, rfl⟩ := getElem?_renumbered.mp hs'
    exact ⟨id, hid, state, hstate, hremoved, rfl⟩
  · rintro ⟨id, hid, state, hstate, hremoved, rfl⟩
    exact ⟨_, getElem?_renumbered.mpr ⟨id, state, hid, hstate, hremoved, rfl⟩, hremoved, rfl⟩

/-- Under new numbers everything is live. -/
theorem spot?_renumbered {n : Nat} {s : Spot} :
    c.renumbered.spot? n = some s ↔ c.renumbered.Live n s := by
  refine ⟨fun h => ?_, Live.spot?⟩
  obtain ⟨s', hs', rfl⟩ := Option.map_eq_some_iff.mp h
  obtain ⟨id, state, -, -, hremoved, rfl⟩ := getElem?_renumbered.mp hs'
  exact ⟨_, hs', hremoved, rfl⟩

/-- A derivation under new numbers. -/
def renumberDerivation (c : Chart) (d : Derivation) : Derivation :=
  ⟨d.predecessor.bind c.renumber, d.reductor.bind c.renumber⟩

/-- What has a derivation under new numbers. -/
theorem derives_renumbered {n : Nat} {e : Derivation} : c.renumbered.Derives n e ↔
    ∃ id d, c.renumber id = some n ∧ c.Derives id d ∧ c.renumberDerivation d = e := by
  constructor
  · rintro ⟨s', hs', -, he⟩
    obtain ⟨id, state, hid, hstate, hremoved, rfl⟩ := getElem?_renumbered.mp hs'
    obtain ⟨d, hd, rfl⟩ := List.mem_map.mp he
    exact ⟨id, d, hid, ⟨state, hstate, hremoved, hd⟩, rfl⟩
  · rintro ⟨id, d, hid, ⟨state, hstate, hremoved, hd⟩, rfl⟩
    exact ⟨_, getElem?_renumbered.mpr ⟨id, state, hid, hstate, hremoved, rfl⟩, hremoved,
      List.mem_map.mpr ⟨d, hd, rfl⟩⟩

/-- What a derivation goes through under new numbers. -/
theorem mem_links_renumberDerivation {d : Derivation} {link : Nat} :
    link ∈ (c.renumberDerivation d).links ↔ ∃ old ∈ d.links, c.renumber old = some link := by
  rw [show (c.renumberDerivation d).links = _ from d.links_under, List.mem_filterMap]

/-- A derivation of a filed chart goes through the same spots under new numbers. -/
theorem Filed.link_renumbered (h : c.Filed g) {id : Nat} {d : Derivation} (hd : c.Derives id d) :
    c.renumbered.link (c.renumberDerivation d) = c.link d := by
  have hspot {old : Nat} (hold : old ∈ d.links) :
      (c.renumber old).bind c.renumbered.spot? = c.spot? old := by
    obtain ⟨t, ht⟩ := h.linked hd hold
    obtain ⟨n, hn⟩ := ht.renumber
    rw [hn, Option.bind_some, ht.spot?]
    exact spot?_renumbered.mpr (live_renumbered.mpr ⟨old, hn, ht⟩)
  obtain ⟨predecessor, reductor⟩ := d
  simp only [link, renumberDerivation, Link.mk.injEq, Option.bind_assoc]
  constructor
  · cases predecessor with
    | none => rfl
    | some old => exact hspot (by simp [Derivation.links])
  · cases reductor with
    | none => rfl
    | some old => exact hspot (by simp [Derivation.links])

/-- A column under new numbers. -/
theorem columns_renumbered (k : Nat) :
    c.renumbered.columns[k]? = c.columns[k]?.map (renumberColumn c.renumber) :=
  getElem?_renumberColumns rfl k

/-- Items under new numbers. -/
theorem find?_renumbered (item : Item) (k : Nat) :
    c.renumbered.find? item k = (c.find? item k).bind c.renumber :=
  find?_renumberColumns rfl item k

/-- Waiting states under new numbers. -/
theorem expecting_renumbered (k : Nat) (symbol : Category) :
    c.renumbered.expecting k symbol = (c.expecting k symbol).filterMap c.renumber :=
  expecting_renumberColumns rfl k symbol

/-- Completed states under new numbers. -/
theorem reductors_renumbered (k : Nat) (lhs : Category) :
    c.renumbered.reductors k lhs = (c.reductors k lhs).filterMap c.renumber :=
  reductors_renumberColumns rfl k lhs

/-- Predictions stay under new numbers. -/
theorem isPredicted_renumbered (k : Nat) (symbol : Category) :
    c.renumbered.isPredicted k symbol = c.isPredicted k symbol :=
  isPredicted_renumberColumns rfl k symbol

/-- Listed states under new numbers. -/
theorem lists_renumbered {k n : Nat} :
    c.renumbered.Lists k n ↔ ∃ id, c.Lists k id ∧ c.renumber id = some n := by
  unfold Lists
  rw [columns_renumbered]
  cases c.columns[k]? with
  | none => simp
  | some column => simp [renumberColumn, Array.mem_filterMap]

/-- Different numbers stay different. -/
theorem nodup_filterMap_renumber {ids : List Nat} (h : ids.Nodup) :
    (ids.filterMap c.renumber).Nodup :=
  List.Nodup.filterMap (fun _ _ _ hi hj => renumber_injective hi hj) h

/-- The kept ones on a roll are on a roll under new numbers. -/
theorem IsRoll.renumbered {P : Spot → Prop} {ids : List Nat} (h : c.IsRoll P ids) :
    c.renumbered.IsRoll P (ids.filterMap c.renumber) where
  nodup := nodup_filterMap_renumber h.nodup
  mem_iff {n} := by
    rw [List.mem_filterMap]
    simp only [h.mem_iff, live_renumbered]
    constructor
    · rintro ⟨id, ⟨s, hs, hP⟩, hid⟩
      exact ⟨s, ⟨id, hid, hs⟩, hP⟩
    · rintro ⟨s, ⟨id, hid, hs⟩, hP⟩
      exact ⟨id, ⟨s, hs, hP⟩, hid⟩

/-- What has a spot of a kind under new numbers is what had one and has a new number. -/
theorem exists_spot?_renumbered {P : Spot → Prop} {n : Nat} : (∃ s, c.renumbered.spot? n = some s ∧ P s) ↔
    ∃ id, (∃ s, c.spot? id = some s ∧ P s) ∧ c.renumber id = some n := by
  simp only [spot?_renumbered, live_renumbered]
  constructor
  · rintro ⟨s, ⟨id, hid, hs⟩, hP⟩
    exact ⟨id, ⟨s, hs.spot?, hP⟩, hid⟩
  · rintro ⟨id, ⟨s, hs, hP⟩, hid⟩
    obtain ⟨⟨t, ht⟩, -⟩ := renumber_eq_some_iff.mp hid
    obtain rfl := Option.some.inj (ht.spot?.symm.trans hs)
    exact ⟨t, ⟨id, hid, ht⟩, hP⟩

/-- A filed chart is filed under new numbers. -/
theorem Filed.renumbered (h : c.Filed g) : c.renumbered.Filed g where
  size_columns := Array.size_map.trans h.size_columns
  bounds {n s} hs := by
    obtain ⟨id, -, hlive⟩ := live_renumbered.mp (spot?_renumbered.mp hs)
    show _ ∧ _ < (c.columns.map _).size
    rw [Array.size_map]
    exact h.bounds hlive.spot?
  known {n s} hs := by
    obtain ⟨id, -, hlive⟩ := live_renumbered.mp (spot?_renumbered.mp hs)
    exact h.known hlive.spot?
  find?_iff {item stop n} := by
    rw [find?_renumbered, live_renumbered, Option.bind_eq_some_iff]
    simp only [h.find?_iff]
    exact exists_congr fun id => and_comm
  mem_expecting {k symbol n} := by
    rw [expecting_renumbered]
    exact (h.isRoll_expecting k symbol).renumbered.mem_expecting
  nodup_expecting k symbol := by
    rw [expecting_renumbered]
    exact nodup_filterMap_renumber (h.nodup_expecting k symbol)
  mem_reductors {k lhs n} := by
    rw [reductors_renumbered]
    exact (h.isRoll_reductors k lhs).renumbered.mem_iff
  nodup_reductors k lhs := by
    rw [reductors_renumbered]
    exact nodup_filterMap_renumber (h.nodup_reductors k lhs)
  mem_byRule {rule n} := by
    rw [exists_spot?_renumbered]
    show n ∈ (c.byRule.renumber c.renumber).ids rule ↔ _
    simp only [Index.ids_renumber, List.mem_filterMap, h.mem_byRule]
  lists_iff {k n} := by
    rw [exists_spot?_renumbered, lists_renumbered]
    simp only [h.lists_iff]
  linked {n e link} he hlink := by
    obtain ⟨id, d, -, hd, rfl⟩ := derives_renumbered.mp he
    obtain ⟨old, hold, hn⟩ := mem_links_renumberDerivation.mp hlink
    obtain ⟨t, ht⟩ := h.linked hd hold
    exact ⟨t, live_renumbered.mpr ⟨old, hn, ht⟩⟩
  parented {n e link} he hlink := by
    obtain ⟨id, d, hid, hd, rfl⟩ := derives_renumbered.mp he
    obtain ⟨old, hold, hn⟩ := mem_links_renumberDerivation.mp hlink
    -- the link leads to a live state, whose parents are renumbered like the states
    obtain ⟨state, hstate, hparent⟩ := h.parented hd hold
    obtain ⟨t, other, hother, hremoved, -⟩ := h.linked hd hold
    obtain rfl := Option.some.inj (hother.symm.trans hstate)
    exact ⟨_, getElem?_renumbered.mpr ⟨old, other, hn, hother, hremoved, rfl⟩,
      List.mem_filterMap.mpr ⟨id, hparent, hid⟩⟩
  tidy_byRule := Index.tidy_renumber _ _
  tidy_columns {k column} hcolumn := by
    rw [columns_renumbered] at hcolumn
    obtain ⟨old, -, rfl⟩ := Option.map_eq_some_iff.mp hcolumn
    exact ⟨Index.tidy_renumber _ _, Index.tidy_renumber _ _⟩

/-- Nothing in a filed chart refers to a state that was taken out. -/
theorem Filed.refersToRemoved (h : c.Filed g) : c.refersToRemoved c.renumber = false := by
  have hlive {id : Nat} (hid : ∃ s, c.Live id s) : (c.renumber id).isNone = false := by
    obtain ⟨s, hs⟩ := hid
    obtain ⟨n, hn⟩ := hs.renumber
    rw [hn]
    rfl
  have hids {index : Index Category}
      (hmem : ∀ key id, id ∈ index.ids key → ∃ s, c.Live id s) :
      (index.toList.any fun entry => entry.2.any fun id => (c.renumber id).isNone) = false := by
    simp only [List.any_eq_false, Bool.not_eq_true]
    rintro ⟨key, ids⟩ hentry id hid
    refine hlive (hmem key id ?_)
    rw [Index.ids_eq_getElem?, Std.ExtTreeMap.mem_toList_iff_getElem?_eq_some.mp hentry]
    simpa using hid
  unfold Chart.refersToRemoved
  simp only [Bool.or_eq_false_iff]
  -- the links of live states first, then what each column lists
  constructor
  · rw [Array.any_eq_false']
    intro state hstate
    obtain ⟨id, hid⟩ := Array.mem_iff_getElem?.mp hstate
    simp only [Bool.and_eq_true, Bool.not_eq_eq_eq_not, Bool.not_true, List.any_eq_true, not_and,
      not_exists, Bool.not_eq_true]
    intro hremoved d hd link hlink
    exact hlive (h.linked ⟨state, hid, hremoved, hd⟩ hlink)
  · rw [Array.any_eq_false']
    intro column hmem
    obtain ⟨k, hcolumn⟩ := Array.mem_iff_getElem?.mp hmem
    rw [Bool.not_eq_true, Bool.or_eq_false_iff, Bool.or_eq_false_iff]
    refine ⟨⟨?_, hids fun symbol id hid => ?_⟩, hids fun lhs id hid => ?_⟩
    · simp only [List.any_eq_false, Bool.not_eq_true]
      rintro ⟨item, id⟩ hentry
      refine hlive ⟨_, h.find?_iff.mp (?_ : c.find? item k = some id)⟩
      rw [find?, hcolumn, Option.bind_some]
      exact Std.ExtTreeMap.mem_toList_iff_getElem?_eq_some.mp hentry
    · have hid' : id ∈ c.expecting k symbol := by rwa [expecting, hcolumn]
      obtain ⟨-, s, hs, -⟩ := h.mem_expecting.mp hid'
      exact ⟨s, hs⟩
    · have hid' : id ∈ c.reductors k lhs := by rwa [reductors, hcolumn]
      obtain ⟨s, hs, -⟩ := h.mem_reductors.mp hid'
      exact ⟨s, hs⟩

/-- Compacting a filed chart gives it new numbers. -/
theorem Filed.compact (h : c.Filed g) : c.compact = .ok c.renumbered := by
  have hrefers := h.refersToRemoved
  unfold Chart.compact
  dsimp only
  rw [if_neg]
  · rfl
  · exact Bool.eq_false_iff.mp hrefers

end IndexedGrammar.Chart
