import IndexedGrammar.Index
import Mathlib.Data.List.Basic
import Mathlib.Data.List.InsertIdx

/-!
# The lists of an index

Every operation on an index is described by what it does to the lists of numbers under the keys. An
index is tidy if no key holds an empty list; a tidy index is known by its lists, so an operation
that restores them restores the index.
-/

namespace IndexedGrammar.Index

variable {κ : Type} [Ord κ] [Std.TransOrd κ]

/-- No key is stored with an empty list. -/
def Tidy (index : Index κ) : Prop :=
  ∀ key : κ, index[key]? ≠ some []

/-- A list is read off the stored entry. -/
theorem ids_eq_getElem? (index : Index κ) (key : κ) :
    index.ids key = (index[key]?.getD []).reverse := by
  rw [ids, Std.ExtTreeMap.getD_eq_getD_getElem?]

/-- The empty index lists nothing. -/
@[simp] theorem ids_empty (key : κ) : ids (∅ : Index κ) key = [] := by
  simp [ids_eq_getElem?]

/-- Erasing succeeds exactly on a listed number and drops its first occurrence. -/
theorem erase?_eq_some_iff {index erased : Index κ} {key : κ} {id : Nat} :
    index.erase? key id = some erased ↔
      id ∈ index.ids key ∧ index.put key ((index.ids key).erase id) = erased := by
  simp [erase?]

/-- The empty index is tidy. -/
theorem tidy_empty : Tidy (∅ : Index κ) := by
  intro key
  simp

/-- Putting a list keeps an index tidy. -/
theorem Tidy.put {index : Index κ} (h : index.Tidy) (key : κ) (list : List Nat) :
    (index.put key list).Tidy := by
  intro other
  unfold Index.put
  split
  · rw [Std.ExtTreeMap.getElem?_erase]
    split
    · simp
    · exact h other
  · next hlist =>
    rw [Std.ExtTreeMap.getElem?_insert]
    split
    · simpa using hlist
    · exact h other

/-- Pushing a number keeps an index tidy. -/
theorem Tidy.push {index : Index κ} (h : index.Tidy) (key : κ) (id : Nat) :
    (index.push key id).Tidy := by
  intro other
  unfold Index.push
  rw [Std.ExtTreeMap.getElem?_insert]
  split
  · simp
  · exact h other

/-- A tidy index stores exactly the keys that list something. -/
theorem Tidy.getElem?_eq {index : Index κ} (h : index.Tidy) (key : κ) :
    index[key]? = if index.ids key = [] then none else some (index.ids key).reverse := by
  rw [ids_eq_getElem?]
  cases hkey : index[key]? with
  | none => simp
  | some list =>
    have hlist : list ≠ [] := fun hnil => h key (hnil ▸ hkey)
    simp [hlist]

/-- Popping takes the latest number out, and fails only where nothing is listed. -/
theorem Tidy.pop?_eq {index : Index κ} (h : index.Tidy) (key : κ) :
    index.pop? key =
      if index.ids key = [] then none else some (index.put key (index.ids key).dropLast) := by
  unfold pop?
  rw [h.getElem?_eq]
  by_cases hids : index.ids key = []
  · simp only [hids, if_true]
  · simp only [hids, if_false, List.tail_reverse, Index.put, List.isEmpty_reverse]

/-- Renumbering maps a stored list and drops one that it leaves empty. -/
theorem getElem?_renumber (index : Index κ) (renumbered : Nat → Option Nat) (key : κ) :
    (index.renumber renumbered)[key]? = index[key]?.bind fun list =>
      if list.filterMap renumbered = [] then none else some (list.filterMap renumbered) := by
  rw [renumber, Std.ExtTreeMap.getElem?_filterMap]
  cases index[key]? with
  | none => rfl
  | some list => simp only [Option.pbind_some, List.isEmpty_iff, Option.bind_some]

/-- Renumbering maps every list and leaves out numbers without a new one. -/
theorem ids_renumber (index : Index κ) (renumbered : Nat → Option Nat) (key : κ) :
    (index.renumber renumbered).ids key = (index.ids key).filterMap renumbered := by
  rw [ids_eq_getElem?, ids_eq_getElem?, getElem?_renumber, List.filterMap_reverse]
  cases index[key]? with
  | none => rfl
  | some list =>
    rw [Option.bind_some]
    split
    · next hkept => simp only [Option.getD_some, hkept, Option.getD_none]
    · rfl

/-- Renumbering leaves a tidy index. -/
theorem tidy_renumber (index : Index κ) (renumbered : Nat → Option Nat) :
    (index.renumber renumbered).Tidy := by
  intro key
  rw [getElem?_renumber]
  cases index[key]? with
  | none => simp
  | some list =>
    rw [Option.bind_some]
    split
    · simp
    · next hkept => simpa using hkept

variable [Std.LawfulEqOrd κ]

/-- Tidy indexes with the same lists are the same. -/
theorem Tidy.eq_of_ids {left right : Index κ} (hleft : left.Tidy) (hright : right.Tidy)
    (h : ∀ key, left.ids key = right.ids key) : left = right := by
  apply Std.ExtTreeMap.ext_getElem?
  intro key
  rw [hleft.getElem?_eq, hright.getElem?_eq, h key]

/-- Lists in which the same numbers stay the same are renumbered to the same. -/
theorem renumber_congr {index : Index κ} {renumbered others : Nat → Option Nat}
    (h : ∀ key, ∀ id ∈ index.ids key, renumbered id = others id) :
    index.renumber renumbered = index.renumber others := by
  refine (tidy_renumber _ _).eq_of_ids (tidy_renumber _ _) fun key => ?_
  rw [ids_renumber, ids_renumber]
  exact List.filterMap_congr (h key)

/-- Renumbering twice. -/
theorem renumber_renumber (index : Index κ) (first second : Nat → Option Nat) :
    (index.renumber first).renumber second = index.renumber fun id => (first id).bind second := by
  refine (tidy_renumber _ _).eq_of_ids (tidy_renumber _ _) fun key => ?_
  rw [ids_renumber, ids_renumber, ids_renumber, List.filterMap_filterMap]

variable [DecidableEq κ]

/-- Putting a list under a key changes that key's list alone. -/
theorem ids_put (index : Index κ) (key other : κ) (list : List Nat) :
    (index.put key list).ids other = if key = other then list else index.ids other := by
  unfold put
  split
  · next hempty =>
    simp only [ids_eq_getElem?, Std.ExtTreeMap.getElem?_erase, Std.compare_eq_iff_eq]
    split
    · simp [List.isEmpty_iff.mp hempty]
    · rfl
  · simp only [ids_eq_getElem?, Std.ExtTreeMap.getElem?_insert, Std.compare_eq_iff_eq]
    split <;> simp

/-- Pushing a number appends it to its key's list. -/
theorem ids_push (index : Index κ) (key other : κ) (id : Nat) :
    (index.push key id).ids other =
      if key = other then index.ids other ++ [id] else index.ids other := by
  unfold push
  simp only [ids, Std.ExtTreeMap.getD_insert, Std.compare_eq_iff_eq]
  split
  · next h => simp [h]
  · rfl

/-- After a push an index lists what it listed before, and the number that was pushed. -/
theorem of_mem_push {index : Index κ} {key other : κ} {id pushed : Nat}
    (h : id ∈ (index.push key pushed).ids other) : id ∈ index.ids other ∨ id = pushed := by
  rw [ids_push] at h
  split at h
  · exact (List.mem_append.mp h).imp_right List.mem_singleton.mp
  · exact .inl h

/-- After a number was taken out from under a key, an index lists nothing that it did not list before. -/
theorem of_mem_put_erase {index : Index κ} {key other : κ} {id erased : Nat}
    (h : id ∈ (index.put key ((index.ids key).erase erased)).ids other) : id ∈ index.ids other := by
  rw [ids_put] at h
  split at h
  · next hkey => exact hkey ▸ List.mem_of_mem_erase h
  · exact h

/-- Renumbering after a push pushes the new number. -/
theorem renumber_push (index : Index κ) (key : κ) {renumbered : Nat → Option Nat} {id n : Nat}
    (hid : renumbered id = some n) :
    (index.push key id).renumber renumbered = (index.renumber renumbered).push key n := by
  refine (tidy_renumber _ _).eq_of_ids ((tidy_renumber _ _).push key n) fun other => ?_
  rw [ids_renumber, ids_push, ids_push, ids_renumber]
  split
  · rw [List.filterMap_append, List.filterMap_cons_some hid, List.filterMap_nil]
  · rfl

/-- Renumbering after putting a list puts the renumbered list. -/
theorem renumber_put (index : Index κ) (key : κ) (list : List Nat) (renumbered : Nat → Option Nat) :
    (index.put key list).renumber renumbered =
      (index.renumber renumbered).put key (list.filterMap renumbered) := by
  refine (tidy_renumber _ _).eq_of_ids ((tidy_renumber _ _).put key _) fun other => ?_
  rw [ids_renumber, ids_put, ids_put, ids_renumber]
  split <;> rfl

/-- Popping takes back a push onto a tidy index. -/
theorem Tidy.pop?_push {index : Index κ} (h : index.Tidy) (key : κ) (id : Nat) :
    (index.push key id).pop? key = some index := by
  rw [(h.push key id).pop?_eq, ids_push, if_pos rfl, if_neg (by simp), List.dropLast_concat]
  refine congrArg some (((h.push key id).put _ _).eq_of_ids h fun other => ?_)
  rw [ids_put, ids_push]
  split
  · next hother => rw [hother]
  · rfl

/-- Putting a number back at its place takes back its erasure. -/
theorem Tidy.insertAt_erase {index : Index κ} (h : index.Tidy) {key : κ} {id : Nat}
    (hid : id ∈ index.ids key) :
    (index.put key ((index.ids key).erase id)).insertAt key ((index.ids key).idxOf id) id =
      index := by
  have hlt : (index.ids key).idxOf id < (index.ids key).length := List.idxOf_lt_length_iff.mpr hid
  have hinsert : ((index.ids key).erase id).insertIdx ((index.ids key).idxOf id) id =
      index.ids key := by
    have hrestored := List.insertIdx_eraseIdx_getElem hlt
    rwa [List.getElem_idxOf hlt, ← List.erase_eq_eraseIdx_of_idxOf rfl] at hrestored
  refine ((h.put _ _).put _ _).eq_of_ids h fun other => ?_
  rw [ids_put, ids_put, ids_put, if_pos rfl, hinsert]
  split
  · next hother => rw [hother]
  · rfl

end IndexedGrammar.Index
