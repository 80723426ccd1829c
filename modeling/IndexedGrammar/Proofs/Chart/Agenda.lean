import IndexedGrammar.Chart.Agenda
import Mathlib.Data.List.Perm.Basic

/-!
# What is on an agenda

An agenda is looked at as the list of the states on it: what is pushed is added to the list, and what
comes off is taken out of it.
-/

namespace IndexedGrammar

namespace Agenda

/-- Pushing a completed state adds it somewhere. -/
theorem perm_pushCompleted (agenda : Agenda) (origin id : Nat) :
    (agenda.pushCompleted origin id).toList.Perm (id :: agenda.toList) := by
  have hsplit := List.takeWhile_append_dropWhile
    (p := fun x : Nat × Nat => decide (origin ≤ x.1)) (l := agenda.completed)
  have hmap : agenda.completed.map Prod.snd =
      (agenda.completed.takeWhile fun x => decide (origin ≤ x.1)).map Prod.snd ++
      (agenda.completed.dropWhile fun x => decide (origin ≤ x.1)).map Prod.snd := by
    rw [← List.map_append, hsplit]
  simp only [toList, pushCompleted, List.map_append, List.map_cons, hmap, List.append_assoc,
    List.cons_append]
  exact List.perm_middle

/-- Pushing a state that is not completed adds it behind the others. -/
theorem perm_pushActive (agenda : Agenda) (id : Nat) :
    (agenda.pushActive id).toList.Perm (id :: agenda.toList) := by
  simp only [toList, pushActive, List.reverse_cons, ← List.append_assoc]
  exact List.perm_append_singleton id _

/-- What comes off an agenda is its first state, and the rest stays in order. -/
theorem toList_of_pop? {agenda rest : Agenda} {id : Nat} (h : agenda.pop? = some (id, rest)) :
    agenda.toList = id :: rest.toList := by
  obtain ⟨completed, active, arrived⟩ := agenda
  cases completed with
  | cons first completed =>
    simp only [pop?, Option.some.injEq, Prod.mk.injEq] at h
    obtain ⟨rfl, rfl⟩ := h
    simp [toList]
  | nil =>
    cases active with
    | cons first active =>
      simp only [pop?, Option.some.injEq, Prod.mk.injEq] at h
      obtain ⟨rfl, rfl⟩ := h
      simp [toList]
    | nil =>
      cases harrived : arrived.reverse with
      | nil => simp [pop?, harrived] at h
      | cons first active =>
        simp only [pop?, harrived, Option.some.injEq, Prod.mk.injEq] at h
        obtain ⟨rfl, rfl⟩ := h
        simp [toList, harrived]

/-- What comes off an agenda was on it, and the rest stays. -/
theorem mem_toList_of_pop? {agenda rest : Agenda} {id other : Nat}
    (h : agenda.pop? = some (id, rest)) :
    other ∈ agenda.toList ↔ other = id ∨ other ∈ rest.toList := by
  rw [toList_of_pop? h, List.mem_cons]

/-- Nothing comes off an agenda only if nothing is on it. -/
theorem toList_of_pop?_none {agenda : Agenda} (h : agenda.pop? = none) : agenda.toList = [] := by
  obtain ⟨completed, active, arrived⟩ := agenda
  cases completed with
  | cons first completed => simp [pop?] at h
  | nil =>
    cases active with
    | cons first active => simp [pop?] at h
    | nil =>
      cases harrived : arrived.reverse with
      | nil => simp [toList, harrived]
      | cons first active => simp [pop?, harrived] at h

/-- There is no next state where nothing comes off. -/
theorem next_of_pop?_none {skip : Nat → Bool} {agenda : Agenda} (h : agenda.pop? = none) :
    agenda.next skip = (none, agenda) := by
  rw [next]
  split
  · rfl
  · next hpop =>
    rw [h] at hpop
    contradiction

/-- The next state is the one that comes off, unless it is passed over. -/
theorem next_of_pop? {skip : Nat → Bool} {agenda rest : Agenda} {id : Nat} (h : agenda.pop? = some (id, rest)) :
    agenda.next skip = if skip id then rest.next skip else (some id, rest) := by
  rw [next]
  split
  · next hpop =>
    rw [h] at hpop
    contradiction
  · next hpop =>
    obtain ⟨rfl, rfl⟩ := Prod.mk.inj (Option.some.inj (h.symm.trans hpop))
    rfl

/-- Where nothing is passed over, the next state is the one that comes off. -/
theorem next_eq {skip : Nat → Bool} {agenda : Agenda}
    (h : ∀ id ∈ agenda.toList, skip id = false) : agenda.next skip =
      match agenda.pop? with
      | none => (none, agenda)
      | some (id, rest) => (some id, rest) := by
  cases hpop : agenda.pop? with
  | none => exact next_of_pop?_none hpop
  | some popped =>
    obtain ⟨id, rest⟩ := popped
    rw [next_of_pop? hpop, h id ((mem_toList_of_pop? hpop).mpr (.inl rfl)), if_neg (by simp)]

/-- An agenda on which nothing is is the empty one. -/
theorem eq_empty {agenda : Agenda} (h : ∀ id, id ∉ agenda.toList) : agenda = .empty := by
  obtain ⟨completed, active, arrived⟩ := agenda
  have hnil := List.eq_nil_iff_forall_not_mem.mpr h
  simp only [toList, List.append_eq_nil_iff, List.map_eq_nil_iff,
    List.reverse_eq_nil_iff] at hnil
  obtain ⟨⟨rfl, rfl⟩, rfl⟩ := hnil
  rfl

end Agenda

end IndexedGrammar
