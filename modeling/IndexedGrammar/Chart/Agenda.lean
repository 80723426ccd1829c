/-!
# Agendas

The states of a column that are still to be processed. Completed states come out first, the one
with the latest origin before the others and the oldest among equals; the other states come out in
the order in which they went in.
-/

namespace IndexedGrammar

/-- States waiting to be processed. -/
structure Agenda where
  /-- Completed states with their origins, in the order in which they come out. -/
  completed : List (Nat × Nat)
  /-- Other states, the first to come out at the head. -/
  active : List Nat
  /-- Other states behind those, the last to come out at the head. -/
  arrived : List Nat
deriving DecidableEq

namespace Agenda

/-- The agenda on which nothing waits. -/
def empty : Agenda := ⟨[], [], []⟩

/-- Everything on the agenda in the order in which it comes out. -/
def toList (agenda : Agenda) : List Nat :=
  agenda.completed.map Prod.snd ++ agenda.active ++ agenda.arrived.reverse

/-- Adds a completed state behind those with the same origin or a later one. -/
def pushCompleted (agenda : Agenda) (origin id : Nat) : Agenda :=
  let ahead := agenda.completed.takeWhile fun (other, _) => origin ≤ other
  let behind := agenda.completed.dropWhile fun (other, _) => origin ≤ other
  { agenda with completed := ahead ++ (origin, id) :: behind }

/-- Adds a state that is not completed. -/
def pushActive (agenda : Agenda) (id : Nat) : Agenda :=
  { agenda with arrived := id :: agenda.arrived }

/-- Takes the next state off the agenda. -/
def pop? (agenda : Agenda) : Option (Nat × Agenda) :=
  match agenda.completed with
  | (_, id) :: rest => some (id, { agenda with completed := rest })
  | [] =>
    match agenda.active with
    | id :: rest => some (id, { agenda with active := rest })
    | [] =>
      match agenda.arrived.reverse with
      | id :: rest => some (id, ⟨[], rest, []⟩)
      | [] => none

/-- What is left on the agenda when a state is taken off it. -/
theorem length_toList_of_pop? {agenda rest : Agenda} {id : Nat}
    (h : agenda.pop? = some (id, rest)) : rest.toList.length < agenda.toList.length := by
  obtain ⟨completed, active, arrived⟩ := agenda
  cases completed with
  | cons first completed =>
    simp only [pop?, Option.some.injEq, Prod.mk.injEq] at h
    obtain ⟨-, rfl⟩ := h
    simp [toList]
  | nil =>
    cases active with
    | cons first active =>
      simp only [pop?, Option.some.injEq, Prod.mk.injEq] at h
      obtain ⟨-, rfl⟩ := h
      simp [toList]
    | nil =>
      cases harrived : arrived.reverse with
      | nil => simp [pop?, harrived] at h
      | cons first active =>
        simp only [pop?, harrived, Option.some.injEq, Prod.mk.injEq] at h
        obtain ⟨-, rfl⟩ := h
        simp [toList, harrived]

/-- Takes the next state off the agenda, passing over some. Also gives what is left. -/
def next (skip : Nat → Bool) (agenda : Agenda) : Option Nat × Agenda :=
  match _ : agenda.pop? with
  | none => (none, agenda)
  | some (id, rest) => if skip id then next skip rest else (some id, rest)
termination_by agenda.toList.length
decreasing_by exact length_toList_of_pop? ‹_›

end Agenda

end IndexedGrammar
