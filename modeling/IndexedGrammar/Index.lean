import Std.Data.ExtTreeMap

/-!
# Indexes

An index files numbers under keys, in the order in which they came. Its view is the list of
numbers under a key. A key with no numbers is not stored, so two indexes that show the same lists
are equal. The lists are kept newest first, which makes filing a number cheap.
-/

namespace IndexedGrammar

/-- Lists of numbers filed under keys. -/
abbrev Index (κ : Type) [Ord κ] := Std.ExtTreeMap κ (List Nat)

instance {κ : Type} [Ord κ] [Std.TransOrd κ] [Std.LawfulEqOrd κ] : DecidableEq (Index κ) :=
  inferInstanceAs (DecidableEq (Std.ExtTreeMap κ (List Nat)))

namespace Index

variable {κ : Type} [Ord κ] [Std.TransOrd κ]

/-- The numbers under a key, oldest first. -/
def ids (index : Index κ) (key : κ) : List Nat :=
  (index.getD key []).reverse

/-- Files the given numbers, oldest first, under a key in place of what was there. -/
def put (index : Index κ) (key : κ) (ids : List Nat) : Index κ :=
  if ids.isEmpty then index.erase key else index.insert key ids.reverse

/-- Files one more number under a key. -/
def push (index : Index κ) (key : κ) (id : Nat) : Index κ :=
  index.insert key (id :: index.getD key [])

/-- Takes a number out of a key's list, if it is there. -/
def erase? (index : Index κ) (key : κ) (id : Nat) : Option (Index κ) :=
  let ids := index.ids key
  if id ∈ ids then some (index.put key (ids.erase id)) else none

/-- Where a number stands in a key's list. -/
def place (index : Index κ) (key : κ) (id : Nat) : Nat :=
  (index.ids key).idxOf id

/-- Puts a number into a key's list at a place. -/
def insertAt (index : Index κ) (key : κ) (place id : Nat) : Index κ :=
  index.put key ((index.ids key).insertIdx place id)

/-- Takes the latest number out of a key's list; there has to be one. -/
def pop? (index : Index κ) (key : κ) : Option (Index κ) :=
  match index[key]? with
  | none => none
  | some ids => some (if ids.tail.isEmpty then index.erase key else index.insert key ids.tail)

/-- Renumbers every list. A number that has no new one is left out. -/
def renumber (index : Index κ) (renumbered : Nat → Option Nat) : Index κ :=
  index.filterMap fun _ ids =>
    let kept := ids.filterMap renumbered
    if kept.isEmpty then none else some kept

end Index

end IndexedGrammar
