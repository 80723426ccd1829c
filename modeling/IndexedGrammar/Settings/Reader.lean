import IndexedGrammar.Settings
import IndexedGrammar.Toml.Document

/-!
# Reading settings

A settings file is a TOML document. A knob that it does not name keeps its usual value, and keys
that are no knobs do not matter.
-/

namespace IndexedGrammar.Settings

/-- The text under a key, or else the usual one. -/
def textAt (entries : Toml.Entries) (key usual : String) : Option String :=
  match entries.lookup key with
  | none => some usual
  | some (.value (.text text)) => some text
  | some _ => none

/-- The number under a key, or else the usual one. -/
def numberAt (entries : Toml.Entries) (key : String) (usual : Nat) : Option Nat :=
  match entries.lookup key with
  | none => some usual
  | some (.value (.integer n)) => if 0 ≤ n then some n.toNat else none
  | some _ => none

/-- The settings that a table stands for. -/
def ofEntries (entries : Toml.Entries) : Option Settings := do
  let usual : Settings := {}
  return {
    start := ← textAt entries "start" usual.start
    gamma := ← textAt entries "gamma" usual.gamma
    maxStackDepth := ← numberAt entries "max_stack_depth" usual.maxStackDepth
    maxNonterminals := ← numberAt entries "max_nonterminals" usual.maxNonterminals
    maxStatesPerColumn := ← numberAt entries "max_states_per_column" usual.maxStatesPerColumn
    countDepth := ← numberAt entries "count_depth" usual.countDepth }

/-- Reads a settings file. -/
def read (text : String) : Option Settings :=
  (Toml.read text).bind ofEntries

end IndexedGrammar.Settings
