/-!
# Choices

Every way of taking one element from each of several lists. The first list varies fastest.
-/

namespace IndexedGrammar

/-- Every way of taking one element from each list, in order. No lists at all give no way. -/
def combinations {α : Type} : List (List α) → List (List α)
  | [] => []
  | [choices] => choices.map fun a => [a]
  | choices :: next :: rest =>
    (combinations (next :: rest)).flatMap fun chosen => choices.map fun a => a :: chosen

end IndexedGrammar
