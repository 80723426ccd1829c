import IndexedGrammar.Chart.Editor

/-!
# Parsing

The chart of a sentence, and the chart of every sentence up to a length. A run that was given up
leaves no chart.
-/

namespace IndexedGrammar

/-- What a parse may cost, and whether cancellation is requested from the beginning. -/
def Settings.budget (settings : Settings) (cancelled : Bool) : Budget :=
  ⟨settings.maxStatesPerColumn, if cancelled then some 0 else none⟩

/-- What a parse may cost that nobody cancels. -/
@[simp] theorem Settings.budget_false (settings : Settings) :
    settings.budget false = ⟨settings.maxStatesPerColumn, none⟩ :=
  rfl

namespace Editor

/-- A finished chart; a run that was given up leaves none. -/
def finished (outcome : Except Breach (Editor × Option Fault)) : Except Failure Editor :=
  match outcome with
  | .error breach => .error (.breach breach)
  | .ok (_, some fault) => .error (.fault fault)
  | .ok (e, none) => .ok e

/-- The chart of a sentence, to be edited. -/
def parse (g : Grammar) (lexicon : Lexicon) (budget : Budget) (words : List String) :
    Except Failure Editor :=
  finished ((new (Chart.forSentence lexicon words) budget).build g)

/-- The chart of every list of at most `length` parts of speech, to be edited. -/
def generate (g : Grammar) (budget : Budget) (length : Nat) : Except Failure Editor :=
  finished ((new (Chart.forGeneration length) budget).build g)

end Editor

namespace Chart

/-- The chart of a sentence. -/
def parse (g : Grammar) (lexicon : Lexicon) (budget : Budget) (words : List String) :
    Except Failure Chart :=
  (Editor.parse g lexicon budget words).map Editor.chart

/-- The chart of every list of at most `length` parts of speech. -/
def generate (g : Grammar) (budget : Budget) (length : Nat) : Except Failure Chart :=
  (Editor.generate g budget length).map Editor.chart

end Chart

end IndexedGrammar
