import IndexedGrammar.Chart.Parsing
import IndexedGrammar.Corpus
import IndexedGrammar.Grammar.Expansion
import IndexedGrammar.Proofs.Grammar.Changes

/-!
# Sample grammars

Lists of one part of speech, which grow to the left, lists whose length is counted on a stack, and sentences of
a front and a back. The grammars are small enough to be run by evaluation, so they show that the hypotheses of
general theorems can be met.
-/

namespace IndexedGrammar.Sample

/-- The only part of speech. -/
def noun : Category := .bare "n"

/-- The start category. -/
def list : Category := .bare "S"

/-- A list may be a single word. -/
def single : Rule := ⟨list, [noun], none⟩

/-- A list may be a list followed by a word. -/
def longer : Rule := ⟨list, [list, noun], none⟩

/-- A list may be two words. -/
def pair : Rule := ⟨list, [noun, noun], none⟩

/-- A list may be two lists, in which case there are many parses. -/
def doubled : Rule := ⟨list, [list, list], none⟩

/-- A list may be nothing. -/
def nothing : Rule := ⟨list, [.epsilon], none⟩

/-- A list may be a list, which is a unit cycle. -/
def looped : Rule := ⟨list, [list], none⟩

/-- The grammar of lists of one word. -/
def singles : Grammar :=
  (Grammar.new list "γ" (Std.ExtTreeSet.ofList ["n"])).insert single

/-- The grammar of all lists. -/
def lists : Grammar :=
  singles.insert longer

/-- Lists that have one word more than there are symbols on a stack. -/
def counted : Schema :=
  ⟨#[⟨list, [⟨"T", "x.x"⟩], none⟩, ⟨⟨"T", "*.x"⟩, [noun, ⟨"T", "*"⟩], none⟩,
    ⟨.bare "T", [noun], none⟩]⟩

/-- The settings under which counted lists are compiled. -/
def forCounted : Settings :=
  { start := "S", gamma := "γ" }

/-- Two words, both of the only part of speech. -/
def words : Lexicon :=
  (Lexicon.empty.insert "n" "a").insert "n" "b"

/-- Two sentences, one of which occurs twice. -/
def sentences : Corpus :=
  ⟨[["a", "b"], ["a"], ["a", "b"]]⟩

/-- The front of a sentence. -/
def front : Category := .bare "A"

/-- The back of a sentence. -/
def back : Category := .bare "B"

/-- The grammar of sentences whose front is one or two words and whose back is one word. -/
def halves : Grammar :=
  ((((Grammar.new list "γ" (Std.ExtTreeSet.ofList ["n"])).insert ⟨list, [front, back], none⟩).insert
    ⟨front, [noun], none⟩).insert ⟨front, [noun, noun], none⟩).insert ⟨back, [noun], none⟩

/-- A back may be two words. -/
def longBack : Rule := ⟨back, [noun, noun], none⟩

/-- Settings under which two words are too much work if lists can be doubled. -/
def tight : Settings :=
  { maxStatesPerColumn := 10 }

/-- Settings under which single rules can be inserted, but not all rules be parsed with at once. -/
def scant : Settings :=
  { maxStatesPerColumn := 8 }

/-- The chart of a sentence of two words in which nothing has been found. -/
def blank : Chart :=
  .new (.sentence 2) (.tokens #[⟨"a", [noun]⟩, ⟨"b", [noun]⟩])

/-- The chart of a sentence of three words in which nothing has been found. -/
def three : Chart :=
  .new (.sentence 3) (.tokens #[⟨"a", [noun]⟩, ⟨"b", [noun]⟩, ⟨"a", [noun]⟩])

/-- More than these sentences need. -/
def ample : Budget := ⟨100, none⟩

/-- What a run that is not given up leads to. -/
def completed? {α : Type} : Except Breach (α × Option Fault) → Option α
  | .ok (a, none) => some a
  | _ => none

/-- A run that leads to something was not given up. -/
theorem ok_of_completed? {α : Type} {outcome : Except Breach (α × Option Fault)} {a : α}
    (h : completed? outcome = some a) : outcome = .ok (a, none) := by
  unfold completed? at h
  split at h
  · rw [Option.some.inj h]
  · contradiction

/-- What has a value did not fail. -/
theorem ok_of_toOption {ε α : Type} {outcome : Except ε α} {a : α}
    (h : outcome.toOption = some a) : outcome = .ok a := by
  cases outcome with
  | error e => contradiction
  | ok b => rw [Option.some.inj h]

/-- What has a value with some property did not fail. -/
theorem exists_ok_of_any {ε α : Type} {outcome : Except ε α} {keeps : α → Bool}
    (h : outcome.toOption.any keeps = true) : ∃ a, outcome = .ok a ∧ keeps a = true := by
  cases outcome with
  | error e => contradiction
  | ok a => exact ⟨a, rfl, h⟩

/-- The rules of counted lists are not refused. -/
theorem ofRules_counted : Schema.ofRules counted.rules.toList = .ok counted :=
  ok_of_toOption (by decide +kernel)

/-- The grammars of lists come about by insertions. -/
theorem reachable_singles : singles.Reachable :=
  .insert single (.new list "γ" _)

/-- The rules of the grammar of all lists are well-formed. -/
theorem wellFormed_lists : lists.WellFormed := by
  have hall : ∀ numbered ∈ lists.rules, numbered.2.WellFormed := by decide +kernel
  exact fun id r hr => hall (id, r) hr

/-- No rule of the grammars of lists uses the synthetic name. -/
theorem rootUnused_lists : lists.RootUnused := by
  intro root hroot
  obtain rfl := Option.some.inj hroot
  refine ⟨by decide, ?_⟩
  have hall : ∀ numbered ∈ lists.rules, numbered.2.lhs.name ≠ "γ" ∧
      ∀ c ∈ numbered.2.rhs, c.name ≠ "γ" := by decide +kernel
  exact fun id r hr => hall (id, r) hr

/-- The grammar of all lists is fit. -/
theorem fit_lists : lists.Fit :=
  ⟨.insert longer reachable_singles, wellFormed_lists, by decide +kernel, rootUnused_lists⟩

end IndexedGrammar.Sample
