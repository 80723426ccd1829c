import IndexedGrammar.Proofs.Stack
import IndexedGrammar.RuleSpace
import Mathlib.Logic.Basic

/-!
# Categories as a rule space writes them

A rule space writes a category bare, with the wildcard alone on its stack, or with one symbol on top of the
wildcard. Renaming such a category renames the words it is written with, one by one, as long as symbols are
renamed to symbols. So what a renaming does to it depends on its words only, and renaming twice is renaming
by the composition.
-/

namespace IndexedGrammar

open RuleSpace

namespace Category

/-- A category as a rule space writes it. -/
inductive Written : Category → Prop
  | bare (name : String) : Written (.bare name)
  | inheriting (c : Category) : Written (inheriting c)
  | topped (c : Category) {symbol : Category} : Stack.IsSymbol symbol.name → Written (topped c symbol)

/-- The words of a category: its name, then what stands between separators and wildcards on its stack. -/
def words (c : Category) : List String :=
  c.name :: (Stack.pieces (c.stack.toList.map fun ch =>
    if ch = Stack.wildcard then Stack.separator else ch)).map String.ofList

/-- Whether a renaming turns symbols into symbols. -/
def KeepsSymbols (names : String → String) : Prop :=
  ∀ symbol, Stack.IsSymbol symbol → Stack.IsSymbol (names symbol)

variable {names names' : String → String} {c symbol : Category}

/-! Renaming by the way a category is written -/

/-- The pattern of a wildcard in front of a text without separators. -/
theorem pattern?_wildcard (name : String) {back : String} (hback : Stack.separator ∉ back.toList) :
    (⟨name, "*" ++ back⟩ : Category).pattern? = some ⟨[], Stack.segments back⟩ := by
  have hspan : ("*" ++ back).toList.span (· ≠ Stack.wildcard) =
      ([], Stack.wildcard :: back.toList) := by
    rw [String.toList_append]
    rfl
  have hdrop : back.toList.dropWhile (· = Stack.separator) = back.toList := by
    cases htext : back.toList with
    | nil => rfl
    | cons ch rest =>
      have hch : ch ≠ Stack.separator := fun heq => hback (by simp [htext, heq])
      rw [List.dropWhile_cons_of_neg (by simpa using hch)]
  rw [pattern?, StackPattern.parse, hspan]
  dsimp only
  rw [hdrop]
  rfl

/-- A bare category has a new name. -/
theorem renamed_bare (name : String) : (Category.bare name).renamed names = .bare (names name) := by
  have hpattern : (Category.bare name).pattern? = none := rfl
  rw [renamed, hpattern]
  rfl

/-- A category that inherits the whole stack has a new name. -/
theorem renamed_inheriting : (inheriting c).renamed names = inheriting (c.renamed names) := by
  have hpattern : (inheriting c).pattern? = some ⟨[], []⟩ :=
    pattern?_wildcard c.name (by simp : Stack.separator ∉ "".toList)
  rw [renamed, hpattern]
  rfl

/-- A category with a symbol on top of the wildcard has a new name and a new symbol. -/
theorem renamed_topped (hsymbol : Stack.IsSymbol symbol.name)
    (hnew : Stack.IsSymbol (names symbol.name)) :
    (topped c symbol).renamed names = topped (c.renamed names) (symbol.renamed names) := by
  have hpattern : (topped c symbol).pattern? = some ⟨[], [symbol.name]⟩ := by
    rw [← Stack.segments_join (List.forall_mem_singleton.mpr hsymbol)]
    exact pattern?_wildcard c.name hsymbol.separator_not_mem
  have hrename : Stack.rename names [symbol.name] = names symbol.name := by
    rw [Stack.rename, Stack.symbolsOf_eq_self (List.forall_mem_singleton.mpr hsymbol.ne_empty)]
    rfl
  have hsegments : Stack.segments (names symbol.name) = [names symbol.name] :=
    Stack.segments_join (List.forall_mem_singleton.mpr hnew)
  rw [renamed, hpattern]
  dsimp only [StackPattern.renamed]
  rw [hrename, hsegments]
  rfl

/-! Words -/

/-- A bare category has nothing on its stack. -/
theorem words_bare (name : String) : (Category.bare name).words = [name, ""] := by
  simp [words, Category.bare, Stack.pieces]

/-- There is nothing on either side of a wildcard that stands alone. -/
theorem words_inheriting : (inheriting c).words = [c.name, "", ""] := by
  simp [words, RuleSpace.inheriting, Stack.pieces, Stack.wildcard]

/-- A symbol on top of a wildcard is a word. -/
theorem words_topped (hsymbol : Stack.IsSymbol symbol.name) :
    (topped c symbol).words = [c.name, "", symbol.name] := by
  have htext : (symbol.name.toList.map fun ch =>
      if ch = Stack.wildcard then Stack.separator else ch) = symbol.name.toList := by
    refine (List.map_congr_left fun ch hch => if_neg ?_).trans (List.map_id _)
    exact fun heq => hsymbol.wildcard_not_mem (heq ▸ hch)
  have hpieces : Stack.pieces symbol.name.toList = [symbol.name.toList] :=
    Stack.pieces_of_not_mem hsymbol.separator_not_mem
  have hstack : (topped c symbol).stack.toList = Stack.wildcard :: symbol.name.toList := by
    rw [topped, String.toList_append]
    rfl
  rw [words, hstack, List.map_cons, if_pos rfl, htext, Stack.pieces, if_pos rfl, hpieces]
  simp [topped]

namespace Written

/-- The words of the new category are the new words. -/
theorem words_renamed (h : c.Written) (hempty : names "" = "") (hsymbols : KeepsSymbols names) :
    (c.renamed names).words = c.words.map names := by
  cases h with
  | bare name => rw [renamed_bare, words_bare, words_bare, List.map_cons, List.map_singleton, hempty]
  | inheriting c =>
    rw [renamed_inheriting, words_inheriting, words_inheriting]
    simp [renamed, hempty]
  | topped c hsymbol =>
    rw [renamed_topped hsymbol (hsymbols _ hsymbol), words_topped hsymbol,
      words_topped (hsymbols _ hsymbol)]
    simp [renamed, hempty]

/-- Renamings that agree on the words of a category rename it alike. -/
theorem renamed_congr (h : c.Written) (hsymbols : KeepsSymbols names)
    (hwords : ∀ word ∈ c.words, names word = names' word) : c.renamed names = c.renamed names' := by
  have hname : names c.name = names' c.name := hwords c.name List.mem_cons_self
  cases h with
  | bare name => exact congrArg Category.bare hname
  | inheriting c =>
    rw [renamed_inheriting, renamed_inheriting]
    exact congrArg (Category.mk · "*") hname
  | @topped c symbol hsymbol =>
    have htop : names symbol.name = names' symbol.name := by
      refine hwords symbol.name ?_
      rw [words_topped hsymbol]
      simp
    have hnew := hsymbols symbol.name hsymbol
    rw [renamed_topped hsymbol hnew, renamed_topped hsymbol (htop ▸ hnew)]
    exact congrArg₂ (fun name symbol => Category.mk name ("*" ++ symbol)) hname htop

/-- What a renaming gives is written in the same way. -/
theorem renamed (h : c.Written) (hsymbols : KeepsSymbols names) : (c.renamed names).Written := by
  cases h with
  | bare name => exact .bare _
  | inheriting c =>
    rw [renamed_inheriting]
    exact .inheriting _
  | topped c hsymbol =>
    rw [renamed_topped hsymbol (hsymbols _ hsymbol)]
    exact .topped _ (hsymbols _ hsymbol)

/-- Renaming twice is renaming by the composition. -/
theorem renamed_renamed (h : c.Written) (hsymbols : KeepsSymbols names)
    (hsymbols' : KeepsSymbols names') :
    (c.renamed names).renamed names' = c.renamed (names' ∘ names) := by
  cases h with
  | bare name => rfl
  | inheriting c =>
    rw [renamed_inheriting, renamed_inheriting, renamed_inheriting]
    rfl
  | @topped c symbol hsymbol =>
    have hnew := hsymbols _ hsymbol
    have hcomp : Stack.IsSymbol ((names' ∘ names) symbol.name) := hsymbols' _ hnew
    rw [renamed_topped hsymbol hnew, renamed_topped hnew (hsymbols' _ hnew),
      renamed_topped hsymbol hcomp]
    rfl

end Written

end Category

end IndexedGrammar
