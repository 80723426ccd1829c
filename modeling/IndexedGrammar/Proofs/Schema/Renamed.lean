import IndexedGrammar.Proofs.Schema.Reading
import Mathlib.Data.Set.Function

/-!
# Renamed schema grammars

The words of a schema grammar are the names of its categories and the symbols on their stacks. If new words
can stand on a stack wherever a word is changed, a renamed rule is proper, with a wildcard where there was one
and the new symbols on both sides of it. So the renamed schema grammar is one.
-/

namespace IndexedGrammar

namespace Stack

/-- A symbol that a schema grammar takes on a stack: one without brackets and blanks. -/
structure IsLegal (symbol : String) : Prop extends IsSymbol symbol where
  plain : ∀ ch ∈ symbol.toList, ch ≠ '[' ∧ ch ≠ ']' ∧ Text.isBlank ch = false

variable {stack front back : List String}

/-- A character of legal symbols that are joined has no meaning beyond the stack. -/
theorem plain_of_mem_join (hstack : ∀ symbol ∈ stack, IsLegal symbol) {ch : Char}
    (hch : ch ∈ (join stack).toList) : ch ≠ '[' ∧ ch ≠ ']' ∧ Text.isBlank ch = false := by
  rcases mem_join hch with rfl | ⟨symbol, hsymbol, hch⟩
  · exact by decide
  · exact (hstack symbol hsymbol).plain ch hch

/-- Joined symbols are a proper stack. -/
theorem isProper_join (hstack : ∀ symbol ∈ stack, IsSymbol symbol) (hne : stack ≠ []) :
    IsProper (join stack).toList where
  ne_nil piece hpiece := by
    rw [pieces_join (fun symbol hsymbol => (hstack symbol hsymbol).separator_not_mem) hne] at hpiece
    obtain ⟨symbol, hsymbol, rfl⟩ := List.mem_map.mp hpiece
    exact fun hnil => (hstack symbol hsymbol).ne_empty (String.toList_eq_nil_iff.mp hnil)
  begins piece hpiece hwild :=
    absurd ((of_mem_pieces hpiece).2 _ hwild) (wildcard_not_mem_join hstack)
  count_le := by
    rw [List.count_eq_zero.mpr (wildcard_not_mem_join hstack)]
    exact Nat.zero_le 1

/-- A wildcard below joined symbols is a proper stack. -/
theorem isProper_wildcard (hback : ∀ symbol ∈ back, IsSymbol symbol) :
    IsProper (wildcard :: (join back).toList) := by
  have hpieces : ∃ first more, pieces (wildcard :: (join back).toList) = (wildcard :: first) :: more ∧
      wildcard ∉ first ∧ ∀ piece ∈ more, piece ≠ [] ∧ wildcard ∉ piece := by
    cases back with
    | nil => exact ⟨[], [], by decide, List.not_mem_nil, by simp⟩
    | cons symbol rest =>
      obtain ⟨hsymbol, hrest⟩ := List.forall_mem_cons.mp hback
      have hback := pieces_join (fun symbol hsymbol => (hback symbol hsymbol).separator_not_mem)
        (List.cons_ne_nil symbol rest)
      refine ⟨_, _, pieces_cons_of_ne (by decide) hback,
        hsymbol.wildcard_not_mem, fun piece hpiece => ?_⟩
      obtain ⟨other, hother, rfl⟩ := List.mem_map.mp hpiece
      exact ⟨fun hnil => (hrest other hother).ne_empty (String.toList_eq_nil_iff.mp hnil),
        (hrest other hother).wildcard_not_mem⟩
  obtain ⟨first, more, hpieces, hfirst, hmore⟩ := hpieces
  refine ⟨fun piece hpiece => ?_, fun piece hpiece hwild => ?_, ?_⟩
  · rw [hpieces] at hpiece
    rcases List.mem_cons.mp hpiece with rfl | hpiece
    · exact List.cons_ne_nil _ _
    · exact (hmore piece hpiece).1
  · rw [hpieces] at hpiece
    rcases List.mem_cons.mp hpiece with rfl | hpiece
    · rfl
    · exact absurd hwild (hmore piece hpiece).2
  · rw [List.count_cons_self, List.count_eq_zero.mpr (wildcard_not_mem_join hback)]

/-- Joined symbols below a proper stack make a proper stack. -/
theorem IsProper.append_join {text : List Char} (h : IsProper text)
    (hfront : ∀ symbol ∈ front, IsSymbol symbol) (hne : front ≠ []) :
    IsProper ((join front).toList ++ separator :: text) := by
  have hjoin := isProper_join hfront hne
  have hpieces := pieces_append_separator (join front).toList text
  have hcount : (join front).toList.count wildcard = 0 :=
    List.count_eq_zero.mpr (wildcard_not_mem_join hfront)
  refine ⟨fun piece hpiece => ?_, fun piece hpiece hwild => ?_, ?_⟩
  · exact (List.mem_append.mp (hpieces ▸ hpiece)).elim (hjoin.ne_nil piece) (h.ne_nil piece)
  · exact (List.mem_append.mp (hpieces ▸ hpiece)).elim (hjoin.begins piece · hwild) (h.begins piece · hwild)
  · rw [List.count_append, hcount, List.count_cons_of_ne (by decide), Nat.zero_add]
    exact h.count_le

end Stack

namespace StackPattern

variable {front back : List String}

/-- A pattern is written as its front symbols, a separator behind them, the wildcard, and its back symbols. -/
theorem toList_text : (mk front back).text.toList =
    (if front.isEmpty then [] else (Stack.join front).toList ++ [Stack.separator]) ++
      Stack.wildcard :: (Stack.join back).toList := by
  unfold text
  split <;> simp [Stack.wildcard, Stack.separator]

/-- A written pattern has a wildcard. -/
theorem wildcard_mem_text (front back : List String) :
    Stack.wildcard ∈ (mk front back).text.toList := by
  rw [toList_text]
  exact List.mem_append_right _ List.mem_cons_self

/-- There is no wildcard in what is written in front. -/
theorem wildcard_not_mem_front (hfront : ∀ symbol ∈ front, Stack.IsSymbol symbol) :
    Stack.wildcard ∉ if front.isEmpty then [] else (Stack.join front).toList ++ [Stack.separator] := by
  split
  · exact List.not_mem_nil
  · rw [List.mem_append, List.mem_singleton, not_or]
    exact ⟨Stack.wildcard_not_mem_join hfront, by decide⟩

/-- The symbols in front of a written pattern stand below its wildcard. -/
theorem below_text (hfront : ∀ symbol ∈ front, Stack.IsSymbol symbol) :
    Stack.below (mk front back).text = front := by
  have hnot := wildcard_not_mem_front hfront
  rw [Stack.below, toList_text, List.takeWhile_append_of_pos (fun ch hch => ?_),
    List.takeWhile_cons_of_neg (by simp), List.append_nil]
  · split
    · next hempty => exact (List.isEmpty_iff.mp hempty).symm
    · rw [Stack.symbols_concat_separator, String.ofList_toList, Stack.symbols_join hfront]
  · exact decide_eq_true fun heq => hnot (heq ▸ hch)

section Symbols

variable (hfront : ∀ symbol ∈ front, Stack.IsLegal symbol) (hback : ∀ symbol ∈ back, Stack.IsLegal symbol)
include hfront hback

/-- The symbols at the back of a written pattern stand above its wildcard. -/
theorem above_text : Stack.above (mk front back).text = back := by
  have hnot := wildcard_not_mem_front fun symbol hsymbol => (hfront symbol hsymbol).toIsSymbol
  rw [Stack.above, toList_text, List.dropWhile_append_of_pos (fun ch hch => ?_),
    List.dropWhile_cons_of_neg (by simp), List.tail_cons, String.ofList_toList,
    Stack.symbols_join fun symbol hsymbol => (hback symbol hsymbol).toIsSymbol]
  exact decide_eq_true fun heq => hnot (heq ▸ hch)

/-- A written pattern of legal symbols is a proper stack. -/
theorem isProper_text : Stack.IsProper (mk front back).text.toList := by
  have hwild := Stack.isProper_wildcard fun symbol hsymbol => (hback symbol hsymbol).toIsSymbol
  rw [toList_text]
  split
  · exact hwild
  · next hne =>
    rw [List.append_assoc, List.singleton_append]
    exact hwild.append_join (fun symbol hsymbol => (hfront symbol hsymbol).toIsSymbol) (by simpa using hne)

/-- A character of a written pattern of legal symbols has no meaning beyond the stack. -/
theorem plain_of_mem_text {ch : Char} (hch : ch ∈ (mk front back).text.toList) :
    ch ≠ '[' ∧ ch ≠ ']' ∧ Text.isBlank ch = false := by
  rw [toList_text, List.mem_append, List.mem_cons] at hch
  rcases hch with hch | rfl | hch
  · split at hch
    · exact absurd hch List.not_mem_nil
    · rcases List.mem_append.mp hch with hch | hch
      · exact Stack.plain_of_mem_join hfront hch
      · exact List.mem_singleton.mp hch ▸ by decide
  · decide
  · exact Stack.plain_of_mem_join hback hch

end Symbols

end StackPattern

/-! Renaming words -/

/-- A renaming that keeps some words apart and changes them into symbols only. Among them are reserved words,
which stay as they are. -/
structure Renaming (words reserved : Set String) (names : String → String) : Prop where
  injOn : Set.InjOn names words
  legal : ∀ word ∈ words, names word = word ∨ Stack.IsLegal (names word)
  subset : reserved ⊆ words
  keeps : ∀ word ∈ reserved, names word = word

/-- Whether a rule is written with a word, as the name of a category or on a stack. -/
def Rule.Names (rule : Rule) (word : String) : Prop :=
  ∃ c ∈ rule.lhs :: rule.rhs, word = c.name ∨ word ∈ c.writtenSymbols

instance (rule : Rule) (word : String) : Decidable (rule.Names word) :=
  inferInstanceAs (Decidable (∃ c ∈ rule.lhs :: rule.rhs, word = c.name ∨ word ∈ c.writtenSymbols))

/-- The words that the rules of a schema grammar are written with. -/
def Schema.words (s : Schema) : Set String :=
  {word | ∃ r ∈ s.rules, r.Names word}

/-- The rules of a schema grammar, renamed one by one. -/
def Schema.relabelled (names : String → String) (s : Schema) : Schema :=
  ⟨s.rules.map fun r => (r.renamed names).detached⟩

/-- A renaming that keeps the parts of speech changes nothing else into one. -/
theorem Renaming.mem_partsOfSpeech_iff {words reserved : Set String} {names : String → String}
    (h : Renaming words reserved names) {partsOfSpeech : Std.ExtTreeSet String}
    (hpos : ∀ name ∈ partsOfSpeech, name ∈ reserved) {word : String} (hword : word ∈ words) :
    names word ∈ partsOfSpeech ↔ word ∈ partsOfSpeech := by
  refine ⟨fun hnew => ?_, fun hold => (h.keeps word (hpos word hold)).symm ▸ hold⟩
  exact h.injOn (h.subset (hpos _ hnew)) hword (h.keeps _ (hpos _ hnew)) ▸ hnew

/-- A function that is injective on the members of two lists takes different lists to different ones. -/
theorem eq_of_map_eq {α β : Type} {f : α → β} {within : Set α} (hf : Set.InjOn f within) {as bs : List α}
    (has : ∀ a ∈ as, a ∈ within) (hbs : ∀ b ∈ bs, b ∈ within) (heq : as.map f = bs.map f) : as = bs := by
  induction as generalizing bs with
  | nil => exact (List.map_eq_nil_iff.mp heq.symm).symm
  | cons a as ih =>
    cases bs with
    | nil => exact absurd heq (List.cons_ne_nil _ _)
    | cons b bs =>
      obtain ⟨ha, has⟩ := List.forall_mem_cons.mp has
      obtain ⟨hb, hbs⟩ := List.forall_mem_cons.mp hbs
      obtain ⟨hfirst, hrest⟩ := List.cons.inj heq
      rw [hf ha hb hfirst, ih has hbs hrest]

namespace Category

/-- Whether a category is written with some words only. -/
structure Within (words : Set String) (c : Category) : Prop where
  name : c.name ∈ words
  writtenSymbols : ∀ symbol ∈ c.writtenSymbols, symbol ∈ words

variable {words reserved : Set String} {names : String → String} {c d : Category}

/-- The written symbols of a category without a wildcard are those on its stack. -/
theorem writtenSymbols_of_not_hasWildcard (hwild : c.hasWildcard = false) : c.writtenSymbols = c.symbols := by
  rw [writtenSymbols, pattern?_eq_none hwild]
  rfl

/-- The written symbols of a category with a wildcard stand around it. -/
theorem writtenSymbols_of_hasWildcard (hc : c.hasProperStack = true) (hwild : c.hasWildcard = true) :
    c.writtenSymbols = c.below ++ c.above := by
  rw [writtenSymbols, pattern?_eq_some hc hwild]
  dsimp only
  rw [Stack.symbolsOf_eq_self fun _ h => (isSymbol_around hc hwild (.inl h)).ne_empty,
    Stack.symbolsOf_eq_self fun _ h => (isSymbol_around hc hwild (.inr h)).ne_empty]

/-- The depth of a category is the number of symbols written on its stack. -/
theorem depth_eq_length_writtenSymbols : c.depth = c.writtenSymbols.length := by
  unfold depth writtenSymbols
  cases c.pattern? with
  | none => rfl
  | some p => exact List.length_append.symm

/-- A stack is proper if its characters have no meaning beyond it and it is cut properly. -/
theorem hasProperStack_of_isProper (hproper : Stack.IsProper c.stack.toList)
    (hplain : ∀ ch ∈ c.stack.toList, ch ≠ '[' ∧ ch ≠ ']' ∧ Text.isBlank ch = false) :
    c.hasProperStack = true := by
  have hcharacter : c.stack.toList.any (fun ch => ch = '[' || ch = ']' || Text.isBlank ch) = false := by
    rw [List.any_eq_false]
    intro ch hch
    obtain ⟨hopen, hclose, hblank⟩ := hplain ch hch
    simp [hopen, hclose, hblank]
  have hsegment : (Stack.pieces c.stack.toList).any (fun segment => segment.isEmpty ||
      (segment.contains Stack.wildcard && 1 < segment.length &&
        segment.head? != some Stack.wildcard)) = false := by
    rw [List.any_eq_false]
    intro piece hpiece
    have hne := hproper.ne_nil piece hpiece
    cases hwild : piece.contains Stack.wildcard with
    | false => simp [hne]
    | true => simp [hne, hproper.begins piece hpiece (List.contains_iff_mem.mp hwild)]
  have hcount : ¬1 < c.stack.toList.count Stack.wildcard := Nat.not_lt.mpr hproper.count_le
  unfold hasProperStack
  dsimp only
  rw [hcharacter, hsegment, decide_eq_false hcount]
  exact Bool.or_true _

/-- Legal symbols make a proper stack. -/
theorem hasProperStack_ofSymbols {name : String} {stack : List String}
    (hstack : ∀ symbol ∈ stack, Stack.IsLegal symbol) : (ofSymbols name stack).hasProperStack = true := by
  by_cases hne : stack = []
  · simp [hne, hasProperStack, Stack.join]
  · exact hasProperStack_of_isProper
      (Stack.isProper_join (fun symbol hsymbol => (hstack symbol hsymbol).toIsSymbol) hne)
      fun _ => Stack.plain_of_mem_join hstack

/-- A written pattern of legal symbols makes a proper stack. -/
theorem hasProperStack_text {name : String} {front back : List String}
    (hfront : ∀ symbol ∈ front, Stack.IsLegal symbol) (hback : ∀ symbol ∈ back, Stack.IsLegal symbol) :
    (mk name (StackPattern.mk front back).text).hasProperStack = true :=
  hasProperStack_of_isProper (StackPattern.isProper_text hfront hback)
    fun _ => StackPattern.plain_of_mem_text hfront hback

/-- The characters of a proper stack have no meaning beyond it. -/
theorem plain_of_hasProperStack (hc : c.hasProperStack = true) {ch : Char} (hch : ch ∈ c.stack.toList) :
    ch ≠ '[' ∧ ch ≠ ']' ∧ Text.isBlank ch = false := by
  have hne : c.stack.toList.isEmpty = false := by
    cases htext : c.stack.toList with
    | nil => exact absurd (htext ▸ hch) List.not_mem_nil
    | cons => rfl
  simp only [hasProperStack, hne, Bool.false_or, Bool.not_eq_true', Bool.or_eq_false_iff,
    List.any_eq_false] at hc
  simpa [and_assoc] using hc.1.1 ch hch

/-- What is written on a proper stack is legal. -/
theorem isLegal_of_mem_writtenSymbols (hc : c.hasProperStack = true) {symbol : String}
    (hsymbol : symbol ∈ c.writtenSymbols) : Stack.IsLegal symbol := by
  have hmem (text : List Char) (hsub : ∀ ch ∈ text, ch ∈ c.stack.toList)
      (hin : symbol ∈ Stack.symbols (String.ofList text)) :
      ∀ ch ∈ symbol.toList, ch ≠ '[' ∧ ch ≠ ']' ∧ Text.isBlank ch = false := by
    intro ch hch
    rw [Stack.symbols_ofList] at hin
    obtain ⟨piece, hpiece, rfl⟩ := List.mem_map.mp (List.mem_filter.mp hin).1
    rw [String.toList_ofList] at hch
    exact plain_of_hasProperStack hc (hsub ch ((Stack.of_mem_pieces hpiece).2 ch hch))
  cases hwild : c.hasWildcard with
  | false =>
    rw [writtenSymbols_of_not_hasWildcard hwild] at hsymbol
    refine ⟨(isConcrete_of_hasProperStack hc hwild).isSymbol hsymbol, hmem c.stack.toList (fun _ h => h) ?_⟩
    rwa [String.ofList_toList]
  | true =>
    rw [writtenSymbols_of_hasWildcard hc hwild, List.mem_append] at hsymbol
    refine ⟨isSymbol_around hc hwild hsymbol, ?_⟩
    rcases hsymbol with hbelow | habove
    · exact hmem (c.stack.toList.takeWhile (· ≠ Stack.wildcard))
        (fun _ hch => (List.takeWhile_prefix _).subset hch) hbelow
    · exact hmem (c.stack.toList.dropWhile (· ≠ Stack.wildcard)).tail
        (fun _ hch => (List.dropWhile_suffix _).subset (List.mem_of_mem_tail hch)) habove

/-- A concrete stack has no wildcard. -/
theorem hasWildcard_of_isConcrete (hc : Stack.IsConcrete c.stack) : c.hasWildcard = false := by
  rw [← Bool.not_eq_true, hasWildcard_iff]
  exact hc.wildcard_not_mem

/-- The concrete categories that are written with some words only. -/
def concrete (words : Set String) : Set Category :=
  {c | c.Within words ∧ Stack.IsConcrete c.stack}

/-- The symbols on the stack of such a category are among the words. -/
theorem mem_of_mem_symbols (hc : c ∈ concrete words) : ∀ symbol ∈ c.symbols, symbol ∈ words :=
  writtenSymbols_of_not_hasWildcard (hasWildcard_of_isConcrete hc.2) ▸ hc.1.writtenSymbols

/-- A name with symbols on a stack is a concrete category, if all of them are among the words. -/
theorem ofSymbols_mem_concrete {name : String} {stack : List String} (hname : name ∈ words)
    (hwords : ∀ symbol ∈ stack, symbol ∈ words) (hstack : ∀ symbol ∈ stack, Stack.IsSymbol symbol) :
    ofSymbols name stack ∈ concrete words := by
  have hconcrete : Stack.IsConcrete (ofSymbols name stack).stack := ⟨stack, hstack, rfl⟩
  have hsymbols : (ofSymbols name stack).symbols = stack := Stack.symbols_join hstack
  refine ⟨⟨hname, ?_⟩, hconcrete⟩
  rwa [writtenSymbols_of_not_hasWildcard (hasWildcard_of_isConcrete hconcrete), hsymbols]

/-! Renamed categories -/

/-- A concrete category is renamed symbol by symbol. -/
theorem renamed_of_isConcrete (hc : Stack.IsConcrete c.stack) :
    c.renamed names = ofSymbols (names c.name) (c.symbols.map names) := by
  rw [renamed, pattern?_eq_none (hasWildcard_of_isConcrete hc)]
  rfl

section Renamed

variable (h : Renaming words reserved names) (hwithin : c.Within words)
include h hwithin

/-- New symbols are legal. -/
theorem isLegal_renamed (hc : c.hasProperStack = true) {symbol : String} (hsymbol : symbol ∈ c.writtenSymbols) :
    Stack.IsLegal (names symbol) := by
  rcases h.legal symbol (hwithin.writtenSymbols symbol hsymbol) with heq | hlegal
  · exact heq.symm ▸ isLegal_of_mem_writtenSymbols hc hsymbol
  · exact hlegal

/-- New symbols on a concrete stack can stand there. -/
theorem isSymbol_renamed (hc : Stack.IsConcrete c.stack) : ∀ symbol ∈ c.symbols.map names,
    Stack.IsSymbol symbol := by
  intro symbol hsymbol
  obtain ⟨old, hold, rfl⟩ := List.mem_map.mp hsymbol
  have hwritten := writtenSymbols_of_not_hasWildcard (hasWildcard_of_isConcrete hc) ▸ hold
  rcases h.legal old (hwithin.writtenSymbols old hwritten) with heq | hlegal
  · exact heq.symm ▸ hc.isSymbol hold
  · exact hlegal.toIsSymbol

/-- A renamed concrete category is concrete. -/
theorem isConcrete_renamed (hc : Stack.IsConcrete c.stack) : Stack.IsConcrete (c.renamed names).stack := by
  rw [renamed_of_isConcrete hc]
  exact ⟨_, isSymbol_renamed h hwithin hc, rfl⟩

/-- A renamed concrete category has the new symbols. -/
theorem symbols_renamed (hc : Stack.IsConcrete c.stack) : (c.renamed names).symbols = c.symbols.map names := by
  rw [renamed_of_isConcrete hc, symbols, stack_ofSymbols]
  exact Stack.symbols_join (isSymbol_renamed h hwithin hc)

/-- A renamed concrete category has an empty stack if the category had one. -/
theorem isEmpty_stack_renamed (hc : Stack.IsConcrete c.stack) :
    (c.renamed names).stack.isEmpty = c.stack.isEmpty := by
  have hsymbols : Stack.symbols (c.renamed names).stack = (Stack.symbols c.stack).map names :=
    symbols_renamed h hwithin hc
  rw [Bool.eq_iff_iff, hc.isEmpty_iff, (isConcrete_renamed h hwithin hc).isEmpty_iff, hsymbols,
    List.map_eq_nil_iff]

/-- A category with a wildcard is renamed on both sides of it. -/
theorem renamed_of_hasWildcard (hc : c.hasProperStack = true) (hwild : c.hasWildcard = true) :
    c.renamed names =
      ⟨names c.name, (⟨c.below.map names, c.above.map names⟩ : StackPattern).text⟩ := by
  have hsegments {part : List String} (hpart : ∀ symbol ∈ part, symbol ∈ c.writtenSymbols) :
      Stack.segments (Stack.rename names part) = part.map names := by
    have hsymbols : ∀ symbol ∈ part, symbol ≠ "" := fun symbol hsymbol =>
      (isLegal_of_mem_writtenSymbols hc (hpart symbol hsymbol)).ne_empty
    rw [Stack.rename, Stack.symbolsOf_eq_self hsymbols, Stack.segments_join]
    intro new hnew
    obtain ⟨symbol, hsymbol, rfl⟩ := List.mem_map.mp hnew
    exact (isLegal_renamed h hwithin hc (hpart symbol hsymbol)).toIsSymbol
  have hwritten := writtenSymbols_of_hasWildcard hc hwild
  rw [renamed, pattern?_eq_some hc hwild]
  dsimp only [StackPattern.renamed]
  rw [hsegments fun symbol hsymbol => hwritten ▸ List.mem_append_left _ hsymbol,
    hsegments fun symbol hsymbol => hwritten ▸ List.mem_append_right _ hsymbol]

/-- The new symbols around a wildcard are legal. -/
theorem isLegal_around (hc : c.hasProperStack = true) (hwild : c.hasWildcard = true) :
    (∀ symbol ∈ c.below.map names, Stack.IsLegal symbol) ∧ ∀ symbol ∈ c.above.map names, Stack.IsLegal symbol := by
  have hwritten := writtenSymbols_of_hasWildcard hc hwild
  constructor <;> intro new hnew <;> obtain ⟨symbol, hsymbol, rfl⟩ := List.mem_map.mp hnew
  · exact isLegal_renamed h hwithin hc (hwritten ▸ List.mem_append_left _ hsymbol)
  · exact isLegal_renamed h hwithin hc (hwritten ▸ List.mem_append_right _ hsymbol)

/-- A renamed category has a wildcard if the category had one. -/
theorem hasWildcard_renamed (hc : c.hasProperStack = true) :
    (c.renamed names).hasWildcard = c.hasWildcard := by
  cases hwild : c.hasWildcard with
  | false =>
    exact hasWildcard_of_isConcrete (isConcrete_renamed h hwithin (isConcrete_of_hasProperStack hc hwild))
  | true =>
    rw [renamed_of_hasWildcard h hwithin hc hwild, hasWildcard_iff]
    dsimp only
    exact StackPattern.wildcard_mem_text _ _

/-- A renamed category has the new symbols below its wildcard, and the new ones above it. -/
theorem around_renamed (hc : c.hasProperStack = true) (hwild : c.hasWildcard = true) :
    (c.renamed names).below = c.below.map names ∧ (c.renamed names).above = c.above.map names := by
  obtain ⟨hbelow, habove⟩ := isLegal_around h hwithin hc hwild
  have hrenamed := renamed_of_hasWildcard h hwithin hc hwild
  constructor
  · rw [hrenamed, Category.below, StackPattern.below_text fun symbol hsymbol => (hbelow symbol hsymbol).toIsSymbol]
  · rw [hrenamed, Category.above, StackPattern.above_text hbelow habove]

/-- A renamed category has a proper stack. -/
theorem hasProperStack_renamed (hc : c.hasProperStack = true) : (c.renamed names).hasProperStack = true := by
  cases hwild : c.hasWildcard with
  | false =>
    rw [renamed_of_isConcrete (isConcrete_of_hasProperStack hc hwild)]
    refine hasProperStack_ofSymbols fun new hnew => ?_
    obtain ⟨symbol, hsymbol, rfl⟩ := List.mem_map.mp hnew
    exact isLegal_renamed h hwithin hc (writtenSymbols_of_not_hasWildcard hwild ▸ hsymbol)
  | true =>
    obtain ⟨hbelow, habove⟩ := isLegal_around h hwithin hc hwild
    rw [renamed_of_hasWildcard h hwithin hc hwild]
    exact hasProperStack_text hbelow habove

/-- A category that keeps its stack, empty or not, is the empty category when it is renamed if it was before. -/
theorem isEpsilon_renamed_of_isEmpty (hreserved : epsilonName ∈ reserved)
    (hstack : (c.renamed names).stack.isEmpty = c.stack.isEmpty) :
    (c.renamed names).isEpsilon = c.isEpsilon := by
  have hname : (c.renamed names).name = epsilonName ↔ c.name = epsilonName := by
    refine ⟨fun heq => ?_, fun heq => (h.keeps _ (heq ▸ hreserved)).trans heq⟩
    exact h.injOn hwithin.name (h.subset hreserved) (heq.trans (h.keeps _ hreserved).symm)
  rw [isEpsilon, isEpsilon, hstack, decide_eq_decide.mpr hname]

/-- A renamed category is the empty one if the category was. -/
theorem isEpsilon_renamed (hreserved : epsilonName ∈ reserved) (hc : c.hasProperStack = true) :
    (c.renamed names).isEpsilon = c.isEpsilon := by
  refine isEpsilon_renamed_of_isEmpty h hwithin hreserved ?_
  cases hwild : c.hasWildcard with
  | false => exact isEmpty_stack_renamed h hwithin (isConcrete_of_hasProperStack hc hwild)
  | true =>
    have hempty {d : Category} (hd : d.hasWildcard = true) : d.stack.isEmpty = false := by
      rw [← Bool.not_eq_true, String.isEmpty_iff]
      intro hempty
      rw [hasWildcard_iff, hempty] at hd
      exact List.not_mem_nil hd
    rw [hempty hwild, hempty ((hasWildcard_renamed h hwithin hc).trans hwild)]

/-- What is written on a renamed category is renamed. -/
theorem writtenSymbols_renamed (hc : c.hasProperStack = true) :
    (c.renamed names).writtenSymbols = c.writtenSymbols.map names := by
  have hwild' := hasWildcard_renamed h hwithin hc
  cases hwild : c.hasWildcard with
  | false =>
    rw [writtenSymbols_of_not_hasWildcard (hwild'.trans hwild), writtenSymbols_of_not_hasWildcard hwild,
      symbols_renamed h hwithin (isConcrete_of_hasProperStack hc hwild)]
  | true =>
    obtain ⟨hbelow, habove⟩ := around_renamed h hwithin hc hwild
    rw [writtenSymbols_of_hasWildcard (hasProperStack_renamed h hwithin hc) (hwild'.trans hwild),
      writtenSymbols_of_hasWildcard hc hwild, hbelow, habove, List.map_append]

/-- A renamed category has as many explicit symbols. -/
theorem explicitDepth_renamed (hc : c.hasProperStack = true) :
    Rule.explicitDepth (c.renamed names) = Rule.explicitDepth c := by
  have hnew := hasProperStack_renamed h hwithin hc
  have hwild' := hasWildcard_renamed h hwithin hc
  cases hwild : c.hasWildcard with
  | false =>
    rw [hwild] at hwild'
    rw [Rule.explicitDepth, Rule.explicitDepth, pattern?_eq_none hwild, pattern?_eq_none hwild']
  | true =>
    rw [hwild] at hwild'
    have hlength {d : Category} (hd : d.hasProperStack = true) (hwild : d.hasWildcard = true) :
        Rule.explicitDepth d = d.below.length + d.above.length := by
      have hsymbols := writtenSymbols_of_hasWildcard hd hwild
      rw [writtenSymbols, pattern?_eq_some hd hwild] at hsymbols
      rw [Rule.explicitDepth, pattern?_eq_some hd hwild, ← List.length_append, ← hsymbols, List.length_append]
      rfl
    obtain ⟨hbelow, habove⟩ := around_renamed h hwithin hc hwild
    rw [hlength hnew hwild', hlength hc hwild, hbelow, habove, List.length_map, List.length_map]

/-- A category that is renamed with the depth it was written with has the depth of its new stack. -/
theorem counted_renamed (hc : c.hasProperStack = true ∨ Stack.IsConcrete c.stack) :
    c.counted.renamed names = (c.renamed names).counted := by
  have hsymbols : (c.renamed names).writtenSymbols = c.writtenSymbols.map names := by
    rcases hc with hproper | hconcrete
    · exact writtenSymbols_renamed h hwithin hproper
    · obtain ⟨hname, hrenamed⟩ := And.intro (hasWildcard_of_isConcrete hconcrete)
        (hasWildcard_of_isConcrete (isConcrete_renamed h hwithin hconcrete))
      rw [writtenSymbols_of_not_hasWildcard hrenamed, writtenSymbols_of_not_hasWildcard hname,
        symbols_renamed h hwithin hconcrete]
  have hdepth : (c.renamed names).depth = c.depth := by
    rw [depth_eq_length_writtenSymbols, depth_eq_length_writtenSymbols, hsymbols, List.length_map]
  rw [counted, counted, CountedCategory.renamed, hdepth]

end Renamed

/-- A renaming takes different concrete categories to different ones. -/
theorem injOn_renamed (h : Renaming words reserved names) :
    Set.InjOn (Category.renamed names) (concrete words) := by
  rintro c ⟨hc, hconcrete⟩ d ⟨hd, hconcrete'⟩ heq
  have hname : c.name = d.name := h.injOn hc.name hd.name (congrArg Category.name heq)
  have hsymbols : c.symbols = d.symbols := by
    refine eq_of_map_eq h.injOn (mem_of_mem_symbols ⟨hc, hconcrete⟩) (mem_of_mem_symbols ⟨hd, hconcrete'⟩) ?_
    rw [← symbols_renamed h hc hconcrete, ← symbols_renamed h hd hconcrete', heq]
  have hstack : c.stack = d.stack := by
    rw [← hconcrete.join_symbols, ← hconcrete'.join_symbols]
    exact congrArg Stack.join hsymbols
  cases c
  cases d
  exact congrArg₂ Category.mk hname hstack

end Category

/-! Renamed rules -/

namespace Rule

variable {words reserved : Set String} {names : String → String} {r r' : Rule}

/-- Whether a rule is well-formed depends on which of its categories are empty and have wildcards, on how many it
has, and on how many symbols it moves. -/
theorem WellFormed.congr (hr : r.WellFormed) (hlength : r'.rhs.length = r.rhs.length)
    (hepsilon : r'.lhs.isEpsilon = r.lhs.isEpsilon ∧
      r'.rhs.any Category.isEpsilon = r.rhs.any Category.isEpsilon)
    (hwild : r'.lhs.hasWildcard = r.lhs.hasWildcard ∧
      (r'.rhs.filter Category.hasWildcard).length = (r.rhs.filter Category.hasWildcard).length)
    (hmoves : r'.popped = r.popped ∧ r'.pushed = r.pushed) : r'.WellFormed := by
  have hempty : r'.rhs.isEmpty = r.rhs.isEmpty := by
    rw [Bool.eq_iff_iff, List.isEmpty_iff_length_eq_zero, List.isEmpty_iff_length_eq_zero, hlength]
  unfold WellFormed defect? at hr ⊢
  dsimp only at hr ⊢
  rw [hempty, hlength, hepsilon.1, hepsilon.2, hwild.1, hwild.2, hmoves.1, hmoves.2]
  split_ifs at hr ⊢
  rfl

/-- A renamed rule is proper. -/
theorem Proper.renamed (hr : r.Proper) (h : Renaming words reserved names)
    (hreserved : Category.epsilonName ∈ reserved) (hwithin : ∀ c ∈ r.lhs :: r.rhs, c.Within words) :
    (r.renamed names).Proper := by
  have hrhs {c : Category} (hc : c ∈ r.rhs) : c ∈ r.lhs :: r.rhs := List.mem_cons_of_mem _ hc
  have hepsilon {c : Category} (hc : c ∈ r.lhs :: r.rhs) : (c.renamed names).isEpsilon = c.isEpsilon :=
    Category.isEpsilon_renamed h (hwithin c hc) hreserved (hr.hasProperStack c hc)
  have hwild {c : Category} (hc : c ∈ r.lhs :: r.rhs) : (c.renamed names).hasWildcard = c.hasWildcard :=
    Category.hasWildcard_renamed h (hwithin c hc) (hr.hasProperStack c hc)
  have hdepth {c : Category} (hc : c ∈ r.lhs :: r.rhs) : explicitDepth (c.renamed names) = explicitDepth c :=
    Category.explicitDepth_renamed h (hwithin c hc) (hr.hasProperStack c hc)
  -- renaming keeps the wildcards, so the heirs are renamed and no more than they were
  have hheirs : (r.rhs.map (·.renamed names)).filter Category.hasWildcard =
      (r.rhs.filter Category.hasWildcard).map (·.renamed names) := by
    rw [List.filter_map]
    exact congrArg _ (List.filter_congr fun c hc => hwild (hrhs hc))
  have hpushed : (r.renamed names).pushed = r.pushed := by
    have hfind : (r.rhs.map (·.renamed names)).find? Category.hasWildcard =
        (r.rhs.find? Category.hasWildcard).map (·.renamed names) := by
      rw [← List.head?_filter, ← List.head?_filter, hheirs, List.head?_map]
    unfold pushed Rule.renamed
    rw [hfind]
    cases hheir : r.rhs.find? Category.hasWildcard with
    | none => rfl
    | some c => exact hdepth (hrhs (List.mem_of_find?_eq_some hheir))
  refine ⟨hr.wellFormed.congr (List.length_map _) ⟨hepsilon List.mem_cons_self, ?_⟩
    ⟨hwild List.mem_cons_self, ?_⟩ ⟨hdepth List.mem_cons_self, hpushed⟩, fun c hc => ?_⟩
  · rw [Rule.renamed, List.any_map, Bool.eq_iff_iff, List.any_eq_true, List.any_eq_true]
    exact exists_congr fun c => and_congr_right fun hc => Bool.eq_iff_iff.mp (hepsilon (hrhs hc))
  · exact (congrArg List.length hheirs).trans (List.length_map _)
  · obtain ⟨d, hd, rfl⟩ : ∃ d ∈ r.lhs :: r.rhs, d.renamed names = c := List.mem_map.mp hc
    exact Category.hasProperStack_renamed h (hwithin d hd) (hr.hasProperStack d hd)

end Rule

/-! Renamed schema grammars -/

namespace Schema

variable {words reserved : Set String} {names : String → String} {s : Schema}

/-- The categories of a schema grammar are written with its words. -/
theorem within_of_mem_rules (hwords : s.words ⊆ words) {r : Rule} (hr : r ∈ s.rules) :
    ∀ c ∈ r.lhs :: r.rhs, c.Within words := fun c hc =>
  ⟨hwords ⟨r, hr, c, hc, .inl rfl⟩, fun _ hsymbol => hwords ⟨r, hr, c, hc, .inr hsymbol⟩⟩

/-- A schema grammar can be renamed, rule by rule. -/
theorem renamed_eq_ok (hs : s.Valid) (h : Renaming words reserved names)
    (hreserved : Category.epsilonName ∈ reserved) (hwords : s.words ⊆ words) :
    s.renamed names = .ok (s.relabelled names) ∧ (s.relabelled names).Valid := by
  have hproper : ∀ r ∈ s.rules, (r.renamed names).detached.Proper := fun r hr =>
    ((hs r hr).renamed h hreserved (within_of_mem_rules hwords hr)).detached
  refine ⟨ofRules_eq_ok.mpr ⟨fun r hr => ?_, ?_⟩, fun r hr => ?_⟩
  · obtain ⟨old, hold, rfl⟩ := List.mem_map.mp hr
    exact hproper old (Array.mem_toList_iff.mp hold)
  · rw [relabelled, ← List.map_toArray, Array.toArray_toList]
  · obtain ⟨old, hold, rfl⟩ := Array.mem_map.mp hr
    exact hproper old hold

/-- The rules of a name are renamed. -/
theorem rulesNamed_relabelled (h : Renaming words reserved names) (hwords : s.words ⊆ words) {name : String}
    (hname : name ∈ words) : (s.relabelled names).rulesNamed (names name) =
      (s.rulesNamed name).map fun numbered => (numbered.1, (numbered.2.renamed names).detached) := by
  unfold rulesNamed numbered relabelled
  rw [Array.toList_map, List.zipIdx_map, List.map_map, List.filter_map, List.filter_map, List.map_map]
  refine congrArg _ (List.filter_congr fun placed hplaced => ?_)
  have hr : placed.1 ∈ s.rules := Array.mem_toList_iff.mp (List.fst_mem_of_mem_zipIdx hplaced)
  have hlhs := (within_of_mem_rules hwords hr _ List.mem_cons_self).name
  exact decide_eq_decide.mpr (h.injOn.eq_iff hlhs hname)

/-- A symbol of the alphabet is renamed to one of the new alphabet. -/
theorem mem_alphabet_relabelled (hs : s.Valid) (h : Renaming words reserved names) (hwords : s.words ⊆ words)
    {symbol : String} (hsymbol : symbol ∈ s.alphabet) : names symbol ∈ (s.relabelled names).alphabet := by
  obtain ⟨c, hc, hsymbol⟩ := List.mem_flatMap.mp hsymbol
  obtain ⟨r, hr, hc⟩ := List.mem_flatMap.mp hc
  have hr := Array.mem_toList_iff.mp hr
  have hwithin := within_of_mem_rules hwords hr c (List.mem_cons_of_mem _ hc)
  have hproper := (hs r hr).hasProperStack c (List.mem_cons_of_mem _ hc)
  have hnew : (r.renamed names).detached ∈ (s.relabelled names).rules := Array.mem_map_of_mem hr
  refine List.mem_flatMap.mpr ⟨c.renamed names, List.mem_flatMap.mpr ⟨_, Array.mem_toList_iff.mpr hnew, ?_⟩, ?_⟩
  · exact List.mem_map_of_mem hc
  · rw [Category.writtenSymbols_renamed h hwithin hproper]
    exact List.mem_map_of_mem hsymbol

end Schema

end IndexedGrammar
