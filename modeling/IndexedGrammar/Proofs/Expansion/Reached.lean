import IndexedGrammar.Proofs.Expansion.Instance
import IndexedGrammar.Proofs.Grammar.Ahead

/-!
# The categories that are reached

The start category is reached, and so is every nonterminal among the symbols that a rule yields for a
category that is reached. All of these have concrete stacks over the symbols that are written on
right-hand sides. A symbol that a rule yields is written there without a wildcard, or its stack is within
the bound; either way it can be expressed, so expansion admits whatever it meets.
-/

namespace IndexedGrammar

/-- Neither the empty category nor a part of speech. -/
def Category.IsNonterminal (partsOfSpeech : Std.ExtTreeSet String) (c : Category) : Prop :=
  c.isEpsilon = false ∧ ¬(c.stack = "" ∧ c.name ∈ partsOfSpeech)

/-- The nonterminals of a grammar are those for its parts of speech. -/
theorem Grammar.isNonterminal_eq_true_iff {g : Grammar} {c : Category} :
    g.isNonterminal c = true ↔ c.IsNonterminal g.partsOfSpeech := by
  rw [isNonterminal_iff, ← Bool.not_eq_true (g.isPartOfSpeech c), isPartOfSpeech, Bool.and_eq_true,
    Category.isStackEmpty, String.isEmpty_iff, ← Std.ExtTreeSet.mem_iff_contains]
  rfl

namespace Rule

variable {partsOfSpeech : Std.ExtTreeSet String} {maxDepth : Nat} {r : Rule} {c d : Category}
  {rhs : List Category}

/-- Every symbol that a rule yields is written without a wildcard, or it is an heir that was handed some
of the symbols of the category. -/
theorem Yields.cases_child (hr : r.Proper) (h : r.Yields partsOfSpeech maxDepth c rhs) (hd : d ∈ rhs) :
    (d ∈ r.rhs ∧ d.hasWildcard = false) ∨
      ∃ heir ∈ r.rhs, heir.hasWildcard = true ∧ ∃ captured, (∀ symbol ∈ captured, symbol ∈ c.symbols) ∧
        heir.Fits partsOfSpeech maxDepth captured ∧ heir.fill captured = d := by
  cases h with
  | verbatim hwild =>
    refine .inl ⟨hd, ?_⟩
    rw [← Bool.not_eq_true]
    intro htrue
    exact absurd (hwild.symm.trans (hr.wellFormed.lhs_hasWildcard hd htrue)) Bool.false_ne_true
  | @filled captured _ _ hsymbols _ hfits =>
    obtain ⟨written, hwritten, heq⟩ := List.mem_map.mp hd
    cases hwild : written.hasWildcard with
    | false =>
      rw [Category.fill_of_not_hasWildcard hwild] at heq
      subst heq
      exact .inl ⟨hwritten, hwild⟩
    | true =>
      refine .inr ⟨written, hwritten, hwild, captured, fun symbol hsymbol => ?_, hfits _ hwritten, heq⟩
      rw [← hsymbols]
      simp [hsymbol]

/-- A rule yields as many symbols as it has. -/
theorem Yields.length_eq (h : r.Yields partsOfSpeech maxDepth c rhs) : rhs.length = r.rhs.length := by
  cases h with
  | verbatim => rfl
  | filled => exact List.length_map _

end Rule

namespace Schema

/-- The categories that are reached from the start category. -/
inductive Reaches (s : Schema) (partsOfSpeech : Std.ExtTreeSet String) (settings : Settings) :
    Category → Prop
  | start : Reaches s partsOfSpeech settings (Category.bare settings.start)
  | child {c d : Category} {r : Rule} {rhs : List Category} :
      Reaches s partsOfSpeech settings c → r ∈ s.rules →
      r.Yields partsOfSpeech settings.maxStackDepth c rhs → d ∈ rhs →
      d.IsNonterminal partsOfSpeech → Reaches s partsOfSpeech settings d

/-- A concrete stack over the symbols that are written on right-hand sides. -/
structure Spells (s : Schema) (c : Category) : Prop where
  isConcrete : Stack.IsConcrete c.stack
  mem_alphabet : ∀ symbol ∈ c.symbols, symbol ∈ s.alphabet

variable {s : Schema} {partsOfSpeech : Std.ExtTreeSet String} {maxDepth : Nat} {r : Rule}
  {c d : Category} {rhs : List Category}

/-- The right-hand categories of a rule are children. -/
theorem mem_children (hr : r ∈ s.rules) (hd : d ∈ r.rhs) : d ∈ s.children :=
  List.mem_flatMap.mpr ⟨r, Array.mem_toList_iff.mpr hr, hd⟩

/-- The symbols that are written on a child are in the alphabet. -/
theorem mem_alphabet_of_written (hd : d ∈ s.children) {symbol : String}
    (hsymbol : symbol ∈ d.writtenSymbols) : symbol ∈ s.alphabet :=
  List.mem_flatMap.mpr ⟨d, hd, hsymbol⟩

/-- The symbols around the wildcard of an heir are in the alphabet. -/
theorem mem_alphabet_of_around (hs : s.Valid) (hr : r ∈ s.rules) (hd : d ∈ r.rhs)
    (hwild : d.hasWildcard = true) {symbol : String} (hsymbol : symbol ∈ d.below ∨ symbol ∈ d.above) :
    symbol ∈ s.alphabet := by
  have hproper := (hs r hr).hasProperStack d (List.mem_cons_of_mem _ hd)
  have hnonempty {symbol : String} (h : symbol ∈ d.below ∨ symbol ∈ d.above) : symbol ≠ "" :=
    (Category.isSymbol_around hproper hwild h).ne_empty
  refine mem_alphabet_of_written (mem_children hr hd) ?_
  rw [Category.writtenSymbols, Category.pattern?_eq_some hproper hwild]
  dsimp only
  rw [Stack.symbolsOf_eq_self fun _ h => hnonempty (.inl h),
    Stack.symbolsOf_eq_self fun _ h => hnonempty (.inr h)]
  exact List.mem_append.mpr hsymbol

/-- What a rule of the schema yields for a category that the schema spells can be expressed: it is written
without a wildcard, or it is the name of an heir with a bounded stack over the alphabet. -/
theorem Spells.child (hs : s.Valid) (hc : s.Spells c) (hr : r ∈ s.rules)
    (h : r.Yields partsOfSpeech maxDepth c rhs) (hd : d ∈ rhs) :
    s.Spells d ∧ (d ∈ s.plainChildren ∨ d.name ∈ s.heirNames ∧ d.depth ≤ maxDepth) := by
  -- a child is written out, or an heir is filled in with what was captured
  rcases h.cases_child (hs r hr) hd with ⟨hmem, hwild⟩ |
    ⟨heir, hheir, hwild, captured, hcaptured, hfits, heq⟩
  · have hproper := (hs r hr).hasProperStack d (List.mem_cons_of_mem _ hmem)
    have hwritten : d.writtenSymbols = d.symbols := by
      rw [Category.writtenSymbols, Category.pattern?_eq_none hwild]
      rfl
    refine ⟨⟨Category.isConcrete_of_hasProperStack hproper hwild, fun symbol hsymbol => ?_⟩, .inl ?_⟩
    · exact mem_alphabet_of_written (mem_children hr hmem) (hwritten ▸ hsymbol)
    · refine List.mem_filter.mpr ⟨mem_children hr hmem, ?_⟩
      rw [hwild]
      rfl
  · subst heq
    have hproper := (hs r hr).hasProperStack heir (List.mem_cons_of_mem _ hheir)
    have hsymbols : ∀ symbol ∈ captured, Stack.IsSymbol symbol :=
      fun symbol hsymbol => hc.isConcrete.isSymbol (hcaptured symbol hsymbol)
    have hconcrete := Category.isConcrete_fill hproper hsymbols
    refine ⟨⟨hconcrete, fun symbol hsymbol => ?_⟩, .inr ⟨?_, ?_⟩⟩
    · rw [Category.symbols_fill hproper hwild hsymbols, List.mem_append, List.mem_append] at hsymbol
      rcases hsymbol with (hbelow | hmem) | habove
      · exact mem_alphabet_of_around hs hr hheir hwild (.inl hbelow)
      · exact hc.mem_alphabet symbol (hcaptured symbol hmem)
      · exact mem_alphabet_of_around hs hr hheir hwild (.inr habove)
    · rw [Category.name_fill]
      exact List.mem_map.mpr ⟨heir, List.mem_filter.mpr ⟨mem_children hr hheir, hwild⟩, rfl⟩
    · rw [Category.depth_eq_length hconcrete, Category.symbols_fill hproper hwild hsymbols]
      exact hfits.depth_le hwild

/-- Expansion admits what a rule of the schema yields. -/
theorem Spells.admits_child (hs : s.Valid) (hc : s.Spells c) (hr : r ∈ s.rules)
    (h : r.Yields partsOfSpeech maxDepth c rhs) (hd : d ∈ rhs) : s.admits maxDepth d = true := by
  obtain ⟨hspells, hchild⟩ := hc.child hs hr h hd
  simp only [admits, Bool.or_eq_true, Bool.and_eq_true, List.contains_iff_mem, decide_eq_true_eq,
    List.all_eq_true, hspells.isConcrete.segments_eq]
  rcases hchild with hplain | ⟨hname, hdepth⟩
  · exact .inl hplain
  · rw [Category.depth_eq_length hspells.isConcrete] at hdepth
    exact .inr ⟨⟨hname, hdepth⟩, hspells.mem_alphabet⟩

/-- The schema spells what it reaches. -/
theorem Reaches.spells {settings : Settings} (hs : s.Valid) (h : s.Reaches partsOfSpeech settings c) :
    s.Spells c := by
  induction h with
  | start =>
    exact ⟨⟨[], fun symbol hsymbol => absurd hsymbol List.not_mem_nil, rfl⟩,
      fun symbol hsymbol => absurd hsymbol List.not_mem_nil⟩
  | child _ hr hyields hd _ ih => exact (ih.child hs hr hyields hd).1

end Schema

end IndexedGrammar
