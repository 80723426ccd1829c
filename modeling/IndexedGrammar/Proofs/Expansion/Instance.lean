import IndexedGrammar.Grammar.Expansion
import IndexedGrammar.Proofs.Schema

/-!
# Instances of schema rules

What a schema rule yields for a concrete category, said of symbols: a rule without a wildcard yields its
right-hand side for its own left-hand side, and a rule with one yields its right-hand side with the
captured symbols filled in for the wildcard of the heir. The instances that are worked out on stack texts
are exactly these.
-/

namespace IndexedGrammar

namespace Category

/-- What a right-hand category stands for when some symbols are captured. -/
def fill (captured : List String) (written : Category) : Category :=
  if written.hasWildcard then ofSymbols written.name (written.below ++ captured ++ written.above)
  else written

variable {partsOfSpeech : Std.ExtTreeSet String} {maxDepth : Nat} {captured : List String}
  {written : Category}

/-- A category without a wildcard stands for itself. -/
theorem fill_of_not_hasWildcard (h : written.hasWildcard = false) : written.fill captured = written := by
  simp [fill, h]

/-- A category with a wildcard stands for one with the captured symbols in its place. -/
theorem fill_of_hasWildcard (h : written.hasWildcard = true) :
    written.fill captured = ofSymbols written.name (written.below ++ captured ++ written.above) := by
  simp [fill, h]

/-- Filling in keeps the name. -/
@[simp] theorem name_fill : (written.fill captured).name = written.name := by
  cases hwild : written.hasWildcard with
  | false => rw [fill_of_not_hasWildcard hwild]
  | true => rw [fill_of_hasWildcard hwild, name_ofSymbols]

/-- The symbols around a wildcard and those that are captured can stand on a stack. -/
theorem isSymbol_filled (h : written.hasProperStack = true) (hwild : written.hasWildcard = true)
    (hcaptured : ∀ symbol ∈ captured, Stack.IsSymbol symbol) :
    ∀ symbol ∈ written.below ++ captured ++ written.above, Stack.IsSymbol symbol := by
  intro symbol hsymbol
  simp only [List.mem_append] at hsymbol
  rcases hsymbol with (hbelow | hmem) | habove
  · exact isSymbol_around h hwild (.inl hbelow)
  · exact hcaptured symbol hmem
  · exact isSymbol_around h hwild (.inr habove)

/-- What a proper category stands for has a concrete stack. -/
theorem isConcrete_fill (h : written.hasProperStack = true)
    (hcaptured : ∀ symbol ∈ captured, Stack.IsSymbol symbol) :
    Stack.IsConcrete (written.fill captured).stack := by
  cases hwild : written.hasWildcard with
  | false =>
    rw [fill_of_not_hasWildcard hwild]
    exact isConcrete_of_hasProperStack h hwild
  | true =>
    rw [fill_of_hasWildcard hwild, stack_ofSymbols]
    exact ⟨_, isSymbol_filled h hwild hcaptured, rfl⟩

/-- The symbols of what a category with a wildcard stands for. -/
theorem symbols_fill (h : written.hasProperStack = true) (hwild : written.hasWildcard = true)
    (hcaptured : ∀ symbol ∈ captured, Stack.IsSymbol symbol) :
    (written.fill captured).symbols = written.below ++ captured ++ written.above := by
  rw [fill_of_hasWildcard hwild, symbols, stack_ofSymbols]
  exact Stack.symbols_join (isSymbol_filled h hwild hcaptured)

/-- A concrete category is deep if its stack is not empty. -/
theorem depth_pos_iff {c : Category} (h : Stack.IsConcrete c.stack) : 0 < c.depth ↔ c.stack ≠ "" := by
  rw [depth_eq_length h, List.length_pos_iff, ne_eq, ne_eq, symbols, ← h.isEmpty_iff,
    String.isEmpty_iff]

/-- What may stand on a right-hand side: the stack handed to an heir is not too deep, and no part of
speech has a stack. -/
structure Fits (partsOfSpeech : Std.ExtTreeSet String) (maxDepth : Nat) (captured : List String)
    (written : Category) : Prop where
  depth_le : written.hasWildcard = true →
    (written.below ++ captured ++ written.above).length ≤ maxDepth
  not_partOfSpeech : (written.fill captured).stack ≠ "" → written.name ∉ partsOfSpeech

/-- Filling in, with the two reasons to refuse it. -/
theorem filled?_eq {text : String} (h : written.hasProperStack = true)
    (htext : Stack.IsConcrete text) : written.filled? partsOfSpeech maxDepth text =
      if written.hasWildcard = true ∧ maxDepth < (written.fill (Stack.symbols text)).depth then none
      else if 0 < (written.fill (Stack.symbols text)).depth && partsOfSpeech.contains written.name then none
      else some (written.fill (Stack.symbols text)) := by
  cases hwild : written.hasWildcard with
  | false =>
    rw [filled?, pattern?_eq_none hwild, fill_of_not_hasWildcard hwild]
    simp
  | true =>
    rw [filled?, pattern?_eq_some h hwild, fill_of_hasWildcard hwild]
    simp only [StackPattern.substitute_eq htext, true_and]
    rfl

/-- A category that fits is filled in. -/
theorem filled?_eq_some_iff {text : String} {child : Category} (h : written.hasProperStack = true)
    (htext : Stack.IsConcrete text) :
    written.filled? partsOfSpeech maxDepth text = some child ↔
      written.Fits partsOfSpeech maxDepth (Stack.symbols text) ∧
        written.fill (Stack.symbols text) = child := by
  have hcaptured : ∀ symbol ∈ Stack.symbols text, Stack.IsSymbol symbol := fun _ => htext.isSymbol
  have hconcrete := isConcrete_fill h hcaptured
  -- both checks look at the category that is filled in
  have hfits : written.Fits partsOfSpeech maxDepth (Stack.symbols text) ↔
      ¬(written.hasWildcard = true ∧ maxDepth < (written.fill (Stack.symbols text)).depth) ∧
        ¬(0 < (written.fill (Stack.symbols text)).depth && partsOfSpeech.contains written.name) := by
    rw [Bool.and_eq_true, decide_eq_true_iff, depth_pos_iff hconcrete, ← Std.ExtTreeSet.mem_iff_contains]
    constructor
    · intro hfits
      refine ⟨fun hdeep => ?_, fun hpos => hfits.not_partOfSpeech hpos.1 hpos.2⟩
      have hle := hfits.depth_le hdeep.1
      rw [depth_eq_length hconcrete, symbols_fill h hdeep.1 hcaptured] at hdeep
      omega
    · intro hnot
      refine ⟨fun hwild => ?_, fun hne hmem => hnot.2 ⟨hne, hmem⟩⟩
      have hle : ¬maxDepth < (written.fill (Stack.symbols text)).depth :=
        fun hlt => hnot.1 ⟨hwild, hlt⟩
      rw [depth_eq_length hconcrete, symbols_fill h hwild hcaptured] at hle
      omega
  rw [filled?_eq h htext, hfits]
  split
  · next hdeep => simp [hdeep]
  · next hdeep =>
    split
    · next hpos => simp [hpos]
    · next hpos => simp [hdeep, hpos]

/-- A right-hand side is filled in if every category of it fits. -/
theorem mapM_filled?_eq_some_iff {text : String} {rhs children : List Category}
    (h : ∀ c ∈ rhs, c.hasProperStack = true) (htext : Stack.IsConcrete text) :
    rhs.mapM (filled? partsOfSpeech maxDepth text) = some children ↔
      (∀ c ∈ rhs, c.Fits partsOfSpeech maxDepth (Stack.symbols text)) ∧
        rhs.map (fill (Stack.symbols text)) = children := by
  induction rhs generalizing children with
  | nil => simp
  | cons c rest ih =>
    have hrest (more : List Category) : rest.mapM (filled? partsOfSpeech maxDepth text) = some more ↔
        (∀ c ∈ rest, c.Fits partsOfSpeech maxDepth (Stack.symbols text)) ∧
          rest.map (fill (Stack.symbols text)) = more :=
      ih fun d hd => h d (List.mem_cons_of_mem _ hd)
    have hc (child : Category) : c.filled? partsOfSpeech maxDepth text = some child ↔
        c.Fits partsOfSpeech maxDepth (Stack.symbols text) ∧ c.fill (Stack.symbols text) = child :=
      filled?_eq_some_iff (h c List.mem_cons_self) htext
    simp only [List.mapM_cons, Option.bind_eq_bind, Option.bind_eq_some_iff, Option.pure_def,
      Option.some.injEq, hrest, hc, List.map_cons, List.forall_mem_cons]
    constructor
    · intro hgiven
      obtain ⟨child, ⟨hfits, heq⟩, more, ⟨hall, hmore⟩, hchildren⟩ := hgiven
      exact ⟨⟨hfits, hall⟩, by rw [heq, hmore, hchildren]⟩
    · intro hgiven
      obtain ⟨⟨hfits, hall⟩, hchildren⟩ := hgiven
      exact ⟨_, ⟨hfits, rfl⟩, _, ⟨hall, rfl⟩, hchildren⟩

end Category

namespace Rule

/-- What a rule yields for a concrete category. A left-hand side without a wildcard yields the
right-hand side for itself, as it is written. A left-hand side with one matches a category of its name
whose symbols are those below the wildcard, those captured and those above it; captured symbols need an
heir, and every right-hand category has to fit. -/
inductive Yields (partsOfSpeech : Std.ExtTreeSet String) (maxDepth : Nat) (r : Rule) (c : Category) :
    List Category → Prop
  | verbatim : r.lhs.hasWildcard = false → r.lhs = c → Yields partsOfSpeech maxDepth r c r.rhs
  | filled {captured : List String} : r.lhs.hasWildcard = true → r.lhs.name = c.name →
      r.lhs.below ++ captured ++ r.lhs.above = c.symbols →
      captured = [] ∨ (∃ heir ∈ r.rhs, heir.hasWildcard = true) →
      (∀ written ∈ r.rhs, written.Fits partsOfSpeech maxDepth captured) →
      Yields partsOfSpeech maxDepth r c (r.rhs.map (Category.fill captured))

variable {partsOfSpeech : Std.ExtTreeSet String} {maxDepth : Nat} {r : Rule} {c : Category}
  {rhs : List Category}

/-- There is an heir if some right-hand category has a wildcard. -/
theorem heir?_isNone_iff : r.heir?.isNone = true ↔ ¬∃ heir ∈ r.rhs, heir.hasWildcard = true := by
  simp [heir?]

/-- The instance of a rule without a wildcard on its left-hand side. -/
theorem instance?_of_not_hasWildcard (hwild : r.lhs.hasWildcard = false) :
    r.instance? partsOfSpeech maxDepth c = some rhs ↔ r.lhs = c ∧ r.rhs = rhs := by
  unfold instance?
  rw [Category.pattern?_eq_none hwild]
  dsimp only
  split
  · next hname => exact ⟨nofun, fun h => absurd (congrArg Category.name h.1) hname⟩
  · split
    · next heq => simp [heq]
    · next hne => exact ⟨nofun, fun h => absurd h.1 hne⟩

/-- Symbols were captured for which there is no heir. -/
theorem lacksHeir_iff {captured : String} (htext : Stack.IsConcrete captured) :
    (!captured.isEmpty && r.heir?.isNone) = true ↔
      ¬(Stack.symbols captured = [] ∨ ∃ heir ∈ r.rhs, heir.hasWildcard = true) := by
  rw [Bool.and_eq_true, heir?_isNone_iff, Bool.not_eq_true', ← Bool.not_eq_true, htext.isEmpty_iff, not_or]

/-- Symbols that stand between those of a pattern in a concrete stack are captured as one text. -/
theorem capture_join {front back captured : List String} {stack : String} (hstack : Stack.IsConcrete stack)
    (hsymbols : front ++ captured ++ back = Stack.symbols stack) :
    StackPattern.capture ⟨front, back⟩ stack = some (Stack.join captured) ∧
      Stack.IsConcrete (Stack.join captured) ∧ Stack.symbols (Stack.join captured) = captured := by
  have hcaptured : ∀ symbol ∈ captured, Stack.IsSymbol symbol := by
    intro symbol hsymbol
    refine hstack.isSymbol ?_
    rw [← hsymbols]
    simp [hsymbol]
  have htext : Stack.IsConcrete (Stack.join captured) := ⟨captured, hcaptured, rfl⟩
  have hback : Stack.symbols (Stack.join captured) = captured := Stack.symbols_join hcaptured
  refine ⟨?_, htext, hback⟩
  rw [StackPattern.capture_eq_some_iff hstack, hback]
  exact ⟨htext, hsymbols⟩

/-- The instance of a rule with a wildcard on its left-hand side. -/
theorem instance?_of_hasWildcard (hr : r.Proper) (hc : Stack.IsConcrete c.stack)
    (hwild : r.lhs.hasWildcard = true) : r.instance? partsOfSpeech maxDepth c = some rhs ↔
      r.lhs.name = c.name ∧ ∃ captured, r.lhs.below ++ captured ++ r.lhs.above = c.symbols ∧
        (captured = [] ∨ ∃ heir ∈ r.rhs, heir.hasWildcard = true) ∧
        (∀ written ∈ r.rhs, written.Fits partsOfSpeech maxDepth captured) ∧
        r.rhs.map (Category.fill captured) = rhs := by
  have hrhs : ∀ d ∈ r.rhs, d.hasProperStack = true :=
    fun d hd => hr.hasProperStack d (List.mem_cons_of_mem _ hd)
  unfold instance?
  rw [Category.pattern?_eq_some (hr.hasProperStack r.lhs List.mem_cons_self) hwild]
  constructor
  · intro h
    split at h
    · exact nomatch h
    · next hname =>
      dsimp only at h
      split at h
      · exact nomatch h
      · next captured hcapture =>
        obtain ⟨htext, hsymbols⟩ := (StackPattern.capture_eq_some_iff hc).mp hcapture
        split at h
        · exact nomatch h
        · next hheir =>
          rw [lacksHeir_iff htext, not_not] at hheir
          exact ⟨not_not.mp hname, _, hsymbols, hheir, (Category.mapM_filled?_eq_some_iff hrhs htext).mp h⟩
  · intro h
    obtain ⟨hname, captured, hsymbols, hheir, hfits⟩ := h
    obtain ⟨hcapture, htext, hback⟩ := capture_join hc hsymbols
    rw [if_neg (not_not.mpr hname)]
    dsimp only
    rw [hcapture]
    dsimp only
    rw [if_neg (by rwa [lacksHeir_iff htext, not_not, hback]), Category.mapM_filled?_eq_some_iff hrhs htext, hback]
    exact hfits

/-- The instance of a proper rule for a concrete category is what the rule yields. -/
theorem instance?_eq_some_iff (hr : r.Proper) (hc : Stack.IsConcrete c.stack) :
    r.instance? partsOfSpeech maxDepth c = some rhs ↔ r.Yields partsOfSpeech maxDepth c rhs := by
  cases hwild : r.lhs.hasWildcard with
  | false =>
    rw [instance?_of_not_hasWildcard hwild]
    constructor
    · intro h
      obtain ⟨heq, rfl⟩ := h
      exact .verbatim hwild heq
    · intro h
      cases h with
      | verbatim _ heq => exact ⟨heq, rfl⟩
      | filled htrue => exact absurd (hwild.symm.trans htrue) Bool.false_ne_true
  | true =>
    rw [instance?_of_hasWildcard hr hc hwild]
    constructor
    · intro h
      obtain ⟨hname, captured, hsymbols, hheir, hfits, rfl⟩ := h
      exact .filled hwild hname hsymbols hheir hfits
    · intro h
      cases h with
      | verbatim hfalse => exact absurd (hfalse.symm.trans hwild) Bool.false_ne_true
      | @filled captured _ hname hsymbols hheir hfits =>
        exact ⟨hname, captured, hsymbols, hheir, hfits, rfl⟩

/-- A rule yields one right-hand side for a category. -/
theorem Yields.unique (hr : r.Proper) (hc : Stack.IsConcrete c.stack) {other : List Category}
    (h : r.Yields partsOfSpeech maxDepth c rhs) (h' : r.Yields partsOfSpeech maxDepth c other) :
    rhs = other := by
  rw [← instance?_eq_some_iff hr hc] at h h'
  exact Option.some.inj (h.symm.trans h')

/-- A rule yields something only for categories of its left-hand side's name. -/
theorem Yields.name_eq (h : r.Yields partsOfSpeech maxDepth c rhs) : r.lhs.name = c.name := by
  cases h with
  | verbatim _ heq => rw [heq]
  | filled _ hname => exact hname

end Rule

end IndexedGrammar
