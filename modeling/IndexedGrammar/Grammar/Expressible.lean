import IndexedGrammar.Schema

/-!
# The categories a schema grammar can express

Filling in wildcards can only lead to categories that are written in the schema grammar without a
wildcard, or to a heir's name with a stack of bounded depth over the symbols that are written
somewhere. These are finitely many, which is why expansion ends: whatever is admitted is in a list
of expressible categories.
-/

namespace IndexedGrammar

namespace Stack

/-- There is always a piece. -/
theorem pieces_ne_nil (text : List Char) : pieces text ≠ [] := by
  induction text with
  | nil => simp [pieces]
  | cons c rest ih =>
    simp only [pieces]
    split
    · simp
    · split <;> simp

/-- A separator stands between the first segment and the rest. -/
theorem join_cons_of_ne_nil {segment : String} {rest : List String} (h : rest ≠ []) :
    join (segment :: rest) = segment ++ separator.toString ++ join rest := by
  cases rest with
  | nil => exact absurd rfl h
  | cons next rest => rfl

/-- Joining the pieces of a text gives the text back. -/
theorem join_pieces (text : List Char) :
    join ((pieces text).map String.ofList) = String.ofList text := by
  induction text with
  | nil => simp [pieces, join]
  | cons c rest ih =>
    simp only [pieces]
    split
    · next h =>
      rw [List.map_cons, join_cons_of_ne_nil (by simpa using pieces_ne_nil rest), ih]
      subst h
      apply String.toList_injective
      simp
    · split
      · next h => exact absurd h (pieces_ne_nil rest)
      · next piece more h =>
        rw [h] at ih
        apply String.toList_injective
        have ih := congrArg String.toList ih
        cases more with
        | nil => simpa [join] using ih
        | cons next more => simpa [join] using ih

/-- Joining the segments of a text gives the text back. -/
theorem join_segments (text : String) : join (segments text) = text := by
  unfold segments segmentsOf
  split
  · next h =>
    apply String.toList_injective
    have h : text.toList = [] := by simpa using h
    simp [h, join]
  · rw [join_pieces, String.ofList_toList]

/-- The stacks of at most `depth` symbols over an alphabet. -/
def stacksOver (alphabet : List String) : Nat → List (List String)
  | 0 => [[]]
  | depth + 1 => [] :: alphabet.flatMap fun symbol =>
      (stacksOver alphabet depth).map fun stack => symbol :: stack

/-- Every stack of bounded depth over an alphabet is listed. -/
theorem mem_stacksOver {alphabet stack : List String} {depth : Nat}
    (hdepth : stack.length ≤ depth) (halphabet : ∀ symbol ∈ stack, symbol ∈ alphabet) :
    stack ∈ stacksOver alphabet depth := by
  induction depth generalizing stack with
  | zero =>
    have : stack = [] := List.eq_nil_of_length_eq_zero (Nat.le_zero.mp hdepth)
    simp [this, stacksOver]
  | succ depth ih =>
    cases stack with
    | nil => simp [stacksOver]
    | cons symbol stack =>
      have hrest : stack ∈ stacksOver alphabet depth := ih (by simpa using hdepth)
        fun other h => halphabet other (List.mem_cons_of_mem _ h)
      simp only [stacksOver, List.mem_cons, reduceCtorEq, false_or, List.mem_flatMap, List.mem_map]
      exact ⟨symbol, halphabet symbol List.mem_cons_self, stack, hrest, rfl⟩

end Stack

/-- The symbols written on a category's stack, around a wildcard if there is one. -/
def Category.writtenSymbols (c : Category) : List String :=
  match c.pattern? with
  | some p => Stack.symbolsOf p.front ++ Stack.symbolsOf p.back
  | none => Stack.symbols c.stack

namespace Schema

/-- The right-hand categories of all rules. -/
def children (s : Schema) : List Category :=
  s.rules.toList.flatMap Rule.rhs

/-- The stack symbols written on right-hand sides. -/
def alphabet (s : Schema) : List String :=
  s.children.flatMap Category.writtenSymbols

/-- The right-hand categories that are written without a wildcard. -/
def plainChildren (s : Schema) : List Category :=
  s.children.filter fun c => !c.hasWildcard

/-- The names of the right-hand categories that are written with a wildcard. -/
def heirNames (s : Schema) : List String :=
  (s.children.filter Category.hasWildcard).map Category.name

/-- Every category that filling in wildcards up to a stack depth can lead to. -/
def expressible (s : Schema) (maxDepth : Nat) : List Category :=
  s.plainChildren ++ s.heirNames.flatMap fun name =>
    (Stack.stacksOver s.alphabet maxDepth).map fun stack => ⟨name, Stack.join stack⟩

/-- Whether filling in wildcards up to a stack depth could lead to a category. -/
def admits (s : Schema) (maxDepth : Nat) (c : Category) : Bool :=
  s.plainChildren.contains c ||
    (s.heirNames.contains c.name && (Stack.segments c.stack).length ≤ maxDepth
      && (Stack.segments c.stack).all s.alphabet.contains)

/-- Every admitted category is listed. -/
theorem mem_expressible_of_admits {s : Schema} {maxDepth : Nat} {c : Category}
    (h : s.admits maxDepth c = true) : c ∈ s.expressible maxDepth := by
  simp only [admits, Bool.or_eq_true, Bool.and_eq_true, List.contains_iff_mem, decide_eq_true_eq,
    List.all_eq_true] at h
  simp only [expressible, List.mem_append, List.mem_flatMap, List.mem_map]
  rcases h with h | ⟨⟨hname, hdepth⟩, halphabet⟩
  · exact .inl h
  · exact .inr ⟨c.name, hname, Stack.segments c.stack, Stack.mem_stacksOver hdepth halphabet,
      by rw [Stack.join_segments]⟩

end Schema

end IndexedGrammar
