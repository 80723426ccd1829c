import IndexedGrammar.Proofs.Stack
import IndexedGrammar.Schema
import Mathlib.Data.List.Basic
import Mathlib.Data.List.TakeDrop
import Mathlib.Data.List.TakeWhile

/-!
# Patterns as lists of symbols

A stack text with a wildcard is written properly if its wildcard begins a segment and no segment is
empty. The pattern read off such a text has the symbols below the wildcard in front and those above it
behind. On a concrete stack, capturing and substituting are cutting and joining lists of symbols.
-/

namespace IndexedGrammar

namespace Stack

/-- A text whose segments are not empty, with at most one wildcard, which begins its segment. -/
structure IsProper (text : List Char) : Prop where
  ne_nil : ∀ piece ∈ pieces text, piece ≠ []
  begins : ∀ piece ∈ pieces text, wildcard ∈ piece → piece.head? = some wildcard
  count_le : text.count wildcard ≤ 1

/-- The symbols below the wildcard of a text; all its symbols if there is none. -/
def below (text : String) : List String :=
  symbols (String.ofList (text.toList.takeWhile (· ≠ wildcard)))

/-- The symbols above the wildcard of a text. -/
def above (text : String) : List String :=
  symbols (String.ofList (text.toList.dropWhile (· ≠ wildcard)).tail)

/-- A character in front of the first wildcard that is no separator shares a piece with the wildcard. -/
theorem exists_piece_of_ne_separator {front back : List Char} {c : Char}
    (hfront : wildcard ∉ front) (hc : c ≠ wildcard) (hsep : c ≠ separator) :
    ∃ piece ∈ pieces (front ++ c :: wildcard :: back),
      wildcard ∈ piece ∧ piece.head? ≠ some wildcard := by
  induction front with
  | nil =>
    cases hback : pieces back with
    | nil => exact absurd hback (pieces_ne_nil back)
    | cons piece more =>
      have hwild := pieces_cons_of_ne (by decide : wildcard ≠ separator) hback
      rw [List.nil_append, pieces_cons_of_ne hsep hwild]
      refine ⟨_, List.mem_cons_self, by simp, ?_⟩
      simpa using hc
  | cons d front ih =>
    obtain ⟨piece, hpiece, hwild, hhead⟩ :=
      ih fun hmem => hfront (List.mem_cons_of_mem _ hmem)
    rw [List.cons_append]
    -- a separator in front begins another piece, any other character joins the first one
    by_cases hd : d = separator
    · rw [pieces, if_pos hd]
      exact ⟨piece, List.mem_cons_of_mem _ hpiece, hwild, hhead⟩
    · cases hrest : pieces (front ++ c :: wildcard :: back) with
      | nil => exact absurd hrest (pieces_ne_nil _)
      | cons first more =>
        rw [pieces_cons_of_ne hd hrest]
        rw [hrest] at hpiece
        rcases List.mem_cons.mp hpiece with heq | hmem
        · subst heq
          refine ⟨d :: piece, List.mem_cons_self, List.mem_cons_of_mem _ hwild, ?_⟩
          have hne : d ≠ wildcard := fun heq => hfront (heq ▸ List.mem_cons_self)
          simpa using hne
        · exact ⟨piece, List.mem_cons_of_mem _ hmem, hwild, hhead⟩

/-- The symbols of a text are its pieces that are not empty. -/
theorem symbols_ofList (text : List Char) :
    symbols (String.ofList text) = symbolsOf ((pieces text).map String.ofList) := by
  rw [symbols, segments, String.toList_ofList, symbolsOf_segmentsOf]

/-- A separator at the end of a text adds no symbol. -/
theorem symbols_concat_separator (text : List Char) :
    symbols (String.ofList (text ++ [separator])) = symbols (String.ofList text) := by
  rw [symbols_ofList, symbols_ofList, pieces_append_separator]
  simp [symbolsOf, pieces]

/-- A text without empty pieces has its symbols as segments. -/
theorem segmentsOf_eq_symbols {text : List Char} (h : ∀ piece ∈ pieces text, piece ≠ []) :
    segmentsOf text = symbols (String.ofList text) := by
  have hne : text ≠ [] := by
    intro hnil
    subst hnil
    exact h [] (by simp [pieces]) rfl
  rw [segmentsOf_of_ne_nil hne, symbols_ofList, symbolsOf_eq_self]
  intro part hpart
  obtain ⟨piece, hpiece, heq⟩ := List.mem_map.mp hpart
  subst heq
  simpa using h piece hpiece

/-- A separator behind a text without empty pieces is the only one dropped. -/
theorem dropTrailing_concat {text : List Char} (h : ∀ piece ∈ pieces text, piece ≠ []) :
    StackPattern.dropTrailing (text ++ [separator]) = text := by
  unfold StackPattern.dropTrailing
  rw [List.reverse_append, List.reverse_singleton, List.singleton_append,
    List.dropWhile_cons_of_pos (by simp)]
  rcases List.eq_nil_or_concat' text with hnil | ⟨rest, c, heq⟩
  · subst hnil
    rfl
  · have hc : c ≠ separator := by
      intro hc
      refine h [] ?_ rfl
      rw [heq, hc, pieces_append_separator]
      simp [pieces]
    rw [heq, List.reverse_append, List.reverse_singleton, List.singleton_append,
      List.dropWhile_cons_of_neg (by simpa using hc), List.reverse_cons, List.reverse_reverse]

/-- A separator before a text without empty pieces is the only one dropped. -/
theorem dropWhile_cons_separator {text : List Char} (h : ∀ piece ∈ pieces text, piece ≠ []) :
    (separator :: text).dropWhile (· = separator) = text := by
  rw [List.dropWhile_cons_of_pos (by simp)]
  cases text with
  | nil => rfl
  | cons c rest =>
    have hc : c ≠ separator := by
      intro hc
      refine h [] ?_ rfl
      rw [pieces, if_pos hc]
      exact List.mem_cons_self
    exact List.dropWhile_cons_of_neg (by simpa using hc)

/-- The symbols of a text without a wildcard can stand on a stack. -/
theorem isSymbol_of_mem_symbols {text : List Char} (hwild : wildcard ∉ text) {symbol : String}
    (h : symbol ∈ symbols (String.ofList text)) : IsSymbol symbol := by
  rw [symbols_ofList] at h
  obtain ⟨hpart, hne⟩ := List.mem_filter.mp h
  obtain ⟨piece, hpiece, heq⟩ := List.mem_map.mp hpart
  obtain ⟨hsep, hall⟩ := of_mem_pieces hpiece
  subst heq
  refine ⟨of_decide_eq_true hne, ?_, ?_⟩
  · rwa [String.toList_ofList]
  · rw [String.toList_ofList]
    exact fun hmem => hwild (hall _ hmem)

namespace IsProper

variable {front back : List Char}

/-- A wildcard stands at the beginning or behind a separator. -/
theorem front_eq (h : IsProper (front ++ wildcard :: back)) (hfront : wildcard ∉ front) :
    front = [] ∨ ∃ rest, front = rest ++ [separator] := by
  rcases List.eq_nil_or_concat' front with hnil | ⟨rest, c, heq⟩
  · exact .inl hnil
  · right
    refine ⟨rest, ?_⟩
    by_cases hsep : c = separator
    · rw [heq, hsep]
    · rw [heq, List.append_assoc, List.singleton_append] at h
      have hrest : wildcard ∉ rest := fun hmem => hfront (by rw [heq]; simp [hmem])
      have hc : c ≠ wildcard := fun hc => hfront (by rw [heq]; simp [hc])
      obtain ⟨piece, hpiece, hwild, hhead⟩ := exists_piece_of_ne_separator hrest hc hsep
      exact absurd (h.begins piece hpiece hwild) hhead

/-- What is read in front of a wildcard is the symbols below it. -/
theorem segmentsOf_front (h : IsProper (front ++ wildcard :: back)) (hfront : wildcard ∉ front) :
    segmentsOf (StackPattern.dropTrailing front) = symbols (String.ofList front) := by
  rcases h.front_eq hfront with hnil | ⟨rest, heq⟩
  · subst hnil
    rfl
  · subst heq
    rw [List.append_assoc, List.singleton_append] at h
    have hrest : ∀ piece ∈ pieces rest, piece ≠ [] := fun piece hpiece =>
      h.ne_nil piece (by rw [pieces_append_separator]; exact List.mem_append_left _ hpiece)
    rw [dropTrailing_concat hrest, segmentsOf_eq_symbols hrest, symbols_concat_separator]

/-- What is read behind a wildcard is the symbols above it. -/
theorem segmentsOf_back (h : IsProper (front ++ wildcard :: back)) (hfront : wildcard ∉ front) :
    segmentsOf (back.dropWhile (· = separator)) = symbols (String.ofList back) := by
  -- the pieces behind the wildcard are pieces of the text, but for the one that begins with it
  have hpieces {first : List Char} {more : List (List Char)} (hback : pieces back = first :: more) :
      ∀ piece ∈ more, piece ≠ [] := by
    intro piece hpiece
    have hwild := pieces_cons_of_ne (by decide : wildcard ≠ separator) hback
    have hmem : piece ∈ pieces (wildcard :: back) := hwild ▸ List.mem_cons_of_mem _ hpiece
    rcases h.front_eq hfront with hnil | ⟨rest, heq⟩
    · subst hnil
      exact h.ne_nil piece hmem
    · subst heq
      rw [List.append_assoc, List.singleton_append] at h
      exact h.ne_nil piece (by rw [pieces_append_separator]; exact List.mem_append_right _ hmem)
  cases back with
  | nil => rfl
  | cons c rest =>
    by_cases hc : c = separator
    · subst hc
      have hrest := hpieces (by rw [pieces, if_pos rfl])
      rw [dropWhile_cons_separator hrest, segmentsOf_eq_symbols hrest, symbols_ofList, symbols_ofList,
        pieces, if_pos rfl]
      simp [symbolsOf]
    · cases hrest : pieces rest with
      | nil => exact absurd hrest (pieces_ne_nil rest)
      | cons first more =>
        have hback := pieces_cons_of_ne hc hrest
        rw [List.dropWhile_cons_of_neg (by simpa using hc), segmentsOf_eq_symbols]
        intro piece hpiece
        rw [hback] at hpiece
        rcases List.mem_cons.mp hpiece with heq | hmem
        · rw [heq]
          exact List.cons_ne_nil c first
        · exact hpieces hback piece hmem

end IsProper

/-- No wildcard stands in front of the first one. -/
theorem wildcard_not_mem_takeWhile (text : List Char) : wildcard ∉ text.takeWhile (· ≠ wildcard) := by
  intro hmem
  simpa using List.mem_takeWhile_imp hmem

/-- A text with a wildcard is what stands in front of the first one, the wildcard, and the rest. -/
theorem takeWhile_append_wildcard {text : List Char} (h : wildcard ∈ text) :
    text.takeWhile (· ≠ wildcard) ++ wildcard :: (text.dropWhile (· ≠ wildcard)).tail = text := by
  induction text with
  | nil => exact absurd h List.not_mem_nil
  | cons c rest ih =>
    by_cases hc : c = wildcard
    · simp [hc]
    · have hrest := ih ((List.mem_cons.mp h).resolve_left fun heq => hc heq.symm)
      simpa [hc] using hrest

/-- The symbols below a wildcard can stand on a stack. -/
theorem isSymbol_of_mem_below {text symbol : String} (h : symbol ∈ below text) : IsSymbol symbol :=
  isSymbol_of_mem_symbols (wildcard_not_mem_takeWhile _) h

/-- The symbols above the wildcard of a proper text can stand on a stack. -/
theorem IsProper.isSymbol_of_mem_above {text symbol : String} (h : IsProper text.toList)
    (hwild : wildcard ∈ text.toList) (hsymbol : symbol ∈ above text) : IsSymbol symbol := by
  refine isSymbol_of_mem_symbols (fun hmem => ?_) hsymbol
  have hcount := h.count_le
  rw [← takeWhile_append_wildcard hwild, List.count_append, List.count_cons_self] at hcount
  have hpos := List.count_pos_iff.mpr hmem
  omega

end Stack

namespace StackPattern

/-- Taking segments off the start leaves the rest. -/
theorem stripFront_eq_some_iff {front parts rest : List String} :
    stripFront front parts = some rest ↔ front ++ rest = parts := by
  induction front generalizing parts with
  | nil => simp [stripFront, eq_comm]
  | cons segment front ih =>
    cases parts with
    | nil => simp [stripFront]
    | cons first more =>
      by_cases h : segment = first
      · simp [stripFront, h, ih]
      · simp [stripFront, h]

/-- Taking segments off the end leaves the rest. -/
theorem stripBack_eq_some_iff {back parts rest : List String} :
    stripBack back parts = some rest ↔ rest ++ back = parts := by
  have hreverse : back.reverse ++ rest.reverse = parts.reverse ↔ rest ++ back = parts := by
    rw [← List.reverse_append, List.reverse_inj]
  rw [← hreverse, ← stripFront_eq_some_iff, stripBack, Option.map_eq_some_iff]
  constructor
  · intro hgiven
    obtain ⟨found, hfound, heq⟩ := hgiven
    rw [← heq, List.reverse_reverse, hfound]
  · intro h
    exact ⟨rest.reverse, h, List.reverse_reverse rest⟩

/-- Capturing cuts a concrete stack into what is in front, what is captured and what is behind. -/
theorem capture_eq_some_iff {front back : List String} {stack captured : String}
    (hstack : Stack.IsConcrete stack) : capture ⟨front, back⟩ stack = some captured ↔
      Stack.IsConcrete captured ∧ front ++ Stack.symbols captured ++ back = Stack.symbols stack := by
  simp only [capture, Option.map_eq_some_iff, Option.bind_eq_some_iff, stripFront_eq_some_iff,
    stripBack_eq_some_iff, hstack.segments_eq]
  constructor
  · intro hgiven
    obtain ⟨between, ⟨rest, hrest, hbetween⟩, hcaptured⟩ := hgiven
    have hsymbols : ∀ symbol ∈ between, Stack.IsSymbol symbol := by
      intro symbol hmem
      refine hstack.isSymbol ?_
      rw [← hrest, ← hbetween]
      simp [hmem]
    refine ⟨⟨between, hsymbols, hcaptured⟩, ?_⟩
    rw [← hcaptured, Stack.symbols_join hsymbols, List.append_assoc, hbetween, hrest]
  · intro hgiven
    obtain ⟨hcaptured, heq⟩ := hgiven
    exact ⟨_, ⟨_, by rw [← heq, List.append_assoc], rfl⟩, hcaptured.join_symbols⟩

/-- Substituting joins what is in front, what is captured and what is behind. -/
theorem substitute_eq {p : StackPattern} {captured : String} (hcaptured : Stack.IsConcrete captured) :
    p.substitute captured = Stack.join (p.front ++ Stack.symbols captured ++ p.back) := by
  rw [substitute, hcaptured.segments_eq]

/-- A text without a wildcard is no pattern. -/
theorem parse_eq_none {text : String} (h : Stack.wildcard ∉ text.toList) : parse text = none := by
  have hnil : text.toList.dropWhile (· ≠ Stack.wildcard) = [] :=
    List.dropWhile_eq_nil_iff.mpr fun c hc => decide_eq_true fun heq => h (heq ▸ hc)
  unfold parse
  rw [List.span_eq_takeWhile_dropWhile, hnil]

/-- The pattern of a proper text with a wildcard has the symbols on both sides of it. -/
theorem parse_of_isProper {text : String} (h : Stack.IsProper text.toList)
    (hwild : Stack.wildcard ∈ text.toList) :
    parse text = some ⟨Stack.below text, Stack.above text⟩ := by
  have hfront := Stack.wildcard_not_mem_takeWhile text.toList
  have htext := Stack.takeWhile_append_wildcard hwild
  have hdrop : text.toList.dropWhile (· ≠ Stack.wildcard) =
      Stack.wildcard :: (text.toList.dropWhile (· ≠ Stack.wildcard)).tail := by
    refine (List.append_right_inj (text.toList.takeWhile (· ≠ Stack.wildcard))).mp ?_
    rw [htext, List.takeWhile_append_dropWhile]
  rw [← htext] at h
  unfold parse
  rw [List.span_eq_takeWhile_dropWhile, hdrop]
  dsimp only
  rw [h.segmentsOf_front hfront, h.segmentsOf_back hfront]
  rfl

end StackPattern

end IndexedGrammar
