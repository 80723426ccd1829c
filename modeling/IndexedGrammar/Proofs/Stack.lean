import IndexedGrammar.Grammar.Expressible
import IndexedGrammar.StackPattern

/-!
# Stack texts as lists of symbols

A concrete stack text is a list of symbols joined by separators, and cutting it gives that list back.
So a concrete text is known by its symbols. A pattern that is written properly has lists of symbols on
both sides of its wildcard: it captures a part of a concrete stack exactly if the symbols of the stack
are those in front, those captured and those behind.
-/

namespace IndexedGrammar

namespace Stack

/-- Something that can stand on a stack: a text that is not empty, without separators and wildcards. -/
structure IsSymbol (symbol : String) : Prop where
  ne_empty : symbol ≠ ""
  separator_not_mem : separator ∉ symbol.toList
  wildcard_not_mem : wildcard ∉ symbol.toList

/-- A text that consists of symbols joined by separators. -/
def IsConcrete (text : String) : Prop :=
  ∃ stack : List String, (∀ symbol ∈ stack, IsSymbol symbol) ∧ join stack = text

/-! Cutting a text -/

/-- A text is cut at each separator. -/
theorem pieces_append_separator (left right : List Char) :
    pieces (left ++ separator :: right) = pieces left ++ pieces right := by
  induction left with
  | nil => simp [pieces]
  | cons c rest ih =>
    simp only [List.cons_append, pieces, ih]
    split
    · rfl
    · cases hrest : pieces rest with
      | nil => exact absurd hrest (pieces_ne_nil rest)
      | cons piece more => rfl

/-- A text without separators is one piece. -/
theorem pieces_of_not_mem {text : List Char} (h : separator ∉ text) : pieces text = [text] := by
  induction text with
  | nil => rfl
  | cons c rest ih =>
    have hc : c ≠ separator := fun heq => h (heq ▸ List.mem_cons_self)
    have hrest : separator ∉ rest := fun hmem => h (List.mem_cons_of_mem _ hmem)
    simp only [pieces, if_neg hc, ih hrest]

/-- A first character that is no separator belongs to the first piece. -/
theorem pieces_cons_of_ne {c : Char} {rest piece : List Char} {more : List (List Char)}
    (hc : c ≠ separator) (h : pieces rest = piece :: more) :
    pieces (c :: rest) = (c :: piece) :: more := by
  simp only [pieces, if_neg hc, h]

/-- Pieces have no separators, and their characters are those of the text. -/
theorem of_mem_pieces {text piece : List Char} (h : piece ∈ pieces text) :
    separator ∉ piece ∧ ∀ c ∈ piece, c ∈ text := by
  induction text generalizing piece with
  | nil =>
    rw [pieces, List.mem_singleton] at h
    subst h
    exact ⟨List.not_mem_nil, fun c hc => hc⟩
  | cons c rest ih =>
    by_cases hc : c = separator
    · rw [pieces, if_pos hc] at h
      rcases List.mem_cons.mp h with heq | hmem
      · subst heq
        exact ⟨List.not_mem_nil, fun d hd => absurd hd List.not_mem_nil⟩
      · exact ⟨(ih hmem).1, fun d hd => List.mem_cons_of_mem _ ((ih hmem).2 d hd)⟩
    · cases hrest : pieces rest with
      | nil => exact absurd hrest (pieces_ne_nil rest)
      | cons first more =>
        rw [pieces_cons_of_ne hc hrest] at h
        rcases List.mem_cons.mp h with heq | hmem
        · obtain ⟨hsep, hall⟩ := ih (hrest ▸ List.mem_cons_self)
          subst heq
          refine ⟨fun hmem => ?_, fun d hd => ?_⟩
          · rcases List.mem_cons.mp hmem with heq | hmem
            · exact hc heq.symm
            · exact hsep hmem
          · rcases List.mem_cons.mp hd with heq | hd
            · exact heq ▸ List.mem_cons_self
            · exact List.mem_cons_of_mem _ (hall d hd)
        · obtain ⟨hsep, hall⟩ := ih (hrest ▸ List.mem_cons_of_mem _ hmem)
          exact ⟨hsep, fun d hd => List.mem_cons_of_mem _ (hall d hd)⟩

/-! Symbols and segments -/

/-- A text that is not empty has its pieces as segments. -/
theorem segmentsOf_of_ne_nil {text : List Char} (h : text ≠ []) :
    segmentsOf text = (pieces text).map String.ofList := by
  rw [segmentsOf, if_neg (by simpa using h)]

/-- The symbols among the segments are the pieces that are not empty. -/
theorem symbolsOf_segmentsOf (text : List Char) :
    symbolsOf (segmentsOf text) = symbolsOf ((pieces text).map String.ofList) := by
  cases text with
  | nil => rfl
  | cons c rest => rw [segmentsOf_of_ne_nil (List.cons_ne_nil c rest)]

/-- Segments of which none is empty are all symbols. -/
theorem symbolsOf_eq_self {parts : List String} (h : ∀ part ∈ parts, part ≠ "") :
    symbolsOf parts = parts :=
  List.filter_eq_self.mpr fun part hpart => decide_eq_true (h part hpart)

/-- The pieces of joined segments are the segments, if there are any and no separator stands in them. -/
theorem pieces_join {parts : List String} (h : ∀ part ∈ parts, separator ∉ part.toList)
    (hne : parts ≠ []) : pieces (join parts).toList = parts.map String.toList := by
  induction parts with
  | nil => exact absurd rfl hne
  | cons part rest ih =>
    have hpart := pieces_of_not_mem (h part List.mem_cons_self)
    cases rest with
    | nil => simp [join, hpart]
    | cons next rest =>
      have hrest := ih (fun other hother => h other (List.mem_cons_of_mem _ hother))
        (List.cons_ne_nil next rest)
      have htext : (join (part :: next :: rest)).toList =
          part.toList ++ separator :: (join (next :: rest)).toList := by
        simp [join]
      rw [htext, pieces_append_separator, hpart, hrest]
      rfl

/-- Segments that are joined to a text that is not empty are its segments. -/
theorem segmentsOf_join {parts : List String} (h : ∀ part ∈ parts, separator ∉ part.toList)
    (hne : (join parts).toList ≠ []) : segmentsOf (join parts).toList = parts := by
  have hparts : parts ≠ [] := by
    intro hnil
    rw [hnil] at hne
    exact hne rfl
  have hid : String.ofList ∘ String.toList = id := funext fun _ => String.ofList_toList
  rw [segmentsOf_of_ne_nil hne, pieces_join h hparts, List.map_map, hid, List.map_id]

/-- Cutting joined symbols gives the symbols back. -/
theorem segments_join {stack : List String} (h : ∀ symbol ∈ stack, IsSymbol symbol) :
    segments (join stack) = stack := by
  cases stack with
  | nil => rfl
  | cons symbol rest =>
    have hne : (join (symbol :: rest)).toList ≠ [] := by
      have hsymbol : symbol.toList ≠ [] :=
        fun hnil => (h symbol List.mem_cons_self).ne_empty (String.toList_eq_nil_iff.mp hnil)
      cases rest with
      | nil => exact hsymbol
      | cons next rest => simp [join, hsymbol]
    exact segmentsOf_join (fun other hother => (h other hother).separator_not_mem) hne

/-- The symbols on joined symbols. -/
theorem symbols_join {stack : List String} (h : ∀ symbol ∈ stack, IsSymbol symbol) :
    symbols (join stack) = stack := by
  rw [symbols, segments_join h, symbolsOf_eq_self fun symbol hsymbol => (h symbol hsymbol).ne_empty]

/-- A character of joined symbols is a separator or belongs to a symbol. -/
theorem mem_join {stack : List String} {c : Char} (h : c ∈ (join stack).toList) :
    c = separator ∨ ∃ symbol ∈ stack, c ∈ symbol.toList := by
  induction stack with
  | nil => simp [join] at h
  | cons symbol rest ih =>
    cases rest with
    | nil => exact .inr ⟨symbol, List.mem_cons_self, h⟩
    | cons next rest =>
      simp only [join, String.toList_append, Char.toString, String.toList_singleton,
        List.append_assoc, List.mem_append, List.mem_singleton] at h
      rcases h with hsymbol | hsep | hrest
      · exact .inr ⟨symbol, List.mem_cons_self, hsymbol⟩
      · exact .inl hsep
      · rcases ih hrest with hsep | ⟨other, hother, hc⟩
        · exact .inl hsep
        · exact .inr ⟨other, List.mem_cons_of_mem _ hother, hc⟩

/-- Joined symbols have no wildcard. -/
theorem wildcard_not_mem_join {stack : List String} (h : ∀ symbol ∈ stack, IsSymbol symbol) :
    wildcard ∉ (join stack).toList := by
  intro hmem
  rcases mem_join hmem with hsep | ⟨symbol, hsymbol, hc⟩
  · exact absurd hsep (by decide)
  · exact (h symbol hsymbol).wildcard_not_mem hc

namespace IsConcrete

variable {text : String}

/-- The segments of a concrete text are its symbols. -/
theorem segments_eq (h : IsConcrete text) : segments text = symbols text := by
  obtain ⟨stack, hstack, rfl⟩ := h
  rw [segments_join hstack, symbols_join hstack]

/-- Joining the symbols of a concrete text gives the text back. -/
theorem join_symbols (h : IsConcrete text) : join (symbols text) = text := by
  rw [← h.segments_eq, join_segments]

/-- What stands on a concrete text is symbols. -/
theorem isSymbol (h : IsConcrete text) {symbol : String} (hsymbol : symbol ∈ symbols text) :
    IsSymbol symbol := by
  obtain ⟨stack, hstack, rfl⟩ := h
  rw [symbols_join hstack] at hsymbol
  exact hstack symbol hsymbol

/-- A concrete text has no wildcard. -/
theorem wildcard_not_mem (h : IsConcrete text) : wildcard ∉ text.toList := by
  obtain ⟨stack, hstack, rfl⟩ := h
  exact wildcard_not_mem_join hstack

/-- A concrete text without symbols is empty. -/
theorem isEmpty_iff (h : IsConcrete text) : text.isEmpty = true ↔ symbols text = [] := by
  rw [String.isEmpty_iff]
  constructor
  · intro hempty
    subst hempty
    rfl
  · intro hnil
    rw [← h.join_symbols, hnil]
    rfl

end IsConcrete

end Stack

end IndexedGrammar
