import IndexedGrammar.Proofs.Expansion.Instance

/-!
# Matching patterns as texts

A pattern is matched by segments, and it can as well be matched by texts: what stands in front of the
wildcard is cut off the start of a stack together with the separator behind it, and what stands behind
the wildcard off the end together with the separator in front of it, with no separator to cut where
nothing is left. Both ways agree on every text. So on a concrete stack a pattern read off a proper text
cuts lists of symbols, filling it in puts them together again, and the depths add up.
-/

namespace IndexedGrammar

namespace Stack

/-- No separator stands in a segment. -/
theorem separator_not_mem_segmentsOf {text : List Char} {part : String} (h : part ∈ segmentsOf text) :
    separator ∉ part.toList := by
  unfold segmentsOf at h
  split at h
  · exact absurd h List.not_mem_nil
  · obtain ⟨piece, hpiece, rfl⟩ := List.mem_map.mp h
    rw [String.toList_ofList]
    exact (of_mem_pieces hpiece).1

/-- Joining the segments of a text gives the text back. -/
theorem toList_join_segmentsOf (text : List Char) : (join (segmentsOf text)).toList = text := by
  have h := join_segments (String.ofList text)
  rw [segments, String.toList_ofList] at h
  rw [h, String.toList_ofList]

/-- Only the empty text has no segments. -/
theorem segmentsOf_eq_nil_iff {text : List Char} : segmentsOf text = [] ↔ text = [] := by
  refine ⟨fun h => ?_, fun h => h ▸ rfl⟩
  rw [← toList_join_segmentsOf text, h]
  rfl

/-- A separator stands between joined segments and more of them. -/
theorem toList_join_append {parts more : List String} (hparts : parts ≠ []) (hmore : more ≠ []) :
    (join (parts ++ more)).toList = (join parts).toList ++ separator :: (join more).toList := by
  induction parts with
  | nil => exact absurd rfl hparts
  | cons part rest ih =>
    cases rest with
    | nil => simp [join_cons_of_ne_nil hmore, join]
    | cons next rest =>
      rw [List.cons_append, join_cons_of_ne_nil (by simp), join_cons_of_ne_nil (List.cons_ne_nil next rest),
        String.toList_append, ih (List.cons_ne_nil next rest)]
      simp

/-- Joining lists of segments one after another is joining their texts, except those that are empty. -/
theorem join_flatten {lists : List (List String)} (h : ∀ parts ∈ lists, join parts = "" → parts = []) :
    join lists.flatten = join ((lists.map join).filter (· ≠ "")) := by
  induction lists with
  | nil => rfl
  | cons parts lists ih =>
    rw [List.forall_mem_cons] at h
    have hrest := ih h.2
    have hnil : (lists.map join).filter (· ≠ "") = [] ↔ lists.flatten = [] := by
      simp only [List.filter_eq_nil_iff, List.mem_map, List.flatten_eq_nil_iff, decide_eq_true_iff, not_not]
      constructor
      · exact fun hempty parts hparts => h.2 parts hparts (hempty _ ⟨parts, hparts, rfl⟩)
      · rintro hempty _ ⟨parts, hparts, rfl⟩
        rw [hempty parts hparts]
        rfl
    rw [List.flatten_cons, List.map_cons]
    by_cases hparts : parts = []
    · simp [hparts, hrest, join]
    · have hne : join parts ≠ "" := fun hempty => hparts (h.1 hempty)
      rw [List.filter_cons_of_pos (by simpa using hne)]
      by_cases hlists : lists.flatten = []
      · rw [hlists, hnil.mpr hlists, List.append_nil]
        rfl
      · rw [join_cons_of_ne_nil (hnil.not.mpr hlists), ← hrest]
        apply String.toList_injective
        rw [toList_join_append hparts hlists]
        simp

/-- A text with a separator in it has the pieces on both sides of it as segments. -/
theorem segmentsOf_append_separator (front back : List Char) : segmentsOf (front ++ separator :: back) =
    (pieces front).map String.ofList ++ (pieces back).map String.ofList := by
  rw [segmentsOf_of_ne_nil (by simp), pieces_append_separator, List.map_append]

end Stack

namespace StackPattern

/-- Cuts a text off the start of another one, with the separator behind it unless nothing is left. -/
def cutFront (front text : List Char) : Option (List Char) :=
  if front = [] then some text
  else (text.dropPrefix? front).bind fun rest =>
    if rest = [] then some [] else rest.dropPrefix? [Stack.separator]

/-- Cuts a text off the end of another one, with the separator in front of it unless it is all there is. -/
def cutBack (back text : List Char) : Option (List Char) :=
  if back = [] then some text
  else if text = back then some []
  else (text.dropSuffix? back).bind fun rest => rest.dropSuffix? [Stack.separator]

/-- What the texts on both sides of the wildcard leave of a stack text when they are cut off. -/
def cut (p : StackPattern) (stack : String) : Option String :=
  ((cutFront (Stack.join p.front).toList stack.toList).bind
    (cutBack (Stack.join p.back).toList)).map String.ofList

/-- The texts on both sides of the wildcard and a captured one, with separators between those that are not
empty. -/
def filledText (p : StackPattern) (captured : String) : String :=
  Stack.join ([Stack.join p.front, captured, Stack.join p.back].filter (· ≠ ""))

variable {front back text rest : List Char} {parts : List String}

/-- Cutting a text off the start leaves nothing, or what is behind the next separator. -/
theorem cutFront_eq_some_iff (h : front ≠ []) : cutFront front text = some rest ↔
    text = front ∧ rest = [] ∨ text = front ++ Stack.separator :: rest := by
  simp only [cutFront, if_neg h, Option.bind_eq_some_iff, List.dropPrefix?_eq_some_iff, beq_iff_eq]
  constructor
  · rintro ⟨found, ⟨_, rfl, rfl⟩, hrest⟩
    split at hrest
    · next hnil => exact .inl ⟨by rw [hnil, List.append_nil], (Option.some.inj hrest).symm⟩
    · obtain ⟨_, rfl, hsep⟩ := List.dropPrefix?_eq_some_iff.mp hrest
      rw [eq_of_beq hsep]
      exact .inr rfl
  · rintro (⟨rfl, rfl⟩ | rfl)
    · exact ⟨[], ⟨_, (List.append_nil _).symm, rfl⟩, if_pos rfl⟩
    · refine ⟨_, ⟨_, rfl, rfl⟩, ?_⟩
      rw [if_neg (List.cons_ne_nil _ _)]
      exact List.dropPrefix?_eq_some_iff.mpr ⟨_, rfl, beq_self_eq_true _⟩

/-- Cutting a text off the end leaves nothing, or what is in front of the separator before. -/
theorem cutBack_eq_some_iff (h : back ≠ []) : cutBack back text = some rest ↔
    text = back ∧ rest = [] ∨ text = rest ++ Stack.separator :: back := by
  rw [cutBack, if_neg h]
  split
  · next heq =>
    -- the text that is all there is has no room for a separator
    have hlong : text ≠ rest ++ Stack.separator :: back := by
      intro hlong
      have := congrArg List.length (heq.symm.trans hlong)
      simp at this
      omega
    constructor
    · intro hrest
      exact .inl ⟨heq, (Option.some.inj hrest).symm⟩
    · rintro (⟨-, rfl⟩ | htext)
      · rfl
      · exact absurd htext hlong
  · next hne =>
    simp only [Option.bind_eq_some_iff, List.dropSuffix?_eq_some_iff, beq_iff_eq, hne, false_and, false_or]
    constructor
    · rintro ⟨found, ⟨_, rfl, rfl⟩, ⟨_, rfl, rfl⟩⟩
      rw [List.append_assoc, List.singleton_append]
    · rintro rfl
      exact ⟨_, ⟨_, by rw [List.append_assoc, List.singleton_append], rfl⟩, _, rfl, rfl⟩

/-- Cutting a text off the start of joined segments is taking its segments off them. -/
theorem cutFront_join (h : ∀ part ∈ parts, Stack.separator ∉ part.toList) :
    cutFront front (Stack.join parts).toList = some rest ↔
      ∃ more, stripFront (Stack.segmentsOf front) parts = some more ∧ (Stack.join more).toList = rest := by
  simp only [stripFront_eq_some_iff]
  by_cases hfront : front = []
  · simp [hfront, cutFront, Stack.segmentsOf]
  have hsegments : Stack.segmentsOf front ≠ [] := fun hnil => hfront (Stack.segmentsOf_eq_nil_iff.mp hnil)
  rw [cutFront_eq_some_iff hfront]
  constructor
  · rintro (⟨htext, rfl⟩ | htext)
    · exact ⟨[], by rw [List.append_nil, ← htext, Stack.segmentsOf_join h (htext ▸ hfront)], rfl⟩
    · refine ⟨(Stack.pieces rest).map String.ofList, ?_, by rw [Stack.join_pieces, String.toList_ofList]⟩
      rw [← Stack.segmentsOf_join h (by simp [htext]), htext, Stack.segmentsOf_append_separator,
        Stack.segmentsOf_of_ne_nil hfront]
  · rintro ⟨more, rfl, rfl⟩
    by_cases hmore : more = []
    · exact .inl ⟨by rw [hmore, List.append_nil, Stack.toList_join_segmentsOf], by rw [hmore]; rfl⟩
    · exact .inr (by rw [Stack.toList_join_append hsegments hmore, Stack.toList_join_segmentsOf])

/-- Cutting a text off the end of joined segments is taking its segments off them. -/
theorem cutBack_join (h : ∀ part ∈ parts, Stack.separator ∉ part.toList) :
    cutBack back (Stack.join parts).toList = some rest ↔
      ∃ more, stripBack (Stack.segmentsOf back) parts = some more ∧ (Stack.join more).toList = rest := by
  simp only [stripBack_eq_some_iff]
  by_cases hback : back = []
  · simp [hback, cutBack, Stack.segmentsOf]
  have hsegments : Stack.segmentsOf back ≠ [] := fun hnil => hback (Stack.segmentsOf_eq_nil_iff.mp hnil)
  rw [cutBack_eq_some_iff hback]
  constructor
  · rintro (⟨htext, rfl⟩ | htext)
    · exact ⟨[], by rw [List.nil_append, ← htext, Stack.segmentsOf_join h (htext ▸ hback)], rfl⟩
    · refine ⟨(Stack.pieces rest).map String.ofList, ?_, by rw [Stack.join_pieces, String.toList_ofList]⟩
      rw [← Stack.segmentsOf_join h (by simp [htext]), htext, Stack.segmentsOf_append_separator,
        Stack.segmentsOf_of_ne_nil hback]
  · rintro ⟨more, rfl, rfl⟩
    by_cases hmore : more = []
    · exact .inl ⟨by rw [hmore, List.nil_append, Stack.toList_join_segmentsOf], by rw [hmore]; rfl⟩
    · exact .inr (by rw [Stack.toList_join_append hmore hsegments, Stack.toList_join_segmentsOf])

/-- The sides of a pattern that was read are the segments of texts. -/
theorem exists_segmentsOf_of_parse {written : String} {p : StackPattern} (h : parse written = some p) :
    ∃ front back, p = ⟨Stack.segmentsOf front, Stack.segmentsOf back⟩ := by
  unfold parse at h
  split at h
  · exact nomatch h
  · exact ⟨_, _, (Option.some.inj h).symm⟩

/-- A pattern that was read captures by cutting texts. -/
theorem cut_eq_capture {written : String} {p : StackPattern} (h : parse written = some p) (stack : String) :
    p.cut stack = p.capture stack := by
  obtain ⟨front, back, rfl⟩ := exists_segmentsOf_of_parse h
  have hsegments : ∀ part ∈ Stack.segments stack, Stack.separator ∉ part.toList :=
    fun part hpart => Stack.separator_not_mem_segmentsOf hpart
  ext captured
  simp only [cut, capture, Option.map_eq_some_iff, Option.bind_eq_some_iff, Stack.toList_join_segmentsOf]
  constructor
  · rintro ⟨found, ⟨rest, hfront, hback⟩, rfl⟩
    rw [← Stack.join_segments stack, cutFront_join hsegments] at hfront
    obtain ⟨more, hmore, rfl⟩ := hfront
    have hrest : ∀ part ∈ more, Stack.separator ∉ part.toList := fun part hpart =>
      hsegments part (by rw [← stripFront_eq_some_iff.mp hmore]; exact List.mem_append_right _ hpart)
    obtain ⟨between, hbetween, rfl⟩ := (cutBack_join hrest).mp hback
    exact ⟨between, ⟨more, hmore, hbetween⟩, String.ofList_toList.symm⟩
  · rintro ⟨between, ⟨more, hmore, hbetween⟩, rfl⟩
    have hrest : ∀ part ∈ more, Stack.separator ∉ part.toList := fun part hpart =>
      hsegments part (by rw [← stripFront_eq_some_iff.mp hmore]; exact List.mem_append_right _ hpart)
    refine ⟨_, ⟨_, ?_, (cutBack_join hrest).mpr ⟨between, hbetween, rfl⟩⟩, String.ofList_toList⟩
    conv_lhs => rw [← Stack.join_segments stack]
    exact (cutFront_join hsegments).mpr ⟨more, hmore, rfl⟩

/-- A pattern that was read is filled by putting texts together. -/
theorem filledText_eq_substitute {written : String} {p : StackPattern} (h : parse written = some p)
    (captured : String) : p.filledText captured = p.substitute captured := by
  obtain ⟨front, back, rfl⟩ := exists_segmentsOf_of_parse h
  have hlists : ∀ parts ∈ [Stack.segmentsOf front, Stack.segments captured, Stack.segmentsOf back],
      Stack.join parts = "" → parts = [] := by
    intro parts hparts hempty
    obtain ⟨text, rfl⟩ : ∃ text, parts = Stack.segmentsOf text := by
      simp only [List.mem_cons, List.not_mem_nil, or_false] at hparts
      rcases hparts with rfl | rfl | rfl
      exacts [⟨_, rfl⟩, ⟨_, rfl⟩, ⟨_, rfl⟩]
    rw [Stack.segmentsOf_eq_nil_iff, ← Stack.toList_join_segmentsOf text, hempty]
    rfl
  have hjoin := Stack.join_flatten hlists
  simpa [filledText, substitute, Stack.join_segments] using hjoin.symm

/-! What a pattern with symbols on both sides does to concrete stacks -/

variable {p : StackPattern} {stack captured : String}

/-- The symbols of a filled pattern are those in front, those captured and those behind. -/
theorem symbols_substitute (hp : ∀ symbol ∈ p.front ++ p.back, Stack.IsSymbol symbol)
    (hcaptured : Stack.IsConcrete captured) : Stack.IsConcrete (p.substitute captured) ∧
      Stack.symbols (p.substitute captured) = p.front ++ Stack.symbols captured ++ p.back := by
  have hall : ∀ symbol ∈ p.front ++ Stack.symbols captured ++ p.back, Stack.IsSymbol symbol := by
    intro symbol hsymbol
    simp only [List.mem_append] at hsymbol hp
    rcases hsymbol with (hfront | hmem) | hback
    · exact hp symbol (.inl hfront)
    · exact hcaptured.isSymbol hmem
    · exact hp symbol (.inr hback)
  rw [substitute_eq hcaptured]
  exact ⟨⟨_, hall, rfl⟩, Stack.symbols_join hall⟩

/-- What is captured of a concrete stack is what fills the pattern up to it. -/
theorem capture_eq_some_iff_substitute (hp : ∀ symbol ∈ p.front ++ p.back, Stack.IsSymbol symbol)
    (hstack : Stack.IsConcrete stack) (hcaptured : Stack.IsConcrete captured) :
    p.capture stack = some captured ↔ p.substitute captured = stack := by
  obtain ⟨hconcrete, hsymbols⟩ := symbols_substitute hp hcaptured
  rw [capture_eq_some_iff hstack, and_iff_right hcaptured, ← hsymbols]
  refine ⟨fun heq => ?_, fun heq => heq ▸ rfl⟩
  rw [← hconcrete.join_symbols, heq, hstack.join_symbols]

/-- A pattern with symbols on both sides is as deep as these are many. -/
theorem depth_eq_length (hp : ∀ symbol ∈ p.front ++ p.back, Stack.IsSymbol symbol) :
    p.depth = p.front.length + p.back.length := by
  rw [depth, Stack.symbolsOf_eq_self fun part hpart => (hp part (List.mem_append_left _ hpart)).ne_empty,
    Stack.symbolsOf_eq_self fun part hpart => (hp part (List.mem_append_right _ hpart)).ne_empty]

end StackPattern

namespace Category

variable {written c : Category} {p : StackPattern} {captured : String}

/-- The pattern of a proper category has symbols on both sides. -/
theorem isSymbol_of_pattern? (h : written.hasProperStack = true) (hp : written.pattern? = some p) :
    ∀ symbol ∈ p.front ++ p.back, Stack.IsSymbol symbol := by
  intro symbol hsymbol
  have hwild : written.hasWildcard = true := by
    by_contra hwild
    rw [pattern?_eq_none (by simpa using hwild)] at hp
    exact nomatch hp
  obtain rfl := Option.some.inj ((pattern?_eq_some h hwild).symm.trans hp)
  exact isSymbol_around h hwild (List.mem_append.mp hsymbol)

/-- A category is as deep as the pattern that captured a part of its stack and that part. -/
theorem depth_eq_add_of_capture (h : written.hasProperStack = true) (hp : written.pattern? = some p)
    (hc : Stack.IsConcrete c.stack) (hcapture : p.capture c.stack = some captured) :
    c.depth = p.depth + (Stack.symbols captured).length := by
  obtain ⟨-, hsymbols⟩ := (StackPattern.capture_eq_some_iff hc).mp hcapture
  rw [depth_eq_length hc, symbols, ← hsymbols, List.length_append, List.length_append,
    StackPattern.depth_eq_length (isSymbol_of_pattern? h hp)]
  omega

/-- A category with a filled pattern on its stack is as deep as the pattern and what fills it. -/
theorem depth_substitute (h : written.hasProperStack = true) (hp : written.pattern? = some p)
    (hcaptured : Stack.IsConcrete captured) (name : String) :
    (Category.mk name (p.substitute captured)).depth = p.depth + (Stack.symbols captured).length := by
  have hsides := isSymbol_of_pattern? h hp
  obtain ⟨hconcrete, hsymbols⟩ := StackPattern.symbols_substitute hsides hcaptured
  refine depth_eq_add_of_capture (c := ⟨name, p.substitute captured⟩) h hp hconcrete ?_
  exact (StackPattern.capture_eq_some_iff_substitute hsides hconcrete hcaptured).mpr rfl

/-- A category with one wildcard on a proper stack has a pattern with the symbols below and above the wildcard.
The pattern captures a concrete stack of another one exactly if the symbols of the other one are those below,
those captured and those above, and exactly if filling in what is captured gives the other one. It captures by
cutting texts and is filled by putting texts together. Whatever it captures of a concrete stack is concrete, and
different captures fill it differently. Its depth and that of what it captures add up to the depth of the
category it matches; so that depth less its own, and that of any other pattern added, is the depth of the
category which the other pattern makes of the capture. -/
theorem capture_iff_substitute (h : written.hasProperStack = true)
    (hone : written.stack.toList.count Stack.wildcard = 1) :
    ∃ p, written.pattern? = some p ∧ p.front = written.below ∧ p.back = written.above ∧
      (∀ stack captured, Stack.IsConcrete stack → Stack.IsConcrete captured →
        (p.capture stack = some captured ↔
          Stack.symbols stack = written.below ++ Stack.symbols captured ++ written.above) ∧
        (p.capture stack = some captured ↔ p.substitute captured = stack)) ∧
      (∀ stack, p.cut stack = p.capture stack) ∧
      (∀ captured, p.filledText captured = p.substitute captured) ∧
      (∀ stack captured, Stack.IsConcrete stack → p.capture stack = some captured →
        Stack.IsConcrete captured) ∧
      (∀ captured other, Stack.IsConcrete captured → Stack.IsConcrete other →
        p.substitute captured = p.substitute other → captured = other) ∧
      ∀ (c : Category) captured, Stack.IsConcrete c.stack → p.capture c.stack = some captured →
        c.depth = p.depth + (Stack.symbols captured).length ∧ p.depth ≤ c.depth ∧
        ∀ (child : Category) q, child.hasProperStack = true → child.pattern? = some q →
          c.depth - p.depth + q.depth = (Category.mk child.name (q.substitute captured)).depth := by
  have hwild : written.hasWildcard = true :=
    hasWildcard_iff.mpr (List.count_pos_iff.mp (hone ▸ Nat.one_pos))
  have hp := pattern?_eq_some h hwild
  have hsides := isSymbol_of_pattern? h hp
  have hconcrete {stack captured : String} (hstack : Stack.IsConcrete stack)
      (hcapture : StackPattern.capture ⟨written.below, written.above⟩ stack = some captured) :
      Stack.IsConcrete captured :=
    ((StackPattern.capture_eq_some_iff hstack).mp hcapture).1
  refine ⟨_, hp, rfl, rfl, fun stack captured hstack hcaptured => ⟨?_, ?_⟩,
    StackPattern.cut_eq_capture hp, StackPattern.filledText_eq_substitute hp,
    fun stack captured => hconcrete, fun captured other hcaptured hother heq => ?_,
    fun c captured hc hcapture => ?_⟩
  · rw [StackPattern.capture_eq_some_iff hstack, and_iff_right hcaptured, eq_comm]
  · exact StackPattern.capture_eq_some_iff_substitute hsides hstack hcaptured
  · -- both are what is captured of the same stack
    obtain ⟨hfilled, -⟩ := StackPattern.symbols_substitute hsides hcaptured
    have hcapture := (StackPattern.capture_eq_some_iff_substitute hsides hfilled hcaptured).mpr rfl
    have hcapture' := (StackPattern.capture_eq_some_iff_substitute hsides hfilled hother).mpr heq.symm
    exact Option.some.inj (hcapture.symm.trans hcapture')
  · have hdepth := depth_eq_add_of_capture h hp hc hcapture
    refine ⟨hdepth, by omega, fun child q hchild hq => ?_⟩
    rw [depth_substitute hchild hq (hconcrete hc hcapture), hdepth]
    omega

/-- A pop of `NP` captures `WH` of the stack `WH.NP`, and a push of `VP` makes a category of depth two of it. -/
theorem capture_iff_substitute_pop :
    (Category.mk "S" "*NP").hasProperStack = true ∧ "*NP".toList.count Stack.wildcard = 1 ∧
    ∃ p, (Category.mk "S" "*NP").pattern? = some p ∧ p.capture "WH.NP" = some "WH" ∧
      p.substitute "WH" = "WH.NP" ∧ (Category.mk "S" "WH.NP").depth - p.depth + 1 = 2 := by
  have hproper : (Category.mk "S" "*NP").hasProperStack = true := by decide
  have hone : (Category.mk "S" "*NP").stack.toList.count Stack.wildcard = 1 := by decide
  have hstack : Stack.IsConcrete "WH.NP" :=
    isConcrete_of_hasProperStack (c := ⟨"S", "WH.NP"⟩) (by decide) (by decide)
  have hcaptured : Stack.IsConcrete "WH" :=
    isConcrete_of_hasProperStack (c := ⟨"S", "WH"⟩) (by decide) (by decide)
  obtain ⟨p, hp, hfront, hback, hiff, -, -, -, -, hdepth⟩ := capture_iff_substitute hproper hone
  have hcapture : p.capture "WH.NP" = some "WH" := (hiff _ _ hstack hcaptured).1.mpr (by decide)
  refine ⟨hproper, hone, p, hp, hcapture, (hiff _ _ hstack hcaptured).2.mp hcapture, ?_⟩
  obtain ⟨-, -, hchild⟩ := hdepth ⟨"S", "WH.NP"⟩ "WH" hstack hcapture
  exact hchild ⟨"S", "*VP"⟩ _ (by decide) rfl

end Category

end IndexedGrammar
