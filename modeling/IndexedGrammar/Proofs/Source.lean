import IndexedGrammar.Proofs.Result
import IndexedGrammar.Proofs.Stack
import IndexedGrammar.Source.Scan
import Mathlib.Data.List.TakeDrop
import Mathlib.Data.List.TakeWhile

/-!
# Scanning printed categories

A scanning step that is given a printed category takes exactly that category off the front, as long as
what follows cannot belong to it. This needs the characters of the category to be ones that a source
file can hold, and whatever is scanned has such characters. A text of printed lines has these lines.
-/

namespace IndexedGrammar

namespace Source

/-- A name as it is read: a text that is not empty, of letters, digits, hyphens, underscores and
apostrophes. -/
structure IsName (name : String) : Prop where
  ne_empty : name ≠ ""
  isNameChar : ∀ ch ∈ name.toList, isNameChar ch = true

variable {ch : Char} {name : String}

/-- A character of a name is neither a separator, nor a wildcard, nor a bracket. -/
theorem ne_of_isNameChar (h : isNameChar ch = true) :
    ch ≠ Stack.separator ∧ ch ≠ Stack.wildcard ∧ ch ≠ '[' ∧ ch ≠ ']' := by
  refine ⟨?_, ?_, ?_, ?_⟩ <;> exact fun heq => absurd (heq ▸ h) (by decide)

/-- A character of a name is a printable one. -/
theorem toNat_of_isNameChar (h : isNameChar ch = true) : 0x21 ≤ ch.toNat ∧ ch.toNat ≤ 0x7A := by
  have hrange {low high : Char} (hlow : 0x21 ≤ low.toNat) (hhigh : high.toNat ≤ 0x7A)
      (h : low.val ≤ ch.val ∧ ch.val ≤ high.val) : 0x21 ≤ ch.toNat ∧ ch.toNat ≤ 0x7A :=
    ⟨Nat.le_trans hlow h.1, Nat.le_trans h.2 hhigh⟩
  have hboth {p q : Prop} [Decidable p] [Decidable q] (h : (decide p && decide q) = true) : p ∧ q :=
    (Bool.and_eq_true_iff.mp h).imp of_decide_eq_true of_decide_eq_true
  simp only [isNameChar, Bool.or_eq_true, decide_eq_true_eq] at h
  rcases h with ((halphanum | rfl) | rfl) | rfl
  · rcases Bool.or_eq_true_iff.mp halphanum with halpha | hdigit
    · rcases Bool.or_eq_true_iff.mp halpha with hupper | hlower
      · have hupper : 'A'.val ≤ ch.val ∧ ch.val ≤ 'Z'.val := of_decide_eq_true hupper
        exact hrange (by decide) (by decide) hupper
      · have hlower : 'a'.val ≤ ch.val ∧ ch.val ≤ 'z'.val := hboth hlower
        exact hrange (by decide) (by decide) hlower
    · have hdigit : '0'.val ≤ ch.val ∧ ch.val ≤ '9'.val := hboth hdigit
      exact hrange (by decide) (by decide) hdigit
  all_goals decide

/-- A character of a name is not blank. -/
theorem isBlank_of_isNameChar (h : isNameChar ch = true) : Text.isBlank ch = false := by
  obtain ⟨hlow, hhigh⟩ := toNat_of_isNameChar h
  have hranges : ∀ range ∈ Text.blankRanges, range.2 < 0x21 ∨ 0x7A < range.1 := by decide
  rw [Text.isBlank, List.any_eq_false]
  intro range hrange
  have hout := hranges range hrange
  rw [Bool.and_eq_true, decide_eq_true_eq, decide_eq_true_eq]
  omega

/-- A name can stand on a stack. -/
theorem IsName.isSymbol (h : IsName name) : Stack.IsSymbol name where
  ne_empty := h.ne_empty
  separator_not_mem hmem := (ne_of_isNameChar (h.isNameChar _ hmem)).1 rfl
  wildcard_not_mem hmem := (ne_of_isNameChar (h.isNameChar _ hmem)).2.1 rfl

end Source

/-- A category that a source file can hold: its name is one, and its stack has only characters of names,
wildcards and separators. -/
structure Category.Writable (c : Category) : Prop where
  isName : Source.IsName c.name
  isStackChar : ∀ ch ∈ c.stack.toList, Source.isStackChar ch = true

namespace Text

variable {cs rest taken : List Char}

/-- Characters that end no line are taken as a part of the current one. -/
theorem linesFrom_append (hcs : ∀ c ∈ cs, c ≠ '\n') :
    linesFrom (cs ++ rest) taken = linesFrom rest (cs.reverse ++ taken) := by
  induction cs generalizing taken with
  | nil => rfl
  | cons c more ih =>
    have hc : c ≠ '\n' := hcs c List.mem_cons_self
    have hmore : ∀ d ∈ more, d ≠ '\n' := fun d hd => hcs d (List.mem_cons_of_mem c hd)
    rw [List.cons_append, List.reverse_cons, List.append_assoc, List.singleton_append, ← ih hmore]
    rw [linesFrom]
    · exact hc
    · exact fun _ _ heq => absurd heq hc

/-- A line feed ends a line that does not end in a carriage return. -/
theorem linesFrom_feed (htaken : '\r' ∉ taken) :
    linesFrom ('\n' :: rest) taken = taken.reverse :: linesFrom rest [] := by
  cases taken with
  | nil => rw [linesFrom]; simp
  | cons first more =>
    have hfirst : first ≠ '\r' := fun heq => htaken (heq ▸ List.mem_cons_self)
    rw [linesFrom]
    exact fun _ heq => absurd (List.cons.inj heq).1 hfirst

/-- A text of lines that have no line ends in them has these lines. -/
theorem lines_join {texts : List String} (h : ∀ text ∈ texts, '\n' ∉ text.toList ∧ '\r' ∉ text.toList) :
    lines (String.join (texts.map (· ++ "\n"))) = texts := by
  suffices hlines : linesFrom (String.join (texts.map (· ++ "\n"))).toList [] = texts.map String.toList by
    rw [lines, hlines, List.map_map]
    exact List.map_id'' (fun text => String.ofList_toList) texts
  rw [String.toList_join, List.flatMap_map]
  induction texts with
  | nil => rfl
  | cons text more ih =>
    obtain ⟨hfeed, hreturn⟩ := h text List.mem_cons_self
    have hfeed : ∀ c ∈ text.toList, c ≠ '\n' := fun c hc heq => hfeed (heq ▸ hc)
    rw [List.flatMap_cons, String.toList_append, List.append_assoc, linesFrom_append hfeed, List.append_nil]
    refine (linesFrom_feed (by simpa using hreturn)).trans ?_
    rw [List.reverse_reverse, List.map_cons]
    exact congrArg _ (ih fun other hother => h other (List.mem_cons_of_mem text hother))

/-- There is nothing to trim between characters that are not blank. -/
theorem trimmed_eq_self (hhead : ∀ c ∈ cs.head?, isBlank c = false)
    (hlast : ∀ c ∈ cs.getLast?, isBlank c = false) : trimmed cs = cs := by
  have hdrop : ∀ {ds : List Char}, (∀ c ∈ ds.head?, isBlank c = false) → ds.dropWhile isBlank = ds := by
    intro ds hds
    cases ds with
    | nil => rfl
    | cons d more => rw [List.dropWhile_cons_of_neg (by simp [hds d rfl])]
  rw [trimmed, hdrop hhead, hdrop (by rwa [List.head?_reverse]), List.reverse_reverse]

end Text

namespace Source

variable {c : Char}

/-- The characters of a name can stand on a stack. -/
theorem isStackChar_of_isNameChar (h : isNameChar c = true) : isStackChar c = true := by
  simp [isStackChar, h]

/-- A character of a stack text is not blank. -/
theorem isBlank_of_isStackChar (h : isStackChar c = true) : Text.isBlank c = false := by
  simp only [isStackChar, Bool.or_eq_true, decide_eq_true_eq] at h
  rcases h with (hname | rfl) | rfl
  · exact isBlank_of_isNameChar hname
  all_goals decide

/-- Spaces are skipped up to the first other character. -/
theorem skipSpace_eq_self {line : List Char} (h : ∀ c ∈ line.head?, isStackChar c = true) :
    skipSpace line = line := by
  cases line with
  | nil => rfl
  | cons first rest =>
    have hfirst := isBlank_of_isStackChar (h first rfl)
    refine List.dropWhile_cons_of_neg ?_
    simp only [decide_eq_true_eq, Bool.or_eq_true, not_or]
    exact ⟨fun heq => absurd (heq ▸ hfirst) (by decide), fun heq => absurd (heq ▸ hfirst) (by decide)⟩

/-- The characters at the front that satisfy a condition, where the first of the rest does not. -/
theorem span_append {p : Char → Bool} {front rest : List Char} (hfront : ∀ c ∈ front, p c = true)
    (hrest : ∀ c ∈ rest.head?, p c = false) : (front ++ rest).span p = (front, rest) := by
  rw [List.span_eq_takeWhile_dropWhile, List.takeWhile_append_of_pos hfront,
    List.dropWhile_append_of_pos hfront]
  cases rest with
  | nil => simp
  | cons first more =>
    have hfirst : ¬p first = true := by simp [hrest first rfl]
    rw [List.takeWhile_cons_of_neg hfirst, List.dropWhile_cons_of_neg hfirst, List.append_nil]

/-- What can follow a category: nothing that belongs to its name, and no stack. -/
def Ends (rest : List Char) : Prop :=
  ∀ c ∈ rest.head?, isNameChar c = false ∧ c ≠ '['

/-- The name at the front is taken off as far as it goes. -/
theorem scanName_append {name : String} {rest : List Char} (hname : IsName name)
    (hrest : ∀ c ∈ rest.head?, isNameChar c = false) :
    scanName (name.toList ++ rest) = .ok (name, rest) := by
  have hchars : name.toList ≠ [] := fun heq => hname.ne_empty (String.toList_eq_nil_iff.mp heq)
  unfold scanName
  rw [span_append hname.isNameChar hrest]
  split
  · next heq => exact absurd (Prod.mk.inj heq).1 hchars
  · next heq =>
    obtain ⟨rfl, rfl⟩ := Prod.mk.inj heq
    rw [String.ofList_toList]

/-- The stack in brackets at the front is taken off. -/
theorem scanStack_append {stack : String} {rest : List Char}
    (hstack : ∀ c ∈ stack.toList, isStackChar c = true) :
    scanStack ('[' :: (stack.toList ++ ']' :: rest)) = .ok (stack, rest) := by
  have hopen : skipSpace (stack.toList ++ ']' :: rest) = stack.toList ++ ']' :: rest := by
    cases hchars : stack.toList with
    | nil => rfl
    | cons first more =>
      refine skipSpace_eq_self fun c hc => ?_
      obtain rfl := Option.some.inj hc
      exact hstack _ (hchars ▸ List.mem_cons_self)
  have hspan : (stack.toList ++ ']' :: rest).span isStackChar = (stack.toList, ']' :: rest) := by
    refine span_append hstack fun c hc => ?_
    obtain rfl := Option.some.inj hc
    decide
  have hclose : skipSpace (']' :: rest) = ']' :: rest := rfl
  simp only [scanStack, scanChar, if_true, bind, Except.bind, hopen, hspan, hclose, pure, Except.pure,
    String.ofList_toList]

/-- The characters of a printed category. -/
theorem toList_text (c : Category) :
    c.text.toList = c.name.toList ++ if c.stack = "" then [] else '[' :: (c.stack.toList ++ [']']) := by
  unfold Category.text
  by_cases hstack : c.stack = ""
  · simp [hstack]
  · simp [hstack]

/-- The category at the front is taken off. -/
theorem scanCategory_append {c : Category} (hc : c.Writable) {rest : List Char} (hrest : Ends rest) :
    scanCategory (c.text.toList ++ rest) = .ok (c, rest) := by
  rw [toList_text, List.append_assoc]
  by_cases hstack : c.stack = ""
  · have hhead : rest.head? ≠ some '[' := fun heq => (hrest _ heq).2 rfl
    have hname := scanName_append hc.isName fun first hfirst => (hrest first hfirst).1
    rw [if_pos hstack, List.nil_append]
    simp only [scanCategory, within, hname, Except.mapError, bind, Except.bind, if_neg hhead]
    rw [Category.bare, ← hstack]
    rfl
  · have hname : scanName (c.name.toList ++ '[' :: (c.stack.toList ++ ']' :: rest)) =
        .ok (c.name, '[' :: (c.stack.toList ++ ']' :: rest)) := by
      refine scanName_append hc.isName fun first hfirst => ?_
      obtain rfl := Option.some.inj hfirst
      decide
    rw [if_neg hstack, List.cons_append, List.append_assoc, List.singleton_append]
    simp only [scanCategory, within, hname, Except.mapError, bind, Except.bind, List.head?_cons, if_true,
      scanStack_append hc.isStackChar]
    rfl

/-- A printed category begins with a character of a name. -/
theorem exists_toList_text {c : Category} (hc : c.Writable) :
    ∃ first rest, c.text.toList = first :: rest ∧ isNameChar first = true := by
  cases hchars : c.name.toList with
  | nil => exact absurd (String.toList_eq_nil_iff.mp hchars) hc.isName.ne_empty
  | cons first more =>
    have hfirst := hc.isName.isNameChar first (hchars ▸ List.mem_cons_self)
    have htext := toList_text c
    rw [hchars, List.cons_append] at htext
    exact ⟨first, _, htext, hfirst⟩

/-- No character of a printed category is blank. -/
theorem isBlank_text {c : Category} (hc : c.Writable) :
    ∀ ch ∈ c.text.toList, Text.isBlank ch = false := by
  intro ch hch
  rw [toList_text, List.mem_append] at hch
  rcases hch with hname | hstack
  · exact isBlank_of_isStackChar (isStackChar_of_isNameChar (hc.isName.isNameChar ch hname))
  · split at hstack
    · contradiction
    · rcases List.mem_cons.mp hstack with rfl | hstack
      · decide
      · rcases List.mem_append.mp hstack with hmem | hmem
        · exact isBlank_of_isStackChar (hc.isStackChar ch hmem)
        · obtain rfl := List.mem_singleton.mp hmem
          decide

/-- Categories that are printed with a space before each are read back. -/
theorem readAll_spaced {cs : List Category} (hcs : ∀ c ∈ cs, c.Writable) {bound : Nat}
    (hbound : cs.length ≤ bound) :
    readAll scanCategory bound (cs.flatMap fun c => ' ' :: c.text.toList) = .ok cs := by
  induction cs generalizing bound with
  | nil => cases bound <;> rfl
  | cons c more ih =>
    obtain ⟨bound, rfl⟩ : ∃ fewer, bound = fewer + 1 :=
      ⟨bound - 1, by rw [List.length_cons] at hbound; omega⟩
    have hc := hcs c List.mem_cons_self
    obtain ⟨first, rest, htext, hfirst⟩ := exists_toList_text hc
    have hskip : skipSpace ((c :: more).flatMap fun c => ' ' :: c.text.toList) =
        c.text.toList ++ more.flatMap fun c => ' ' :: c.text.toList := by
      rw [List.flatMap_cons, htext]
      change skipSpace (first :: (rest ++ _)) = _
      refine skipSpace_eq_self fun d hd => ?_
      obtain rfl := Option.some.inj hd
      exact isStackChar_of_isNameChar hfirst
    -- a category is followed by nothing or by a space, and ends there
    have hends : Ends (more.flatMap fun c => ' ' :: c.text.toList) := by
      intro d hd
      cases more with
      | nil => contradiction
      | cons next others =>
        obtain rfl := Option.some.inj hd
        decide
    have hmore := ih (fun d hd => hcs d (List.mem_cons_of_mem c hd)) (Nat.le_of_succ_le_succ hbound)
    rw [readAll, hskip]
    split
    · next heq => simp [htext] at heq
    · simp only [scanCategory_append hc hends, hmore, bind, Except.bind, pure, Except.pure]

/-- A list of categories that is printed with a space before each is read back to its end. -/
theorem readList_spaced {cs : List Category} (hcs : ∀ c ∈ cs, c.Writable) :
    readList scanCategory (cs.flatMap fun c => ' ' :: c.text.toList) = .ok cs := by
  refine readAll_spaced hcs ?_
  induction cs with
  | nil => exact Nat.zero_le _
  | cons c more ih =>
    have hmore := ih fun d hd => hcs d (List.mem_cons_of_mem c hd)
    rw [List.flatMap_cons, List.length_append, List.length_cons, List.length_cons]
    omega

/-- What satisfies a condition at the front of a line satisfies it throughout. -/
theorem of_mem_span {p : Char → Bool} {line front rest : List Char} (h : line.span p = (front, rest)) :
    ∀ c ∈ front, p c = true := by
  rw [List.span_eq_takeWhile_dropWhile] at h
  obtain ⟨rfl, -⟩ := Prod.mk.inj h
  exact fun c hc => List.mem_takeWhile_imp hc

/-- A name that was taken off a line is one. -/
theorem isName_of_scanName {line rest : List Char} {name : String} (h : scanName line = .ok (name, rest)) :
    IsName name := by
  unfold scanName at h
  split at h
  · contradiction
  · next chars _ hne heq =>
    obtain ⟨rfl, -⟩ := Prod.mk.inj (Except.ok.inj h)
    refine ⟨fun hempty => hne (String.ofList_eq_empty_iff.mp hempty), ?_⟩
    rw [String.toList_ofList]
    exact of_mem_span heq

/-- A stack that was taken off a line has only characters that can stand there. -/
theorem isStackChar_of_scanStack {line rest : List Char} {stack : String} (h : scanStack line = .ok (stack, rest)) :
    ∀ c ∈ stack.toList, isStackChar c = true := by
  obtain ⟨inside, -, h⟩ := bind_eq_ok.mp h
  obtain ⟨closed, -, h⟩ := bind_eq_ok.mp h
  obtain ⟨rfl, -⟩ := Prod.mk.inj (Except.ok.inj h)
  rw [String.toList_ofList]
  exact of_mem_span rfl

/-- A category that was taken off a line can be written. -/
theorem writable_of_scanCategory {line rest : List Char} {c : Category}
    (h : scanCategory line = .ok (c, rest)) : c.Writable := by
  obtain ⟨⟨name, after⟩, hname, h⟩ := bind_eq_ok.mp h
  have hname := isName_of_scanName (mapError_eq_ok.mp hname)
  dsimp only at h
  split at h
  · obtain ⟨⟨stack, behind⟩, hstack, h⟩ := bind_eq_ok.mp h
    obtain ⟨rfl, -⟩ := Prod.mk.inj (Except.ok.inj h)
    exact ⟨hname, isStackChar_of_scanStack (mapError_eq_ok.mp hstack)⟩
  · obtain ⟨rfl, -⟩ := Prod.mk.inj (Except.ok.inj h)
    exact ⟨hname, fun c hc => absurd hc List.not_mem_nil⟩

/-- The categories that were read from a line can be written. -/
theorem writable_of_readAll {bound : Nat} {line : List Char} {cs : List Category}
    (h : readAll scanCategory bound line = .ok cs) : ∀ c ∈ cs, c.Writable := by
  induction bound generalizing line cs with
  | zero =>
    obtain rfl := Except.ok.inj h
    exact fun c hc => absurd hc List.not_mem_nil
  | succ bound ih =>
    unfold readAll at h
    split at h
    · obtain rfl := Except.ok.inj h
      exact fun c hc => absurd hc List.not_mem_nil
    · obtain ⟨⟨first, rest⟩, hfirst, h⟩ := bind_eq_ok.mp h
      obtain ⟨more, hmore, h⟩ := bind_eq_ok.mp h
      obtain rfl := Except.ok.inj h
      exact List.forall_mem_cons.mpr ⟨writable_of_scanCategory hfirst, ih hmore⟩

end Source

end IndexedGrammar
