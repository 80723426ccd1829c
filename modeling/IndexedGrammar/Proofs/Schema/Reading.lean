import IndexedGrammar.Proofs.Sample
import IndexedGrammar.Proofs.Schema
import IndexedGrammar.Proofs.Source
import IndexedGrammar.Schema.Reader

/-!
# Reading back a printed grammar

A schema grammar is printed one rule a line, and each line is read back as the rule it shows. Every rule
that was read from a source text can be printed that way, so the printed form of what was read is a
normal form: reading it gives the same grammar, however the source was spaced.
-/

namespace IndexedGrammar

namespace Rule

variable {r : Rule}

/-- A rule that a source file can hold: each of its categories can be written. -/
def Writable (r : Rule) : Prop :=
  ∀ c ∈ r.lhs :: r.rhs, c.Writable

/-- The right-hand side of an epsilon rule is the empty category. -/
theorem rhs_of_isEpsilon (h : r.isEpsilon = true) : r.rhs = [Category.epsilon] := by
  unfold isEpsilon at h
  split at h
  · next c hrhs =>
    obtain ⟨hname, hstack⟩ := Bool.and_eq_true_iff.mp h
    have hc : c = Category.epsilon := by
      cases c
      exact congrArg₂ Category.mk (of_decide_eq_true hname) (String.isEmpty_iff.mp hstack)
    rw [hrhs, hc]
  · contradiction

/-- What stands behind the arrow of a printed rule. -/
def printedRhs (r : Rule) : List Category :=
  if r.isEpsilon then [] else r.rhs

/-- What stands behind the arrow can be written. -/
theorem writable_of_mem_printedRhs (hr : r.Writable) {c : Category} (hc : c ∈ r.printedRhs) :
    c.Writable := by
  unfold printedRhs at hc
  split at hc
  · contradiction
  · exact hr c (List.mem_cons_of_mem _ hc)

/-- The characters of a printed rule. -/
theorem toList_text (r : Rule) :
    r.text.toList = r.lhs.text.toList ++ ' ' :: '-' :: '>' ::
      r.printedRhs.flatMap fun c => ' ' :: c.text.toList := by
  unfold text printedRhs
  split
  · simp
  · simp [String.toList_join, List.flatMap_map]

/-- A printed rule begins with a character of a name. -/
theorem exists_toList_text (hr : r.Writable) :
    ∃ first rest, r.text.toList = first :: rest ∧ Source.isNameChar first = true := by
  obtain ⟨first, rest, hfirst, hchar⟩ := Source.exists_toList_text (hr r.lhs List.mem_cons_self)
  have htext := toList_text r
  rw [hfirst, List.cons_append] at htext
  exact ⟨first, _, htext, hchar⟩

/-- What stands behind the arrow makes up the right-hand side again. -/
theorem read_printedRhs (hrhs : r.rhs ≠ []) :
    (if r.printedRhs.isEmpty then epsilon r.lhs else ⟨r.lhs, r.printedRhs, none⟩) = r.detached := by
  unfold printedRhs
  split
  · next hepsilon =>
    rw [detached, rhs_of_isEpsilon hepsilon]
    rfl
  · rw [List.isEmpty_eq_false_iff.mpr hrhs]
    rfl

/-- A printed rule is read back, without the schema rule behind it. -/
theorem read_text (hr : r.Writable) (hrhs : r.rhs ≠ []) : Rule.read r.text.toList = .ok r.detached := by
  have hlhs := hr r.lhs List.mem_cons_self
  have hskip : Source.skipSpace r.text.toList = r.text.toList := by
    obtain ⟨first, rest, hfirst, hchar⟩ := exists_toList_text hr
    refine Source.skipSpace_eq_self fun c hc => ?_
    rw [hfirst] at hc
    obtain rfl := Option.some.inj hc
    exact Source.isStackChar_of_isNameChar hchar
  have harrow : Source.Ends (' ' :: '-' :: '>' :: r.printedRhs.flatMap fun c => ' ' :: c.text.toList) := by
    intro c hc
    obtain rfl := Option.some.inj hc
    decide
  have hscan := Source.scanCategory_append hlhs harrow
  rw [Rule.read, hskip, toList_text]
  simp only [Source.within, hscan, Except.mapError, bind, Except.bind]
  rw [show Source.skipSpace (' ' :: '-' :: '>' :: _) = '-' :: '>' :: _ from rfl]
  simp only [Source.scanArrow, Source.readList_spaced fun c hc => writable_of_mem_printedRhs hr hc]
  exact congrArg Except.ok (read_printedRhs hrhs)

/-- The only blanks of a printed rule are spaces. -/
theorem isBlank_text (hr : r.Writable) {ch : Char} (hch : ch ∈ r.text.toList) (hspace : ch ≠ ' ') :
    Text.isBlank ch = false := by
  rw [toList_text, List.mem_append, List.mem_cons, List.mem_cons, List.mem_cons] at hch
  rcases hch with hlhs | rfl | rfl | rfl | hrhs
  · exact Source.isBlank_text (hr r.lhs List.mem_cons_self) ch hlhs
  · exact absurd rfl hspace
  · decide
  · decide
  · obtain ⟨c, hc, hmem⟩ := List.mem_flatMap.mp hrhs
    rcases List.mem_cons.mp hmem with rfl | hmem
    · exact absurd rfl hspace
    · exact Source.isBlank_text (writable_of_mem_printedRhs hr hc) ch hmem

/-- A printed rule is one line. -/
theorem text_isLine (hr : r.Writable) : '\n' ∉ r.text.toList ∧ '\r' ∉ r.text.toList :=
  ⟨fun hfeed => absurd (isBlank_text hr hfeed (by decide)) (by decide),
    fun hreturn => absurd (isBlank_text hr hreturn (by decide)) (by decide)⟩

/-- A printed rule does not end in a blank. -/
theorem getLast?_text (hr : r.Writable) : ∀ ch ∈ r.text.toList.getLast?, Text.isBlank ch = false := by
  intro ch hch
  rw [toList_text] at hch
  rcases List.eq_nil_or_concat r.printedRhs with hnone | ⟨front, last, hlast⟩
  · rw [hnone] at hch
    have hch : ch = '>' := by simpa using hch.symm
    rw [hch]
    decide
  · -- the last category has a character, and that is the last one of the line
    have hc : last.Writable := writable_of_mem_printedRhs hr (by simp [hlast])
    obtain ⟨first, more, hfirst, -⟩ := Source.exists_toList_text hc
    have htail : r.lhs.text.toList ++ ' ' :: '-' :: '>' ::
        (r.printedRhs.flatMap fun c => ' ' :: c.text.toList) =
        (r.lhs.text.toList ++ ' ' :: '-' :: '>' ::
          (front.flatMap fun c => ' ' :: c.text.toList) ++ [' ']) ++ last.text.toList := by
      simp [hlast]
    rw [htail, hfirst, List.getLast?_append_cons, ← hfirst] at hch
    exact Source.isBlank_text hc ch (List.mem_of_getLast? hch)

/-- A printed rule has no blank at its ends. -/
theorem trimmed_text (hr : r.Writable) : Text.trimmed r.text.toList = r.text.toList := by
  obtain ⟨first, rest, hfirst, hchar⟩ := exists_toList_text hr
  refine Text.trimmed_eq_self (fun ch hch => ?_) (getLast?_text hr)
  rw [hfirst] at hch
  obtain rfl := Option.some.inj hch
  exact Source.isBlank_of_isNameChar hchar

/-- The empty category can be written out. -/
theorem writable_epsilon : Category.epsilon.Writable where
  isName := ⟨by decide, List.all_eq_true.mp (by decide)⟩
  isStackChar := List.all_eq_true.mp (by decide)

/-- A rule as it was read can be written, and has no schema rule behind it. -/
theorem of_read {line : List Char} (h : Rule.read line = .ok r) : r.Writable ∧ r.detached = r := by
  obtain ⟨⟨lhs, after⟩, hlhs, h⟩ := bind_eq_ok.mp h
  obtain ⟨behind, -, h⟩ := bind_eq_ok.mp h
  obtain ⟨rhs, hrhs, h⟩ := bind_eq_ok.mp h
  have hlhs := Source.writable_of_scanCategory (mapError_eq_ok.mp hlhs)
  have hrhs := Source.writable_of_readAll (mapError_eq_ok.mp hrhs)
  obtain rfl := Except.ok.inj h
  split
  · refine ⟨List.forall_mem_cons.mpr ⟨hlhs, fun c hc => ?_⟩, rfl⟩
    obtain rfl := List.mem_singleton.mp hc
    exact writable_epsilon
  · exact ⟨List.forall_mem_cons.mpr ⟨hlhs, hrhs⟩, rfl⟩

/-- The schema rule behind a rule does not make it proper. -/
theorem Proper.detached (h : r.Proper) : r.detached.Proper := by
  have hpopped : r.detached.popped = r.popped := rfl
  have hpushed : r.detached.pushed = r.pushed := rfl
  refine ⟨?_, h.hasProperStack⟩
  have hwell := h.wellFormed
  unfold WellFormed defect? at hwell ⊢
  rw [hpopped, hpushed]
  grind [Rule.detached]

end Rule

namespace Schema

variable {s : Schema}

/-- The statements of a printed grammar are its printed rules, line by line. -/
theorem statements_text (hs : ∀ r ∈ s.rules, r.Writable) :
    Source.statements s.text =
      s.rules.toList.zipIdx.map fun (r, n) => (n + 1, r.text.toList) := by
  have hwritable : ∀ r ∈ s.rules.toList, r.Writable := fun r hr => hs r (Array.mem_toList_iff.mp hr)
  have hlines : Text.lines s.text = s.rules.toList.map Rule.text := by
    have htexts : s.rules.toList.map (fun r => r.text ++ "\n") =
        (s.rules.toList.map Rule.text).map (· ++ "\n") := by
      rw [List.map_map]
      rfl
    rw [text, htexts, Text.lines_join]
    exact List.forall_mem_map.mpr fun r hr => Rule.text_isLine (hwritable r hr)
  rw [Source.statements, hlines, List.zipIdx_map, List.filterMap_map, ← List.filterMap_eq_map]
  refine List.filterMap_congr fun (r, n) hmem => ?_
  have hr : r.Writable := hwritable r (List.fst_mem_of_mem_zipIdx hmem)
  obtain ⟨first, rest, hfirst, hchar⟩ := Rule.exists_toList_text hr
  have hcomment : first ≠ '#' := fun heq => absurd (heq ▸ hchar) (by decide)
  have htrimmed := Rule.trimmed_text hr
  rw [hfirst] at htrimmed
  simp [hfirst, htrimmed, hcomment]

/-- The numbers of the lines only matter for what is complained about. -/
theorem foldlM_onLine {rules : List (Nat × Rule)} {before after : Schema} :
    rules.foldlM (fun schema (number, rule) => (schema.insert rule).mapError (onLine number)) before =
      .ok after ↔ (rules.map Prod.snd).foldlM insert before = .ok after := by
  induction rules generalizing before with
  | nil => rfl
  | cons entry rest ih =>
    rw [List.map_cons, List.foldlM_cons, List.foldlM_cons, bind_eq_ok, bind_eq_ok]
    exact exists_congr fun next => and_congr mapError_eq_ok ih

/-- A source text is read if its statements are, there is at least one, and their rules are proper. -/
theorem read_eq_ok {source : String} :
    read source = .ok s ↔ ∃ rules : List (Nat × Rule),
      List.Forall₂ (fun statement rule => rule.1 = statement.1 ∧ Rule.read statement.2 = .ok rule.2)
        (Source.statements source) rules ∧
      rules ≠ [] ∧ (∀ rule ∈ rules, rule.2.Proper) ∧ s = ⟨(rules.map Prod.snd).toArray⟩ := by
  rw [read, bind_eq_ok]
  refine exists_congr fun rules => and_congr ?_ ?_
  · rw [mapM_eq_ok]
    refine iff_of_eq (congrArg (List.Forall₂ · _ _) ?_)
    funext (number, line) (number', rule)
    refine propext (bind_eq_ok.trans ⟨?_, ?_⟩)
    · rintro ⟨r, hr, heq⟩
      obtain ⟨rfl, rfl⟩ := Prod.mk.inj (Except.ok.inj heq)
      exact ⟨rfl, mapError_eq_ok.mp hr⟩
    · rintro ⟨rfl, hrule⟩
      exact ⟨rule, mapError_eq_ok.mpr hrule, rfl⟩
  · dsimp only
    split
    · next hempty =>
      refine ⟨fun h => ?_, fun h => absurd (List.isEmpty_iff.mp hempty) h.1⟩
      contradiction
    · next hne =>
      have hne : rules ≠ [] := fun heq => hne (List.isEmpty_iff.mpr heq)
      rw [foldlM_onLine, foldlM_insert_eq_ok, List.forall_mem_map]
      simp [hne, empty]

/-- A grammar of rules that can be written is read back from its printed form, without the schema rules
behind its own. -/
theorem read_text (hs : s.Valid) (hne : s.rules ≠ #[]) (hwritable : ∀ r ∈ s.rules, r.Writable) :
    read s.text = .ok ⟨s.rules.map Rule.detached⟩ := by
  refine read_eq_ok.mpr ⟨s.rules.toList.zipIdx.map fun (r, n) => (n + 1, r.detached), ?_, ?_, ?_, ?_⟩
  · rw [statements_text hwritable, List.forall₂_map_left_iff, List.forall₂_map_right_iff,
      List.forall₂_same]
    intro (r, n) hmem
    have hr : r ∈ s.rules := Array.mem_toList_iff.mp (List.fst_mem_of_mem_zipIdx hmem)
    exact ⟨rfl, Rule.read_text (hwritable r hr) (hs r hr).wellFormed.rhs_ne_nil⟩
  · simpa using hne
  · refine List.forall_mem_map.mpr fun (r, n) hmem => ?_
    exact (hs r (Array.mem_toList_iff.mp (List.fst_mem_of_mem_zipIdx hmem))).detached
  · have hrules := congrArg (List.map Rule.detached) (List.zipIdx_map_fst 0 s.rules.toList)
    rw [List.map_map] at hrules
    refine congrArg Schema.mk (Array.toList_inj.mp ?_)
    rw [Array.toList_map, List.map_map]
    exact hrules.symm

/-- What was read is a valid grammar with a rule, and each of its rules can be written and has no schema
rule behind it. -/
theorem of_read {source : String} (h : read source = .ok s) :
    s.Valid ∧ s.rules ≠ #[] ∧ ∀ r ∈ s.rules, r.Writable ∧ r.detached = r := by
  obtain ⟨rules, hread, hne, hproper, rfl⟩ := read_eq_ok.mp h
  have hmem : ∀ r ∈ (rules.map Prod.snd).toArray, ∃ entry ∈ rules, entry.2 = r := fun r hr =>
    List.mem_map.mp (List.mem_toArray.mp hr)
  refine ⟨fun r hr => ?_, by simpa using hne, fun r hr => ?_⟩
  · obtain ⟨entry, hentry, rfl⟩ := hmem r hr
    exact hproper entry hentry
  · obtain ⟨entry, hentry, rfl⟩ := hmem r hr
    obtain ⟨n, hn, rfl⟩ := List.getElem_of_mem hentry
    have hstatement := hread.get (by rwa [hread.length_eq]) hn
    exact Rule.of_read hstatement.2

/-- A schema grammar whose categories a source file can name is read back from its printed form with the
same productions under the same numbers. And whatever was read from a source text is read back from its
printed form as it is, so that comments, blank lines, spaces, empty brackets and written-out empty
categories leave no trace. -/
theorem reading_inverts_printing :
    (∀ (rules : List Rule) (s : Schema), rules ≠ [] → ofRules rules = .ok s →
      (∀ r ∈ rules, ∀ c ∈ r.lhs :: r.rhs, c.Writable) →
      ∃ back, read s.text = .ok back ∧ back.size = rules.length ∧
        ∀ n : Nat, back.rules[n]?.map (fun r => (r.lhs, r.rhs)) = rules[n]?.map fun r => (r.lhs, r.rhs)) ∧
    ∀ (source : String) (s : Schema), read source = .ok s → read s.text = .ok s := by
  constructor
  · intro rules s hne hrules hwritable
    obtain ⟨hproper, rfl⟩ := ofRules_eq_ok.mp hrules
    have hread := read_text (valid_ofRules hrules) (by simpa using hne)
      fun r hr => hwritable r (List.mem_toArray.mp hr)
    refine ⟨_, hread, by simp [size], fun n => ?_⟩
    simp [Rule.detached, Function.comp_def]
  · intro source s hsource
    obtain ⟨hvalid, hne, hrules⟩ := of_read hsource
    have hread := read_text hvalid hne fun r hr => (hrules r hr).1
    have hdetached : s.rules.map Rule.detached = s.rules := by
      refine (Array.map_congr_left fun r hr => (hrules r hr).2).trans ?_
      exact Array.map_id' s.rules
    rwa [hdetached] at hread

end Schema

/-- A source text with a comment, uneven spaces, empty brackets and a written-out empty category. -/
def Sample.source : String :=
  "# lists\n\n  S[] ->T[ x ]\n\tT[*]-> n[] T[*.x]  \n- ->Epsilon"

/-- Counted lists are read back from their printed form, and so is the grammar of a source text. -/
theorem Schema.reading_inverts_printing_counted :
    (∃ back, read Sample.counted.text = .ok back ∧ back.size = 3) ∧
      ∃ s, read Sample.source = .ok s ∧ s.size = 3 ∧ read s.text = .ok s := by
  have hwritable : ∀ r ∈ Sample.counted.rules.toList, ∀ c ∈ r.lhs :: r.rhs, c.Writable := by
    have hall : ∀ r ∈ Sample.counted.rules.toList, ∀ c ∈ r.lhs :: r.rhs,
        (c.name ≠ "" ∧ c.name.toList.all Source.isNameChar = true) ∧
          c.stack.toList.all Source.isStackChar = true := by
      decide +kernel
    intro r hr c hc
    obtain ⟨⟨hne, hname⟩, hstack⟩ := hall r hr c hc
    exact ⟨⟨hne, List.all_eq_true.mp hname⟩, List.all_eq_true.mp hstack⟩
  obtain ⟨back, hback, hsize, -⟩ :=
    reading_inverts_printing.1 _ _ (by decide) Sample.ofRules_counted hwritable
  have hthree : (read Sample.source).toOption.any (fun s => s.size = 3) = true := by decide +kernel
  obtain ⟨s, hs, hkeeps⟩ := Sample.exists_ok_of_any hthree
  exact ⟨⟨back, hback, hsize⟩, s, hs, of_decide_eq_true hkeeps, reading_inverts_printing.2 _ s hs⟩

end IndexedGrammar
