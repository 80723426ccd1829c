import IndexedGrammar.Chart.Basic
import IndexedGrammar.Tree
import Mathlib.Data.List.Forall2

/-!
# Parses

A parse derives a sequence of parts of speech from a category. It has a rule at every node and a part of
speech at every leaf; parts of speech and the empty category are not expanded any further. A parse is
shown as a tree in which the words stand for the parts of speech and empty parts are left out.
-/

namespace IndexedGrammar

/-- A derivation from a category. -/
inductive Parse where
  /-- A part of speech, which stands for one word. -/
  | word (category : Category)
  /-- The empty category, which stands for nothing. -/
  | nothing
  /-- A category to which a rule is applied, with a parse for each symbol of the rule. -/
  | apply (category : Category) (rule : Nat) (parts : List Parse)

namespace Parse

/-- Whether the parse is that of the empty category. -/
def isNothing : Parse → Bool
  | nothing => true
  | _ => false

mutual

/-- The parts of speech at the leaves, from left to right. -/
def yield : Parse → List Category
  | word category => [category]
  | nothing => []
  | apply _ _ parts => yields parts

/-- The parts of speech at the leaves of several parses. -/
def yields : List Parse → List Category
  | [] => []
  | parse :: rest => parse.yield ++ yields rest

end

mutual

/-- The tree that shows a parse from a position on, given the words that are known. -/
def tree (word? : Nat → Option String) : Nat → Parse → Tree Category String
  | start, word category => .leaf ((word? start).getD category.text) ⟨start, start + 1⟩
  | start, nothing => .branch Category.epsilon ⟨start, start⟩ []
  | start, apply category _ parts =>
    .branch category ⟨start, start + (yields parts).length⟩ (trees word? start parts)

/-- The trees that show the parses of a rule's symbols, side by side. Empty parts do not show. -/
def trees (word? : Nat → Option String) : Nat → List Parse → List (Tree Category String)
  | _, [] => []
  | start, parse :: rest =>
    if parse.isNothing then trees word? (start + parse.yield.length) rest
    else parse.tree word? start :: trees word? (start + parse.yield.length) rest

end

end Parse

namespace Grammar

mutual

/-- Whether something is a parse of a category by the rules in use. -/
def IsParse (g : Grammar) : Category → Parse → Prop
  | category, .word partOfSpeech =>
    partOfSpeech = category ∧ category.isEpsilon = false ∧ g.isPartOfSpeech category = true
  | category, .nothing => category.isEpsilon = true
  | category, .apply lhs rule parts =>
    lhs = category ∧ g.isNonterminal category = true ∧
      ∃ r, (rule, r) ∈ g.rules ∧ r.lhs = category ∧ AreParses g r.rhs parts

/-- Whether several things are parses of as many categories. -/
def AreParses (g : Grammar) : List Category → List Parse → Prop
  | [], [] => True
  | category :: categories, parse :: parses =>
    IsParse g category parse ∧ AreParses g categories parses
  | _, _ => False

end

end Grammar

/-- A sequence of parts of speech can be found from a position on, before the last column. -/
structure Input.Fits (input : Input) (last start : Nat) (yield : List Category) : Prop where
  le_last : start + yield.length ≤ last
  allows : ∀ i c, yield[i]? = some c → input.allows (start + i) c = true

variable {g : Grammar} {input : Input} {last start : Nat}

/-- Nothing can be found anywhere up to the last column. -/
theorem Input.fits_nil (h : start ≤ last) : input.Fits last start [] :=
  ⟨h, fun i c hc => absurd hc (by simp)⟩

/-- One part of speech can be found where it is allowed. -/
theorem Input.fits_singleton {c : Category} :
    input.Fits last start [c] ↔ start < last ∧ input.allows start c = true := by
  constructor
  · intro h
    exact ⟨h.le_last, h.allows 0 c rfl⟩
  · intro hgiven
    obtain ⟨hlast, hallows⟩ := hgiven
    refine ⟨hlast, fun i d hd => ?_⟩
    cases i with
    | zero => simpa [← Option.some.inj hd] using hallows
    | succ i => simp at hd

/-- A sequence can be found if its parts can be found one behind the other. -/
theorem Input.fits_append {as bs : List Category} : input.Fits last start (as ++ bs) ↔
    input.Fits last start as ∧ input.Fits last (start + as.length) bs := by
  constructor
  · intro h
    have hlast := h.le_last
    rw [List.length_append] at hlast
    refine ⟨⟨by omega, fun i c hc => ?_⟩, ⟨by omega, fun i c hc => ?_⟩⟩
    · have hi := (List.getElem?_eq_some_iff.mp hc).1
      exact h.allows i c (by rw [List.getElem?_append_left hi, hc])
    · rw [Nat.add_assoc]
      refine h.allows (as.length + i) c ?_
      rw [List.getElem?_append_right (Nat.le_add_right _ _), Nat.add_sub_cancel_left, hc]
  · intro hgiven
    obtain ⟨has, hbs⟩ := hgiven
    refine ⟨?_, fun i c hc => ?_⟩
    · have hlast := hbs.le_last
      rw [List.length_append]
      omega
    · by_cases hi : i < as.length
      · rw [List.getElem?_append_left hi] at hc
        exact has.allows i c hc
      · rw [List.getElem?_append_right (Nat.not_lt.mp hi)] at hc
        have hallows := hbs.allows _ c hc
        rwa [Nat.add_assoc, Nat.add_sub_cancel' (Nat.not_lt.mp hi)] at hallows

/-- What is found at the leaves of parses one behind the other. -/
theorem Parse.yields_append (as bs : List Parse) : yields (as ++ bs) = yields as ++ yields bs := by
  induction as with
  | nil => simp [yields]
  | cons a as ih => simp [yields, ih]

/-- What is found at the leaves of a single parse. -/
theorem Parse.yields_singleton (t : Parse) : yields [t] = t.yield := by
  simp [yields]

/-- Parses of categories one behind the other. -/
theorem Grammar.areParses_append {cs ds : List Category} {ts us : List Parse} (hts : g.AreParses cs ts)
    (hus : g.AreParses ds us) : g.AreParses (cs ++ ds) (ts ++ us) := by
  induction cs generalizing ts with
  | nil =>
    cases ts with
    | nil => exact hus
    | cons t ts => simp [AreParses] at hts
  | cons c cs ih =>
    cases ts with
    | nil => simp [AreParses] at hts
    | cons t ts =>
      simp only [AreParses, List.cons_append] at hts ⊢
      exact ⟨hts.1, ih hts.2⟩

/-- A parse is that of the empty category exactly if the category is empty. -/
theorem Grammar.IsParse.isNothing_eq {c : Category} {t : Parse} (h : g.IsParse c t) :
    t.isNothing = c.isEpsilon := by
  cases t with
  | word d =>
    simp only [IsParse] at h
    exact h.2.1.symm
  | nothing =>
    simp only [IsParse] at h
    exact h.symm
  | apply d rule parts =>
    simp only [IsParse, isNonterminal, Bool.and_eq_true, Bool.not_eq_true'] at h
    exact h.2.1.1.symm

end IndexedGrammar
