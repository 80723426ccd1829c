import IndexedGrammar.Lexicon
import IndexedGrammar.Proofs.Grammar.Rewriting
import IndexedGrammar.Proofs.Parse.Basic
import Mathlib.Data.Set.Finite.Lattice
import Mathlib.Data.Finite.Prod

/-!
# Finitely many parses

The parses of a rule's symbols cover parts of what the rule covers. A part that covers all of it leaves
nothing for the others, so its category is one unit step away. Where unit steps lead to lower ranks, every
part is smaller than the whole, in length or in rank, so a category has finitely many parses of a given
sequence.
-/

namespace IndexedGrammar

variable {α β : Type}

/-- What holds of two elements at the same place of related lists, the lists around them being related,
holds at every place. -/
theorem forall₂_of_split {related goal : α → β → Prop} {as : List α} {bs : List β}
    (h : List.Forall₂ related as bs)
    (hsplit : ∀ as₁ a as₂ bs₁ b bs₂, as = as₁ ++ a :: as₂ → bs = bs₁ ++ b :: bs₂ →
      List.Forall₂ related as₁ bs₁ → related a b → List.Forall₂ related as₂ bs₂ → goal a b) :
    List.Forall₂ goal as bs := by
  induction h with
  | nil => exact .nil
  | @cons a b as bs hab hrest ih =>
    refine .cons (hsplit [] a as [] b bs rfl rfl .nil hab hrest) (ih ?_)
    intro as₁ a' as₂ bs₁ b' bs₂ has hbs hbefore hab' hafter
    exact hsplit (a :: as₁) a' as₂ (b :: bs₁) b' bs₂ (by rw [has, List.cons_append])
      (by rw [hbs, List.cons_append]) (.cons hab hbefore) hab' hafter

/-- If finitely many elements are related to each element of a list, finitely many lists are related to
the list. -/
theorem finite_forall₂ {related : α → β → Prop} {as : List α} (h : ∀ a ∈ as, {b | related a b}.Finite) :
    {bs | List.Forall₂ related as bs}.Finite := by
  induction as with
  | nil => simp
  | cons a as ih =>
    have hrest := ih fun other hother => h other (List.mem_cons_of_mem _ hother)
    refine (Set.Finite.image2 List.cons (h a List.mem_cons_self) hrest).subset fun bs hbs => ?_
    obtain ⟨b, rest, hb, hforall, rfl⟩ := List.forall₂_cons_left_iff.mp hbs
    exact ⟨b, hb, rest, hforall, rfl⟩

namespace Grammar

variable {g : Grammar} {c : Category} {t : Parse} {id : Nat} {r : Rule} {cs : List Category}
  {ts : List Parse}

/-- Parses of categories are parses of each of them. -/
theorem areParses_iff_forall₂ : g.AreParses cs ts ↔ List.Forall₂ g.IsParse cs ts := by
  induction cs generalizing ts with
  | nil => cases ts <;> simp [AreParses]
  | cons c cs ih => cases ts <;> simp [AreParses, ih]

/-- The empty category has one parse. -/
theorem IsParse.eq_nothing (h : g.IsParse c t) (hempty : c.isEpsilon = true) : t = .nothing := by
  have hnothing := h.isNothing_eq.trans hempty
  cases t with
  | nothing => rfl
  | word => contradiction
  | apply => contradiction

mutual

/-- A category with a parse that covers nothing can be rewritten to nothing. -/
theorem IsParse.vanishes {c : Category} : (t : Parse) → g.IsParse c t → t.yield = [] → g.Vanishes c
  | .word _, _, hyield => absurd hyield (List.cons_ne_nil _ _)
  | .nothing, h, _ => .epsilon (by rwa [IsParse] at h)
  | .apply lhs rule parts, h, hyield => by
    rw [IsParse] at h
    obtain ⟨-, -, r, hr, rfl, hparts⟩ := h
    exact .rule hr (AreParses.vanishes parts hparts hyield)

/-- Categories with parses that cover nothing can be rewritten to nothing. -/
theorem AreParses.vanishes {cs : List Category} : (ts : List Parse) → g.AreParses cs ts →
    Parse.yields ts = [] → ∀ c ∈ cs, g.Vanishes c
  | [], h, _ => by
    cases cs with
    | nil => exact fun c hc => absurd hc List.not_mem_nil
    | cons c cs => simp [AreParses] at h
  | t :: ts, h, hyields => by
    rw [Parse.yields, List.append_eq_nil_iff] at hyields
    cases cs with
    | nil => simp [AreParses] at h
    | cons c cs =>
      rw [AreParses] at h
      exact List.forall_mem_cons.mpr
        ⟨IsParse.vanishes t h.1 hyields.1, AreParses.vanishes ts h.2 hyields.2⟩

end

/-- A parse of one symbol of a rule, as part of parses that cover some sequence: it is empty, or it covers
less, or it covers the same and its category is one unit step away. -/
structure Part (g : Grammar) (lhs : Category) (whole : List Category) (c : Category) (t : Parse) :
    Prop where
  isParse : g.IsParse c t
  within : t.yield <:+: whole
  smaller : c.isEpsilon = true ∨ t.yield.length < whole.length ∨
    t.yield.length = whole.length ∧ g.UnitStep lhs c

/-- The parses of a rule's symbols are parts of what they cover. -/
theorem parts_of_areParses (hr : (id, r) ∈ g.rules) (h : g.AreParses r.rhs ts) :
    List.Forall₂ (g.Part r.lhs (Parse.yields ts)) r.rhs ts := by
  refine forall₂_of_split (areParses_iff_forall₂.mp h) ?_
  intro before c after ts₁ t ts₂ hrhs hts hbefore ht hafter
  have hyields : Parse.yields ts = Parse.yields ts₁ ++ t.yield ++ Parse.yields ts₂ := by
    rw [hts, Parse.yields_append, Parse.yields, List.append_assoc]
  have hwithin : t.yield <:+: Parse.yields ts := ⟨_, _, hyields.symm⟩
  refine ⟨ht, hwithin, ?_⟩
  cases hempty : c.isEpsilon with
  | true => exact .inl rfl
  | false =>
    refine .inr (hwithin.length_le.lt_or_eq.imp_right fun hlength => ⟨hlength, hempty, id, r, before,
      after, hr, rfl, hrhs, ?_⟩)
    -- a part as long as the whole leaves nothing to the parts beside it
    have hnil : Parse.yields ts₁ = [] ∧ Parse.yields ts₂ = [] := by
      rw [hyields, List.length_append, List.length_append] at hlength
      exact ⟨List.length_eq_zero_iff.mp (by omega), List.length_eq_zero_iff.mp (by omega)⟩
    intro d hd
    rcases List.mem_append.mp hd with hd | hd
    · exact AreParses.vanishes ts₁ (areParses_iff_forall₂.mpr hbefore) hnil.1 d hd
    · exact AreParses.vanishes ts₂ (areParses_iff_forall₂.mpr hafter) hnil.2 d hd

/-- A sequence of parts of speech has finitely many parses as a category, if unit steps lead to lower
ranks. -/
theorem finite_parses {rank : Category → Nat} (hrank : ∀ a b, g.UnitStep a b → rank b < rank a)
    (c : Category) (whole : List Category) : {t | g.IsParse c t ∧ t.yield = whole}.Finite := by
  -- by the length of what is covered, and for one length by rank
  have ih (d : Category) (covered : List Category) (hless : covered.length < whole.length ∨
      covered.length = whole.length ∧ rank d < rank c) :
      {t | g.IsParse d t ∧ t.yield = covered}.Finite := finite_parses hrank d covered
  have hpart (d : Category) : {t | g.Part c whole d t}.Finite := by
    have hcovered : {covered : List Category | covered <:+: whole ∧ (covered.length < whole.length ∨
        covered.length = whole.length ∧ rank d < rank c)}.Finite :=
      (List.finite_toSet whole.sublists).subset fun _ h => List.mem_sublists.mpr h.1.sublist
    refine ((Set.finite_singleton .nothing).union
      (hcovered.biUnion fun covered h => ih d covered h.2)).subset fun t ht => ?_
    rcases ht.smaller with hempty | hless
    · exact .inl (ht.isParse.eq_nothing hempty)
    · refine .inr (Set.mem_biUnion ⟨ht.within, ?_⟩ ⟨ht.isParse, rfl⟩)
      exact hless.imp_right (And.imp_right (hrank c d))
  have hparts (numbered : Nat × Rule) :
      {ts | List.Forall₂ (g.Part c whole) numbered.2.rhs ts}.Finite :=
    finite_forall₂ fun d _ => hpart d
  refine ((Set.toFinite {.word c, .nothing}).union ((List.finite_toSet g.rules).biUnion
    fun numbered _ => (hparts numbered).image (Parse.apply c numbered.1))).subset fun t ht => ?_
  obtain ⟨hparse, rfl⟩ := ht
  cases t with
  | word d =>
    rw [IsParse] at hparse
    exact .inl (.inl (by rw [hparse.1]))
  | nothing => exact .inl (.inr rfl)
  | apply lhs rule parts =>
    rw [IsParse] at hparse
    obtain ⟨rfl, -, r, hr, hlhs, hparses⟩ := hparse
    refine .inr (Set.mem_biUnion hr ⟨parts, ?_, rfl⟩)
    have hforall := parts_of_areParses hr hparses
    rwa [hlhs] at hforall
termination_by (whole.length, rank c)
decreasing_by
  rcases hless with hlt | ⟨heq, hlt⟩
  · exact Prod.Lex.left _ _ hlt
  · rw [heq]
    exact Prod.Lex.right _ hlt

/-- A sentence has finitely many parses, if unit steps lead to lower ranks. -/
theorem finite_sentence_parses {rank : Category → Nat} (hrank : ∀ a b, g.UnitStep a b → rank b < rank a)
    (c : Category) (lexicon : Lexicon) (words : List String) :
    {t | g.IsParse c t ∧ List.Forall₂ (fun category word => category ∈ lexicon.categories word) t.yield
      words}.Finite := by
  have hyields : {categories | List.Forall₂ (fun word category => category ∈ lexicon.categories word)
      words categories}.Finite :=
    finite_forall₂ fun word _ => List.finite_toSet (lexicon.categories word)
  refine (hyields.biUnion fun categories _ => finite_parses hrank c categories).subset fun t ht => ?_
  exact Set.mem_biUnion ht.2.flip ⟨ht.1, rfl⟩

end Grammar

end IndexedGrammar
