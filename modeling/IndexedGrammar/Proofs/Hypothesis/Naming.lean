import IndexedGrammar.Proofs.Hypothesis.Canonical
import Mathlib.Logic.Equiv.Basic

/-!
# Hypotheses that differ in the naming of nonterminals

Over parts of speech that can stand on a stack, every hypothesis has a canonical form, and every permutation
of the nonterminals gives a hypothesis of the renamed rules. Its canonical form is the same if the
permutation keeps the order of related rules, and not in general.
-/

namespace IndexedGrammar

namespace Sample

/-- The rule space over nouns and some nonterminals. -/
def nounSpace (nonterminals : Nat) : RuleSpace :=
  .new (Std.ExtTreeSet.ofList ["N"]) { maxNonterminals := nonterminals }

/-- The first two nonterminals change places. -/
def swapped : Equiv.Perm String :=
  .swap "X1" "X2"

/-- The second nonterminal is a noun and the first one with a noun pushed, which the first one pops. -/
def stacked : Hypothesis :=
  .ofList [⟨.constant, 1, 0⟩, ⟨.push, 1, 0⟩, ⟨.constant, 0, 1⟩, ⟨.pop, 0, 3⟩]

/-- The second nonterminal is the first one and a noun, or itself and the third one. -/
def branching : Hypothesis :=
  .ofList [⟨.constant, 1, 0⟩, ⟨.constant, 1, 9⟩, ⟨.constant, 1, 16⟩]

/-- Swapping the first two nonterminals keeps what is no nonterminal. -/
theorem swapped_eq_self {nonterminals : Nat} {name : String} (hnonterminals : 2 ≤ nonterminals)
    (hname : Category.bare name ∉ (nounSpace nonterminals).nonterminals) : swapped name = name := by
  have hmem {i : Nat} (hi : i < 2) :
      RuleSpace.nonterminal (i + 1) ∈ (nounSpace nonterminals).nonterminals :=
    (RuleSpace.mem_nonterminals_new _ _).mpr ⟨i, hi.trans_le hnonterminals, rfl⟩
  refine Equiv.swap_apply_of_ne_of_ne (fun heq => hname ?_) fun heq => hname ?_
  · subst heq
    exact hmem (by decide : 0 < 2)
  · subst heq
    exact hmem (by decide : 1 < 2)

/-- The only part of speech can stand on a stack. -/
theorem isSymbol_noun : ∀ name ∈ Std.ExtTreeSet.ofList ["N"], Stack.IsSymbol name := by
  intro name hname
  rw [Std.ExtTreeSet.mem_ofList, List.contains_iff_mem, List.mem_singleton] at hname
  exact hname ▸ ⟨by decide, by decide, by decide⟩

end Sample

namespace Hypothesis

variable {space : RuleSpace} {h : Hypothesis} {σ : Equiv.Perm String}

/-- A permutation of the nonterminals takes them to nonterminals. -/
theorem renames_perm (hspace : space.Regular)
    (hσ : ∀ name, Category.bare name ∉ space.nonterminals → σ name = name) : space.Renames σ where
  nonterminal x hx := by
    rw [hspace.renamed_of_mem hx]
    by_contra hnew
    have hname : σ x.name = x.name := σ.injective (hσ (σ x.name) hnew)
    rw [hname, ← hspace.bare_of_mem hx] at hnew
    exact hnew hx
  other := hσ

/-- A permutation of names keeps every vocabulary apart. -/
theorem injOn_perm (hspace : space.Regular) (rules : List Rule) :
    Set.InjOn (·.renamed σ) (vocabulary space rules) := by
  intro x hx y hy heq
  have hname : x.name = y.name := σ.injective (congrArg Category.name heq)
  rw [bare_of_mem_vocabulary hspace hx, hname, ← bare_of_mem_vocabulary hspace hy]

/-- A hypothesis has a canonical form, which has the same rules with nonterminals renamed and kept apart. It is
the canonical form of the hypothesis with its nonterminals permuted, if the order of related rules is kept, and
its own if canonical naming keeps that order. -/
theorem canonicalize_renamed {partsOfSpeech : Std.ExtTreeSet String} {settings : Settings}
    (hspace : space = .new partsOfSpeech settings)
    (hleaves : ∀ name ∈ partsOfSpeech, Stack.IsSymbol name)
    (hstart : space.start ∉ space.nonterminals) (hover : h.Over space)
    (hσ : ∀ name, Category.bare name ∉ space.nonterminals → σ name = name) :
    ∃ canonical, h.canonicalize space = .ok canonical ∧
      h.IsRenaming space (canonicalNames space (h.ruleList space)) canonical ∧
      Set.InjOn (·.renamed (canonicalNames space (h.ruleList space)))
        (vocabulary space (h.ruleList space)) ∧
      h.IsRenaming space σ (h.renamed space σ) ∧
      (KeepsOrder space (h.ruleList space) σ →
        (h.renamed space σ).canonicalize space = .ok canonical) ∧
      (KeepsOrder space (h.ruleList space) (canonicalNames space (h.ruleList space)) →
        canonical.canonicalize space = .ok canonical) := by
  have hregular : space.Regular := by
    subst hspace
    exact RuleSpace.regular_new hleaves hstart
  have hnames : space.Renames σ := renames_perm hregular hσ
  have hcanonical := canonicalize_eq hregular hover
  refine ⟨_, hcanonical, isRenaming_renamed (renames_canonicalNames hregular) hregular,
    injOn_canonicalNames hregular, isRenaming_renamed hnames hregular, fun hkeeps => ?_, fun hkeeps => ?_⟩
  · rw [← hcanonical]
    exact canonicalize_renamed_of_injOn hnames hregular (injOn_perm hregular _) hkeeps hover
  · rw [← hcanonical]
    exact canonicalize_renamed_of_injOn (renames_canonicalNames hregular) hregular
      (injOn_canonicalNames hregular) hkeeps hover

/-- Where the rules of a nonterminal differ in what they do to the stack, swapping nonterminals changes the
hypothesis and not its canonical form. -/
theorem canonicalize_renamed_stacked : ∃ canonical,
    Sample.stacked.renamed (Sample.nounSpace 2) Sample.swapped ≠ Sample.stacked ∧
      Sample.stacked.canonicalize (Sample.nounSpace 2) = .ok canonical ∧
      (Sample.stacked.renamed (Sample.nounSpace 2) Sample.swapped).canonicalize (Sample.nounSpace 2) =
        .ok canonical ∧
      canonical.canonicalize (Sample.nounSpace 2) = .ok canonical := by
  obtain ⟨canonical, hcanonical, -, -, -, hrenamed, hagain⟩ := canonicalize_renamed
    (rfl : Sample.nounSpace 2 = .new (Std.ExtTreeSet.ofList ["N"]) { maxNonterminals := 2 })
    Sample.isSymbol_noun (by decide +kernel) (by decide +kernel : Sample.stacked.Over _)
    fun _ => Sample.swapped_eq_self (Nat.le_refl 2)
  exact ⟨canonical, by decide +kernel, hcanonical, hrenamed (by decide +kernel), hagain (by decide +kernel)⟩

/-- The canonical form can depend on the naming: with two rules for one nonterminal, renaming can change
which one of them comes first. The canonical form then need not be its own canonical form. -/
theorem exists_canonicalize_ne : ∃ (h : Hypothesis) (σ : Equiv.Perm String),
    (∀ name, Category.bare name ∉ (Sample.nounSpace 3).nonterminals → σ name = name) ∧
      h.Over (Sample.nounSpace 3) ∧
      h.canonicalize (Sample.nounSpace 3) = .ok (h.renamed (Sample.nounSpace 3) σ) ∧
      (h.renamed (Sample.nounSpace 3) σ).canonicalize (Sample.nounSpace 3) ≠
        .ok (h.renamed (Sample.nounSpace 3) σ) :=
  ⟨Sample.branching, Sample.swapped, fun _ => Sample.swapped_eq_self (by decide), by decide +kernel,
    by decide +kernel, by decide +kernel⟩

end Hypothesis

end IndexedGrammar
