import IndexedGrammar.Proofs.Choices
import IndexedGrammar.Proofs.Grammar.Changes
import IndexedGrammar.Proofs.Parse.Finite
import Mathlib.Algebra.Polynomial.Coeff
import Mathlib.Data.Set.Card

/-!
# Derivations up to a height

A derivation takes any rule in use, the synthetic one too; words and the empty category have height 0, and
every rule adds one level. There are finitely many derivations up to a height, and they are listed by
recursion on it. Their polynomial counts them by the length of what they cover: alternatives add, and
derivations side by side multiply.
-/

namespace IndexedGrammar

open Polynomial

namespace Parse

mutual

/-- How many rules are applied on the longest way down. -/
def height : Parse → Nat
  | word _ => 0
  | nothing => 0
  | apply _ _ parts => heights parts + 1

/-- The height of the tallest of several parses. -/
def heights : List Parse → Nat
  | [] => 0
  | parse :: rest => max parse.height (heights rest)

end

/-- Parses related to the elements of a list are no taller than a bound if each of them is not. -/
theorem forall₂_height_le {α : Type} {related : α → Parse → Prop} {as : List α} {ts : List Parse}
    {depth : Nat} : List.Forall₂ (fun a t => related a t ∧ t.height ≤ depth) as ts ↔
      List.Forall₂ related as ts ∧ heights ts ≤ depth := by
  induction as generalizing ts with
  | nil => cases ts <;> simp [heights]
  | cons a as ih =>
    cases ts with
    | nil => simp
    | cons t ts =>
      rw [List.forall₂_cons, List.forall₂_cons, ih, heights, Nat.max_le]
      exact and_and_and_comm

/-- The greatest of some numbers and a starting value. -/
theorem foldl_max_eq (n : Nat) (ns : List Nat) : ns.foldl max n = max n (ns.foldl max 0) := by
  have h : ns.foldl max (max n 0) = max n (ns.foldl max 0) := List.foldl_assoc
  rwa [Nat.max_zero] at h

mutual

/-- A tree is as tall as the parse that it shows, if the parse shows. -/
theorem height_tree (word? : Nat → Option String) : (t : Parse) → (start : Nat) → t.isNothing = false →
    (t.tree word? start).height = t.height
  | word _, _, _ => by rw [tree, Tree.height, height]
  | apply _ _ parts, start, _ => by rw [tree, Tree.height, height_trees word? parts start, height]

/-- The trees of parses side by side are as tall as the parses. -/
theorem height_trees (word? : Nat → Option String) : (ts : List Parse) → (start : Nat) →
    ((trees word? start ts).map Tree.height).foldl max 0 = heights ts
  | [], _ => rfl
  | t :: ts, start => by
    have hrest := height_trees word? ts (start + t.yield.length)
    rw [trees, heights]
    cases hnothing : t.isNothing with
    | true =>
      -- the empty category has height 0
      have hzero : t.height = 0 := by
        cases t with
        | nothing => rfl
        | word => contradiction
        | apply => contradiction
      rw [if_pos rfl, hrest, hzero, Nat.zero_max]
    | false =>
      rw [if_neg Bool.false_ne_true, List.map_cons, List.foldl_cons, foldl_max_eq, Nat.zero_max,
        height_tree word? t start hnothing, hrest]

end

end Parse

namespace Grammar

/-- Whether something is a derivation from a category by the rules in use, the synthetic rule among them. -/
inductive IsDerivation (g : Grammar) : Category → Parse → Prop
  | word {c : Category} : c.isEpsilon = false → g.isPartOfSpeech c = true → IsDerivation g c (.word c)
  | nothing {c : Category} : c.isEpsilon = true → IsDerivation g c .nothing
  | apply {id : Nat} {r : Rule} {parts : List Parse} : g.isNonterminal r.lhs = true → g.HasRule id r →
      List.Forall₂ (IsDerivation g) r.rhs parts → IsDerivation g r.lhs (.apply r.lhs id parts)

/-- Whether a derivation begins with a rule. -/
def BeginsWith (g : Grammar) (id : Nat) (r : Rule) (t : Parse) : Prop :=
  ∃ parts, List.Forall₂ g.IsDerivation r.rhs parts ∧ t = .apply r.lhs id parts

variable {g : Grammar}

/-- The derivations of a nonterminal begin with its rules. -/
theorem isDerivation_iff_beginsWith {c : Category} (hsymbol : g.isNonterminal c = true) {t : Parse} :
    g.IsDerivation c t ↔ ∃ id r, g.HasRule id r ∧ r.lhs = c ∧ g.BeginsWith id r t := by
  obtain ⟨hempty, hpos⟩ := isNonterminal_iff.mp hsymbol
  constructor
  · intro h
    cases h with
    | word _ hpos' => exact absurd (hpos.symm.trans hpos') Bool.false_ne_true
    | nothing hempty' => exact absurd (hempty.symm.trans hempty') Bool.false_ne_true
    | @apply id r parts _ hr hparts => exact ⟨id, r, hr, rfl, parts, hparts, rfl⟩
  · intro hgiven
    obtain ⟨id, r, hr, rfl, parts, hparts, rfl⟩ := hgiven
    exact .apply hsymbol hr hparts

mutual

/-- Derivations carry over to a grammar that has the rules which derive something. -/
theorem IsDerivation.of_rules {h : Grammar} (hpos : h.partsOfSpeech = g.partsOfSpeech)
    (hrules : ∀ id r parts, g.HasRule id r → List.Forall₂ g.IsDerivation r.rhs parts → h.HasRule id r) :
    (t : Parse) → {c : Category} → g.IsDerivation c t → h.IsDerivation c t
  | .word _, _, ht => by
    cases ht with
    | word hempty hword => exact .word hempty (by rwa [isPartOfSpeech, hpos])
  | .nothing, _, ht => by
    cases ht with
    | nothing hempty => exact .nothing hempty
  | .apply _ _ parts, _, ht => by
    cases ht with
    | apply hsymbol hr hparts =>
      refine .apply ?_ (hrules _ _ parts hr hparts) (areDerivations_of_rules hpos hrules parts hparts)
      rwa [isNonterminal, isPartOfSpeech, hpos]

/-- The same of several derivations. -/
theorem areDerivations_of_rules {h : Grammar} (hpos : h.partsOfSpeech = g.partsOfSpeech)
    (hrules : ∀ id r parts, g.HasRule id r → List.Forall₂ g.IsDerivation r.rhs parts → h.HasRule id r) :
    (ts : List Parse) → {cs : List Category} → List.Forall₂ g.IsDerivation cs ts →
      List.Forall₂ h.IsDerivation cs ts
  | [], _, .nil => .nil
  | t :: ts, _, .cons ht hts => .cons (ht.of_rules hpos hrules t) (areDerivations_of_rules hpos hrules ts hts)

end

/-! Listing derivations -/

/-- The derivations of height 0. -/
def flatDerivations (g : Grammar) (c : Category) : List Parse :=
  if c.isEpsilon then [.nothing] else if g.isPartOfSpeech c then [.word c] else []

/-- The derivations that begin with a rule, given those of each category. -/
def applied (derivations : Category → List Parse) (id : Nat) (r : Rule) : List Parse :=
  ((r.rhs.map derivations).sections).map (.apply r.lhs id)

/-- The derivations of a category up to a height. -/
def derivations (g : Grammar) : Nat → Category → List Parse
  | 0, c => g.flatDerivations c
  | depth + 1, c =>
    if g.isNonterminal c then (g.rulesFor c).flatMap fun (id, r) => applied (g.derivations depth) id r
    else g.flatDerivations c

/-- The derivations that begin with a rule, up to a height. -/
def derivationsBy (g : Grammar) (id : Nat) (r : Rule) : Nat → List Parse
  | 0 => []
  | depth + 1 => applied (g.derivations depth) id r

/-- Only words and the empty category have derivations of height 0. -/
theorem mem_flatDerivations {c : Category} {t : Parse} :
    t ∈ g.flatDerivations c ↔ g.IsDerivation c t ∧ t.height = 0 := by
  unfold flatDerivations
  constructor
  · intro h
    split at h
    · next hempty =>
      obtain rfl := List.mem_singleton.mp h
      exact ⟨.nothing hempty, rfl⟩
    · next hempty =>
      split at h
      · next hpos =>
        obtain rfl := List.mem_singleton.mp h
        exact ⟨.word (Bool.eq_false_iff.mpr hempty) hpos, rfl⟩
      · exact absurd h List.not_mem_nil
  · intro hgiven
    obtain ⟨h, hheight⟩ := hgiven
    cases h with
    | word hempty hpos => simp [hempty, hpos]
    | nothing hempty => simp [hempty]
    | apply => exact absurd hheight (Nat.succ_ne_zero _)

/-- Derivations from other categories have height 0. -/
theorem IsDerivation.height_eq_zero {c : Category} {t : Parse} (h : g.IsDerivation c t)
    (hsymbol : g.isNonterminal c = false) : t.height = 0 := by
  cases h with
  | word => rfl
  | nothing => rfl
  | apply hsymbol' => exact absurd (hsymbol.symm.trans hsymbol') Bool.false_ne_true

/-- The derivations that begin with a rule choose derivations for its right-hand side. -/
theorem mem_applied {derivations : Category → List Parse} {depth id : Nat} {r : Rule}
    (h : ∀ c t, t ∈ derivations c ↔ g.IsDerivation c t ∧ t.height ≤ depth) {t : Parse} :
    t ∈ applied derivations id r ↔ g.BeginsWith id r t ∧ t.height ≤ depth + 1 := by
  have hparts (parts : List Parse) : parts ∈ (r.rhs.map derivations).sections ↔
      List.Forall₂ g.IsDerivation r.rhs parts ∧ Parse.heights parts ≤ depth :=
    (mem_sections_map fun c _ => h c).trans Parse.forall₂_height_le
  unfold applied BeginsWith
  rw [List.mem_map]
  constructor
  · intro hgiven
    obtain ⟨parts, hmem, rfl⟩ := hgiven
    obtain ⟨hderivations, hheights⟩ := (hparts parts).mp hmem
    exact ⟨⟨parts, hderivations, rfl⟩, Nat.succ_le_succ hheights⟩
  · intro hgiven
    obtain ⟨⟨parts, hderivations, rfl⟩, hheight⟩ := hgiven
    exact ⟨parts, (hparts parts).mpr ⟨hderivations, Nat.le_of_succ_le_succ hheight⟩, rfl⟩

/-- All derivations up to a height are listed. -/
theorem mem_derivations (hg : g.Indexed) {depth : Nat} {c : Category} {t : Parse} :
    t ∈ g.derivations depth c ↔ g.IsDerivation c t ∧ t.height ≤ depth := by
  induction depth generalizing c t with
  | zero => rw [derivations, mem_flatDerivations, Nat.le_zero]
  | succ depth ih =>
    rw [derivations]
    split
    · next hsymbol =>
      rw [isDerivation_iff_beginsWith hsymbol, List.mem_flatMap]
      constructor
      · intro hgiven
        obtain ⟨⟨id, r⟩, hmem, ht⟩ := hgiven
        obtain ⟨hr, hlhs⟩ := hg.mem_rulesFor.mp hmem
        obtain ⟨hbegins, hheight⟩ := (mem_applied fun c t => ih).mp ht
        exact ⟨⟨id, r, hr, hlhs, hbegins⟩, hheight⟩
      · intro hgiven
        obtain ⟨⟨id, r, hr, hlhs, hbegins⟩, hheight⟩ := hgiven
        exact ⟨(id, r), hg.mem_rulesFor.mpr ⟨hr, hlhs⟩, (mem_applied fun c t => ih).mpr ⟨hbegins, hheight⟩⟩
    · next hsymbol =>
      rw [mem_flatDerivations]
      refine and_congr_right fun h => ?_
      have hzero := h.height_eq_zero (Bool.eq_false_iff.mpr hsymbol)
      omega

/-- All derivations that begin with a rule, up to a height, are listed. -/
theorem mem_derivationsBy (hg : g.Indexed) {depth id : Nat} {r : Rule} {t : Parse} :
    t ∈ g.derivationsBy id r depth ↔ g.BeginsWith id r t ∧ t.height ≤ depth := by
  cases depth with
  | zero =>
    refine ⟨fun h => absurd h List.not_mem_nil, fun hgiven => ?_⟩
    obtain ⟨⟨parts, -, rfl⟩, hheight⟩ := hgiven
    exact absurd hheight (Nat.not_succ_le_zero _)
  | succ depth => exact mem_applied fun c t => mem_derivations hg

/-- No rule is listed twice for a category. -/
theorem Ordered.nodup_rulesFor (hordered : g.Ordered) (c : Category) : (g.rulesFor c).Nodup := by
  have hids : (g.byLhs.ids c).Nodup := (hordered.ascending c).imp Nat.ne_of_lt
  refine hids.filterMap fun id other numbered h h' => ?_
  obtain ⟨r, -, rfl⟩ := Option.map_eq_some_iff.mp h
  obtain ⟨r', -, heq⟩ := Option.map_eq_some_iff.mp h'
  exact (congrArg Prod.fst heq).symm

/-- No derivation that begins with a rule is listed twice. -/
theorem nodup_applied {derivations : Category → List Parse} (h : ∀ c, (derivations c).Nodup) (id : Nat)
    (r : Rule) : (applied derivations id r).Nodup := by
  refine (nodup_sections fun choices hchoices => ?_).map fun ts us heq => (Parse.apply.inj heq).2.2
  obtain ⟨c, -, rfl⟩ := List.mem_map.mp hchoices
  exact h c

/-- No derivation is listed twice. -/
theorem nodup_derivations (hg : g.Indexed) (hordered : g.Ordered) (depth : Nat) (c : Category) :
    (g.derivations depth c).Nodup := by
  have hflat (c : Category) : (g.flatDerivations c).Nodup := by
    unfold flatDerivations
    split
    · exact List.nodup_singleton _
    · split
      · exact List.nodup_singleton _
      · exact List.nodup_nil
  induction depth generalizing c with
  | zero => exact hflat c
  | succ depth ih =>
    rw [derivations]
    split
    · refine nodup_flatMap_of_inj (hordered.nodup_rulesFor c)
        (fun numbered _ => nodup_applied ih numbered.1 numbered.2) ?_
      intro numbered hnumbered other hother t ht ht'
      obtain ⟨parts, -, rfl⟩ := List.mem_map.mp ht
      obtain ⟨parts', -, heq⟩ := List.mem_map.mp ht'
      have hid : other.1 = numbered.1 := (Parse.apply.inj heq).2.1
      have hr := (hg.mem_rulesFor.mp hnumbered).1
      have hr' := (hg.mem_rulesFor.mp hother).1
      exact Prod.ext hid.symm (hr.unique (hid ▸ hr'))
    · exact hflat c

/-- No derivation that begins with a rule is listed twice. -/
theorem nodup_derivationsBy (hg : g.Indexed) (hordered : g.Ordered) (id : Nat) (r : Rule) (depth : Nat) :
    (g.derivationsBy id r depth).Nodup := by
  cases depth with
  | zero => exact List.nodup_nil
  | succ depth => exact nodup_applied (nodup_derivations hg hordered depth) id r

end Grammar

/-! Counting by length -/

namespace Parse

/-- The polynomial that counts parses by the length of what they cover. -/
noncomputable def lengths (ts : List Parse) : ℕ[X] :=
  (ts.map fun t => X ^ t.yield.length).sum

/-- The parses in a list without repetitions are as many as the list is long. -/
theorem ncard_mem {ts : List Parse} (hnodup : ts.Nodup) : {t | t ∈ ts}.ncard = ts.length := by
  classical
  have hset : {t | t ∈ ts} = ↑ts.toFinset := by
    ext t
    simp
  rw [hset, Set.ncard_coe_finset, List.toFinset_card_of_nodup hnodup]

/-- The coefficient at a length is the number of parses that cover as much. -/
theorem coeff_lengths {ts : List Parse} (hnodup : ts.Nodup) (n : Nat) :
    (lengths ts).coeff n = {t | t ∈ ts ∧ t.yield.length = n}.ncard := by
  have hset : {t | t ∈ ts ∧ t.yield.length = n} = {t | t ∈ ts.filter fun t => t.yield.length = n} := by
    ext t
    simp
  rw [hset, ncard_mem (hnodup.filter _)]
  clear hset hnodup
  induction ts with
  | nil => simp [lengths]
  | cons t ts ih =>
    have hcons : lengths (t :: ts) = X ^ t.yield.length + lengths ts := by simp [lengths]
    rw [hcons, coeff_add, ih, coeff_X_pow]
    by_cases heq : t.yield.length = n
    · simp [heq, Nat.add_comm]
    · simp [heq, Ne.symm heq]

/-- Alternatives add. -/
theorem lengths_flatMap {α : Type} (as : List α) (f : α → List Parse) :
    lengths (as.flatMap f) = (as.map fun a => lengths (f a)).sum := by
  rw [lengths, List.map_flatMap, List.flatMap_def, List.sum_flatten, List.map_map]
  rfl

/-- Parses side by side multiply. -/
theorem lengths_sections (lists : List (List Parse)) :
    (lists.sections.map fun ts => (X ^ (yields ts).length : ℕ[X])).sum = (lists.map lengths).prod := by
  induction lists with
  | nil => simp [List.sections, yields]
  | cons ts lists ih =>
    have hchoice (us : List Parse) : ((ts.map fun t => t :: us).map fun ts =>
        (X ^ (yields ts).length : ℕ[X])).sum = lengths ts * X ^ (yields us).length := by
      rw [lengths, ← List.sum_map_mul_right]
      simp [yields, Function.comp_def, pow_add]
    rw [List.map_cons, List.prod_cons, ← ih, ← List.sum_map_mul_left, List.sections, List.map_flatMap,
      List.flatMap_def, List.sum_flatten, List.map_map]
    simp only [Function.comp_def, hchoice]

end Parse

namespace Grammar

variable {g : Grammar}

/-- The derivations that begin with a rule are counted by multiplying along its right-hand side. -/
theorem lengths_applied (derivations : Category → List Parse) (id : Nat) (r : Rule) :
    Parse.lengths (applied derivations id r) = (r.rhs.map fun c => Parse.lengths (derivations c)).prod := by
  have hsections := Parse.lengths_sections (r.rhs.map derivations)
  rw [List.map_map] at hsections
  rw [Parse.lengths, applied, List.map_map]
  exact hsections

/-- The number of derivations by length does not fall with the height. -/
theorem coeff_lengths_mono (hg : g.Indexed) (hordered : g.Ordered) (id : Nat) (r : Rule) {depth deeper : Nat}
    (hle : depth ≤ deeper) (n : Nat) : (Parse.lengths (g.derivationsBy id r depth)).coeff n ≤
      (Parse.lengths (g.derivationsBy id r deeper)).coeff n := by
  rw [Parse.coeff_lengths (nodup_derivationsBy hg hordered id r depth),
    Parse.coeff_lengths (nodup_derivationsBy hg hordered id r deeper)]
  refine Set.ncard_le_ncard (fun t ht => ⟨?_, ht.2⟩)
    ((List.finite_toSet (g.derivationsBy id r deeper)).subset fun t ht => ht.1)
  obtain ⟨hbegins, hheight⟩ := (mem_derivationsBy hg).mp ht.1
  exact (mem_derivationsBy hg).mpr ⟨hbegins, hheight.trans hle⟩

end Grammar

end IndexedGrammar
