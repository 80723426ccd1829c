import IndexedGrammar.Grammar.Productive
import IndexedGrammar.Proofs.Parse.Height
import IndexedGrammar.Proofs.Sample
import Mathlib.Order.Bounds.Basic

/-!
# What pruning leaves

A set of rules is self-contained if every nonterminal on the right of one of them is the left-hand side of
one of them. A self-contained set survives every round of pruning, since none of its rules mentions a category
that is without rules; and what is left in the end is self-contained. So the largest self-contained set is
left. The rules that occur in derivations are such a set, and no derivation is lost.

The synthetic rule is never removed. It counts as one of the rules exactly if the start category is left with
a rule, or needs none.
-/

namespace IndexedGrammar

namespace Grammar

/-- Every nonterminal on the right of a rule of the set is the left-hand side of a rule of the set, and all
of them are in use. -/
structure SelfContained (g : Grammar) (kept : Set Nat) : Prop where
  live : ∀ id ∈ kept, ∃ r, g.HasRule id r
  defined : ∀ id ∈ kept, ∀ r, g.HasRule id r → ∀ c ∈ r.rhs, g.isNonterminal c = true →
    ∃ other ∈ kept, ∃ s, g.HasRule other s ∧ s.lhs = c

/-- No other rule in use has the synthetic rule's left-hand side on its right. -/
def RootUncalled (g : Grammar) : Prop :=
  ∀ root, g.rootRule? = some root → ∀ id r, (id, r) ∈ g.rules → root.lhs ∉ r.rhs

/-- A grammar that has the rules of another but for some, which are no longer in use. -/
structure Omits (g : Grammar) (removed : List Nat) (g' : Grammar) : Prop where
  partsOfSpeech : g'.partsOfSpeech = g.partsOfSpeech
  rule? : ∀ id, g'.rule? id = g.rule? id
  hasRule : ∀ id r, g'.HasRule id r ↔ g.HasRule id r ∧ id ∉ removed

/-- Numbers of different rules in use, the synthetic one not among them. -/
structure Removable (g : Grammar) (ids : List Nat) : Prop where
  nodup : ids.Nodup
  live : ∀ id ∈ ids, id ≠ rootId ∧ ∃ r, g.HasRule id r

variable {g g' g'' : Grammar} {id rounds : Nat} {ids removed later : List Nat} {r : Rule} {kept : Set Nat}

/-! Leaving rules out -/

/-- A number is live if it has a rule in use. -/
theorem isLive_iff : g.isLive id = true ↔ ∃ r, g.HasRule id r := by
  constructor
  · intro hlive
    cases hr : g.rule? id with
    | none =>
      have hslot : g.slots[id]? = none := Option.map_eq_none_iff.mp hr
      simp [isLive, hslot] at hlive
    | some r => exact ⟨r, hasRule_iff.mpr ⟨hr, hlive⟩⟩
  · intro hr
    exact hr.elim fun r hr => hr.isLive

namespace Omits

/-- A grammar leaves no rules of its own out. -/
theorem refl (g : Grammar) : g.Omits [] g where
  partsOfSpeech := rfl
  rule? _ := rfl
  hasRule id r := by simp

/-- Rules are left out one after the other. -/
theorem trans (h : g.Omits removed g') (h' : g'.Omits later g'') : g.Omits (removed ++ later) g'' where
  partsOfSpeech := h'.partsOfSpeech.trans h.partsOfSpeech
  rule? id := (h'.rule? id).trans (h.rule? id)
  hasRule id r := by rw [h'.hasRule, h.hasRule, List.mem_append, not_or, and_assoc]

/-- The nonterminals are the same. -/
theorem isNonterminal (h : g.Omits removed g') (c : Category) : g'.isNonterminal c = g.isNonterminal c := by
  simp only [Grammar.isNonterminal, Grammar.isPartOfSpeech, h.partsOfSpeech]

/-- The rules that are listed are the same but for those left out. -/
theorem mem_rules (h : g.Omits removed g') : (id, r) ∈ g'.rules ↔ (id, r) ∈ g.rules ∧ id ∉ removed := by
  rw [mem_rules_iff, mem_rules_iff, h.hasRule, and_assoc]

/-- What is live is what was, but for the rules left out. -/
theorem isLive_iff (h : g.Omits removed g') : g'.isLive id = true ↔ g.isLive id = true ∧ id ∉ removed := by
  simp only [Grammar.isLive_iff, h.hasRule, exists_and_right]

/-- The synthetic rule is called as little as before. -/
theorem rootUncalled (h : g.Omits removed g') (huncalled : g.RootUncalled) : g'.RootUncalled :=
  fun root hroot id r hr => huncalled root ((h.rule? rootId).symm.trans hroot) id r (h.mem_rules.mp hr).1

/-- A self-contained set stays so if none of its rules is left out. -/
theorem selfContained (h : g.Omits removed g') (hkept : g.SelfContained kept)
    (hspared : ∀ id ∈ kept, id ∉ removed) : g'.SelfContained kept where
  live id hid := by
    obtain ⟨r, hr⟩ := hkept.live id hid
    exact ⟨r, (h.hasRule id r).mpr ⟨hr, hspared id hid⟩⟩
  defined id hid r hr c hc hsymbol := by
    obtain ⟨other, hother, s, hs, hlhs⟩ :=
      hkept.defined id hid r ((h.hasRule id r).mp hr).1 c hc (h.isNonterminal c ▸ hsymbol)
    exact ⟨other, hother, s, (h.hasRule other s).mpr ⟨hs, hspared other hother⟩, hlhs⟩

end Omits

/-- Rules that may be removed are taken out of use, and no others. -/
theorem Removable.omits (h : g.Removable ids) : g.Omits ids (g.removeAll ids) := by
  induction ids generalizing g with
  | nil => exact .refl g
  | cons id ids ih =>
    obtain ⟨hnot, hnodup⟩ := List.nodup_cons.mp h.nodup
    obtain ⟨hroot, r, hr⟩ := h.live id List.mem_cons_self
    obtain ⟨next, hnext⟩ := Option.ne_none_iff_exists'.mp (hr.remove?_ne_none hroot)
    have hfirst : g.Omits [id] next := {
      partsOfSpeech := by
        obtain ⟨-, s, -, rfl⟩ := removed_of_remove hnext
        rfl
      rule? := rule?_remove hnext
      hasRule := fun other s => by rw [hasRule_remove hnext, List.mem_singleton] }
    have hrest : next.Removable ids := {
      nodup := hnodup
      live := fun other hother => by
        obtain ⟨hother', s, hs⟩ := h.live other (List.mem_cons_of_mem id hother)
        exact ⟨hother', s, (hasRule_remove hnext).mpr ⟨hs, fun heq => hnot (heq ▸ hother)⟩⟩ }
    have hall : g.removeAll (id :: ids) = next.removeAll ids := by
      rw [removeAll, List.foldl_cons, hnext, Option.getD_some, ← removeAll]
    exact hall ▸ hfirst.trans (ih hrest)

/-- Where a rule is left out, fewer rules are listed. -/
theorem Omits.length_rules_lt (h : g.Omits removed g') (hr : (id, r) ∈ g.rules) (hid : id ∈ removed) :
    g'.rules.length < g.rules.length := by
  have hnodup : ((id, r) :: g'.rules).Nodup :=
    List.nodup_cons.mpr ⟨fun hmem => (h.mem_rules.mp hmem).2 hid, g'.nodup_rules.of_map⟩
  have hsubset : (id, r) :: g'.rules ⊆ g.rules :=
    List.cons_subset.mpr ⟨hr, fun numbered hmem => (h.mem_rules.mp hmem).1⟩
  exact (hnodup.subperm hsubset).length_le

/-! One round -/

/-- The left-hand sides are those of the rules that are listed. -/
theorem contains_leftHandSides {c : Category} :
    g.leftHandSides.contains c = true ↔ ∃ id r, (id, r) ∈ g.rules ∧ r.lhs = c := by
  simp [leftHandSides, Std.ExtTreeSet.contains_ofList]

/-- A rule is unproductive if it mentions a nonterminal without rules. -/
theorem mem_unproductive : id ∈ g.unproductive ↔ ∃ r, (id, r) ∈ g.rules ∧
    ∃ c ∈ r.rhs, g.isNonterminal c = true ∧ ∀ other s, (other, s) ∈ g.rules → s.lhs ≠ c := by
  have hundefined (c : Category) : (!g.leftHandSides.contains c) = true ↔
      ∀ other s, (other, s) ∈ g.rules → s.lhs ≠ c := by
    rw [Bool.not_eq_true', ← Bool.not_eq_true, contains_leftHandSides]
    exact ⟨fun hnone other s hs hlhs => hnone ⟨other, s, hs, hlhs⟩,
      fun hnone hsome => hsome.elim fun other hs => hs.elim fun s hs => hnone other s hs.1 hs.2⟩
  simp only [unproductive, List.mem_map, List.mem_filter, List.any_eq_true, Bool.and_eq_true, hundefined]
  constructor
  · rintro ⟨⟨found, r⟩, ⟨hr, hc⟩, rfl⟩
    exact ⟨r, hr, hc⟩
  · rintro ⟨r, hr, hc⟩
    exact ⟨(id, r), ⟨hr, hc⟩, rfl⟩

/-- Unproductive rules may be removed. -/
theorem removable_unproductive (g : Grammar) : g.Removable g.unproductive where
  nodup := List.Nodup.sublist (List.filter_sublist.map Prod.fst) g.nodup_rules
  live id hid := by
    obtain ⟨r, hr, -⟩ := mem_unproductive.mp hid
    exact ⟨(mem_rules_iff.mp hr).1, r, (mem_rules_iff.mp hr).2⟩

/-- No rule of a self-contained set is unproductive. -/
theorem SelfContained.not_mem_unproductive (h : g.SelfContained kept) (huncalled : g.RootUncalled)
    (hid : id ∈ kept) : id ∉ g.unproductive := by
  intro hmem
  obtain ⟨r, hr, c, hc, hsymbol, hundefined⟩ := mem_unproductive.mp hmem
  obtain ⟨other, -, s, hs, rfl⟩ := h.defined id hid r (mem_rules_iff.mp hr).2 c hc hsymbol
  by_cases hother : other = rootId
  · subst hother
    exact huncalled s hs.rule? id r hr hc
  · exact hundefined other s (mem_rules_iff.mpr ⟨hother, hs⟩) rfl

/-! All rounds -/

/-- Pruning ends when no rule is unproductive. -/
theorem pruneUnproductiveWithin_of_settled (h : g.unproductive = []) :
    g.pruneUnproductiveWithin (rounds + 1) = ([], g) := by
  rw [pruneUnproductiveWithin, h]
  rfl

/-- Otherwise the unproductive rules are removed first. -/
theorem pruneUnproductiveWithin_of_mem (hid : id ∈ g.unproductive) :
    g.pruneUnproductiveWithin (rounds + 1) =
      (g.unproductive ++ ((g.removeAll g.unproductive).pruneUnproductiveWithin rounds).1,
        ((g.removeAll g.unproductive).pruneUnproductiveWithin rounds).2) := by
  have hempty : ¬g.unproductive.isEmpty = true := by
    rw [List.isEmpty_iff]
    exact List.ne_nil_of_mem hid
  rw [pruneUnproductiveWithin, if_neg hempty]

/-- Every round that does not end pruning lists fewer rules. -/
theorem length_rules_removeAll_lt (hid : id ∈ g.unproductive) :
    (g.removeAll g.unproductive).rules.length < g.rules.length := by
  obtain ⟨r, hr, -⟩ := mem_unproductive.mp hid
  exact g.removable_unproductive.omits.length_rules_lt hr hid

/-- Pruning ends by itself: once there are more rounds than rules, one more changes nothing. -/
theorem pruneUnproductiveWithin_succ (h : g.rules.length < rounds) :
    g.pruneUnproductiveWithin (rounds + 1) = g.pruneUnproductiveWithin rounds := by
  induction rounds generalizing g with
  | zero => exact absurd h (Nat.not_lt_zero _)
  | succ rounds ih =>
    rcases List.eq_nil_or_concat' g.unproductive with hnil | ⟨others, id, hids⟩
    · rw [pruneUnproductiveWithin_of_settled hnil, pruneUnproductiveWithin_of_settled hnil]
    · have hid : id ∈ g.unproductive := hids ▸ List.mem_append_right _ List.mem_cons_self
      have hlt := length_rules_removeAll_lt hid
      rw [pruneUnproductiveWithin_of_mem hid, pruneUnproductiveWithin_of_mem hid,
        ih (Nat.lt_of_lt_of_le hlt (Nat.le_of_lt_succ h))]

/-- What rounds of pruning lead to: rules are left out that may be removed and belong to no self-contained
set, and none that is left is unproductive. -/
structure Settles (g : Grammar) (removed : List Nat) (g' : Grammar) : Prop
    extends g.Omits removed g', g.Removable removed where
  settled : g'.unproductive = []
  spared : g.RootUncalled → ∀ kept, g.SelfContained kept → ∀ id ∈ kept, id ∉ removed

/-- A grammar without unproductive rules is settled. -/
theorem Settles.refl (h : g.unproductive = []) : g.Settles [] g where
  toOmits := .refl g
  nodup := List.nodup_nil
  live _ hid := absurd hid List.not_mem_nil
  settled := h
  spared _ _ _ _ _ := List.not_mem_nil

/-- A round of pruning, and then the others. -/
theorem Settles.round (h : (g.removeAll g.unproductive).Settles later g') :
    g.Settles (g.unproductive ++ later) g' := by
  have hround := g.removable_unproductive.omits
  exact {
    toOmits := hround.trans h.toOmits
    nodup := List.nodup_append.mpr ⟨g.removable_unproductive.nodup, h.nodup, fun id hid other hother heq => by
      obtain ⟨-, r, hr⟩ := h.live other hother
      exact ((hround.hasRule other r).mp hr).2 (heq ▸ hid)⟩
    live := fun id hid => by
      rcases List.mem_append.mp hid with hnow | hlater
      · exact g.removable_unproductive.live id hnow
      · obtain ⟨hroot, r, hr⟩ := h.live id hlater
        exact ⟨hroot, r, ((hround.hasRule id r).mp hr).1⟩
    settled := h.settled
    spared := fun huncalled kept hkept id hid => by
      have hnow other (hother : other ∈ kept) := hkept.not_mem_unproductive huncalled hother
      have hlater := h.spared (hround.rootUncalled huncalled) kept (hround.selfContained hkept hnow)
      exact List.mem_append.not.mpr (not_or.mpr ⟨hnow id hid, hlater id hid⟩) }

/-- More rounds than there are rules settle a grammar. -/
theorem settles_pruneUnproductiveWithin (h : g.rules.length < rounds) :
    g.Settles (g.pruneUnproductiveWithin rounds).1 (g.pruneUnproductiveWithin rounds).2 := by
  induction rounds generalizing g with
  | zero => exact absurd h (Nat.not_lt_zero _)
  | succ rounds ih =>
    rcases List.eq_nil_or_concat' g.unproductive with hnil | ⟨others, id, hids⟩
    · rw [pruneUnproductiveWithin_of_settled hnil]
      exact .refl hnil
    · have hid : id ∈ g.unproductive := hids ▸ List.mem_append_right _ List.mem_cons_self
      rw [pruneUnproductiveWithin_of_mem hid]
      exact .round (ih (Nat.lt_of_lt_of_le (length_rules_removeAll_lt hid) (Nat.le_of_lt_succ h)))

/-! What is left -/

/-- The rules that a settled grammar lists are self-contained. -/
theorem Settles.selfContained (h : g.Settles removed g') :
    g.SelfContained {id | id ≠ rootId ∧ g'.isLive id = true} where
  live id hid := isLive_iff.mp (h.isLive_iff.mp hid.2).1
  defined id hid r hr c hc hsymbol := by
    have hr' : g'.HasRule id r := (h.hasRule id r).mpr ⟨hr, (h.isLive_iff.mp hid.2).2⟩
    by_contra hundefined
    have hmem : id ∈ g'.unproductive := by
      refine mem_unproductive.mpr ⟨r, mem_rules_iff.mpr ⟨hid.1, hr'⟩, c, hc, ?_, fun other s hs hlhs => ?_⟩
      · rw [h.isNonterminal, hsymbol]
      · obtain ⟨hother, hs'⟩ := mem_rules_iff.mp hs
        exact hundefined ⟨other, ⟨hother, hs'.isLive⟩, s, ((h.hasRule other s).mp hs').1, hlhs⟩
    rw [h.settled] at hmem
    exact List.not_mem_nil hmem

/-- With the synthetic rule they are self-contained if the start category is left with a rule or needs none. -/
theorem Settles.selfContained_root (h : g.Settles removed g') (hg : g.Indexed)
    (hstart : g.isNonterminal g.start = true → ∃ id r, (id, r) ∈ g'.rules ∧ r.lhs = g.start) :
    g.SelfContained {id | g'.isLive id = true} where
  live id hid := isLive_iff.mp (h.isLive_iff.mp hid).1
  defined id hid r hr c hc hsymbol := by
    by_cases hroot : id = rootId
    · subst hroot
      obtain ⟨name, hname⟩ := hg.root
      obtain rfl := hr.unique hname
      obtain rfl := List.mem_singleton.mp hc
      obtain ⟨other, s, hs, hlhs⟩ := hstart hsymbol
      obtain ⟨-, hs'⟩ := mem_rules_iff.mp hs
      exact ⟨other, hs'.isLive, s, ((h.hasRule other s).mp hs').1, hlhs⟩
    · obtain ⟨other, hother, hs⟩ := h.selfContained.defined id ⟨hroot, hid⟩ r hr c hc hsymbol
      exact ⟨other, hother.2, hs⟩

/-- What belongs to a self-contained set is left. -/
theorem Settles.isLive_of_mem (h : g.Settles removed g') (huncalled : g.RootUncalled)
    (hkept : g.SelfContained kept) (hid : id ∈ kept) : g'.isLive id = true :=
  h.isLive_iff.mpr ⟨isLive_iff.mpr (hkept.live id hid), h.spared huncalled kept hkept id hid⟩

/-! Derivations -/

/-- The rules whose right-hand sides derive something are self-contained. -/
theorem selfContained_productive (g : Grammar) :
    g.SelfContained {id | ∃ r parts, g.HasRule id r ∧ List.Forall₂ g.IsDerivation r.rhs parts} where
  live id hid := by
    obtain ⟨r, -, hr, -⟩ := hid
    exact ⟨r, hr⟩
  defined id hid r hr c hc hsymbol := by
    obtain ⟨s, parts, hs, hparts⟩ := hid
    obtain rfl := hr.unique hs
    obtain ⟨i, hi, rfl⟩ := List.mem_iff_getElem.mp hc
    have ht := List.Forall₂.get hparts hi (hparts.length_eq ▸ hi)
    obtain ⟨other, s, hs, hlhs, below, hbelow, -⟩ := (isDerivation_iff_beginsWith hsymbol).mp ht
    exact ⟨other, ⟨s, below, hs, hbelow⟩, s, hs, hlhs⟩

/-- Pruning keeps derivations and adds none. -/
theorem Settles.isDerivation_iff (h : g.Settles removed g') (huncalled : g.RootUncalled) {c : Category}
    {t : Parse} : g'.IsDerivation c t ↔ g.IsDerivation c t := by
  constructor
  · intro ht
    exact ht.of_rules h.partsOfSpeech.symm (fun id r _ hr _ => ((h.hasRule id r).mp hr).1) t
  · intro ht
    refine ht.of_rules h.partsOfSpeech (fun id r parts hr hparts => ?_) t
    have hspared := h.spared huncalled _ g.selfContained_productive id ⟨r, parts, hr, hparts⟩
    exact (h.hasRule id r).mpr ⟨hr, hspared⟩

/-- What pruning removes, what it leaves, and what it does not change. -/
structure PrunedTo (g : Grammar) (removed : List Nat) (g' : Grammar) : Prop where
  /-- The rounds end by themselves. -/
  ended : g'.unproductive = [] ∧ ∀ more, g.pruneUnproductiveWithin (g.rules.length + 1 + more) = (removed, g')
  /-- Every rule that was removed is given once. -/
  nodup : removed.Nodup
  mem_removed : ∀ id, id ∈ removed ↔ g.isLive id = true ∧ g'.isLive id = false
  /-- What is live was live, with the same contents, and the synthetic rule is. -/
  live : ∀ id, g'.isLive id = true → g.isLive id = true
  rule? : ∀ id, g'.rule? id = g.rule? id
  root : g'.isLive rootId = true
  /-- The rules that are listed are the largest self-contained set of such rules. -/
  greatest : IsGreatest {kept | g.SelfContained kept ∧ rootId ∉ kept} {id | id ≠ rootId ∧ g'.isLive id = true}
  /-- With the synthetic rule they are the largest self-contained set of rules, unless the start category needs
  a rule and has none left. -/
  greatest_root : (g.isNonterminal g.start = true → ∃ id r, (id, r) ∈ g'.rules ∧ r.lhs = g.start) →
    IsGreatest {kept | g.SelfContained kept} {id | g'.isLive id = true}
  isDerivation_iff : ∀ c t, g'.IsDerivation c t ↔ g.IsDerivation c t

/-- Pruning ends, gives the rules it removes once each, and leaves the largest set of rules in which every
nonterminal on a right-hand side has a rule, if the synthetic category is on no right-hand side; and every
category has the same derivations as before. -/
theorem pruneUnproductive_exact (hg : g.Reachable) (huncalled : g.RootUncalled) :
    ∃ removed g', g.pruneUnproductive = (removed, g') ∧ g.PrunedTo removed g' := by
  have h := settles_pruneUnproductiveWithin (Nat.lt_add_one g.rules.length)
  -- once nothing is left to remove, further rounds change nothing
  have hended more : g.pruneUnproductiveWithin (g.rules.length + 1 + more) = g.pruneUnproductive := by
    induction more with
    | zero => rfl
    | succ more ih =>
      have hlt : g.rules.length < g.rules.length + 1 + more := by omega
      exact (pruneUnproductiveWithin_succ hlt).trans ih
  obtain ⟨removed, g', hprune⟩ : ∃ removed g', g.pruneUnproductive = (removed, g') := ⟨_, _, rfl⟩
  have h : g.Settles removed g' := by
    unfold pruneUnproductive at hprune
    rwa [hprune] at h
  obtain ⟨name, hname⟩ := hg.indexed.root
  refine ⟨removed, g', hprune, {
    ended := ⟨h.settled, fun more => (hended more).trans hprune⟩
    nodup := h.nodup
    mem_removed := fun id => ?_
    live := fun id hid => (h.isLive_iff.mp hid).1
    rule? := h.rule?
    root := h.isLive_iff.mpr ⟨hname.isLive, fun hmem => (h.live rootId hmem).1 rfl⟩
    greatest := ⟨⟨h.selfContained, fun hmem => hmem.1 rfl⟩, fun kept hkept id hid =>
      ⟨fun heq => hkept.2 (heq ▸ hid), h.isLive_of_mem huncalled hkept.1 hid⟩⟩
    greatest_root := fun hstart => ⟨h.selfContained_root hg.indexed hstart, fun kept hkept id hid =>
      h.isLive_of_mem huncalled hkept hid⟩
    isDerivation_iff := fun c t => h.isDerivation_iff huncalled }⟩
  rw [← Bool.not_eq_true, h.isLive_iff, not_and, not_not]
  refine ⟨fun hid => ?_, fun hid => hid.2 hid.1⟩
  obtain ⟨-, r, hr⟩ := h.live id hid
  exact ⟨hr.isLive, fun _ => hid⟩

end Grammar

namespace Sample

/-- Lists of one word, and rules by which a list is a front, a front is a back and a back needs something that has
no rules. -/
def dangling : Grammar :=
  ((singles.insert ⟨list, [front], none⟩).insert ⟨front, [back], none⟩).insert ⟨back, [.bare "C", noun], none⟩

end Sample

open Sample in
/-- A rule that can never be completed is removed, and then the rules that are left without it. -/
theorem Grammar.pruneUnproductive_exact_dangling : dangling.Reachable ∧ dangling.RootUncalled ∧
    ∃ g', dangling.pruneUnproductive = ([4, 3, 2], g') ∧ dangling.PrunedTo [4, 3, 2] g' ∧
      g'.rules = [(1, single)] := by
  have hreachable : dangling.Reachable := .insert _ (.insert _ (.insert _ reachable_singles))
  have huncalled : dangling.RootUncalled := by
    intro root hroot
    obtain rfl := Option.some.inj hroot
    have hall : ∀ numbered ∈ dangling.rules, Category.bare "γ" ∉ numbered.2.rhs := by decide +kernel
    exact fun id r hr => hall (id, r) hr
  obtain ⟨removed, g', hprune, hpruned⟩ := Grammar.pruneUnproductive_exact hreachable huncalled
  have hremoved : dangling.pruneUnproductive.1 = [4, 3, 2] := by decide +kernel
  have hrules : dangling.pruneUnproductive.2.rules = [(1, single)] := by decide +kernel
  rw [hprune] at hremoved hrules
  subst hremoved
  exact ⟨hreachable, huncalled, g', hprune, hpruned, hrules⟩

end IndexedGrammar
