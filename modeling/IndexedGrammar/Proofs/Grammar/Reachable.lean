import IndexedGrammar.Grammar.Basic
import IndexedGrammar.Proofs.Index
import Mathlib.Tactic.NthRewrite
import Mathlib.Tactic.Tauto

/-!
# Grammars as they come about

A grammar begins with the synthetic rule and is changed by inserting, removing, restoring and
retracting rules. Every such grammar finds exactly its live rules through its index, each under its
own left-hand side, and keeps its synthetic rule. Removing a rule leaves the contents of all rules as
they are, and takes nothing but that rule out of use.
-/

namespace IndexedGrammar.Grammar

/-- Grammars that the operations lead to. The synthetic rule is never retracted: what is left would
be no grammar. -/
inductive Reachable : Grammar → Prop
  | new (start : Category) (root : String) (partsOfSpeech : Std.ExtTreeSet String) :
      Reachable (.new start root partsOfSpeech)
  | insert {g : Grammar} (r : Rule) : Reachable g → Reachable (g.insert r)
  | remove {g h : Grammar} {id : Nat} : Reachable g → g.remove? id = some h → Reachable h
  | restore {g h : Grammar} {id : Nat} : Reachable g → g.restore? id = some h → Reachable h
  | retract {g h : Grammar} {id : Nat} :
      Reachable g → id ≠ rootId → g.retract id = .ok h → Reachable h
  | markExpanded {g : Grammar} (c : Category) : Reachable g → Reachable (g.markExpanded c)

/-- Rules may be inserted one after the other. -/
theorem Reachable.insertAll {g : Grammar} (h : g.Reachable) (rules : List Rule) :
    (rules.foldl Grammar.insert g).Reachable := by
  induction rules generalizing g with
  | nil => exact h
  | cons r rules ih => exact ih (.insert r h)

/-- A rule that is in use. -/
def HasRule (g : Grammar) (id : Nat) (r : Rule) : Prop :=
  g.slots[id]? = some ⟨r, true⟩

/-- The index finds exactly the rules in use, and the synthetic rule is one of them. -/
structure Indexed (g : Grammar) : Prop where
  root : ∃ name, g.HasRule rootId ⟨Category.bare name, [g.start], none⟩
  mem_byLhs : ∀ lhs id, id ∈ g.byLhs.ids lhs ↔ ∃ r, g.HasRule id r ∧ r.lhs = lhs

/-- A rule in use is a rule of the grammar. -/
theorem HasRule.rule? {g : Grammar} {id : Nat} {r : Rule} (h : g.HasRule id r) :
    g.rule? id = some r := by
  rw [HasRule] at h
  rw [Grammar.rule?, h, Option.map_some]

/-- A rule in use is live. -/
theorem HasRule.isLive {g : Grammar} {id : Nat} {r : Rule} (h : g.HasRule id r) :
    g.isLive id = true := by
  rw [HasRule] at h
  rw [Grammar.isLive, h]

/-- A live number is that of a rule in use. -/
theorem exists_hasRule {g : Grammar} {id : Nat} (h : g.isLive id = true) : ∃ r, g.HasRule id r := by
  unfold isLive at h
  split at h
  · next slot hslot =>
    obtain ⟨r, live⟩ := slot
    obtain rfl : live = true := h
    exact ⟨r, hslot⟩
  · contradiction

/-- The rules in use are those that are live. -/
theorem hasRule_iff {g : Grammar} {id : Nat} {r : Rule} :
    g.HasRule id r ↔ g.rule? id = some r ∧ g.isLive id = true := by
  rw [HasRule, Grammar.rule?, Grammar.isLive]
  cases g.slots[id]? with
  | none => simp
  | some slot =>
    obtain ⟨rule, live⟩ := slot
    simp

/-- A number has at most one rule in use. -/
theorem HasRule.unique {g : Grammar} {id : Nat} {r s : Rule} (hr : g.HasRule id r)
    (hs : g.HasRule id s) : r = s := by
  have h := hr.rule?.symm.trans hs.rule?
  exact Option.some.inj h

/-- A rule in use has a number below the next one. -/
theorem HasRule.lt_size {g : Grammar} {id : Nat} {r : Rule} (h : g.HasRule id r) : id < g.size :=
  (Array.getElem?_eq_some_iff.mp h).1

/-- An indexed grammar has a rule for the synthetic category, so the next number is another one. -/
theorem Indexed.size_ne_rootId {g : Grammar} (h : g.Indexed) : g.size ≠ rootId := by
  obtain ⟨name, hroot⟩ := h.root
  exact Nat.ne_of_gt hroot.lt_size

/-- The rules listed for a category are the rules in use with that left-hand side. -/
theorem Indexed.mem_rulesFor {g : Grammar} (h : g.Indexed) {lhs : Category} {id : Nat} {r : Rule} :
    (id, r) ∈ g.rulesFor lhs ↔ g.HasRule id r ∧ r.lhs = lhs := by
  simp only [rulesFor, List.mem_filterMap, Option.map_eq_some_iff, Prod.mk.injEq]
  constructor
  · rintro ⟨found, hfound, r', hr', rfl, rfl⟩
    obtain ⟨s, hs, hlhs⟩ := (h.mem_byLhs lhs found).mp hfound
    obtain rfl : s = r' := Option.some.inj (hs.rule?.symm.trans hr')
    exact ⟨hs, hlhs⟩
  · rintro ⟨hr, hlhs⟩
    exact ⟨id, (h.mem_byLhs lhs id).mpr ⟨r, hr, hlhs⟩, r, hr.rule?, rfl, rfl⟩

/-- A production is there if a rule in use has it. -/
theorem Indexed.containsProduction_iff {g : Grammar} (h : g.Indexed) {lhs : Category} {rhs : List Category} :
    g.containsProduction lhs rhs = true ↔ ∃ id r, g.HasRule id r ∧ r.lhs = lhs ∧ r.rhs = rhs := by
  simp only [containsProduction, List.any_eq_true, decide_eq_true_eq, Prod.exists, h.mem_rulesFor,
    and_assoc]

/-- The listed rules are the rules in use but the synthetic one. -/
theorem mem_rules_iff {g : Grammar} {id : Nat} {r : Rule} :
    (id, r) ∈ g.rules ↔ id ≠ rootId ∧ g.HasRule id r := by
  simp only [rules, numbered, List.mem_filterMap, List.mem_map, HasRule]
  constructor
  · rintro ⟨⟨i, slot⟩, ⟨⟨s, j⟩, hmem, heq⟩, hif⟩
    simp only [Prod.mk.injEq] at heq
    obtain ⟨rfl, rfl⟩ := heq
    split at hif
    · next hlive =>
      simp only [Option.some.injEq, Prod.mk.injEq] at hif
      obtain ⟨rfl, rfl⟩ := hif
      simp only [ne_eq, decide_not, Bool.and_eq_true, Bool.not_eq_eq_eq_not, Bool.not_true,
        decide_eq_false_iff_not] at hlive
      have hslot := List.mem_zipIdx_iff_getElem?.mp hmem
      obtain ⟨rule, live⟩ := s
      obtain rfl : live = true := hlive.2
      exact ⟨hlive.1, by simpa using hslot⟩
    · exact absurd hif (by simp)
  · rintro ⟨hid, hslot⟩
    refine ⟨(id, ⟨r, true⟩), ⟨(⟨r, true⟩, id), ?_, rfl⟩, ?_⟩
    · exact List.mem_zipIdx_iff_getElem?.mpr (by simpa using hslot)
    · simp [hid]

/-- The rules are listed in the order of their numbers. -/
theorem ascending_rules (g : Grammar) : (g.rules.map Prod.fst).Pairwise (· < ·) := by
  have hids : g.numbered.map Prod.fst = List.range' 0 g.slots.toList.length := by
    rw [numbered, List.map_map]
    exact List.zipIdx_map_snd 0 g.slots.toList
  have hlive : g.rules.map Prod.fst =
      (g.numbered.filter fun numbered => numbered.1 ≠ rootId && numbered.2.live).map Prod.fst := by
    rw [rules, List.map_filterMap, ← List.filterMap_eq_map, List.filterMap_filter]
    refine congrArg (List.filterMap · g.numbered) (funext fun numbered => ?_)
    dsimp only [Function.comp_apply]
    split <;> rfl
  rw [hlive]
  exact List.Pairwise.sublist (List.filter_sublist.map Prod.fst) (hids ▸ List.pairwise_lt_range')

/-- No rule is listed twice. -/
theorem nodup_rules (g : Grammar) : (g.rules.map Prod.fst).Nodup :=
  g.ascending_rules.imp Nat.ne_of_lt

/-! Each operation and the rules in use -/

/-- The grammar of the synthetic rule alone lists no rules. -/
theorem rules_new {start : Category} {root : String} {partsOfSpeech : Std.ExtTreeSet String} :
    (new start root partsOfSpeech).rules = [] :=
  rfl

/-- An insertion lists the new rule last. -/
theorem rules_insert {g : Grammar} (r : Rule) (hsize : g.size ≠ rootId) :
    (g.insert r).rules = g.rules ++ [(g.size, r)] := by
  have hnumbered : (g.insert r).numbered = g.numbered ++ [(g.size, ⟨r, true⟩)] := by
    simp [numbered, insert, size, List.zipIdx_append]
  rw [rules, hnumbered, List.filterMap_append]
  simp [rules, hsize]

/-- An insertion adds one rule under the next number. -/
theorem hasRule_insert {g : Grammar} {r s : Rule} {id : Nat} :
    (g.insert r).HasRule id s ↔ g.HasRule id s ∨ id = g.size ∧ s = r := by
  simp only [HasRule, insert, size, Array.getElem?_push]
  split
  · next h => subst h; simp [eq_comm]
  · next h => simp [h]

/-- Marking a rule changes whether it is in use. -/
theorem hasRule_mark {g : Grammar} {id other : Nat} {live : Bool} {s : Rule} :
    (g.mark id live).HasRule other s ↔
      if id = other then g.rule? id = some s ∧ live = true else g.HasRule other s := by
  simp only [HasRule, mark, Array.getElem?_modify, Grammar.rule?]
  split
  · next h =>
    subst h
    cases g.slots[id]? with
    | none => simp
    | some slot => simp [eq_comm]
  · rfl

/-- A removal takes one rule out of use, and nothing else. -/
theorem hasRule_remove {g h : Grammar} {id other : Nat} {s : Rule} (hremove : g.remove? id = some h) :
    h.HasRule other s ↔ g.HasRule other s ∧ other ≠ id := by
  unfold remove? at hremove
  split at hremove
  · contradiction
  · split at hremove
    · contradiction
    · obtain rfl := Option.some.inj hremove
      show (g.mark id false).HasRule other s ↔ _
      rw [hasRule_mark]
      split
      · next heq => simp [heq]
      · next hne => simp [Ne.symm hne]

/-- What is removed was in use and is not the synthetic rule. -/
theorem removed_of_remove {g h : Grammar} {id : Nat} (hremove : g.remove? id = some h) :
    id ≠ rootId ∧ ∃ r, g.HasRule id r ∧ h = { g.mark id false with
      byLhs := g.byLhs.put r.lhs ((g.byLhs.ids r.lhs).filter (· ≠ id)) } := by
  unfold remove? at hremove
  split at hremove
  · contradiction
  · next r hr =>
    split at hremove
    · contradiction
    · next hif =>
      simp only [Bool.or_eq_true, decide_eq_true_eq, Bool.not_eq_eq_eq_not, Bool.not_true,
        not_or, Bool.not_eq_false] at hif
      exact ⟨hif.1, r, hasRule_iff.mpr ⟨hr, hif.2⟩, (Option.some.inj hremove).symm⟩

/-- A rule in use can be removed, unless it is the synthetic rule. -/
theorem HasRule.remove?_ne_none {g : Grammar} {id : Nat} {r : Rule} (h : g.HasRule id r) (hid : id ≠ rootId) :
    g.remove? id ≠ none := by
  simp [remove?, h.rule?, h.isLive, hid]

/-- A removal leaves the contents of every rule as they are. -/
theorem rule?_remove {g h : Grammar} {id : Nat} (hremove : g.remove? id = some h) (other : Nat) :
    h.rule? other = g.rule? other := by
  obtain ⟨-, r, -, rfl⟩ := removed_of_remove hremove
  simp only [Grammar.rule?, mark, Array.getElem?_modify]
  split
  · cases g.slots[other]? <;> rfl
  · rfl

/-- A restoration puts one rule back into use. -/
theorem restored_of_restore {g h : Grammar} {id : Nat} (hrestore : g.restore? id = some h) :
    ∃ r, g.rule? id = some r ∧ h = { g.mark id true with
      byLhs := g.byLhs.put r.lhs ((g.byLhs.ids r.lhs).takeWhile (· < id) ++
        id :: (g.byLhs.ids r.lhs).dropWhile (· < id)) } := by
  unfold restore? at hrestore
  split at hrestore
  · contradiction
  · next r hr =>
    split at hrestore
    · contradiction
    · exact ⟨r, hr, (Option.some.inj hrestore).symm⟩

/-! Each operation and the index -/

/-- The grammar of the synthetic rule alone is indexed. -/
theorem indexed_new (start : Category) (root : String) (partsOfSpeech : Std.ExtTreeSet String) :
    (new start root partsOfSpeech).Indexed := by
  constructor
  · exact ⟨root, rfl⟩
  · intro lhs id
    rw [new]
    simp only [hasRule_insert]
    show id ∈ Index.ids (Index.push ∅ (Category.bare root) 0) lhs ↔ _
    rw [Index.ids_push]
    simp only [Index.ids_empty, HasRule, size]
    by_cases hlhs : Category.bare root = lhs
    · subst hlhs
      simp
    · simp [hlhs]

/-- A grammar with one rule more in use, which its index lists too, is indexed. -/
theorem Indexed.of_added {g h : Grammar} {id : Nat} {r : Rule} (hg : g.Indexed) (hstart : h.start = g.start)
    (hrule : ∀ {other s}, h.HasRule other s ↔ g.HasRule other s ∨ other = id ∧ s = r)
    (hbyLhs : ∀ {lhs other}, other ∈ h.byLhs.ids lhs ↔ other ∈ g.byLhs.ids lhs ∨ r.lhs = lhs ∧ other = id) :
    h.Indexed := by
  constructor
  · obtain ⟨name, hroot⟩ := hg.root
    rw [← hstart] at hroot
    exact ⟨name, hrule.mpr (.inl hroot)⟩
  · intro lhs other
    simp only [hbyLhs, hrule, hg.mem_byLhs]
    constructor
    · rintro (⟨s, hs, hslhs⟩ | ⟨hlhs, rfl⟩)
      · exact ⟨s, .inl hs, hslhs⟩
      · exact ⟨r, .inr ⟨rfl, rfl⟩, hlhs⟩
    · rintro ⟨s, hs | ⟨rfl, rfl⟩, hslhs⟩
      · exact .inl ⟨s, hs, hslhs⟩
      · exact .inr ⟨hslhs, rfl⟩

/-- An insertion keeps a grammar indexed. -/
theorem Indexed.insert {g : Grammar} (h : g.Indexed) (r : Rule) : (g.insert r).Indexed := by
  refine h.of_added rfl hasRule_insert fun {lhs id} => ?_
  show id ∈ (g.byLhs.push r.lhs g.size).ids lhs ↔ _
  rw [Index.ids_push]
  split
  · next hlhs => simp [hlhs]
  · next hlhs => simp [hlhs]

/-- A removal keeps a grammar indexed. -/
theorem Indexed.remove {g h : Grammar} {id : Nat} (hg : g.Indexed)
    (hremove : g.remove? id = some h) : h.Indexed := by
  obtain ⟨hid, r, hr, rfl⟩ := removed_of_remove hremove
  constructor
  · obtain ⟨name, hroot⟩ := hg.root
    exact ⟨name, (hasRule_remove hremove).mpr ⟨hroot, Ne.symm hid⟩⟩
  · intro lhs other
    simp only [hasRule_remove hremove, Index.ids_put]
    split
    · next hlhs =>
      subst hlhs
      simp only [List.mem_filter, hg.mem_byLhs, decide_eq_true_eq]
      constructor
      · rintro ⟨⟨s, hs, hslhs⟩, hne⟩
        exact ⟨s, ⟨hs, hne⟩, hslhs⟩
      · rintro ⟨s, ⟨hs, hne⟩, hslhs⟩
        exact ⟨⟨s, hs, hslhs⟩, hne⟩
    · next hlhs =>
      rw [hg.mem_byLhs]
      constructor
      · rintro ⟨s, hs, hslhs⟩
        refine ⟨s, ⟨hs, ?_⟩, hslhs⟩
        rintro rfl
        exact hlhs (hr.unique hs ▸ hslhs)
      · rintro ⟨s, ⟨hs, -⟩, hslhs⟩
        exact ⟨s, hs, hslhs⟩

/-- Marking a rule as in use puts it into use, and no other one. -/
theorem hasRule_mark_true {g : Grammar} {id other : Nat} {r s : Rule} (hr : g.rule? id = some r) :
    (g.mark id true).HasRule other s ↔ g.HasRule other s ∨ other = id ∧ s = r := by
  rw [hasRule_mark]
  split
  · next heq =>
    subst heq
    constructor
    · rintro ⟨hs, -⟩
      exact .inr ⟨rfl, Option.some.inj (hs.symm.trans hr)⟩
    · rintro (hs | ⟨-, rfl⟩)
      · exact ⟨hs.rule?, rfl⟩
      · exact ⟨hr, rfl⟩
  · next hne => simp [Ne.symm hne]

/-- A number is put in front of the larger ones, and none gets lost. -/
theorem mem_insertBefore {ids : List Nat} {id other : Nat} :
    other ∈ ids.takeWhile (· < id) ++ id :: ids.dropWhile (· < id) ↔ other ∈ ids ∨ other = id := by
  nth_rewrite 3 [← List.takeWhile_append_dropWhile (p := (· < id)) (l := ids)]
  simp only [List.mem_append, List.mem_cons]
  tauto

/-- A restoration keeps a grammar indexed. -/
theorem Indexed.restore {g h : Grammar} {id : Nat} (hg : g.Indexed)
    (hrestore : g.restore? id = some h) : h.Indexed := by
  obtain ⟨r, hr, rfl⟩ := restored_of_restore hrestore
  refine hg.of_added rfl (hasRule_mark_true hr) fun {lhs other} => ?_
  rw [Index.ids_put]
  split
  · next hlhs =>
    subst hlhs
    rw [mem_insertBefore, and_iff_right rfl]
  · next hlhs => simp [hlhs]

/-- Dropping the last slot takes its rule out of use. -/
theorem hasRule_pop {g : Grammar} {id : Nat} {s : Rule} :
    { g with slots := g.slots.pop }.HasRule id s ↔ g.HasRule id s ∧ id + 1 ≠ g.size := by
  simp only [HasRule, Array.getElem?_pop, size]
  split
  · next hlt => simp [Nat.ne_of_lt (Nat.add_lt_of_lt_sub hlt)]
  · next hge =>
    constructor
    · simp
    · rintro ⟨hslot, hne⟩
      have := Array.getElem?_eq_some_iff.mp hslot
      obtain ⟨hlt, -⟩ := this
      omega

/-- A retraction keeps a grammar indexed. -/
theorem Indexed.retract {g h : Grammar} {id : Nat} (hg : g.Indexed) (hid : id ≠ rootId)
    (hretract : g.retract id = .ok h) : h.Indexed := by
  unfold Grammar.retract at hretract
  split at hretract
  · contradiction
  · next hsize =>
    rw [Decidable.not_not] at hsize
    obtain rfl := Except.ok.inj hretract
    -- the last slot is vacated first, if its rule is still there
    have hkept : ((g.remove? id).getD g).Indexed ∧ ((g.remove? id).getD g).size = g.size ∧
        ∀ s, ¬((g.remove? id).getD g).HasRule id s := by
      cases hremove : g.remove? id with
      | some k =>
        refine ⟨hg.remove hremove, ?_, fun s hs => ((hasRule_remove hremove).mp hs).2 rfl⟩
        obtain ⟨-, r, -, rfl⟩ := removed_of_remove hremove
        simp [Option.getD_some, size, mark]
      | none =>
        refine ⟨hg, rfl, fun s hs => ?_⟩
        have hlive : g.HasRule id s := hs
        simp [remove?, hlive.rule?, hlive.isLive, hid] at hremove
    obtain ⟨hindexed, hsame, hgone⟩ := hkept
    have hrule (other : Nat) (s : Rule) :
        { (g.remove? id).getD g with slots := ((g.remove? id).getD g).slots.pop }.HasRule other s ↔
          ((g.remove? id).getD g).HasRule other s := by
      rw [hasRule_pop, hsame, ← hsize]
      refine ⟨And.left, fun hs => ⟨hs, fun heq => ?_⟩⟩
      obtain rfl : other = id := by omega
      exact hgone s hs
    constructor
    · obtain ⟨name, hroot⟩ := hindexed.root
      exact ⟨name, (hrule _ _).mpr hroot⟩
    · intro lhs other
      simp only [hrule]
      exact hindexed.mem_byLhs lhs other

/-- Every grammar that comes about is indexed. -/
theorem Reachable.indexed {g : Grammar} (h : g.Reachable) : g.Indexed := by
  induction h with
  | new start root partsOfSpeech => exact indexed_new start root partsOfSpeech
  | insert r _ ih => exact ih.insert r
  | remove _ hremove ih => exact ih.remove hremove
  | restore _ hrestore ih => exact ih.restore hrestore
  | retract _ hid hretract ih => exact ih.retract hid hretract
  | markExpanded c _ ih => exact ⟨ih.root, ih.mem_byLhs⟩

end IndexedGrammar.Grammar
