import IndexedGrammar.Proofs.Grammar.Ahead
import IndexedGrammar.Proofs.Grammar.Rewriting

/-!
# Changes of a grammar

Grammars with well-formed rules, without unit cycles and with a synthetic name that stands nowhere else
stay so when rules are removed, and when rules are inserted that are well-formed, close no unit cycle and do
not use the name.

Such changes can be taken back. The index of a grammar lists the rules of a category in ascending order, so
there is one place at which a removed rule can be put back. Retracting the rule inserted last, and restoring
the rule removed last, give back the grammar as it was.
-/

namespace IndexedGrammar

/-! Ascending numbers -/

section Ascending

variable {ids : List Nat} {id : Nat}

/-- Putting a new number in front of the larger ones keeps numbers ascending. -/
theorem pairwise_lt_insert (h : ids.Pairwise (· < ·)) (hid : id ∉ ids) :
    (ids.takeWhile (· < id) ++ id :: ids.dropWhile (· < id)).Pairwise (· < ·) := by
  induction ids with
  | nil => simp
  | cons first rest ih =>
    obtain ⟨hfirst, hrest⟩ := List.pairwise_cons.mp h
    obtain ⟨hne, hmem⟩ := not_or.mp (List.mem_cons.not.mp hid)
    by_cases hlt : first < id
    · rw [List.takeWhile_cons_of_pos (by simpa using hlt), List.dropWhile_cons_of_pos (by simpa using hlt),
        List.cons_append]
      refine List.pairwise_cons.mpr ⟨fun other hother => ?_, ih hrest hmem⟩
      rcases List.mem_append.mp hother with hbefore | hbehind
      · exact hfirst other (List.takeWhile_subset _ hbefore)
      · rcases List.mem_cons.mp hbehind with heq | hafter
        · exact heq ▸ hlt
        · exact hfirst other (List.dropWhile_subset _ hafter)
    · rw [List.takeWhile_cons_of_neg (by simpa using hlt), List.dropWhile_cons_of_neg (by simpa using hlt),
        List.nil_append]
      refine List.pairwise_cons.mpr ⟨fun other hother => ?_, h⟩
      rcases List.mem_cons.mp hother with heq | hmem'
      · omega
      · have hbeyond := hfirst other hmem'
        omega

/-- Taking a number out of ascending ones and putting it in front of the larger ones changes nothing. -/
theorem insert_filter_ne (h : ids.Pairwise (· < ·)) (hid : id ∈ ids) :
    (ids.filter (· ≠ id)).takeWhile (· < id) ++ id :: (ids.filter (· ≠ id)).dropWhile (· < id) = ids := by
  induction ids with
  | nil => exact absurd hid List.not_mem_nil
  | cons first rest ih =>
    obtain ⟨hfirst, hrest⟩ := List.pairwise_cons.mp h
    by_cases heq : first = id
    · subst heq
      have hkept : rest.filter (· ≠ first) = rest :=
        List.filter_eq_self.mpr fun other hother => decide_eq_true (Nat.ne_of_gt (hfirst other hother))
      rw [List.filter_cons_of_neg (by simp), hkept]
      cases rest with
      | nil => rfl
      | cons next more =>
        have hnext := hfirst next List.mem_cons_self
        rw [List.takeWhile_cons_of_neg (by simp; omega), List.dropWhile_cons_of_neg (by simp; omega),
          List.nil_append]
    · have hmem : id ∈ rest := (List.mem_cons.mp hid).resolve_left fun h => heq h.symm
      have hlt := hfirst id hmem
      rw [List.filter_cons_of_pos (by simpa using heq), List.takeWhile_cons_of_pos (by simpa using hlt),
        List.dropWhile_cons_of_pos (by simpa using hlt), List.cons_append, ih hrest hmem]

end Ascending

namespace Grammar

/-- A grammar that came about by changes, with well-formed rules, without unit cycles, and with a synthetic
name that stands nowhere else. -/
structure Fit (g : Grammar) : Prop where
  reachable : g.Reachable
  wellFormed : g.WellFormed
  acyclic : g.hasUnitCycle = false
  rootUnused : g.RootUnused

/-- The name of the synthetic rule's left-hand side does not stand in a rule. -/
def RootUnusedIn (g : Grammar) (r : Rule) : Prop :=
  ∀ root, g.rootRule? = some root →
    r.lhs.name ≠ root.lhs.name ∧ ∀ c ∈ r.rhs, c.name ≠ root.lhs.name

instance (g : Grammar) (r : Rule) : Decidable (g.RootUnusedIn r) :=
  inferInstanceAs (Decidable (∀ root ∈ g.rootRule?,
    r.lhs.name ≠ root.lhs.name ∧ ∀ c ∈ r.rhs, c.name ≠ root.lhs.name))

/-- The index of a grammar stores no empty list and lists numbers in ascending order. -/
structure Ordered (g : Grammar) : Prop where
  tidy : g.byLhs.Tidy
  ascending : ∀ lhs, (g.byLhs.ids lhs).Pairwise (· < ·)

variable {g g' : Grammar} {r : Rule} {id : Nat}

/-! Grammars that stay fit -/

/-- The synthetic name stands nowhere else after an insertion, if the rule does not use it. -/
theorem RootUnused.insert (h : g.RootUnused) (hg : g.Indexed) (hunused : g.RootUnusedIn r) :
    (g.insert r).RootUnused := by
  intro root hroot
  have hsame := (without_insert hg r).rule? rootId hg.size_ne_rootId.symm
  have hroot' : g.rootRule? = some root := hsame.trans hroot
  obtain ⟨hstart, hrules⟩ := h root hroot'
  refine ⟨hstart, fun id s hs => ?_⟩
  rw [rules_insert r hg.size_ne_rootId, List.mem_append, List.mem_singleton] at hs
  rcases hs with hold | hnew
  · exact hrules id s hold
  · exact (Prod.mk.inj hnew).2 ▸ hunused root hroot'

/-- An insertion leaves a fit grammar, if the rule is well-formed, closes no unit cycle and does not use the
synthetic name. -/
theorem Fit.insert (h : g.Fit) (hr : r.WellFormed) (hcycle : (g.insert r).hasUnitCycle = false)
    (hunused : g.RootUnusedIn r) : (g.insert r).Fit where
  reachable := h.reachable.insert r
  wellFormed id s hs := by
    rw [rules_insert r h.reachable.indexed.size_ne_rootId, List.mem_append, List.mem_singleton] at hs
    rcases hs with hold | hnew
    · exact h.wellFormed id s hold
    · exact (Prod.mk.inj hnew).2 ▸ hr
  acyclic := hcycle
  rootUnused := h.rootUnused.insert h.reachable.indexed hunused

/-- A removal leaves a fit grammar. -/
theorem Fit.remove (h : g.Fit) (hremove : g.remove? id = some g') : g'.Fit := by
  have hrules (other : Nat) (s : Rule) (hs : (other, s) ∈ g'.rules) : (other, s) ∈ g.rules := by
    obtain ⟨hroot, hlive⟩ := mem_rules_iff.mp hs
    exact mem_rules_iff.mpr ⟨hroot, ((hasRule_remove hremove).mp hlive).1⟩
  exact {
    reachable := h.reachable.remove hremove
    wellFormed := fun other s hs => h.wellFormed other s (hrules other s hs)
    acyclic := h.wellFormed.plain.hasUnitCycle_mono
      (fun other s hs => ⟨other, s, hrules other s hs, rfl, rfl⟩) h.acyclic
    rootUnused := (without_remove h.reachable.indexed hremove).rootUnused h.rootUnused }

/-! Changes that are taken back -/

/-- An insertion keeps an index ordered. -/
theorem Ordered.insert (h : g.Ordered) (hg : ∀ lhs, ∀ id ∈ g.byLhs.ids lhs, id < g.size) (r : Rule) :
    (g.insert r).Ordered where
  tidy := h.tidy.push _ _
  ascending lhs := by
    show ((g.byLhs.push r.lhs g.size).ids lhs).Pairwise (· < ·)
    rw [Index.ids_push]
    split
    · refine List.pairwise_append.mpr ⟨h.ascending lhs, by simp, fun id hid other hother => ?_⟩
      rw [List.mem_singleton.mp hother]
      exact hg lhs id hid
    · exact h.ascending lhs

/-- A removal keeps an index ordered. -/
theorem Ordered.remove (h : g.Ordered) (hremove : g.remove? id = some g') : g'.Ordered := by
  obtain ⟨-, r, -, rfl⟩ := removed_of_remove hremove
  refine ⟨h.tidy.put _ _, fun lhs => ?_⟩
  show ((g.byLhs.put r.lhs _).ids lhs).Pairwise (· < ·)
  rw [Index.ids_put]
  split
  · exact (h.ascending _).filter _
  · exact h.ascending lhs

/-- A restoration keeps an index ordered. -/
theorem Ordered.restore (h : g.Ordered) (hg : g.Indexed) (hrestore : g.restore? id = some g') :
    g'.Ordered := by
  have hnot (lhs : Category) : id ∉ g.byLhs.ids lhs := by
    intro hmem
    obtain ⟨s, hs, -⟩ := (hg.mem_byLhs lhs id).mp hmem
    simp [restore?, hs.rule?, hs.isLive] at hrestore
  obtain ⟨r, -, rfl⟩ := restored_of_restore hrestore
  refine ⟨h.tidy.put _ _, fun lhs => ?_⟩
  show ((g.byLhs.put r.lhs _).ids lhs).Pairwise (· < ·)
  rw [Index.ids_put]
  split
  · exact pairwise_lt_insert (h.ascending _) (hnot _)
  · exact h.ascending lhs

/-- The index of every grammar that comes about is ordered. -/
theorem Reachable.ordered (h : g.Reachable) : g.Ordered := by
  induction h with
  | new start root partsOfSpeech =>
    refine Ordered.insert ⟨Index.tidy_empty, fun lhs => ?_⟩ (fun lhs id hid => ?_) _
    · simp
    · simp at hid
  | insert r hg ih =>
    refine ih.insert (fun lhs id hid => ?_) r
    obtain ⟨s, hs, -⟩ := (hg.indexed.mem_byLhs lhs id).mp hid
    exact hs.lt_size
  | remove _ hremove ih => exact ih.remove hremove
  | restore hg hrestore ih => exact ih.restore hg.indexed hrestore
  | @retract g h id _ _ hretract ih =>
    unfold Grammar.retract at hretract
    split at hretract
    · contradiction
    · obtain rfl := Except.ok.inj hretract
      cases hremove : g.remove? id with
      | none => exact ⟨ih.tidy, ih.ascending⟩
      | some removed => exact ⟨(ih.remove hremove).tidy, (ih.remove hremove).ascending⟩
  | markExpanded c _ ih => exact ⟨ih.tidy, ih.ascending⟩

/-- Retracting the rule inserted last gives back the grammar. -/
theorem retract_insert (hg : g.Reachable) (r : Rule) : (g.insert r).retract g.size = .ok g := by
  have hr : (g.insert r).HasRule g.size r := hasRule_insert.mpr (.inr ⟨rfl, rfl⟩)
  have hsize : g.size + 1 = (g.insert r).size := by simp [size, insert]
  have hslots : ((g.slots.push ⟨r, true⟩).modify g.size fun slot => { slot with live := false }).pop =
      g.slots := by
    refine Array.ext_getElem? fun k => ?_
    simp only [Array.getElem?_pop, Array.getElem?_modify, Array.getElem?_push, Array.size_modify,
      Array.size_push, size]
    grind
  have hbyLhs : (g.byLhs.push r.lhs g.size).put r.lhs
      (((g.byLhs.push r.lhs g.size).ids r.lhs).filter (· ≠ g.size)) = g.byLhs := by
    refine ((hg.ordered.tidy.push _ _).put _ _).eq_of_ids hg.ordered.tidy fun lhs => ?_
    rw [Index.ids_put, Index.ids_push, Index.ids_push, if_pos rfl]
    split
    · next heq =>
      subst heq
      have hkept : (g.byLhs.ids r.lhs).filter (· ≠ g.size) = g.byLhs.ids r.lhs := by
        refine List.filter_eq_self.mpr fun id hid => decide_eq_true ?_
        obtain ⟨s, hs, -⟩ := (hg.indexed.mem_byLhs _ id).mp hid
        exact Nat.ne_of_lt hs.lt_size
      rw [List.filter_append, hkept]
      simp
    · rfl
  have hremove : (g.insert r).remove? g.size = some { (g.insert r).mark g.size false with
      byLhs := (g.insert r).byLhs.put r.lhs
        (((g.insert r).byLhs.ids r.lhs).filter (· ≠ g.size)) } := by
    rw [remove?, hr.rule?]
    simp [hr.isLive, hg.indexed.size_ne_rootId]
  unfold retract
  rw [if_neg (by simp [hsize]), hremove, Option.getD_some]
  simp only [insert, mark, hslots, hbyLhs]

/-- Restoring the rule removed last gives back the grammar. -/
theorem restore?_of_remove (hg : g.Reachable) (hremove : g.remove? id = some g') :
    g'.restore? id = some g := by
  have hlive : ¬g'.isLive id = true := by
    intro hlive
    obtain ⟨-, r, hr, -⟩ := removed_of_remove hremove
    have hstill : g'.HasRule id r := hasRule_iff.mpr ⟨(rule?_remove hremove id).trans hr.rule?, hlive⟩
    exact ((hasRule_remove hremove).mp hstill).2 rfl
  have hrule := rule?_remove hremove id
  obtain ⟨-, r, hr, rfl⟩ := removed_of_remove hremove
  have hslots : (g.slots.modify id fun slot => { slot with live := false }).modify id
      (fun slot => { slot with live := true }) = g.slots := by
    refine Array.ext_getElem? fun k => ?_
    rw [Array.getElem?_modify, Array.getElem?_modify]
    split
    · next heq =>
      have hslot : g.slots[k]? = some ⟨r, true⟩ := heq ▸ hr
      rw [hslot]
      rfl
    · rfl
  -- the numbers ascend, so that the rule finds its place among those of its category
  have hbyLhs : (g.byLhs.put r.lhs ((g.byLhs.ids r.lhs).filter (· ≠ id))).put r.lhs
      ((((g.byLhs.ids r.lhs).filter (· ≠ id)).takeWhile (· < id)) ++
        id :: (((g.byLhs.ids r.lhs).filter (· ≠ id)).dropWhile (· < id))) = g.byLhs := by
    refine ((hg.ordered.tidy.put _ _).put _ _).eq_of_ids hg.ordered.tidy fun lhs => ?_
    rw [Index.ids_put, Index.ids_put]
    split
    · next heq =>
      subst heq
      exact insert_filter_ne (hg.ordered.ascending _) ((hg.indexed.mem_byLhs _ id).mpr ⟨r, hr, rfl⟩)
    · rfl
  rw [restore?, hrule, hr.rule?]
  simp only [if_neg hlive]
  simp only [mark, hslots, Index.ids_put, if_true, hbyLhs]

end Grammar

end IndexedGrammar
