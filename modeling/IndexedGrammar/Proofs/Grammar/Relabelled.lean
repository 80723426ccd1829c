import IndexedGrammar.Proofs.Schema.Renamed
import Mathlib.Data.List.Basic
import Mathlib.Data.Set.Function

/-!
# Grammars that are the same up to names

Renaming the categories of all rules one to one, and keeping the empty category, renames the nullable
categories and the unit steps. So there is a unit cycle among the new rules exactly if there was one.
-/

namespace IndexedGrammar

variable {f : Category → Category} {within : Set Category}

/-! Cycles -/

/-- A way along steps between renamed categories is a way along the steps between the categories. -/
theorem exists_transGen_of_map {leads leads' : Category → Category → Prop} (hf : Set.InjOn f within)
    (hleads : ∀ a' b', leads' a' b' → ∃ a b, leads a b ∧ (a ∈ within ∧ b ∈ within) ∧ f a = a' ∧ f b = b')
    {a' b' : Category} (h : Relation.TransGen leads' a' b') :
    ∃ a b, Relation.TransGen leads a b ∧ (a ∈ within ∧ b ∈ within) ∧ f a = a' ∧ f b = b' := by
  induction h with
  | single hstep =>
    obtain ⟨a, b, hab, hwithin, ha, hb⟩ := hleads _ _ hstep
    exact ⟨a, b, .single hab, hwithin, ha, hb⟩
  | tail _ hstep ih =>
    obtain ⟨a, b, hab, ⟨ha, hb⟩, rfl, rfl⟩ := ih
    obtain ⟨d, c, hdc, ⟨hd, hc⟩, heq, rfl⟩ := hleads _ _ hstep
    obtain rfl := hf hd hb heq
    exact ⟨a, c, hab.tail hdc, ⟨ha, hc⟩, rfl, rfl⟩

/-! Rules -/

/-- A renaming of the categories within a set that keeps them apart and keeps the empty category. -/
structure Category.Relabels (names : String → String) (within : Set Category) : Prop where
  injOn : Set.InjOn (·.renamed names) within
  isEpsilon : ∀ c ∈ within, (c.renamed names).isEpsilon = c.isEpsilon

/-- A grammar with all categories of another one renamed: those of its rules, which are within a set, and those
that were expanded. -/
structure Grammar.Relabelled (names : String → String) (within : Set Category) (g g' : Grammar) : Prop where
  start_eq : g'.start = g.start
  partsOfSpeech_eq : g'.partsOfSpeech = g.partsOfSpeech
  slots_eq : g'.slots = g.slots.map fun slot => { slot with rule := slot.rule.renamed names }
  mem_expanded : ∀ {c}, c ∈ g'.expanded ↔ ∃ d ∈ g.expanded, d.renamed names = c
  within : ∀ slot ∈ g.slots, ∀ c ∈ slot.rule.lhs :: slot.rule.rhs, c ∈ within

variable {names : String → String}

/-- A renamed rule expands to the empty category if the rule did. -/
theorem Category.Relabels.isEpsilon_rule (hnames : Category.Relabels names within) {r : Rule}
    (hr : ∀ c ∈ r.lhs :: r.rhs, c ∈ within) : (r.renamed names).isEpsilon = r.isEpsilon := by
  unfold Rule.isEpsilon Rule.renamed
  rcases hrhs : r.rhs with _ | ⟨c, _ | ⟨d, rest⟩⟩
  · rfl
  · exact hnames.isEpsilon c (hr c (by simp [hrhs]))
  · rfl

/-! Nullable categories and unit steps -/

/-- A unit step of a rule leads to one of its symbols. -/
theorem mem_rhs_of_mem_unitTargets {nullables : CategorySet} {r : Rule} {c : Category}
    (hc : c ∈ r.unitTargets nullables) : c ∈ r.rhs := by
  unfold Rule.unitTargets at hc
  split at hc
  · exact absurd hc List.not_mem_nil
  · split at hc
    · next hrhs => exact hrhs ▸ hc
    · next first second hrhs =>
      rw [hrhs]
      rcases List.mem_append.mp hc with hc | hc
      · split at hc
        · exact List.mem_singleton.mp hc ▸ List.mem_cons_self
        · exact absurd hc List.not_mem_nil
      · split at hc
        · exact List.mem_singleton.mp hc ▸ List.mem_cons_of_mem _ List.mem_cons_self
        · exact absurd hc List.not_mem_nil
    · exact absurd hc List.not_mem_nil

namespace Grammar.Relabelled

variable {g g' : Grammar} (hnames : Category.Relabels names within) (h : g.Relabelled names within g')
include h

/-- The rules are renamed under their numbers. -/
theorem rules_eq : g'.rules = g.rules.map fun numbered => (numbered.1, numbered.2.renamed names) := by
  unfold rules numbered
  rw [h.slots_eq, Array.toList_map, List.zipIdx_map, List.map_map, List.map_filterMap, List.filterMap_map,
    List.filterMap_map]
  refine List.filterMap_congr fun placed _ => ?_
  dsimp only [Function.comp_apply, Prod.map_fst, Prod.map_snd, id]
  split <;> rfl

/-- The rules in use are renamed under their numbers. -/
theorem hasRule_iff {id : Nat} {r' : Rule} :
    g'.HasRule id r' ↔ ∃ r, g.HasRule id r ∧ r.renamed names = r' := by
  unfold HasRule
  rw [h.slots_eq, Array.getElem?_map, Option.map_eq_some_iff]
  constructor
  · rintro ⟨⟨r, live⟩, hslot, heq⟩
    obtain ⟨rfl, rfl⟩ := Slot.mk.inj heq
    exact ⟨r, hslot, rfl⟩
  · rintro ⟨r, hslot, rfl⟩
    exact ⟨_, hslot, rfl⟩

/-- The categories of a rule in use are within the set. -/
theorem within_of_hasRule {id : Nat} {r : Rule} (hr : g.HasRule id r) : ∀ c ∈ r.lhs :: r.rhs, c ∈ within :=
  h.within _ (Array.mem_of_getElem? hr)

/-- The categories of a listed rule are within the set. -/
theorem within_of_mem_rules {id : Nat} {r : Rule} (hr : (id, r) ∈ g.rules) :
    ∀ c ∈ r.lhs :: r.rhs, c ∈ within :=
  h.within_of_hasRule (mem_rules_iff.mp hr).2

/-- A nullable category is within the set. -/
theorem mem_of_mem_nullables {c : Category} (hc : c ∈ g.nullables) : c ∈ within :=
  nullables_induction (motive := (· ∈ within)) (fun hr _ => h.within_of_mem_rules hr _ List.mem_cons_self) hc

include hnames

/-- The nullable categories are renamed. -/
theorem mem_nullables {c : Category} (hc : c ∈ within) : c.renamed names ∈ g'.nullables ↔ c ∈ g.nullables := by
  constructor
  · intro hnew
    -- by induction on how the renamed category becomes nullable
    suffices hback : ∃ d ∈ g.nullables, d.renamed names = c.renamed names by
      obtain ⟨d, hd, heq⟩ := hback
      exact hnames.injOn (h.mem_of_mem_nullables hd) hc heq ▸ hd
    refine nullables_induction (motive := fun c' => ∃ d ∈ g.nullables, d.renamed names = c') ?_ hnew
    intro id r' hr' hall
    rw [h.rules_eq, List.mem_map] at hr'
    obtain ⟨⟨_, r⟩, hr, heq⟩ := hr'
    obtain ⟨rfl, rfl⟩ := Prod.mk.inj heq
    have hwithin := h.within_of_mem_rules hr
    refine ⟨r.lhs, nullables_closed hr (hall.imp (fun hempty => ?_) fun hall d hd => ?_), rfl⟩
    · rwa [hnames.isEpsilon_rule hwithin] at hempty
    · obtain ⟨e, he, heq⟩ := hall _ (List.mem_map_of_mem hd)
      exact hnames.injOn (h.mem_of_mem_nullables he) (hwithin d (List.mem_cons_of_mem _ hd)) heq ▸ he
  · intro hold
    refine nullables_induction (motive := fun c => c.renamed names ∈ g'.nullables) ?_ hold
    intro id r hr hall
    have hr' : (id, r.renamed names) ∈ g'.rules := by
      rw [h.rules_eq]
      exact List.mem_map_of_mem hr
    refine nullables_closed hr' (hall.imp (fun hempty => ?_) fun hall d' hd' => ?_)
    · rwa [hnames.isEpsilon_rule (h.within_of_mem_rules hr)]
    · obtain ⟨d, hd, rfl⟩ := List.mem_map.mp hd'
      exact hall d hd

/-- The unit steps of a rule are renamed. -/
theorem unitTargets_rule {id : Nat} {r : Rule} (hr : (id, r) ∈ g.rules) :
    (r.renamed names).unitTargets g'.nullables = (r.unitTargets g.nullables).map (·.renamed names) := by
  have hcontains {c : Category} (hc : c ∈ r.rhs) :
      g'.nullables.contains (c.renamed names) = g.nullables.contains c := by
    rw [Bool.eq_iff_iff, ← Std.ExtTreeSet.mem_iff_contains, ← Std.ExtTreeSet.mem_iff_contains,
      h.mem_nullables hnames (h.within_of_mem_rules hr c (List.mem_cons_of_mem _ hc))]
  unfold Rule.unitTargets
  rw [hnames.isEpsilon_rule (h.within_of_mem_rules hr)]
  cases r.isEpsilon with
  | true => rfl
  | false =>
    unfold Rule.renamed
    rcases hrhs : r.rhs with _ | ⟨first, _ | ⟨second, _ | ⟨third, rest⟩⟩⟩
    · rfl
    · rfl
    · have hfirst := hcontains (c := first) (by simp [hrhs])
      have hsecond := hcontains (c := second) (by simp [hrhs])
      simp only [Bool.false_eq_true, if_false, List.map_cons, List.map_nil, hfirst, hsecond, List.map_append]
      cases g.nullables.contains first <;> cases g.nullables.contains second <;> rfl
    · rfl

/-- Unit steps lead from the renamed categories to the renamed categories to which they led. -/
theorem leads_unitGraph {a b : Category} (hab : g.unitGraph.Leads a b) :
    g'.unitGraph.Leads (a.renamed names) (b.renamed names) := by
  obtain ⟨id, r, hr, rfl, hb⟩ := leads_unitGraph_iff.mp hab
  refine leads_unitGraph_iff.mpr ⟨id, r.renamed names, ?_, rfl, ?_⟩
  · rw [h.rules_eq]
    exact List.mem_map_of_mem hr
  · rw [h.unitTargets_rule hnames hr]
    exact List.mem_map_of_mem hb

/-- Every unit step is one between renamed categories. -/
theorem exists_leads_unitGraph {a' b' : Category} (hab : g'.unitGraph.Leads a' b') :
    ∃ a b, g.unitGraph.Leads a b ∧ (a ∈ within ∧ b ∈ within) ∧ a.renamed names = a' ∧ b.renamed names = b' := by
  obtain ⟨id, r', hr', rfl, hb⟩ := leads_unitGraph_iff.mp hab
  rw [h.rules_eq] at hr'
  obtain ⟨⟨id, r⟩, hr, heq⟩ := List.mem_map.mp hr'
  obtain ⟨rfl, rfl⟩ := Prod.mk.inj heq
  rw [h.unitTargets_rule hnames hr] at hb
  obtain ⟨b, htarget, rfl⟩ := List.mem_map.mp hb
  have hwithin := h.within_of_mem_rules hr
  exact ⟨r.lhs, b, leads_unitGraph_iff.mpr ⟨id, r, hr, rfl, htarget⟩, ⟨hwithin _ List.mem_cons_self,
    hwithin _ (List.mem_cons_of_mem _ (mem_rhs_of_mem_unitTargets htarget))⟩, rfl, rfl⟩

/-- There is a unit cycle among the new rules exactly if there was one. -/
theorem hasUnitCycle_eq : g'.hasUnitCycle = g.hasUnitCycle := by
  refine Bool.eq_iff_iff.mpr ((UnitGraph.hasCycle_iff.trans ⟨?_, ?_⟩).trans UnitGraph.hasCycle_iff.symm)
  · rintro ⟨c', hc'⟩
    obtain ⟨a, b, hab, ⟨ha, hb⟩, heq, heq'⟩ :=
      exists_transGen_of_map hnames.injOn (fun _ _ => h.exists_leads_unitGraph hnames) hc'
    obtain rfl := hnames.injOn ha hb (heq.trans heq'.symm)
    exact ⟨a, hab⟩
  · rintro ⟨c, hc⟩
    exact ⟨c.renamed names, hc.lift (Category.renamed names) fun _ _ => h.leads_unitGraph hnames⟩

/-- A renamed production is there if the production was. -/
theorem containsProduction_eq (hg : g.Indexed) (hg' : g'.Indexed) {lhs : Category} {rhs : List Category}
    (hwithin : ∀ c ∈ lhs :: rhs, c ∈ within) :
    g'.containsProduction (lhs.renamed names) (rhs.map (·.renamed names)) = g.containsProduction lhs rhs := by
  obtain ⟨hlhs, hrhs⟩ := List.forall_mem_cons.mp hwithin
  rw [Bool.eq_iff_iff, hg'.containsProduction_iff, hg.containsProduction_iff]
  constructor
  · rintro ⟨id, r', hr', hlhs', hrhs'⟩
    obtain ⟨r, hr, rfl⟩ := h.hasRule_iff.mp hr'
    obtain ⟨hrlhs, hrrhs⟩ := List.forall_mem_cons.mp (h.within_of_hasRule hr)
    exact ⟨id, r, hr, hnames.injOn hrlhs hlhs hlhs', eq_of_map_eq hnames.injOn hrrhs hrhs hrhs'⟩
  · rintro ⟨id, r, hr, rfl, rfl⟩
    exact ⟨id, _, h.hasRule_iff.mpr ⟨r, hr, rfl⟩, rfl, rfl⟩

omit hnames

/-- Inserting a rule in one grammar and the renamed rule in the other. -/
theorem insert {r : Rule} (hr : ∀ c ∈ r.lhs :: r.rhs, c ∈ within) :
    (g.insert r).Relabelled names within (g'.insert (r.renamed names)) where
  start_eq := h.start_eq
  partsOfSpeech_eq := h.partsOfSpeech_eq
  slots_eq := by
    rw [Grammar.insert, Grammar.insert, h.slots_eq, Array.map_push]
  mem_expanded := h.mem_expanded
  within slot hslot := by
    rcases Array.mem_push.mp hslot with hold | rfl
    · exact h.within slot hold
    · exact hr

/-- Noting that a category was expanded in one grammar and the renamed category in the other. -/
theorem markExpanded (c : Category) :
    (g.markExpanded c).Relabelled names within (g'.markExpanded (c.renamed names)) where
  start_eq := h.start_eq
  partsOfSpeech_eq := h.partsOfSpeech_eq
  slots_eq := h.slots_eq
  mem_expanded {d} := by
    simp only [Grammar.markExpanded, Std.ExtTreeSet.mem_insert, Std.compare_eq_iff_eq, h.mem_expanded,
      or_and_right, exists_or, exists_eq_left']
  within := h.within

end Grammar.Relabelled

end IndexedGrammar
