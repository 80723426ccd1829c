import IndexedGrammar.Proofs.Grammar.CycleSearch
import IndexedGrammar.Proofs.Grammar.Reachable
import IndexedGrammar.Proofs.Saturation

/-!
# Ranks of categories

The nullable categories are closed under the rules: a plain rule whose symbols can all be erased
makes its left-hand side nullable. In a grammar without unit cycles the categories can be ranked, so
that a rule leads to a lower rank wherever everything beside a symbol can be erased.
-/

namespace IndexedGrammar

/-- A rule with one symbol, which may be the empty category, or with two that are not empty. -/
def Rule.Plain (r : Rule) : Prop :=
  (∃ c, r.rhs = [c]) ∨
    ∃ first second, r.rhs = [first, second] ∧ first.isEpsilon = false ∧ second.isEpsilon = false

/-- A well-formed rule has one symbol, or two that are not empty. -/
theorem Rule.WellFormed.plain {r : Rule} (h : r.WellFormed) : r.Plain := by
  unfold Rule.WellFormed Rule.defect? at h
  unfold Rule.Plain
  cases hrhs : r.rhs with
  | nil => simp [hrhs] at h
  | cons first rest =>
    cases rest with
    | nil => exact .inl ⟨first, rfl⟩
    | cons second more =>
      cases more with
      | cons third more => simp [hrhs] at h
      | nil =>
        refine .inr ⟨first, second, rfl, ?_⟩
        by_contra hnot
        have hany : r.rhs.any Category.isEpsilon = true := by
          rw [hrhs]
          cases hfirst : first.isEpsilon <;> cases hsecond : second.isEpsilon <;> simp_all
        simp only [hrhs] at h hany
        by_cases hlhs : r.lhs.isEpsilon = true <;> simp [hany, hlhs] at h

/-- A well-formed rule has some symbol. -/
theorem Rule.WellFormed.rhs_ne_nil {r : Rule} (h : r.WellFormed) : r.rhs ≠ [] := by
  rcases h.plain with ⟨c, hrhs⟩ | ⟨first, second, hrhs, -⟩ <;> simp [hrhs]

/-- A well-formed rule does not expand the empty category. -/
theorem Rule.WellFormed.isEpsilon_lhs {r : Rule} (h : r.WellFormed) : r.lhs.isEpsilon = false := by
  unfold Rule.WellFormed Rule.defect? at h
  grind

namespace Grammar

variable {g : Grammar}

/-- The rules of a grammar but for the synthetic one are well-formed. -/
def WellFormed (g : Grammar) : Prop :=
  ∀ id r, (id, r) ∈ g.rules → r.WellFormed

/-- The rules of a grammar but for the synthetic one have one symbol, or two that are not empty. -/
def Plain (g : Grammar) : Prop :=
  ∀ id r, (id, r) ∈ g.rules → r.Plain

/-- Well-formed rules have one symbol, or two that are not empty. -/
theorem WellFormed.plain (h : g.WellFormed) : g.Plain :=
  fun id r hr => (h id r hr).plain

/-- A symbol that can be erased: the empty category, or a nullable one. -/
def Erasable (g : Grammar) (c : Category) : Prop :=
  c.isEpsilon = true ∨ c ∈ g.nullables

/-- Knowing more categories to be nullable, a rule stays nullable. -/
theorem isNullableFor_mono {s t : CategorySet} (hst : ∀ a ∈ s, a ∈ t) {r : Rule}
    (h : r.isNullableFor s = true) : r.isNullableFor t = true := by
  simp only [Rule.isNullableFor, Bool.or_eq_true, List.all_eq_true] at h ⊢
  exact h.imp_right fun hall c hc =>
    Std.ExtTreeSet.mem_iff_contains.mp (hst c (Std.ExtTreeSet.mem_iff_contains.mpr (hall c hc)))

/-- A pass for nullable categories adds the left-hand sides of the rules that are nullable by then. -/
theorem nullablePass_eq (g : Grammar) : g.nullablePass = addTargets
    (fun known numbered => numbered.2.isNullableFor known) (fun numbered => numbered.2.lhs) g.rules :=
  rfl

/-- A rule that is nullable for the nullable categories has a nullable left-hand side. -/
theorem lhs_mem_nullables {id : Nat} {r : Rule} (hr : (id, r) ∈ g.rules)
    (h : r.isNullableFor g.nullables = true) : r.lhs ∈ g.nullables := by
  have hmono (s t : CategorySet) (numbered : Nat × Rule) (hst : ∀ a ∈ s, a ∈ t) :
      numbered.2.isNullableFor s = true → numbered.2.isNullableFor t = true :=
    isNullableFor_mono hst
  unfold nullables at h ⊢
  rw [nullablePass_eq] at h ⊢
  have hclosed := @target_mem_saturate _ _ _ _ _ _
    (fun known numbered => numbered.2.isNullableFor known) (fun numbered => numbered.2.lhs) g.rules ∅
    hmono (id, r) hr
  exact hclosed h

/-- The nullable categories are closed under the rules. -/
theorem nullables_closed {id : Nat} {r : Rule} (hr : (id, r) ∈ g.rules)
    (hall : r.isEpsilon = true ∨ ∀ c ∈ r.rhs, c ∈ g.nullables) : r.lhs ∈ g.nullables := by
  refine lhs_mem_nullables hr ?_
  simp only [Rule.isNullableFor, Bool.or_eq_true, List.all_eq_true]
  exact hall.imp_right fun hall c hc => Std.ExtTreeSet.mem_iff_contains.mp (hall c hc)

/-- The nullable categories are the fewest that are closed under the rules. -/
theorem nullables_induction {motive : Category → Prop}
    (hrule : ∀ {id : Nat} {r : Rule}, (id, r) ∈ g.rules →
      (r.isEpsilon = true ∨ ∀ c ∈ r.rhs, motive c) → motive r.lhs)
    {c : Category} (hc : c ∈ g.nullables) : motive c := by
  unfold nullables at hc
  rw [nullablePass_eq] at hc
  revert c
  refine saturate_induction (motive := fun known => ∀ {c}, c ∈ known → motive c)
    (fun known hknown => ?_) _ fun hc => absurd hc Std.ExtTreeSet.not_mem_empty
  refine addTargets_induction (motive := fun known => ∀ {c}, c ∈ known → motive c) hknown ?_
  intro known numbered hmem hnullable ih c hc
  rcases Std.ExtTreeSet.mem_insert.mp hc with heq | hold
  · obtain rfl := Std.compare_eq_iff_eq.mp heq
    simp only [Rule.isNullableFor, Bool.or_eq_true, List.all_eq_true] at hnullable
    exact hrule hmem (hnullable.imp_right fun hall d hd =>
      ih (Std.ExtTreeSet.mem_iff_contains.mpr (hall d hd)))
  · exact ih hold

/-- A plain rule whose symbols can all be erased has a nullable left-hand side. -/
theorem lhs_mem_nullables_of_erasable {id : Nat} {r : Rule} (hr : (id, r) ∈ g.rules)
    (hplain : r.Plain) (h : ∀ c ∈ r.rhs, g.Erasable c) : r.lhs ∈ g.nullables := by
  have hmem {c : Category} (hc : c ∈ r.rhs) (hempty : c.isEpsilon = false) : c ∈ g.nullables :=
    (h c hc).resolve_left (by simp [hempty])
  refine nullables_closed hr ?_
  rcases hplain with ⟨c, hrhs⟩ | ⟨first, second, hrhs, hfirst, hsecond⟩
  · cases hempty : c.isEpsilon with
    | true => exact .inl (by simp [Rule.isEpsilon, hrhs, hempty])
    | false =>
      refine .inr fun d hd => ?_
      obtain rfl : d = c := by simpa [hrhs] using hd
      exact hmem hd hempty
  · refine .inr fun d hd => hmem hd ?_
    rw [hrhs] at hd
    rcases List.mem_cons.mp hd with rfl | hd
    · exact hfirst
    · rwa [List.mem_singleton.mp hd]

/-- A symbol of a plain rule is a unit step away if everything beside it can be erased. -/
theorem mem_unitTargets_of_erasable {r : Rule} (hplain : r.Plain) {i : Nat} {c : Category}
    (hc : r.rhs[i]? = some c) (hempty : c.isEpsilon = false)
    (h : ∀ j d, j ≠ i → r.rhs[j]? = some d → g.Erasable d) : c ∈ r.unitTargets g.nullables := by
  rcases hplain with ⟨b, hrhs⟩ | ⟨first, second, hrhs, hfirst, hsecond⟩
  · obtain rfl : b = c := by
      have hmem := List.mem_of_getElem? hc
      simpa [hrhs, eq_comm] using hmem
    simp [Rule.unitTargets, Rule.isEpsilon, hrhs, hempty]
  · have hbeside {d : Category} {j : Nat} (hj : j ≠ i) (hd : r.rhs[j]? = some d)
        (hd' : d.isEpsilon = false) : g.nullables.contains d = true :=
      Std.ExtTreeSet.mem_iff_contains.mp ((h j d hj hd).resolve_left (by simp [hd']))
    cases i with
    | zero =>
      have hcontains := hbeside Nat.one_ne_zero (by rw [hrhs]; rfl) hsecond
      obtain rfl : first = c := by simpa [hrhs] using hc
      simp [Rule.unitTargets, Rule.isEpsilon, hrhs, hcontains]
    | succ i =>
      cases i with
      | succ i => simp [hrhs] at hc
      | zero =>
        have hcontains := hbeside Nat.zero_ne_one (by rw [hrhs]; rfl) hfirst
        obtain rfl : second = c := by simpa [hrhs] using hc
        simp [Rule.unitTargets, Rule.isEpsilon, hrhs, hcontains]

/-- The unit steps that are searched are those of the rules. -/
theorem leads_unitGraph_iff {a b : Category} :
    g.unitGraph.Leads a b ↔ ∃ id r, (id, r) ∈ g.rules ∧ r.lhs = a ∧ b ∈ r.unitTargets g.nullables := by
  have hfold (rules : List (Nat × Rule)) (graph : UnitGraph) :
      UnitGraph.Leads (rules.foldl (fun (graph : UnitGraph) numbered =>
          graph.insert numbered.2.lhs
            (graph.targets numbered.2.lhs ++ numbered.2.unitTargets g.nullables)) graph) a b ↔
        graph.Leads a b ∨ ∃ id r, (id, r) ∈ rules ∧ r.lhs = a ∧ b ∈ r.unitTargets g.nullables := by
    induction rules generalizing graph with
    | nil => simp
    | cons numbered rules ih =>
      obtain ⟨id, r⟩ := numbered
      have hfirst : UnitGraph.Leads (graph.insert r.lhs (graph.targets r.lhs ++ r.unitTargets g.nullables)) a b ↔
          graph.Leads a b ∨ r.lhs = a ∧ b ∈ r.unitTargets g.nullables := by
        unfold UnitGraph.Leads UnitGraph.targets
        rw [Std.ExtTreeMap.getD_insert]
        by_cases hlhs : r.lhs = a
        · subst hlhs
          simp
        · simp [hlhs]
      rw [List.foldl_cons, ih, hfirst, or_assoc]
      refine or_congr_right ⟨?_, ?_⟩
      · rintro (⟨hlhs, hb⟩ | ⟨id', r', hr', hlhs, hb⟩)
        · exact ⟨id, r, List.mem_cons_self, hlhs, hb⟩
        · exact ⟨id', r', List.mem_cons_of_mem _ hr', hlhs, hb⟩
      · rintro ⟨id', r', hr', hlhs, hb⟩
        rcases List.mem_cons.mp hr' with heq | hr'
        · obtain ⟨rfl, rfl⟩ := Prod.mk.inj heq
          exact .inl ⟨hlhs, hb⟩
        · exact .inr ⟨id', r', hr', hlhs, hb⟩
  refine (hfold g.rules ∅).trans (or_iff_right fun hempty => ?_)
  rw [UnitGraph.Leads, UnitGraph.targets, Std.ExtTreeMap.getD_empty] at hempty
  exact List.not_mem_nil hempty

/-- A ranking of the categories: a rule leads to a lower rank wherever everything beside a symbol can be
erased. -/
def Ranked (g : Grammar) (rank : Category → Nat) : Prop :=
  ∀ {id : Nat} {r : Rule} {i : Nat} {c : Category}, (id, r) ∈ g.rules → r.rhs[i]? = some c →
    c.isEpsilon = false → (∀ j d, j ≠ i → r.rhs[j]? = some d → g.Erasable d) → rank c < rank r.lhs

/-- The categories of a grammar without unit cycles can be ranked. -/
theorem exists_ranked (hwell : g.WellFormed) (h : g.hasUnitCycle = false) :
    ∃ rank : Category → Nat, g.Ranked rank := by
  obtain ⟨rank, hrank⟩ := UnitGraph.exists_rank_of_hasCycle h
  exact ⟨rank, fun {id r i c} hr hc hempty hbeside => hrank _ _ (leads_unitGraph_iff.mpr
    ⟨id, r, hr, rfl, mem_unitTargets_of_erasable (hwell.plain id r hr) hc hempty hbeside⟩)⟩

end Grammar

end IndexedGrammar
