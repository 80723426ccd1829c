import IndexedGrammar.Proofs.Grammar.UnitCycle

/-!
# Categories that rewrite to themselves

A category rewrites to one symbol of a rule when everything beside that symbol can be rewritten to nothing.
In a grammar whose rules are plain, the unit steps are exactly these rewritings, so there is a unit cycle
exactly if some category rewrites to itself.
-/

namespace IndexedGrammar

namespace Grammar

/-- Categories that can be rewritten to nothing. -/
inductive Vanishes (g : Grammar) : Category → Prop
  | epsilon {c : Category} : c.isEpsilon = true → Vanishes g c
  | rule {id : Nat} {r : Rule} : (id, r) ∈ g.rules → (∀ c ∈ r.rhs, Vanishes g c) → Vanishes g r.lhs

/-- One category rewrites to another by a rule, everything beside it being rewritten to nothing. -/
def UnitStep (g : Grammar) (a b : Category) : Prop :=
  b.isEpsilon = false ∧ ∃ id r before after, (id, r) ∈ g.rules ∧ r.lhs = a ∧
    r.rhs = before ++ b :: after ∧ ∀ c ∈ before ++ after, g.Vanishes c

/-- A category rewrites to itself in one or more steps. -/
def RewritesToItself (g : Grammar) (c : Category) : Prop :=
  Relation.TransGen g.UnitStep c c

variable {g : Grammar} {a b c : Category}

/-- Nullable categories can be rewritten to nothing. -/
theorem vanishes_of_mem_nullables (hc : c ∈ g.nullables) : g.Vanishes c := by
  refine nullables_induction (motive := g.Vanishes) (fun {id r} hr hall => .rule hr ?_) hc
  rcases hall with hepsilon | hall
  · intro d hd
    unfold Rule.isEpsilon at hepsilon
    split at hepsilon
    · next only hrhs =>
      obtain rfl : d = only := by simpa [hrhs] using hd
      exact .epsilon hepsilon
    · contradiction
  · exact hall

/-- In a grammar of plain rules, what can be rewritten to nothing is the empty category or nullable. -/
theorem vanishes_iff_erasable (hplain : g.Plain) : g.Vanishes c ↔ g.Erasable c := by
  constructor
  · intro h
    induction h with
    | epsilon hempty => exact .inl hempty
    | rule hr _ ih => exact .inr (lhs_mem_nullables_of_erasable hr (hplain _ _ hr) ih)
  · intro h
    rcases h with hempty | hnullable
    · exact .epsilon hempty
    · exact vanishes_of_mem_nullables hnullable

/-- The unit steps of a plain rule lead to a symbol that is not empty, all others being nullable. -/
theorem exists_split_of_mem_unitTargets {r : Rule} (hplain : r.Plain) (h : b ∈ r.unitTargets g.nullables) :
    b.isEpsilon = false ∧
      ∃ before after, r.rhs = before ++ b :: after ∧ ∀ c ∈ before ++ after, g.Vanishes c := by
  have hvanishes {d : Category} (hd : g.nullables.contains d = true) : g.Vanishes d :=
    vanishes_of_mem_nullables (Std.ExtTreeSet.mem_iff_contains.mpr hd)
  rcases hplain with ⟨only, hrhs⟩ | ⟨first, second, hrhs, hfirst, hsecond⟩
  · cases hempty : only.isEpsilon with
    | true => simp [Rule.unitTargets, Rule.isEpsilon, hrhs, hempty] at h
    | false =>
      obtain rfl : b = only := by simpa [Rule.unitTargets, Rule.isEpsilon, hrhs, hempty] using h
      exact ⟨hempty, [], [], hrhs, by simp⟩
  · simp only [Rule.unitTargets, Rule.isEpsilon, hrhs, Bool.false_eq_true, if_false, List.mem_append] at h
    rcases h with h | h
    · obtain ⟨hcontains, rfl⟩ : g.nullables.contains second = true ∧ b = first := by simpa using h
      exact ⟨hfirst, [], [second], hrhs, by simpa using hvanishes hcontains⟩
    · obtain ⟨hcontains, rfl⟩ : g.nullables.contains first = true ∧ b = second := by simpa using h
      exact ⟨hsecond, [first], [], hrhs, by simpa using hvanishes hcontains⟩

/-- In a grammar of plain rules, the unit steps are the rewritings of one category to another. -/
theorem leads_iff_unitStep (hplain : g.Plain) : g.unitGraph.Leads a b ↔ g.UnitStep a b := by
  rw [leads_unitGraph_iff]
  constructor
  · rintro ⟨id, r, hr, hlhs, hstep⟩
    obtain ⟨hempty, before, after, hrhs, hbeside⟩ := exists_split_of_mem_unitTargets (hplain id r hr) hstep
    exact ⟨hempty, id, r, before, after, hr, hlhs, hrhs, hbeside⟩
  · intro h
    obtain ⟨hempty, id, r, before, after, hr, rfl, hrhs, hbeside⟩ := h
    refine ⟨id, r, hr, rfl, mem_unitTargets_of_erasable (hplain id r hr)
      (i := before.length) (by simp [hrhs]) hempty fun j d hj hd => ?_⟩
    rw [hrhs] at hd
    refine (vanishes_iff_erasable hplain).mp (hbeside d (List.mem_append.mpr ?_))
    rcases Nat.lt_or_gt_of_ne hj with hlt | hgt
    · rw [List.getElem?_append_left hlt] at hd
      exact .inl (List.mem_of_getElem? hd)
    · obtain ⟨k, hk⟩ := Nat.exists_eq_add_of_lt hgt
      rw [List.getElem?_append_right (Nat.le_of_lt hgt), hk,
        Nat.add_assoc, Nat.add_sub_cancel_left, List.getElem?_cons_succ] at hd
      exact .inr (List.mem_of_getElem? hd)

/-- A grammar of plain rules has a unit cycle exactly if some category rewrites to itself. -/
theorem hasUnitCycle_iff (hplain : g.Plain) :
    g.hasUnitCycle = true ↔ ∃ c, g.RewritesToItself c := by
  have hsame : g.unitGraph.Leads = g.UnitStep :=
    funext fun a => funext fun b => propext (leads_iff_unitStep hplain)
  rw [hasUnitCycle, UnitGraph.hasCycle_iff, hsame]
  rfl

/-- Every production of a grammar is one of another grammar, under whatever number. -/
def ProductionsIn (g g' : Grammar) : Prop :=
  ∀ id r, (id, r) ∈ g.rules → ∃ id' r', (id', r') ∈ g'.rules ∧ r'.lhs = r.lhs ∧ r'.rhs = r.rhs

/-- With more productions, more can be rewritten to nothing. -/
theorem Vanishes.mono {g' : Grammar} (hrules : g.ProductionsIn g') (h : g.Vanishes c) : g'.Vanishes c := by
  induction h with
  | epsilon hempty => exact .epsilon hempty
  | rule hr _ ih =>
    obtain ⟨id', r', hr', hlhs, hrhs⟩ := hrules _ _ hr
    exact hlhs ▸ .rule hr' fun d hd => ih d (hrhs ▸ hd)

/-- With more productions, there are more unit steps. -/
theorem UnitStep.mono {g' : Grammar} (hrules : g.ProductionsIn g') (h : g.UnitStep a b) :
    g'.UnitStep a b := by
  obtain ⟨hempty, id, r, before, after, hr, hlhs, hrhs, hbeside⟩ := h
  obtain ⟨id', r', hr', hlhs', hrhs'⟩ := hrules id r hr
  exact ⟨hempty, id', r', before, after, hr', hlhs'.trans hlhs, hrhs'.trans hrhs,
    fun c hc => (hbeside c hc).mono hrules⟩

/-- Taking plain rules away closes no unit cycle. -/
theorem Plain.hasUnitCycle_mono {g' : Grammar} (hplain : g'.Plain) (hrules : g.ProductionsIn g')
    (h : g'.hasUnitCycle = false) : g.hasUnitCycle = false := by
  have hplain' : g.Plain := by
    intro id r hr
    obtain ⟨id', r', hr', -, hrhs⟩ := hrules id r hr
    have hr' := hplain id' r' hr'
    rwa [Rule.Plain, hrhs] at hr'
  by_contra hcycle
  obtain ⟨c, hc⟩ := (hasUnitCycle_iff hplain').mp ((Bool.not_eq_false _).mp hcycle)
  rw [(hasUnitCycle_iff hplain).mpr ⟨c, Relation.TransGen.mono (fun _ _ => UnitStep.mono hrules) _ _ hc⟩]
    at h
  contradiction

end Grammar

end IndexedGrammar
