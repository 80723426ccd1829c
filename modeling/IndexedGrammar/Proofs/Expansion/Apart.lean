import IndexedGrammar.Proofs.Expansion.WellFormed
import IndexedGrammar.Proofs.RuleSpace.Legal

/-!
# Schemas that keep their names apart

A schema whose rules expand neither the empty category nor the synthetic one, and hand the stack to neither,
compiles to well-formed rules: nothing that is filled in becomes the empty category. If it names the synthetic
category nowhere else either, then nothing waits for the synthetic rule.
-/

namespace IndexedGrammar

/-- A schema that keeps its names apart from those of the empty category and of the synthetic category. The
empty category itself may stand on a right-hand side. -/
structure Schema.Apart (s : Schema) (settings : Settings) : Prop where
  start : settings.start ≠ settings.gamma
  lhs : ∀ r ∈ s.rules, r.lhs.name ≠ Category.epsilonName ∧ r.lhs.name ≠ settings.gamma
  heir : ∀ r ∈ s.rules, ∀ c ∈ r.rhs, c.hasWildcard = true →
    c.name ≠ Category.epsilonName ∧ c.name ≠ settings.gamma
  child : ∀ r ∈ s.rules, ∀ c ∈ r.rhs, c.hasWildcard = false → c.name = settings.gamma →
    c = Category.epsilon

variable {s : Schema} {partsOfSpeech : Std.ExtTreeSet String} {settings : Settings}

namespace Schema.Apart

/-- The compiled rules are well-formed. -/
theorem wellFormed_compiled (hs : s.Valid) (h : s.Apart settings) :
    (s.compiled partsOfSpeech settings).WellFormed := by
  intro id q hq
  obtain ⟨-, n, r, -, hn, hyields, -⟩ := hs.origin_eq hq
  have hr := Array.mem_of_getElem? hn
  have hlhs : q.lhs.isEpsilon = false := by
    simp [Category.isEpsilon, ← hyields.name_eq, (h.lhs r hr).1]
  refine hs.wellFormed_of_not_canHide hq hr hyields hlhs ?_
  rintro ⟨-, heir, hheir, hempty⟩
  exact (h.heir r hr heir hheir hempty.hasWildcard).1 hempty.name_eq

/-- A symbol of a compiled rule that has the name of the synthetic category is the empty category. -/
theorem eq_epsilon_of_name_eq (hs : s.Valid) (h : s.Apart settings) {id : Nat} {q : Rule}
    (hq : (id, q) ∈ (s.compiled partsOfSpeech settings).rules) {d : Category} (hd : d ∈ q.rhs)
    (hname : d.name = settings.gamma) : d = Category.epsilon := by
  obtain ⟨-, n, r, -, hn, hyields, -⟩ := hs.origin_eq hq
  have hr := Array.mem_of_getElem? hn
  rcases hyields.cases_child (hs r hr) hd with ⟨hmem, hwild⟩ | ⟨heir, hheir, hwild, captured, -, -, rfl⟩
  · exact h.child r hr d hmem hwild hname
  · exact absurd (Category.name_fill ▸ hname) (h.heir r hr heir hheir hwild).2

/-- Nothing waits for the synthetic rule of a compiled grammar. -/
theorem rootUnasked_compiled (hs : s.Valid) (h : s.Apart settings) :
    (s.compiled partsOfSpeech settings).RootUnasked := by
  intro root hroot
  obtain rfl := Option.some.inj (hs.rootRule?_compiled.symm.trans hroot)
  refine ⟨fun id q hq heq => ?_, fun hempty => ⟨fun heq => ?_, fun id q hq hmem => ?_⟩⟩
  · obtain ⟨-, n, r, -, hn, hyields, -⟩ := hs.origin_eq hq
    refine (h.lhs r (Array.mem_of_getElem? hn)).2 ?_
    rw [hyields.name_eq, heq, Category.bare]
  · rw [hs.start_compiled] at heq
    exact h.start (congrArg Category.name heq)
  · rw [h.eq_epsilon_of_name_eq hs hq hmem rfl] at hempty
    exact absurd hempty (by decide)

/-- The left-hand sides of compiled rules do not have the name of the synthetic category. -/
theorem name_ne_gamma (h : s.Apart settings) {r : Rule} (hr : r ∈ s.rules) {c : Category}
    {rhs : List Category} (hyields : r.Yields partsOfSpeech settings.maxStackDepth c rhs) :
    c.name ≠ settings.gamma :=
  hyields.name_eq ▸ (h.lhs r hr).2

end Schema.Apart

/-! Rule spaces -/

namespace RuleSpace

variable {space : RuleSpace} {action : StackAction} {x c : Category} {rule : Rule}

/-- A right-hand category of a row is empty, a symbol, or a nonterminal with a stack. -/
theorem Row.mem_rhs_cases (hrow : space.Row x action rule) (hx : x ∈ space.symbols) (hc : c ∈ rule.rhs) :
    c = .epsilon ∨ c ∈ space.symbols ∨ ∃ y ∈ space.nonterminals, c.name = y.name := by
  cases hrow with
  | start => exact .inr (.inl (List.mem_singleton.mp hc ▸ hx))
  | single ha =>
    rw [RuleSpace.single, List.mem_singleton] at hc
    split at hc
    · next hnonterminal => exact .inr (.inr ⟨_, List.contains_iff_mem.mp hnonterminal, hc ▸ rfl⟩)
    · exact .inr (.inl (hc ▸ ha))
  | pair ha hb =>
    rw [RuleSpace.pair] at hc
    split_ifs at hc with hb' ha' <;> rcases List.mem_pair.mp hc with rfl | rfl
    · exact .inr (.inl ha)
    · exact .inr (.inr ⟨_, List.contains_iff_mem.mp hb', rfl⟩)
    · exact .inr (.inr ⟨_, List.contains_iff_mem.mp ha', rfl⟩)
    · exact .inr (.inl hb)
    · exact .inr (.inl ha)
    · exact .inr (.inl hb)
  | push ha hy =>
    rcases List.mem_pair.mp hc with rfl | rfl
    · exact .inr (.inl ha)
    · exact .inr (.inr ⟨_, hy, rfl⟩)
  | erase => exact .inl (List.mem_singleton.mp hc)
  | pop ha hy => exact .inr (.inr ⟨_, hy, List.mem_singleton.mp hc ▸ rfl⟩)

/-- Rules of a rule space keep their names apart if the synthetic category is neither the start category nor a
symbol of the space. -/
theorem apart_new {settings : Settings} {names : Std.ExtTreeSet String} {s : Schema} (hs : s.Valid)
    (hgamma : Category.bare settings.gamma ∉ (new names settings).start :: (new names settings).symbols)
    (hrules : ∀ r ∈ s.rules, (new names settings).Has r) : s.Apart settings := by
  rw [List.mem_cons, not_or] at hgamma
  obtain ⟨hstart, hsymbols⟩ := hgamma
  have hsubset : (new names settings).nonterminals ⊆ (new names settings).symbols :=
    List.subset_append_right _ _
  have hbare : ∀ a ∈ (new names settings).symbols, a = .bare a.name ∧ True :=
    forall_mem_symbols_new (fun _ _ => trivial) fun _ => trivial
  have hnonterminal : ∀ y ∈ (new names settings).nonterminals,
      y.name ≠ Category.epsilonName ∧ y.name ≠ settings.gamma := by
    intro y hy
    refine ⟨fun heq => ?_, fun heq => hsymbols (heq ▸ (hbare y (hsubset hy)).1 ▸ hsubset hy)⟩
    obtain ⟨i, -, rfl⟩ := (mem_nonterminals_new names settings).mp hy
    exact name_nonterminal_ne (i + 1) heq
  have hrhs : ∀ r ∈ s.rules, ∀ c ∈ r.rhs, c = .epsilon ∨ c ∈ (new names settings).symbols ∨
      ∃ y ∈ (new names settings).nonterminals, c.name = y.name := by
    intro r hr c hc
    obtain ⟨x, hx, action, hrow⟩ := has_iff.mp (hrules r hr)
    exact hrow.mem_rhs_cases (hsubset hx) hc
  -- start, left sides, inheriting right sides and other right sides are each named apart
  refine ⟨fun heq => hstart (congrArg Category.bare heq.symm), fun r hr => ?_, fun r hr c hc hwild => ?_,
    fun r hr c hc _ hname => ?_⟩
  · obtain ⟨x, hx, action, hrow⟩ := has_iff.mp (hrules r hr)
    rcases hrow.lhs_eq_or with hlhs | hlhs
    · have hempty := (hs r hr).wellFormed.isEpsilon_lhs
      rw [hlhs] at hempty ⊢
      refine ⟨of_decide_eq_false (Category.isEpsilon_bare.symm.trans hempty), fun heq => hstart ?_⟩
      exact congrArg Category.bare heq.symm
    · exact hlhs ▸ hnonterminal x hx
  · rcases hrhs r hr c hc with rfl | hsymbol | ⟨y, hy, hname⟩
    · exact absurd hwild (by decide)
    · rw [(hbare c hsymbol).1, Category.hasWildcard_bare] at hwild
      exact absurd hwild Bool.false_ne_true
    · exact hname ▸ hnonterminal y hy
  · rcases hrhs r hr c hc with rfl | hsymbol | ⟨y, hy, hname'⟩
    · rfl
    · exact absurd (hname ▸ (hbare c hsymbol).1 ▸ hsymbol) hsymbols
    · exact absurd (hname'.symm.trans hname) (hnonterminal y hy).2

end RuleSpace

end IndexedGrammar
