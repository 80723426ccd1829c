import IndexedGrammar.Proofs.Expansion.Cycles

/-!
# Compiled rules are well-formed

A compiled rule has one or two symbols and no wildcards. Filling in can turn a written category into the empty
one in one way only: its name is that of the empty category, it has nothing around its wildcard, and nothing is
captured. So a compiled rule is well-formed, unless it comes from a rule that hands the stack to such a
category beside another, or the start category has the name of the empty category.

A part of speech is refused a stack where a wildcard is filled in. What a rule without wildcards yields is not
looked at.
-/

namespace IndexedGrammar

namespace Rule

/-- A rule without wildcards is well-formed if it has one symbol, or two that are not empty, and does not
expand the empty category. -/
theorem Plain.wellFormed {r : Rule} (h : r.Plain) (hlhs : r.lhs.isEpsilon = false)
    (hconcrete : ∀ c ∈ r.lhs :: r.rhs, c.hasWildcard = false) : r.WellFormed := by
  obtain ⟨hlhsConcrete, hrhsConcrete⟩ := List.forall_mem_cons.mp hconcrete
  have hheirs : r.rhs.filter Category.hasWildcard = [] :=
    List.filter_eq_nil_iff.mpr fun c hc => by simp [hrhsConcrete c hc]
  have hpopped : r.popped = 0 := by
    rw [popped, explicitDepth, Category.pattern?_eq_none hlhsConcrete]
  have hpushed : r.pushed = 0 := by
    rw [pushed, List.find?_eq_none.mpr fun c hc => by simp [hrhsConcrete c hc]]
  unfold WellFormed defect?
  rw [hheirs, hpopped, hpushed]
  rcases h with ⟨c, hrhs⟩ | ⟨first, second, hrhs, hfirst, hsecond⟩
  · simp [hlhs, hrhs]
  · simp [hlhs, hrhs, hfirst, hsecond]

/-- The empty category does not stand beside another symbol of a well-formed rule. -/
theorem WellFormed.isEpsilon_rhs {r : Rule} (h : r.WellFormed) (hlength : 1 < r.rhs.length) {c : Category}
    (hc : c ∈ r.rhs) : c.isEpsilon = false := by
  rcases h.plain with ⟨only, hrhs⟩ | ⟨first, second, hrhs, hfirst, hsecond⟩
  · simp [hrhs] at hlength
  · rw [hrhs] at hc
    rcases List.mem_pair.mp hc with rfl | rfl
    · exact hfirst
    · exact hsecond

end Rule

/-- A category that stands for the empty category when nothing is captured. -/
structure Category.TurnsEmpty (c : Category) : Prop where
  hasWildcard : c.hasWildcard = true
  name_eq : c.name = epsilonName
  below_eq : c.below = []
  above_eq : c.above = []

/-- Only such a category is turned into the empty one. -/
theorem Category.turnsEmpty_of_fill {c : Category} {captured : List String} (h : c.hasProperStack = true)
    (hwild : c.hasWildcard = true) (hcaptured : ∀ symbol ∈ captured, Stack.IsSymbol symbol)
    (hempty : (c.fill captured).isEpsilon = true) : c.TurnsEmpty := by
  simp only [isEpsilon, name_fill, Bool.and_eq_true, decide_eq_true_eq] at hempty
  obtain ⟨hname, hstack⟩ := hempty
  rw [(isConcrete_fill h hcaptured).isEmpty_iff] at hstack
  have hnone := (symbols_fill h hwild hcaptured).symm.trans hstack
  simp only [List.append_eq_nil_iff] at hnone
  exact ⟨hwild, hname, hnone.1.1, hnone.2⟩

namespace Rule

variable {partsOfSpeech : Std.ExtTreeSet String} {maxDepth : Nat} {r : Rule} {c d : Category}
  {rhs : List Category}

/-- A rule that hands the stack to a category that can turn into the empty one, beside another category. -/
def CanHide (r : Rule) : Prop :=
  1 < r.rhs.length ∧ ∃ heir ∈ r.rhs, heir.TurnsEmpty

/-- The empty category stands beside no other symbol that a rule yields, unless the rule can hide it there. -/
theorem Yields.isEpsilon_eq_false (hr : r.Proper) (hc : Stack.IsConcrete c.stack)
    (h : r.Yields partsOfSpeech maxDepth c rhs) (hhide : ¬r.CanHide) (hlength : 1 < rhs.length)
    (hd : d ∈ rhs) : d.isEpsilon = false := by
  rw [h.length_eq] at hlength
  rcases h.cases_child hr hd with ⟨hmem, -⟩ | ⟨heir, hheir, hwild, captured, hcaptured, -, rfl⟩
  · exact hr.wellFormed.isEpsilon_rhs hlength hmem
  · rw [← Bool.not_eq_true]
    intro hempty
    have hproper := hr.hasProperStack heir (List.mem_cons_of_mem _ hheir)
    exact hhide ⟨hlength, heir, hheir, Category.turnsEmpty_of_fill hproper hwild
      (fun symbol hsymbol => hc.isSymbol (hcaptured symbol hsymbol)) hempty⟩

/-- What a rule without a wildcard on its left-hand side yields is the rule itself. -/
theorem Yields.eq_of_not_hasWildcard (h : r.Yields partsOfSpeech maxDepth c rhs)
    (hwild : r.lhs.hasWildcard = false) : r.lhs = c ∧ r.rhs = rhs := by
  cases h with
  | verbatim _ heq => exact ⟨heq, rfl⟩
  | filled htrue => exact absurd (hwild.symm.trans htrue) Bool.false_ne_true

/-- Where a wildcard is filled in, no part of speech gets a stack. -/
theorem Yields.not_mem_partsOfSpeech (h : r.Yields partsOfSpeech maxDepth c rhs)
    (hwild : r.lhs.hasWildcard = true) (hd : d ∈ rhs) (hstack : d.stack ≠ "") :
    d.name ∉ partsOfSpeech := by
  cases h with
  | verbatim hplain => exact absurd (hplain.symm.trans hwild) Bool.false_ne_true
  | filled _ _ _ _ hfits =>
    obtain ⟨written, hwritten, rfl⟩ := List.mem_map.mp hd
    rw [Category.name_fill]
    exact (hfits written hwritten).not_partOfSpeech hstack

end Rule

variable {s : Schema} {partsOfSpeech : Std.ExtTreeSet String} {settings : Settings} {g : Grammar} {id : Nat}
  {q r : Rule} {c : Category}

/-- Only the start category can be reached and empty. -/
theorem Schema.Reaches.isEpsilon_eq_false (h : s.Reaches partsOfSpeech settings c)
    (hstart : settings.start ≠ Category.epsilonName) : c.isEpsilon = false := by
  cases h with
  | start => simp [Category.isEpsilon, Category.bare, hstart]
  | child _ _ _ _ hnonterminal => exact hnonterminal.1

namespace Schema.Valid

/-- No wildcard is left in a compiled rule. -/
theorem hasWildcard_compiled (hs : s.Valid) (hq : (id, q) ∈ (s.compiled partsOfSpeech settings).rules)
    (hc : c ∈ q.lhs :: q.rhs) : c.hasWildcard = false := by
  obtain ⟨hreaches, n, r, -, hn, hyields, -⟩ := hs.origin_eq hq
  have hspells := hreaches.spells hs
  rw [← Bool.not_eq_true, Category.hasWildcard_iff]
  rcases List.mem_cons.mp hc with rfl | hc
  · exact hspells.isConcrete.wildcard_not_mem
  · exact (hspells.child hs (Array.mem_of_getElem? hn) hyields hc).1.isConcrete.wildcard_not_mem

/-- A compiled rule that does not expand the empty category is well-formed, unless its schema rule can hide the
empty category. -/
theorem wellFormed_of_not_canHide (hs : s.Valid)
    (hq : (id, q) ∈ (s.compiled partsOfSpeech settings).rules) (hr : r ∈ s.rules)
    (hyields : r.Yields partsOfSpeech settings.maxStackDepth q.lhs q.rhs)
    (hlhs : q.lhs.isEpsilon = false) (hhide : ¬r.CanHide) : q.WellFormed := by
  have hconcrete := ((hs.origin_eq hq).1.spells hs).isConcrete
  have hplain : q.Plain := hs.plain_of_alone hq fun hlength c hc =>
    hyields.isEpsilon_eq_false (hs r hr) hconcrete hhide hlength hc
  exact hplain.wellFormed hlhs fun c hc => hs.hasWildcard_compiled hq hc

end Schema.Valid

/-- Every compiled rule has one or two symbols and no wildcard on either side. It is well-formed, unless the start
category has the name of the empty category, or the rule comes from a schema rule that can hide the empty
category beside another. A part of speech has a stack in it only if the schema rule has no wildcards and is taken
as it is written. -/
theorem rules_of_compile {rules : List Rule} (hs : Schema.ofRules rules = .ok s)
    (h : compile s partsOfSpeech settings = .ok g) (hq : (id, q) ∈ g.rules) :
    (q.rhs.length = 1 ∨ q.rhs.length = 2) ∧ (∀ c ∈ q.lhs :: q.rhs, c.hasWildcard = false) ∧
      ∃ n r, q.origin = some n ∧ s.rules[n]? = some r ∧
        (settings.start ≠ Category.epsilonName → ¬r.CanHide → q.WellFormed) ∧
        ((∃ c ∈ q.rhs, c.stack ≠ "" ∧ c.name ∈ partsOfSpeech) →
          r.lhs.hasWildcard = false ∧ r.lhs = q.lhs ∧ r.rhs = q.rhs) := by
  have hvalid := Schema.valid_ofRules hs
  obtain ⟨rfl, -⟩ := compile_eq_ok_iff.mp h
  obtain ⟨hreaches, n, r, horigin, hn, hyields, -⟩ := hvalid.origin_eq hq
  have hr := Array.mem_of_getElem? hn
  refine ⟨?_, fun c hc => hvalid.hasWildcard_compiled hq hc, n, r, horigin, hn, ?_, ?_⟩
  · have hlength := hyields.length_bounds (hvalid r hr)
    omega
  · exact fun hstart => hvalid.wellFormed_of_not_canHide hq hr hyields (hreaches.isEpsilon_eq_false hstart)
  · rintro ⟨c, hc, hstack, hname⟩
    cases hwild : r.lhs.hasWildcard with
    | true => exact absurd hname (hyields.not_mem_partsOfSpeech hwild hc hstack)
    | false => exact ⟨rfl, hyields.eq_of_not_hasWildcard hwild⟩

open Sample in
/-- Compiling counted lists leads to a rule whose symbol on the stack was taken off. It is well-formed, and its part
of speech has no stack. -/
theorem rules_of_compile_counted : ∃ g id q, compile counted lists.partsOfSpeech forCounted = .ok g ∧
    (id, q) ∈ g.rules ∧ q = ⟨⟨"T", "x"⟩, [noun, .bare "T"], some 1⟩ ∧ q.WellFormed ∧
    ¬∃ c ∈ q.rhs, c.stack ≠ "" ∧ c.name ∈ lists.partsOfSpeech := by
  have hcompile : ((compile counted lists.partsOfSpeech forCounted).toOption.any fun g =>
      g.rules.any fun numbered => numbered.2 = ⟨⟨"T", "x"⟩, [noun, .bare "T"], some 1⟩) = true := by
    decide +kernel
  obtain ⟨g, hg, hany⟩ := exists_ok_of_any hcompile
  obtain ⟨⟨id, q⟩, hq, heq⟩ := List.any_eq_true.mp hany
  obtain ⟨-, -, n, r, horigin, hr, hwell, hstacks⟩ := rules_of_compile ofRules_counted hg hq
  obtain rfl := of_decide_eq_true heq
  obtain rfl := Option.some.inj horigin
  obtain rfl : _ = r := Option.some.inj hr
  refine ⟨g, id, _, hg, hq, rfl, hwell (by decide) ?_, fun hloaded => ?_⟩
  · rintro ⟨-, heir, hheir, hempty⟩
    have hname : ∀ c ∈ [noun, ⟨"T", "*"⟩], c.name ≠ Category.epsilonName := by decide
    exact hname heir hheir hempty.name_eq
  · have hwild := (hstacks hloaded).1
    contradiction

/-- A rule that writes a part of speech with a stack. -/
def Sample.loaded : List Rule :=
  [⟨.bare "START", [⟨"n", "x"⟩], none⟩]

/-- A part of speech keeps the stack that it is written with in a rule without wildcards. -/
theorem exists_stack_on_partOfSpeech : ∃ s g id q c, Schema.ofRules Sample.loaded = .ok s ∧
    compile s (.ofList ["n"]) {} = .ok g ∧ (id, q) ∈ g.rules ∧ c ∈ q.rhs ∧ c.stack ≠ "" ∧
    c.name ∈ Std.ExtTreeSet.ofList ["n"] := by
  have hs : Schema.ofRules Sample.loaded = .ok ⟨Sample.loaded.toArray⟩ :=
    Sample.ok_of_toOption (by decide +kernel)
  have hcompile : ((compile ⟨Sample.loaded.toArray⟩ (.ofList ["n"]) {}).toOption.any fun g =>
      g.rules.contains (1, ⟨.bare "START", [⟨"n", "x"⟩], some 0⟩)) = true := by decide +kernel
  obtain ⟨g, hg, hcontains⟩ := Sample.exists_ok_of_any hcompile
  exact ⟨_, g, 1, _, ⟨"n", "x"⟩, hs, hg, List.contains_iff_mem.mp hcontains, by decide, by decide,
    by decide +kernel⟩

end IndexedGrammar
