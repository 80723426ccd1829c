import IndexedGrammar.Proofs.Expansion.Closure
import IndexedGrammar.Proofs.Sample

/-!
# What compilation leads to

A compiled grammar lists the productions that the schema rules yield for the categories that are reached,
and nothing else. Stacks are bounded where they are handed to an heir; a stack that is written on a
right-hand side without a wildcard is taken as it is, however deep it is.
-/

namespace IndexedGrammar

/-- The rules that can be reached from the start category, before they are searched for unit cycles. -/
def Schema.compiled (s : Schema) (partsOfSpeech : Std.ExtTreeSet String) (settings : Settings) : Grammar :=
  ((Expansion.initial partsOfSpeech settings).run s settings.maxStackDepth).grammar

/-- A category that stands on the right-hand side of a rule, or whose rules have been worked out. -/
def Grammar.Mentions (g : Grammar) (c : Category) : Prop :=
  (∃ id r, (id, r) ∈ g.rules ∧ c ∈ r.rhs) ∨ c ∈ g.expanded

variable {s : Schema} {partsOfSpeech : Std.ExtTreeSet String} {settings : Settings} {g : Grammar}
  {c : Category}

/-- Compilation expands the schema rules and refuses what has a unit cycle. -/
theorem compile_eq : compile s partsOfSpeech settings =
    if (s.compiled partsOfSpeech settings).hasUnitCycle then .error (.malformed .cyclicUnit)
    else .ok (s.compiled partsOfSpeech settings) :=
  rfl

/-- A compiled grammar holds the expanded rules, and these have no unit cycle. -/
theorem compile_eq_ok_iff : compile s partsOfSpeech settings = .ok g ↔
    s.compiled partsOfSpeech settings = g ∧ g.hasUnitCycle = false := by
  rw [compile_eq]
  split
  · next hcycle =>
    refine ⟨fun h => absurd h (by simp), fun h => ?_⟩
    rw [h.1, h.2] at hcycle
    exact absurd hcycle Bool.false_ne_true
  · next hcycle =>
    rw [Bool.not_eq_true] at hcycle
    rw [Except.ok.injEq]
    exact ⟨fun h => ⟨h, h ▸ hcycle⟩, And.left⟩

/-- What holds when the queue of an expansion is empty. -/
theorem Schema.Valid.consistent (hs : s.Valid) (partsOfSpeech : Std.ExtTreeSet String)
    (settings : Settings) : ∃ e : Expansion, e.grammar = s.compiled partsOfSpeech settings ∧
      e.Consistent s partsOfSpeech settings ∧ e.queue = [] :=
  ⟨_, rfl, Expansion.consistent_initial.run hs⟩

namespace Schema.Valid

/-- A compiled grammar has the parts of speech that were given. -/
theorem partsOfSpeech_compiled (hs : s.Valid) :
    (s.compiled partsOfSpeech settings).partsOfSpeech = partsOfSpeech := by
  obtain ⟨e, hgrammar, hconsistent, -⟩ := hs.consistent partsOfSpeech settings
  rw [← hgrammar, hconsistent.partsOfSpeech_eq]

/-- The rules of a compiled grammar are indexed. -/
theorem indexed_compiled (hs : s.Valid) :
    (s.compiled partsOfSpeech settings).Indexed := by
  obtain ⟨e, hgrammar, hconsistent, -⟩ := hs.consistent partsOfSpeech settings
  exact hgrammar ▸ hconsistent.indexed

/-- The synthetic rule of a compiled grammar leads from the synthetic category to the start category. -/
theorem rootRule?_compiled (hs : s.Valid) :
    (s.compiled partsOfSpeech settings).rootRule? =
      some ⟨Category.bare settings.gamma, [Category.bare settings.start], none⟩ := by
  obtain ⟨e, hgrammar, hconsistent, -⟩ := hs.consistent partsOfSpeech settings
  rw [← hgrammar, hconsistent.rootRule?]

/-- A compiled grammar has the start category of the settings. -/
theorem start_compiled (hs : s.Valid) :
    (s.compiled partsOfSpeech settings).start = Category.bare settings.start := by
  have hindexed : (s.compiled partsOfSpeech settings).Indexed := hs.indexed_compiled
  obtain ⟨name, -, hroot⟩ := hindexed.rootRule?
  rw [hs.rootRule?_compiled] at hroot
  exact (List.singleton_inj.mp (Rule.mk.inj (Option.some.inj hroot)).2.1).symm

/-- The expanded categories are those that are reached. -/
theorem mem_expanded_iff (hs : s.Valid) :
    c ∈ (s.compiled partsOfSpeech settings).expanded ↔ s.Reaches partsOfSpeech settings c := by
  obtain ⟨e, hgrammar, hconsistent, hqueue⟩ := hs.consistent partsOfSpeech settings
  rw [← hgrammar]
  exact hconsistent.mem_expanded_iff hqueue

/-- A listed rule is what the first schema rule that yields it yields for a category that is reached. -/
theorem origin_eq (hs : s.Valid) {id : Nat} {q : Rule}
    (hq : (id, q) ∈ (s.compiled partsOfSpeech settings).rules) :
    s.Reaches partsOfSpeech settings q.lhs ∧ ∃ n r, q.origin = some n ∧ s.rules[n]? = some r ∧
      r.Yields partsOfSpeech settings.maxStackDepth q.lhs q.rhs ∧
      ∀ m r', s.rules[m]? = some r' →
        r'.Yields partsOfSpeech settings.maxStackDepth q.lhs q.rhs → n ≤ m := by
  obtain ⟨e, hgrammar, hconsistent, hqueue⟩ := hs.consistent partsOfSpeech settings
  rw [← hgrammar] at hq
  obtain ⟨n, r, hexpanded, hr, horigin, hyields, hfirst⟩ := hconsistent.lists.sound hq
  exact ⟨(hconsistent.mem_expanded_iff hqueue).mp hexpanded, n, r, horigin, hr, hyields,
    fun m r' hr' hyields' => hfirst hexpanded hr' hyields'⟩

/-- What a schema rule yields for a category that is reached is listed, unless its left-hand side has the
name of the synthetic category. -/
theorem exists_mem_rules (hs : s.Valid) (hc : s.Reaches partsOfSpeech settings c)
    (hgamma : c.name ≠ settings.gamma) {r : Rule} (hr : r ∈ s.rules) {rhs : List Category}
    (hyields : r.Yields partsOfSpeech settings.maxStackDepth c rhs) :
    ∃ id q, (id, q) ∈ (s.compiled partsOfSpeech settings).rules ∧ q.lhs = c ∧ q.rhs = rhs := by
  obtain ⟨e, hgrammar, hconsistent, hqueue⟩ := hs.consistent partsOfSpeech settings
  rw [← hgrammar]
  obtain ⟨n, hn⟩ := Array.mem_iff_getElem?.mp hr
  obtain ⟨id, q, hq, hlhs, hrhs⟩ :=
    hconsistent.lists.complete ((hconsistent.mem_expanded_iff hqueue).mpr hc) hn hyields
  refine ⟨id, q, Grammar.mem_rules_iff.mpr ⟨fun hid => hgamma ?_, hq⟩, hlhs, hrhs⟩
  have hroot : e.grammar.rootRule? = some q := by
    rw [← hq.rule?, hid]
    rfl
  rw [hconsistent.rootRule?] at hroot
  rw [← hlhs, ← Option.some.inj hroot]
  rfl

/-- No production is listed twice. -/
theorem nodup_productions (hs : s.Valid) : ((s.compiled partsOfSpeech settings).rules.map
    fun numbered => (numbered.2.lhs, numbered.2.rhs)).Nodup := by
  obtain ⟨e, hgrammar, hconsistent, -⟩ := hs.consistent partsOfSpeech settings
  rw [← hgrammar]
  exact hconsistent.lists.nodup

/-- A category that a compiled grammar mentions is written on a right-hand side without a wildcard, or its
stack is within the bound. -/
theorem depth_le_of_mentions (hs : s.Valid) (h : (s.compiled partsOfSpeech settings).Mentions c) :
    c ∈ s.plainChildren ∨ c.depth ≤ settings.maxStackDepth := by
  have hchild {c d : Category} {r : Rule} {rhs : List Category}
      (hc : s.Reaches partsOfSpeech settings c) (hr : r ∈ s.rules)
      (hyields : r.Yields partsOfSpeech settings.maxStackDepth c rhs) (hd : d ∈ rhs) :
      d ∈ s.plainChildren ∨ d.depth ≤ settings.maxStackDepth :=
    ((hc.spells hs).child hs hr hyields hd).2.imp_right And.right
  rcases h with ⟨id, q, hq, hmem⟩ | hexpanded
  · obtain ⟨hreaches, n, r, -, hr, hyields, -⟩ := hs.origin_eq hq
    exact hchild hreaches (Array.mem_of_getElem? hr) hyields hmem
  · cases hs.mem_expanded_iff.mp hexpanded with
    | start => exact .inr (Nat.zero_le _)
    | child hc hr hyields hd => exact hchild hc hr hyields hd

end Schema.Valid

/-- A compiled grammar has exactly the productions that the schema rules yield for the categories that are
reached from the start category. Each is listed once, under the first schema rule that yields it, and
exactly the categories that are reached were expanded. -/
theorem productions_of_compile {rules : List Rule} (hs : Schema.ofRules rules = .ok s)
    (hgamma : ∀ r ∈ s.rules, r.lhs.name ≠ settings.gamma)
    (h : compile s partsOfSpeech settings = .ok g) :
    (∀ c rhs, (∃ id q, (id, q) ∈ g.rules ∧ q.lhs = c ∧ q.rhs = rhs) ↔
      s.Reaches partsOfSpeech settings c ∧
        ∃ r ∈ s.rules, r.Yields partsOfSpeech settings.maxStackDepth c rhs) ∧
    (g.rules.map fun numbered => (numbered.2.lhs, numbered.2.rhs)).Nodup ∧
    (∀ id q, (id, q) ∈ g.rules → ∃ n r, q.origin = some n ∧ s.rules[n]? = some r ∧
      r.Yields partsOfSpeech settings.maxStackDepth q.lhs q.rhs ∧
      ∀ m r', s.rules[m]? = some r' →
        r'.Yields partsOfSpeech settings.maxStackDepth q.lhs q.rhs → n ≤ m) ∧
    ∀ c, c ∈ g.expanded ↔ s.Reaches partsOfSpeech settings c := by
  have hvalid := Schema.valid_ofRules hs
  obtain ⟨rfl, -⟩ := compile_eq_ok_iff.mp h
  refine ⟨fun c rhs => ⟨fun hgiven => ?_, fun hgiven => ?_⟩, hvalid.nodup_productions,
    fun id q hq => (hvalid.origin_eq hq).2, fun c => hvalid.mem_expanded_iff⟩
  · obtain ⟨id, q, hq, rfl, rfl⟩ := hgiven
    obtain ⟨hreaches, n, r, -, hr, hyields, -⟩ := hvalid.origin_eq hq
    exact ⟨hreaches, r, Array.mem_of_getElem? hr, hyields⟩
  · obtain ⟨hreaches, r, hr, hyields⟩ := hgiven
    exact hvalid.exists_mem_rules hreaches (hyields.name_eq ▸ hgamma r hr) hr hyields

open Sample in
/-- Compiling counted lists leads to the productions of the categories that are reached. -/
theorem productions_of_compile_counted : (∀ r ∈ counted.rules, r.lhs.name ≠ forCounted.gamma) ∧
    ∃ g, compile counted lists.partsOfSpeech forCounted = .ok g ∧
      (∀ c rhs, (∃ id q, (id, q) ∈ g.rules ∧ q.lhs = c ∧ q.rhs = rhs) ↔
        counted.Reaches lists.partsOfSpeech forCounted c ∧
          ∃ r ∈ counted.rules, r.Yields lists.partsOfSpeech forCounted.maxStackDepth c rhs) ∧
      ∀ c, c ∈ g.expanded ↔ counted.Reaches lists.partsOfSpeech forCounted c := by
  have hgamma : ∀ r ∈ counted.rules, r.lhs.name ≠ forCounted.gamma := by decide +kernel
  have hcompile : (compile counted lists.partsOfSpeech forCounted).toOption.isSome = true := by
    decide +kernel
  obtain ⟨g, hg⟩ := Option.isSome_iff_exists.mp hcompile
  have hg := ok_of_toOption hg
  obtain ⟨hproductions, -, -, hexpanded⟩ := productions_of_compile ofRules_counted hgamma hg
  exact ⟨hgamma, g, hg, hproductions, hexpanded⟩

/-- Every category that a compiled grammar mentions is written on a right-hand side of the schema without a
wildcard, or its stack is within the bound. -/
theorem depth_le_of_compile {rules : List Rule} (hs : Schema.ofRules rules = .ok s)
    (h : compile s partsOfSpeech settings = .ok g) (hc : g.Mentions c) :
    c ∈ s.plainChildren ∨ c.depth ≤ settings.maxStackDepth := by
  obtain ⟨rfl, -⟩ := compile_eq_ok_iff.mp h
  exact (Schema.valid_ofRules hs).depth_le_of_mentions hc

open Sample in
/-- Compiling counted lists mentions a stack of one symbol, which is not written. -/
theorem depth_le_of_compile_counted : ∃ g, compile counted lists.partsOfSpeech forCounted = .ok g ∧
    g.Mentions ⟨"T", "x"⟩ ∧
    (⟨"T", "x"⟩ ∈ counted.plainChildren ∨ Category.depth ⟨"T", "x"⟩ ≤ forCounted.maxStackDepth) := by
  have hcompile : ((compile counted lists.partsOfSpeech forCounted).toOption.any fun g =>
      g.expanded.contains ⟨"T", "x"⟩) = true := by decide +kernel
  obtain ⟨g, hg, hcontains⟩ := exists_ok_of_any hcompile
  have hmentions : g.Mentions ⟨"T", "x"⟩ := .inr (Std.ExtTreeSet.mem_iff_contains.mpr hcontains)
  exact ⟨g, hg, hmentions, depth_le_of_compile ofRules_counted hg hmentions⟩

/-- Two rules that write a stack of four symbols. -/
def Sample.deep : List Rule :=
  [⟨.bare "START", [⟨"A", "x.x.x.x"⟩], none⟩, ⟨⟨"A", "x.x.x.x"⟩, [.bare "n"], none⟩]

/-- A stack that is written with four symbols is mentioned, although the usual bound is three. -/
theorem exists_mentions_deep : ∃ s g c, Schema.ofRules Sample.deep = .ok s ∧
    compile s (.ofList ["n"]) {} = .ok g ∧ g.Mentions c ∧ Settings.maxStackDepth {} < c.depth := by
  have hs : Schema.ofRules Sample.deep = .ok ⟨Sample.deep.toArray⟩ :=
    Sample.ok_of_toOption (by decide +kernel)
  have hcompile : ((compile ⟨Sample.deep.toArray⟩ (.ofList ["n"]) {}).toOption.any fun g =>
      g.expanded.contains ⟨"A", "x.x.x.x"⟩) = true := by decide +kernel
  obtain ⟨g, hg, hcontains⟩ := Sample.exists_ok_of_any hcompile
  exact ⟨_, g, ⟨"A", "x.x.x.x"⟩, hs, hg, .inr (Std.ExtTreeSet.mem_iff_contains.mpr hcontains),
    by decide +kernel⟩

end IndexedGrammar
