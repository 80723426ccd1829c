import IndexedGrammar.Proofs.Expansion.Reached

/-!
# Expansion finds the least closed set

While categories are expanded, the categories seen are those taken out of the queue and those still in
it, and the rules found are what the schema rules tried so far yield, each once and under the first schema
rule that yields it. Trying one more rule for a category keeps this, so it holds when the queue is empty:
then every category that is reached has been expanded with all rules.
-/

namespace IndexedGrammar

namespace Expansion

/-- The rules listed are what the schema rules tried for categories yield, each once and under the first
schema rule that yields it. A production of the synthetic rule is not listed again. -/
structure Lists (s : Schema) (partsOfSpeech : Std.ExtTreeSet String) (maxDepth : Nat)
    (tried : Category → Nat → Prop) (g : Grammar) : Prop where
  sound : ∀ {id q}, (id, q) ∈ g.rules → ∃ n r, tried q.lhs n ∧ s.rules[n]? = some r ∧
    q.origin = some n ∧ r.Yields partsOfSpeech maxDepth q.lhs q.rhs ∧
    ∀ {m r'}, tried q.lhs m → s.rules[m]? = some r' →
      r'.Yields partsOfSpeech maxDepth q.lhs q.rhs → n ≤ m
  complete : ∀ {c n r rhs}, tried c n → s.rules[n]? = some r → r.Yields partsOfSpeech maxDepth c rhs →
    ∃ id q, g.HasRule id q ∧ q.lhs = c ∧ q.rhs = rhs
  nodup : (g.rules.map fun numbered => (numbered.2.lhs, numbered.2.rhs)).Nodup

/-- What holds while categories are expanded, after some were taken out of the queue and some schema rules
were tried for them. -/
structure Under (s : Schema) (partsOfSpeech : Std.ExtTreeSet String) (settings : Settings)
    (taken : Category → Prop) (tried : Category → Nat → Prop) (e : Expansion) : Prop where
  indexed : e.grammar.Indexed
  partsOfSpeech_eq : e.grammar.partsOfSpeech = partsOfSpeech
  rootRule? : e.grammar.rootRule? =
    some ⟨Category.bare settings.gamma, [Category.bare settings.start], none⟩
  start_mem : Category.bare settings.start ∈ e.seen
  mem_seen : ∀ {c}, c ∈ e.seen ↔ c ∈ e.queue ∨ taken c
  not_taken : ∀ {c}, c ∈ e.queue → ¬taken c
  nodup : e.queue.Nodup
  reaches : ∀ {c}, c ∈ e.seen → s.Reaches partsOfSpeech settings c
  met : ∀ {c n r rhs}, tried c n → s.rules[n]? = some r →
    r.Yields partsOfSpeech settings.maxStackDepth c rhs →
    ∀ d ∈ rhs, d.IsNonterminal partsOfSpeech → d ∈ e.seen
  lists : Lists s partsOfSpeech settings.maxStackDepth tried e.grammar

/-- What holds between two expansions: exactly the expanded categories were taken out of the queue, and
all schema rules were tried for them. -/
def Consistent (s : Schema) (partsOfSpeech : Std.ExtTreeSet String) (settings : Settings)
    (e : Expansion) : Prop :=
  Under s partsOfSpeech settings (· ∈ e.grammar.expanded) (fun c _ => c ∈ e.grammar.expanded) e

variable {s : Schema} {partsOfSpeech : Std.ExtTreeSet String} {settings : Settings} {maxDepth : Nat}
  {taken : Category → Prop} {tried tried' : Category → Nat → Prop} {e : Expansion} {c d : Category}
  {rhs : List Category} {r : Rule} {n : Nat} {g : Grammar} {rules : List (Nat × Rule)}

/-! Trying one more rule, and the rules listed -/

/-- What is listed depends only on which rules were tried among those that yield something. -/
theorem Lists.congr (h : Lists s partsOfSpeech maxDepth tried g)
    (hsame : ∀ {c n r rhs}, s.rules[n]? = some r → r.Yields partsOfSpeech maxDepth c rhs →
      (tried c n ↔ tried' c n)) : Lists s partsOfSpeech maxDepth tried' g where
  sound hq := by
    obtain ⟨n, r, htried, hr, horigin, hyields, hfirst⟩ := h.sound hq
    exact ⟨n, r, (hsame hr hyields).mp htried, hr, horigin, hyields, fun htried' hr' hyields' =>
      hfirst ((hsame hr' hyields').mpr htried') hr' hyields'⟩
  complete htried hr hyields := h.complete ((hsame hr hyields).mpr htried) hr hyields
  nodup := h.nodup

/-- If a later rule yields for a category what is there, the list stays as it is. -/
theorem Lists.keep (h : Lists s partsOfSpeech maxDepth tried g)
    (hlater : ∀ {m}, tried c m → m < n)
    (honly : ∀ {r other}, s.rules[n]? = some r → r.Yields partsOfSpeech maxDepth c other → other = rhs)
    (hlisted : ∃ id q, g.HasRule id q ∧ q.lhs = c ∧ q.rhs = rhs) :
    Lists s partsOfSpeech maxDepth (fun d m => tried d m ∨ d = c ∧ m = n) g where
  sound hq := by
    obtain ⟨first, r, htried, hr, horigin, hyields, hfirst⟩ := h.sound hq
    refine ⟨first, r, .inl htried, hr, horigin, hyields, fun htried' hr' hyields' => ?_⟩
    rcases htried' with hbefore | ⟨hlhs, hm⟩
    · exact hfirst hbefore hr' hyields'
    · rw [hm]
      exact Nat.le_of_lt (hlater (hlhs ▸ htried))
  complete htried hr hyields := by
    rcases htried with hbefore | ⟨rfl, rfl⟩
    · exact h.complete hbefore hr hyields
    · rw [honly hr hyields]
      exact hlisted
  nodup := h.nodup

/-- If a rule yields for a category what is not there, it is listed from then on. -/
theorem Lists.add (h : Lists s partsOfSpeech maxDepth tried g) (hg : g.Indexed)
    (hlater : ∀ {m}, tried c m → m < n) (hr : s.rules[n]? = some r)
    (hyields : r.Yields partsOfSpeech maxDepth c rhs)
    (honly : ∀ {r other}, s.rules[n]? = some r → r.Yields partsOfSpeech maxDepth c other → other = rhs)
    (hnew : ¬∃ id q, g.HasRule id q ∧ q.lhs = c ∧ q.rhs = rhs) :
    Lists s partsOfSpeech maxDepth (fun d m => tried d m ∨ d = c ∧ m = n)
      (g.insert ⟨c, rhs, some n⟩) where
  sound {id q} hq := by
    rw [Grammar.rules_insert _ hg.size_ne_rootId] at hq
    rcases List.mem_append.mp hq with hold | hlast
    · obtain ⟨first, r, htried, hr, horigin, hyields, hfirst⟩ := h.sound hold
      refine ⟨first, r, .inl htried, hr, horigin, hyields, fun htried' hr' hyields' => ?_⟩
      rcases htried' with hbefore | ⟨hlhs, hm⟩
      · exact hfirst hbefore hr' hyields'
      · rw [hm]
        exact Nat.le_of_lt (hlater (hlhs ▸ htried))
    -- an earlier rule that yields the production would have listed it
    · obtain ⟨-, rfl⟩ := Prod.mk.inj (List.mem_singleton.mp hlast)
      refine ⟨n, r, .inr ⟨rfl, rfl⟩, hr, rfl, hyields, fun htried' hr' hyields' => ?_⟩
      rcases htried' with hbefore | ⟨-, hm⟩
      · exact absurd (h.complete hbefore hr' hyields') hnew
      · exact Nat.le_of_eq hm.symm
  complete {d m r' other} htried hr' hyields' := by
    rcases htried with hbefore | ⟨rfl, rfl⟩
    · obtain ⟨id, q, hq, hprod⟩ := h.complete hbefore hr' hyields'
      exact ⟨id, q, Grammar.hasRule_insert.mpr (.inl hq), hprod⟩
    · exact ⟨g.size, _, Grammar.hasRule_insert.mpr (.inr ⟨rfl, rfl⟩), rfl, (honly hr' hyields').symm⟩
  nodup := by
    rw [Grammar.rules_insert _ hg.size_ne_rootId, List.map_append, List.nodup_append]
    refine ⟨h.nodup, by simp, fun a ha b hb heq => hnew ?_⟩
    obtain ⟨⟨id, q⟩, hq, hpair⟩ := List.mem_map.mp ha
    obtain rfl := List.mem_singleton.mp hb
    obtain ⟨hlhs, hrhs⟩ := Prod.mk.inj (hpair.trans heq)
    exact ⟨id, q, (Grammar.mem_rules_iff.mp hq).2, hlhs, hrhs⟩

/-! Meeting categories -/

/-- Meeting a category leaves the grammar as it is. -/
@[simp] theorem grammar_meet : (e.meet s maxDepth d).grammar = e.grammar := by
  unfold Expansion.meet
  split <;> rfl

/-- Meeting categories leaves the grammar as it is. -/
@[simp] theorem grammar_foldl_meet :
    (rhs.foldl (Expansion.meet s maxDepth) e).grammar = e.grammar := by
  induction rhs generalizing e with
  | nil => rfl
  | cons d rest ih => exact ih.trans grammar_meet

/-- A category that was seen stays seen. -/
theorem mem_seen_meet (hc : c ∈ e.seen) : c ∈ (e.meet s maxDepth d).seen := by
  unfold Expansion.meet
  split
  · exact Std.ExtTreeSet.mem_insert.mpr (.inr hc)
  · exact hc

/-- A category that was seen stays seen when others are met. -/
theorem mem_seen_foldl_meet (hc : c ∈ e.seen) :
    c ∈ (rhs.foldl (Expansion.meet s maxDepth) e).seen := by
  induction rhs generalizing e with
  | nil => exact hc
  | cons d rest ih => exact ih (mem_seen_meet hc)

/-- A nonterminal that is admitted was seen after it was met. -/
theorem mem_seen_meet_self (hd : e.grammar.isNonterminal d = true)
    (hadmits : s.admits maxDepth d = true) : d ∈ (e.meet s maxDepth d).seen := by
  unfold Expansion.meet
  split
  · exact Std.ExtTreeSet.mem_insert.mpr (.inl (Std.compare_eq_iff_eq.mpr rfl))
  · next hold =>
    rw [Std.ExtTreeSet.mem_iff_contains]
    by_contra hnot
    rw [Bool.not_eq_true] at hnot
    exact hold (by simp [hd, hnot, hadmits])

/-- The nonterminals among categories that are admitted were seen after they were met. -/
theorem mem_seen_foldl_meet_self (hadmits : ∀ d ∈ rhs, s.admits maxDepth d = true) (hd : d ∈ rhs)
    (hnonterminal : e.grammar.isNonterminal d = true) :
    d ∈ (rhs.foldl (Expansion.meet s maxDepth) e).seen := by
  induction rhs generalizing e with
  | nil => exact absurd hd List.not_mem_nil
  | cons first rest ih =>
    rcases List.mem_cons.mp hd with heq | hmem
    · subst heq
      exact mem_seen_foldl_meet (e := e.meet s maxDepth d)
        (mem_seen_meet_self hnonterminal (hadmits d List.mem_cons_self))
    · exact ih (fun d hd => hadmits d (List.mem_cons_of_mem _ hd)) hmem (by rwa [grammar_meet])

namespace Under

/-- The nonterminals are those for the parts of speech that were given. -/
theorem isNonterminal_iff (h : Under s partsOfSpeech settings taken tried e) :
    e.grammar.isNonterminal d = true ↔ d.IsNonterminal partsOfSpeech := by
  rw [Grammar.isNonterminal_eq_true_iff, h.partsOfSpeech_eq]

/-- Meeting a category that is reached keeps what holds. -/
theorem meet (h : Under s partsOfSpeech settings taken tried e)
    (hreaches : d.IsNonterminal partsOfSpeech → s.Reaches partsOfSpeech settings d) :
    Under s partsOfSpeech settings taken tried (e.meet s maxDepth d) := by
  unfold Expansion.meet
  split
  · next hif =>
    simp only [Bool.and_eq_true, Bool.not_eq_true', h.isNonterminal_iff] at hif
    obtain ⟨⟨hd, hcontains⟩, -⟩ := hif
    -- only a category that was not met before is queued
    have hnew : d ∉ e.seen := by
      rw [Std.ExtTreeSet.mem_iff_contains, hcontains]
      exact Bool.false_ne_true
    have hinsert {c : Category} : c ∈ e.seen.insert d ↔ d = c ∨ c ∈ e.seen := by
      rw [Std.ExtTreeSet.mem_insert, Std.compare_eq_iff_eq]
    exact {
      h with
      start_mem := hinsert.mpr (.inr h.start_mem)
      mem_seen := by
        intro c
        rw [hinsert, h.mem_seen, List.mem_append, List.mem_singleton]
        grind
      not_taken := by
        intro c hc
        rcases List.mem_append.mp hc with hmem | hlast
        · exact h.not_taken hmem
        · rw [List.mem_singleton.mp hlast]
          exact fun htaken => hnew (h.mem_seen.mpr (.inr htaken))
      nodup := by
        refine List.nodup_append.mpr ⟨h.nodup, by simp, fun a ha b hb heq => ?_⟩
        rw [List.mem_singleton.mp hb] at heq
        exact hnew (h.mem_seen.mpr (.inl (heq ▸ ha)))
      reaches := by
        intro c hc
        rcases hinsert.mp hc with heq | hmem
        · exact heq ▸ hreaches hd
        · exact h.reaches hmem
      met := fun htried hr hyields other hother hsymbol =>
        hinsert.mpr (.inr (h.met htried hr hyields other hother hsymbol)) }
  · exact h

/-- Meeting categories that are reached keeps what holds. -/
theorem foldl_meet (h : Under s partsOfSpeech settings taken tried e)
    (hreaches : ∀ d ∈ rhs, d.IsNonterminal partsOfSpeech → s.Reaches partsOfSpeech settings d) :
    Under s partsOfSpeech settings taken tried (rhs.foldl (Expansion.meet s maxDepth) e) := by
  induction rhs generalizing e with
  | nil => exact h
  | cons first rest ih =>
    exact ih (h.meet (hreaches first List.mem_cons_self))
      fun d hd => hreaches d (List.mem_cons_of_mem _ hd)

/-- What holds depends only on which rules were tried among those that yield something. -/
theorem congr (h : Under s partsOfSpeech settings taken tried e)
    (hsame : ∀ {c n r rhs}, s.rules[n]? = some r → r.Yields partsOfSpeech settings.maxStackDepth c rhs →
      (tried c n ↔ tried' c n)) : Under s partsOfSpeech settings taken tried' e :=
  { h with
    met := fun htried hr hyields => h.met ((hsame hr hyields).mpr htried) hr hyields
    lists := h.lists.congr hsame }

/-- A rule that yields nothing for a category counts as tried. -/
theorem skip (hs : s.Valid) (h : Under s partsOfSpeech settings taken tried e)
    (hc : s.Reaches partsOfSpeech settings c) (hr : s.rules[n]? = some r)
    (hnone : r.instance? partsOfSpeech settings.maxStackDepth c = none) :
    Under s partsOfSpeech settings taken (fun d m => tried d m ∨ d = c ∧ m = n) e := by
  refine h.congr fun {d m r' rhs} hr' hyields => ⟨.inl, fun htried => ?_⟩
  rcases htried with hbefore | ⟨rfl, rfl⟩
  · exact hbefore
  · obtain rfl := Option.some.inj (hr'.symm.trans hr)
    rw [← Rule.instance?_eq_some_iff (hs _ (Array.mem_of_getElem? hr)) (hc.spells hs).isConcrete, hnone] at hyields
    contradiction

/-- Once the right side that a rule yields for a category is met, the nonterminals are seen of all that was tried, that
rule included. -/
theorem met_foldl_meet (hs : s.Valid) (h : Under s partsOfSpeech settings taken tried e)
    (hc : s.Reaches partsOfSpeech settings c) (hr : s.rules[n]? = some r)
    (hyields : r.Yields partsOfSpeech settings.maxStackDepth c rhs) {d : Category} {m : Nat} {r' : Rule}
    {other : List Category} (htried : tried d m ∨ d = c ∧ m = n) (hr' : s.rules[m]? = some r')
    (hyields' : r'.Yields partsOfSpeech settings.maxStackDepth d other) :
    ∀ child ∈ other, child.IsNonterminal partsOfSpeech →
      child ∈ (rhs.foldl (Expansion.meet s settings.maxStackDepth) e).seen := by
  have hmem : r ∈ s.rules := Array.mem_of_getElem? hr
  rcases htried with hbefore | ⟨rfl, rfl⟩
  · exact fun child hchild hsymbol => mem_seen_foldl_meet (h.met hbefore hr' hyields' child hchild hsymbol)
  · obtain rfl := Option.some.inj (hr'.symm.trans hr)
    obtain rfl := hyields'.unique (hs _ hmem) (hc.spells hs).isConcrete hyields
    exact fun child hchild hsymbol => mem_seen_foldl_meet_self
      (fun _ hd => (hc.spells hs).admits_child hs hmem hyields hd) hchild (h.isNonterminal_iff.mpr hsymbol)

/-- Trying one more rule for a category keeps what holds. -/
theorem apply (hs : s.Valid) (h : Under s partsOfSpeech settings taken tried e)
    (hc : s.Reaches partsOfSpeech settings c) (hr : s.rules[n]? = some r)
    (hlater : ∀ {m}, tried c m → m < n) :
    Under s partsOfSpeech settings taken (fun d m => tried d m ∨ d = c ∧ m = n)
      (e.apply s settings.maxStackDepth c (n, r)) := by
  have hmem : r ∈ s.rules := Array.mem_of_getElem? hr
  have hconcrete := (hc.spells hs).isConcrete
  unfold Expansion.apply
  rw [h.partsOfSpeech_eq]
  cases hinstance : r.instance? partsOfSpeech settings.maxStackDepth c with
  | none => exact h.skip hs hc hr hinstance
  | some rhs =>
    have hyields := (Rule.instance?_eq_some_iff (hs _ hmem) hconcrete).mp hinstance
    have honly {r' : Rule} {other : List Category} (hr' : s.rules[n]? = some r')
        (h' : r'.Yields partsOfSpeech settings.maxStackDepth c other) : other = rhs := by
      obtain rfl := Option.some.inj (hr'.symm.trans hr)
      exact h'.unique (hs _ hmem) hconcrete hyields
    have hmet : Under s partsOfSpeech settings taken tried
        (rhs.foldl (Expansion.meet s settings.maxStackDepth) e) :=
      h.foldl_meet fun d hd hsymbol => hc.child hmem hyields hd hsymbol
    dsimp only
    -- the categories of the right side are met whether or not the production is new
    split
    · next hcontains =>
      rw [hmet.indexed.containsProduction_iff] at hcontains
      exact { hmet with
        met := fun htried hr' h' => h.met_foldl_meet hs hc hr hyields htried hr' h'
        lists := hmet.lists.keep hlater honly hcontains }
    · next hcontains =>
      rw [hmet.indexed.containsProduction_iff] at hcontains
      have hsize := hmet.indexed.size_ne_rootId
      exact { hmet with
        indexed := hmet.indexed.insert _
        rootRule? := ((Grammar.without_insert hmet.indexed _).rule? _ hsize.symm).symm.trans hmet.rootRule?
        met := fun htried hr' h' => h.met_foldl_meet hs hc hr hyields htried hr' h'
        lists := hmet.lists.add hmet.indexed hlater hr hyields honly hcontains }

/-- Trying rules for a category in ascending order keeps what holds. -/
theorem foldl_apply (hs : s.Valid) (h : Under s partsOfSpeech settings taken tried e)
    (hc : s.Reaches partsOfSpeech settings c)
    (hrules : ∀ numbered ∈ rules, s.rules[numbered.1]? = some numbered.2)
    (hsorted : rules.Pairwise fun a b => a.1 < b.1)
    (hlater : ∀ numbered ∈ rules, ∀ {m}, tried c m → m < numbered.1) :
    Under s partsOfSpeech settings taken
      (fun d m => tried d m ∨ d = c ∧ ∃ r, (m, r) ∈ rules)
      (rules.foldl (Expansion.apply s settings.maxStackDepth c) e) := by
  induction rules generalizing e tried with
  | nil => simpa using h
  | cons first rest ih =>
    obtain ⟨hfirst, hrest⟩ := List.pairwise_cons.mp hsorted
    have hnext := h.apply hs hc (hrules first List.mem_cons_self) (hlater first List.mem_cons_self)
    refine (ih hnext (fun a ha => hrules a (List.mem_cons_of_mem _ ha)) hrest
      fun a ha m htried => ?_).congr fun {d m r rhs} hr hyields => ?_
    · rcases htried with hbefore | ⟨-, hm⟩
      · exact hlater a (List.mem_cons_of_mem _ ha) hbefore
      · exact hm ▸ hfirst a ha
    · have hmem : (∃ r', (m, r') ∈ first :: rest) ↔ m = first.1 ∨ ∃ r', (m, r') ∈ rest := by
        simp only [List.mem_cons, exists_or, Prod.ext_iff, exists_and_left, exists_eq, and_true]
      rw [hmem, and_or_left, or_assoc]

end Under

/-! Expanding categories -/

/-- Adding an instance of a rule expands no category. -/
theorem expanded_apply {numbered : Nat × Rule} :
    (e.apply s maxDepth c numbered).grammar.expanded = e.grammar.expanded := by
  unfold Expansion.apply
  split
  · rfl
  · dsimp only
    split
    · rw [grammar_foldl_meet]
    · show (List.foldl (Expansion.meet s maxDepth) e _).grammar.expanded = _
      rw [grammar_foldl_meet]

/-- Adding instances of rules expands no category. -/
theorem expanded_foldl_apply :
    (rules.foldl (Expansion.apply s maxDepth c) e).grammar.expanded = e.grammar.expanded := by
  induction rules generalizing e with
  | nil => rfl
  | cons first rest ih => exact ih.trans expanded_apply

/-- A category is expanded if it was before or is the one whose rules were added. -/
theorem mem_expanded_expand : d ∈ (expand s maxDepth c e).grammar.expanded ↔
    d ∈ e.grammar.expanded ∨ d = c := by
  show d ∈ (((s.rulesNamed c.name).foldl (Expansion.apply s maxDepth c) e).grammar.expanded).insert c ↔ _
  rw [Std.ExtTreeSet.mem_insert, Std.compare_eq_iff_eq, expanded_foldl_apply, or_comm, eq_comm]

/-- Expanding the next category of the queue keeps an expansion consistent. -/
theorem Consistent.expand (hs : s.Valid)
    (h : e.Consistent s partsOfSpeech settings) {rest : List Category} (hqueue : e.queue = c :: rest) :
    (Expansion.expand s settings.maxStackDepth c { e with queue := rest }).Consistent s partsOfSpeech
      settings := by
  have hmem : c ∈ e.queue := hqueue ▸ List.mem_cons_self
  have hnodup := h.nodup
  rw [hqueue, List.nodup_cons] at hnodup
  have htaken : Under s partsOfSpeech settings (fun d => d ∈ e.grammar.expanded ∨ d = c)
      (fun d _ => d ∈ e.grammar.expanded) { e with queue := rest } := {
    h with
    mem_seen := by
      intro d
      rw [h.mem_seen, hqueue, List.mem_cons]
      tauto
    not_taken := by
      intro d hd hor
      rcases hor with hexpanded | heq
      · exact h.not_taken (hqueue ▸ List.mem_cons_of_mem _ hd) hexpanded
      · exact hnodup.1 (heq ▸ hd)
    nodup := hnodup.2 }
  have happlied := htaken.foldl_apply hs (h.reaches (h.mem_seen.mpr (.inl hmem)))
    (fun _ hr => (Schema.mem_rulesNamed.mp hr).1) (s.pairwise_rulesNamed c.name)
    fun _ _ _ hexpanded => absurd hexpanded (h.not_taken hmem)
  -- all schema rules that could yield something for the category were tried
  have hall : Under s partsOfSpeech settings (fun d => d ∈ e.grammar.expanded ∨ d = c)
      (fun d _ => d ∈ e.grammar.expanded ∨ d = c)
      ((s.rulesNamed c.name).foldl (Expansion.apply s settings.maxStackDepth c)
        { e with queue := rest }) :=
    happlied.congr fun {d n r rhs} hr hyields => or_congr_right ⟨And.left, fun heq => ⟨heq, r,
      Schema.mem_rulesNamed.mpr ⟨hr, heq ▸ hyields.name_eq⟩⟩⟩
  simp only [Consistent, mem_expanded_expand]
  exact {
    hall with
    indexed := ⟨hall.indexed.root, hall.indexed.mem_byLhs⟩
    lists := ⟨hall.lists.sound, hall.lists.complete, hall.lists.nodup⟩ }

/-- An expansion with nothing in the queue is done. -/
theorem run_of_nil (hqueue : e.queue = []) : e.run s maxDepth = e := by
  rw [Expansion.run]
  split
  · rfl
  · next heq => exact absurd (hqueue.symm.trans heq) (List.cons_ne_nil _ _).symm

/-- The next category of the queue is expanded first. -/
theorem run_of_cons {rest : List Category} (hqueue : e.queue = c :: rest) :
    e.run s maxDepth = (Expansion.expand s maxDepth c { e with queue := rest }).run s maxDepth := by
  rw [Expansion.run]
  split
  · next heq => exact absurd (hqueue.symm.trans heq) (List.cons_ne_nil _ _)
  · next heq =>
    obtain ⟨rfl, rfl⟩ := List.cons.inj (hqueue.symm.trans heq)
    rfl

/-- Expanding until the queue is empty keeps an expansion consistent. -/
theorem Consistent.run (hs : s.Valid) (h : e.Consistent s partsOfSpeech settings) :
    (e.run s settings.maxStackDepth).Consistent s partsOfSpeech settings ∧
      (e.run s settings.maxStackDepth).queue = [] := by
  induction e using Expansion.run.induct s settings.maxStackDepth with
  | case1 e hqueue =>
    rw [run_of_nil hqueue]
    exact ⟨h, hqueue⟩
  | case2 e c rest hqueue ih =>
    rw [run_of_cons hqueue]
    exact ih (h.expand hs hqueue)

/-- An expansion is consistent before its first step. -/
theorem consistent_initial :
    (initial partsOfSpeech settings).Consistent s partsOfSpeech settings where
  indexed := Grammar.indexed_new _ _ _
  partsOfSpeech_eq := rfl
  rootRule? := rfl
  start_mem := by simp [initial]
  mem_seen {c} := by
    have heq : Category.bare settings.start = c ↔ c = Category.bare settings.start := eq_comm
    simpa [initial, Grammar.new, Grammar.insert] using heq
  not_taken := by simp [initial, Grammar.new, Grammar.insert]
  nodup := by simp [initial]
  reaches hc := by
    obtain rfl : Category.bare settings.start = _ := by simpa [initial] using hc
    exact .start
  met := by simp [initial, Grammar.new, Grammar.insert]
  lists := {
    sound := fun hq => absurd (Grammar.rules_new ▸ hq) List.not_mem_nil
    complete := by simp [initial, Grammar.new, Grammar.insert]
    nodup := List.nodup_nil }

/-- When the queue is empty, the categories that are reached are those that were expanded. -/
theorem Consistent.mem_expanded_iff (h : e.Consistent s partsOfSpeech settings)
    (hqueue : e.queue = []) : c ∈ e.grammar.expanded ↔ s.Reaches partsOfSpeech settings c := by
  have hseen {d : Category} : d ∈ e.seen ↔ d ∈ e.grammar.expanded := by
    rw [h.mem_seen, hqueue]
    simp
  constructor
  · exact fun hc => h.reaches (hseen.mpr hc)
  · intro hc
    induction hc with
    | start => exact hseen.mp h.start_mem
    | child _ hr hyields hd hsymbol ih =>
      obtain ⟨n, hn⟩ := Array.mem_iff_getElem?.mp hr
      exact hseen.mp (h.met ih hn hyields _ hd hsymbol)

end Expansion

end IndexedGrammar
