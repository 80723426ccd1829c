import IndexedGrammar.Proofs.Expansion.Compiled
import IndexedGrammar.Proofs.Parse.Finite

/-!
# Compilation and unit cycles

A compiled rule has as many symbols as its schema rule. If the empty category stands beside no other symbol,
the compiled rules are plain, so compilation refuses a schema exactly if some category would rewrite to
itself, and what it does not refuse has finitely many parses of every sentence. Filling in a wildcard can
put the empty category beside another symbol; such a cycle is not found.
-/

namespace IndexedGrammar

/-- The empty category stands beside no other symbol of a rule. -/
def Grammar.EpsilonAlone (g : Grammar) : Prop :=
  ∀ id r, (id, r) ∈ g.rules → 1 < r.rhs.length → ∀ c ∈ r.rhs, c.isEpsilon = false

variable {s : Schema} {partsOfSpeech : Std.ExtTreeSet String} {settings : Settings} {g : Grammar}

/-- A rule with one or two symbols is plain if the empty category stands alone. -/
theorem Rule.plain_of_length {r : Rule} (hne : r.rhs ≠ []) (hle : r.rhs.length ≤ 2)
    (halone : 1 < r.rhs.length → ∀ c ∈ r.rhs, c.isEpsilon = false) : r.Plain := by
  unfold Rule.Plain
  match hrhs : r.rhs with
  | [] => exact absurd hrhs hne
  | [c] => exact .inl ⟨c, rfl⟩
  | [first, second] =>
    have hboth := halone (by simp [hrhs])
    rw [hrhs] at hboth
    exact .inr ⟨first, second, rfl, hboth first (by simp), hboth second (by simp)⟩
  | _ :: _ :: _ :: _ => simp [hrhs] at hle

/-- A schema rule yields one or two symbols. -/
theorem Rule.Yields.length_bounds {r : Rule} {c : Category} {rhs : List Category} {maxDepth : Nat}
    (hr : r.Proper) (h : r.Yields partsOfSpeech maxDepth c rhs) : 0 < rhs.length ∧ rhs.length ≤ 2 := by
  rw [h.length_eq]
  exact ⟨List.length_pos_iff.mpr hr.wellFormed.rhs_ne_nil, hr.wellFormed.length_le⟩

/-- If the empty category stands beside no other symbol of a compiled rule, the rule is plain. -/
theorem Schema.Valid.plain_of_alone (hs : s.Valid) {id : Nat} {q : Rule}
    (hq : (id, q) ∈ (s.compiled partsOfSpeech settings).rules)
    (halone : 1 < q.rhs.length → ∀ c ∈ q.rhs, c.isEpsilon = false) : q.Plain := by
  obtain ⟨-, n, r, -, hr, hyields, -⟩ := hs.origin_eq hq
  obtain ⟨hpos, hle⟩ := hyields.length_bounds (hs r (Array.mem_of_getElem? hr))
  exact Rule.plain_of_length (List.length_pos_iff.mp hpos) hle halone

/-- If the empty category stands beside no other symbol, the compiled rules are plain. -/
theorem Schema.Valid.plain_compiled (hs : s.Valid)
    (halone : (s.compiled partsOfSpeech settings).EpsilonAlone) :
    (s.compiled partsOfSpeech settings).Plain :=
  fun id q hq => hs.plain_of_alone hq (halone id q hq)

/-- In a grammar of plain rules without unit cycles, unit steps lead to lower ranks. -/
theorem Grammar.Plain.exists_rank (hplain : g.Plain) (h : g.hasUnitCycle = false) :
    ∃ rank : Category → Nat, ∀ a b, g.UnitStep a b → rank b < rank a := by
  obtain ⟨rank, hrank⟩ := UnitGraph.exists_rank_of_hasCycle h
  exact ⟨rank, fun a b hab => hrank a b ((Grammar.leads_iff_unitStep hplain).mpr hab)⟩

/-- If the empty category stands beside no other symbol of the compiled rules, then a schema that compiles
has no category that rewrites to itself and finitely many parses of every sentence, and a schema that is
refused has a category that rewrites to itself. -/
theorem compile_finds_cycles {rules : List Rule} (hs : Schema.ofRules rules = .ok s)
    (halone : (s.compiled partsOfSpeech settings).EpsilonAlone) :
    (∀ g, compile s partsOfSpeech settings = .ok g → (∀ c, ¬g.RewritesToItself c) ∧
      ∀ (lexicon : Lexicon) (words : List String), {t | g.IsParse g.start t ∧
        List.Forall₂ (fun category word => category ∈ lexicon.categories word) t.yield words}.Finite) ∧
    (∀ fault, compile s partsOfSpeech settings = .error fault → fault = .malformed .cyclicUnit ∧
      ∃ c, (s.compiled partsOfSpeech settings).RewritesToItself c) := by
  have hplain := (Schema.valid_ofRules hs).plain_compiled halone
  constructor
  · intro g h
    obtain ⟨rfl, hcycle⟩ := compile_eq_ok_iff.mp h
    obtain ⟨rank, hrank⟩ := hplain.exists_rank hcycle
    refine ⟨fun c hc => ?_, fun lexicon words => Grammar.finite_sentence_parses hrank _ lexicon words⟩
    rw [(Grammar.hasUnitCycle_iff hplain).mpr ⟨c, hc⟩] at hcycle
    contradiction
  · intro fault h
    rw [compile_eq] at h
    split at h
    · next hcycle => exact ⟨(Except.error.inj h).symm, (Grammar.hasUnitCycle_iff hplain).mp hcycle⟩
    · contradiction

open Sample in
/-- Compiling counted lists leads to a grammar without categories that rewrite to themselves. -/
theorem compile_finds_cycles_counted :
    (counted.compiled lists.partsOfSpeech forCounted).EpsilonAlone ∧
      ∃ g, compile counted lists.partsOfSpeech forCounted = .ok g ∧ (∀ c, ¬g.RewritesToItself c) ∧
        {t | g.IsParse g.start t ∧ List.Forall₂ (fun category word =>
          category ∈ words.categories word) t.yield ["a", "b", "a"]}.Finite := by
  have halone : (counted.compiled lists.partsOfSpeech forCounted).EpsilonAlone := by
    have hall : ∀ numbered ∈ (counted.compiled lists.partsOfSpeech forCounted).rules,
        1 < numbered.2.rhs.length → ∀ c ∈ numbered.2.rhs, c.isEpsilon = false := by decide +kernel
    exact fun id r hr => hall (id, r) hr
  have hcompile : (compile counted lists.partsOfSpeech forCounted).toOption.isSome = true := by
    decide +kernel
  obtain ⟨g, hg⟩ := Option.isSome_iff_exists.mp hcompile
  have hg := ok_of_toOption hg
  obtain ⟨hnone, hfinite⟩ := (compile_finds_cycles ofRules_counted halone).1 g hg
  exact ⟨halone, g, hg, hnone, hfinite words ["a", "b", "a"]⟩

/-- Two rules, one of which can put the empty category beside the start category. -/
def Sample.hidden : List Rule :=
  [⟨⟨"START", "*"⟩, [⟨"Epsilon", "*"⟩, .bare "START"], none⟩, ⟨.bare "START", [.bare "n"], none⟩]

/-- When a wildcard is filled in so that the empty category stands beside the start category, the start
category rewrites to itself in the compiled grammar. -/
theorem exists_compile_rewritesToItself : ∃ s g c, Schema.ofRules Sample.hidden = .ok s ∧
    compile s (.ofList ["n"]) {} = .ok g ∧ g.RewritesToItself c := by
  have hs : Schema.ofRules Sample.hidden = .ok ⟨Sample.hidden.toArray⟩ :=
    Sample.ok_of_toOption (by decide +kernel)
  have hcompile : ((compile ⟨Sample.hidden.toArray⟩ (.ofList ["n"]) {}).toOption.any fun g =>
      g.rules.contains (1, ⟨.bare "START", [Category.epsilon, .bare "START"], some 0⟩)) = true := by
    decide +kernel
  obtain ⟨g, hg, hcontains⟩ := Sample.exists_ok_of_any hcompile
  refine ⟨_, g, .bare "START", hs, hg, .single ⟨by decide, 1, _, [Category.epsilon], [],
    List.contains_iff_mem.mp hcontains, rfl, rfl, fun c hc => .epsilon ?_⟩⟩
  obtain rfl : c = Category.epsilon := by simpa using hc
  decide

end IndexedGrammar
