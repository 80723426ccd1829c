import IndexedGrammar.Proofs.Expansion.Apart
import IndexedGrammar.Proofs.Parse.Renumbered

/-!
# Parts of a schema

A part of a schema has some of its rules, in order. Its compiled productions are compiled productions of the
whole schema, though their numbers and the schema rules behind them can be others: a production that several
schema rules yield is kept as long as one of these rules is. A parse by the whole schema becomes one by the
part if the schema rules behind all its rules are kept, for then all categories in it are reached.
-/

namespace IndexedGrammar

/-- A schema that has some rules of another one, in order, given the numbers that they have there. -/
structure Schema.PartOf (part s : Schema) (kept : List Nat) : Prop where
  rules : List.Forall₂ (fun r n => s.rules[n]? = some r) part.rules.toList kept
  ascending : kept.Pairwise (· < ·)

namespace Schema.PartOf

variable {s part : Schema} {kept : List Nat} {partsOfSpeech : Std.ExtTreeSet String} {settings : Settings}
  {g g' : Grammar} {c : Category} {m n : Nat} {r : Rule}

/-- The rules of a part have numbers in the whole. -/
theorem exists_number (h : part.PartOf s kept) (hr : part.rules[m]? = some r) :
    ∃ n, kept[m]? = some n ∧ s.rules[n]? = some r := by
  obtain ⟨hlength, hall⟩ := List.forall₂_iff_get.mp h.rules
  rw [← Array.getElem?_toList] at hr
  obtain ⟨hm, rfl⟩ := List.getElem?_eq_some_iff.mp hr
  exact ⟨_, List.getElem?_eq_getElem (hlength ▸ hm), hall m hm (hlength ▸ hm)⟩

/-- The numbers that are kept are those of rules of the part. -/
theorem exists_rule (h : part.PartOf s kept) (hn : kept[m]? = some n) :
    ∃ r, part.rules[m]? = some r ∧ s.rules[n]? = some r := by
  obtain ⟨hlength, hall⟩ := List.forall₂_iff_get.mp h.rules
  obtain ⟨hm, rfl⟩ := List.getElem?_eq_some_iff.mp hn
  refine ⟨_, ?_, hall m (hlength ▸ hm) hm⟩
  rw [← Array.getElem?_toList]
  exact List.getElem?_eq_getElem (hlength ▸ hm)

/-- The rules of a part are rules of the whole. -/
theorem mem_rules (h : part.PartOf s kept) (hr : r ∈ part.rules) : r ∈ s.rules := by
  obtain ⟨m, hm⟩ := Array.mem_iff_getElem?.mp hr
  obtain ⟨n, -, hn⟩ := h.exists_number hm
  exact Array.mem_of_getElem? hn

/-- A part of a valid schema is valid. -/
theorem valid (h : part.PartOf s kept) (hs : s.Valid) : part.Valid :=
  fun r hr => hs r (h.mem_rules hr)

/-- A part of a schema that keeps its names apart keeps them apart. -/
theorem apart (h : part.PartOf s kept) (hapart : s.Apart settings) : part.Apart settings where
  start := hapart.start
  lhs r hr := hapart.lhs r (h.mem_rules hr)
  heir r hr := hapart.heir r (h.mem_rules hr)
  child r hr := hapart.child r (h.mem_rules hr)

/-- What a part reaches, the whole reaches. -/
theorem reaches (h : part.PartOf s kept) (hc : part.Reaches partsOfSpeech settings c) :
    s.Reaches partsOfSpeech settings c := by
  induction hc with
  | start => exact .start
  | child _ hr hyields hd hsymbol ih => exact .child ih (h.mem_rules hr) hyields hd hsymbol

/-- An earlier rule of a part has a smaller number in the whole. -/
theorem number_lt (h : part.PartOf s kept) {m' n' : Nat} (hn : kept[m]? = some n) (hn' : kept[m']? = some n')
    (hlt : m < m') : n < n' := by
  obtain ⟨hm, rfl⟩ := List.getElem?_eq_some_iff.mp hn
  obtain ⟨hm', rfl⟩ := List.getElem?_eq_some_iff.mp hn'
  exact List.pairwise_iff_getElem.mp h.ascending m m' hm hm' hlt

section Compiled

variable (h : part.PartOf s kept) (hs : s.Valid) (hapart : s.Apart settings)
  (hg : s.compiled partsOfSpeech settings = g) (hg' : part.compiled partsOfSpeech settings = g')
include h hs hapart hg hg'

/-- Every compiled rule of a part matches a compiled rule of the whole. -/
theorem exists_matches {rule : Nat} {q : Rule} (hq : (rule, q) ∈ g'.rules) :
    ∃ rule', g'.Matches g rule rule' := by
  subst hg hg'
  obtain ⟨hreaches, m, r, -, hm, hyields, -⟩ := (h.valid hs).origin_eq hq
  have hr := h.mem_rules (Array.mem_of_getElem? hm)
  obtain ⟨rule', q', hq', hlhs, hrhs⟩ :=
    hs.exists_mem_rules (h.reaches hreaches) (hapart.name_ne_gamma hr hyields) hr hyields
  exact ⟨rule', q, q', hq, hq', hlhs, hrhs⟩

/-- A part has no more productions than the whole. -/
theorem productionsIn : g'.ProductionsIn g := by
  intro rule q hq
  obtain ⟨rule', r, q', hr, hq', hlhs, hrhs⟩ := h.exists_matches hs hapart hg hg' hq
  obtain rfl := (Grammar.mem_rules_iff.mp hr).2.unique (Grammar.mem_rules_iff.mp hq).2
  exact ⟨rule', q', hq', hlhs, hrhs⟩

/-- A compiled rule for a category that the part reaches matches a compiled rule of the part, if the schema
rule behind it is kept; and the part reaches the nonterminals among its symbols. -/
theorem exists_matches_of_mem {rule : Nat} {q : Rule} (hq : (rule, q) ∈ g.rules) (hn : n ∈ kept)
    (horigin : q.origin = some n) (hreaches : part.Reaches partsOfSpeech settings q.lhs) :
    (∃ rule', g.Matches g' rule rule') ∧
      ∀ d ∈ q.rhs, d.IsNonterminal partsOfSpeech → part.Reaches partsOfSpeech settings d := by
  subst hg hg'
  obtain ⟨-, first, r, hfirst, hr, hyields, -⟩ := hs.origin_eq hq
  obtain rfl := Option.some.inj (hfirst.symm.trans horigin)
  obtain ⟨m, hm⟩ := List.mem_iff_getElem?.mp hn
  obtain ⟨r', hr', hsame⟩ := h.exists_rule hm
  obtain rfl := Option.some.inj (hsame.symm.trans hr)
  have hmem := Array.mem_of_getElem? hr'
  obtain ⟨rule', q', hq', hlhs, hrhs⟩ := (h.valid hs).exists_mem_rules hreaches
    ((h.apart hapart).name_ne_gamma hmem hyields) hmem hyields
  exact ⟨⟨rule', q, q', hq, hq', hlhs, hrhs⟩, fun d hd hsymbol => .child hreaches hmem hyields hd hsymbol⟩

omit hapart in
/-- If the schema rule behind a rule is kept, it is also behind the rule of the part that this one matches. -/
theorem origin_of_matches {rule rule' : Nat} {q q' : Rule} (hq : (rule, q) ∈ g.rules)
    (hq' : (rule', q') ∈ g'.rules) (hlhs : q'.lhs = q.lhs) (hrhs : q'.rhs = q.rhs) (hm : kept[m]? = some n)
    (horigin : q.origin = some n) : q'.origin = some m := by
  subst hg hg'
  obtain ⟨-, first, r, hfirst, hr, hyields, hleast⟩ := hs.origin_eq hq
  obtain rfl := Option.some.inj (horigin.symm.trans hfirst)
  obtain ⟨-, m', r', hm', hr', hyields', hleast'⟩ := (h.valid hs).origin_eq hq'
  obtain ⟨other, hother, hsame⟩ := h.exists_rule hm
  obtain rfl := Option.some.inj (hsame.symm.trans hr)
  obtain ⟨n', hn', hr''⟩ := h.exists_number hr'
  -- each of the two rules is the first one that yields the production, in the same order
  have hle : m' ≤ m := hleast' m other hother (hlhs ▸ hrhs ▸ hyields)
  have hle' : n ≤ n' := hleast n' r' hr'' (hlhs ▸ hrhs ▸ hyields')
  rcases Nat.lt_or_eq_of_le hle with hlt | rfl
  · exact absurd (h.number_lt hn' hm hlt) (Nat.not_lt.mpr hle')
  · exact hm'

end Compiled

mutual

/-- The rules of a parse by the whole match rules of the part, if the schema rules behind them are kept and
the part reaches the category that is parsed. -/
theorem exists_matches_of_isParse (h : part.PartOf s kept) (hs : s.Valid) (hapart : s.Apart settings)
    (hg : s.compiled partsOfSpeech settings = g) (hg' : part.compiled partsOfSpeech settings = g')
    {c : Category} : (t : Parse) → g.IsParse c t →
    (c.IsNonterminal partsOfSpeech → part.Reaches partsOfSpeech settings c) →
    (∀ rule ∈ t.rules, ∀ q, (rule, q) ∈ g.rules → ∃ n ∈ kept, q.origin = some n) →
    ∀ rule ∈ t.rules, ∃ rule', g.Matches g' rule rule'
  | .word _, _, _, _, _, hrule => absurd hrule List.not_mem_nil
  | .nothing, _, _, _, _, hrule => absurd hrule List.not_mem_nil
  | .apply category applied ts, hparse, hreaches, hkept, rule, hrule => by
    rw [Grammar.IsParse] at hparse
    obtain ⟨rfl, hsymbol, q, hq, rfl, hparts⟩ := hparse
    obtain ⟨happlied, hrest⟩ := List.forall_mem_cons.mp hkept
    obtain ⟨n, hn, horigin⟩ := happlied q hq
    rw [Grammar.isNonterminal_eq_true_iff, ← hg, hs.partsOfSpeech_compiled] at hsymbol
    obtain ⟨hmatches, hreached⟩ :=
      h.exists_matches_of_mem hs hapart hg hg' hq hn horigin (hreaches hsymbol)
    rcases List.mem_cons.mp hrule with rfl | hrule
    · exact hmatches
    · exact exists_matches_of_areParses h hs hapart hg hg' ts hparts hreached hrest rule hrule

/-- The rules of several parses by the whole match rules of the part, if the schema rules behind them are kept
and the part reaches the categories that are parsed. -/
theorem exists_matches_of_areParses (h : part.PartOf s kept) (hs : s.Valid) (hapart : s.Apart settings)
    (hg : s.compiled partsOfSpeech settings = g) (hg' : part.compiled partsOfSpeech settings = g')
    {cs : List Category} : (ts : List Parse) → g.AreParses cs ts →
    (∀ c ∈ cs, c.IsNonterminal partsOfSpeech → part.Reaches partsOfSpeech settings c) →
    (∀ rule ∈ Parse.rulesOf ts, ∀ q, (rule, q) ∈ g.rules → ∃ n ∈ kept, q.origin = some n) →
    ∀ rule ∈ Parse.rulesOf ts, ∃ rule', g.Matches g' rule rule'
  | [], _, _, _, _, hrule => absurd hrule List.not_mem_nil
  | t :: ts, hparses, hreaches, hkept, rule, hrule => by
    cases cs with
    | nil => simp [Grammar.AreParses] at hparses
    | cons c cs =>
      rw [Grammar.AreParses] at hparses
      obtain ⟨hc, hcs⟩ := List.forall_mem_cons.mp hreaches
      obtain ⟨hfirst, hrest⟩ := List.forall_mem_append.mp hkept
      rcases List.mem_append.mp hrule with hrule | hrule
      · exact exists_matches_of_isParse h hs hapart hg hg' t hparses.1 hc hfirst rule hrule
      · exact exists_matches_of_areParses h hs hapart hg hg' ts hparses.2 hcs hrest rule hrule

end

/-! Parses of sentences -/

section Sentences

variable (h : part.PartOf s kept) (hs : s.Valid) (hapart : s.Apart settings)
  (hg : s.compiled partsOfSpeech settings = g) (hg' : part.compiled partsOfSpeech settings = g')
  {lexicon : Lexicon} {words : List String} {t : Parse}
include h hs hapart hg hg'

/-- A parse of a sentence by a part becomes one by the whole. -/
theorem isParseOf_whole (ht : g'.IsParseOf lexicon words t) :
    g.IsParseOf lexicon words (t.renumber (g'.counterpart g)) ∧
      (t.renumber (g'.counterpart g)).renumber (g.counterpart g') = t := by
  have hmatches : ∀ rule ∈ t.rules, ∃ rule', g'.Matches g rule rule' := by
    intro rule hrule
    obtain ⟨q, hq, -⟩ := ht.1.mem_rules t rule hrule
    exact h.exists_matches hs hapart hg hg' hq
  subst hg hg'
  obtain ⟨hparse, hback⟩ := ht.1.counterpart
    (hs.partsOfSpeech_compiled.trans (h.valid hs).partsOfSpeech_compiled.symm)
    (h.valid hs).nodup_productions hs.nodup_productions hmatches
  rw [(h.valid hs).start_compiled, ← hs.start_compiled] at hparse
  exact ⟨⟨hparse, by rw [Parse.yield_renumber]; exact ht.2⟩, hback⟩

/-- A parse of a sentence by the whole becomes one by the part if the schema rules behind its rules are kept,
and it applies the same schema rules. -/
theorem isParseOf_part (ht : g.IsParseOf lexicon words t) (hkept : ∀ n, g.Applies t n → n ∈ kept) :
    g'.IsParseOf lexicon words (t.renumber (g.counterpart g')) ∧
      (t.renumber (g.counterpart g')).renumber (g'.counterpart g) = t ∧
      ∀ m n, kept[m]? = some n → g.Applies t n → g'.Applies (t.renumber (g.counterpart g')) m := by
  have horigin : ∀ rule ∈ t.rules, ∀ q, (rule, q) ∈ g.rules → ∃ n ∈ kept, q.origin = some n := by
    intro rule hrule q hq
    obtain ⟨-, n, r, hn, -⟩ := hs.origin_eq (hg ▸ hq)
    exact ⟨n, hkept n ⟨rule, hrule, q, hq, hn⟩, hn⟩
  have hmatches := h.exists_matches_of_isParse hs hapart hg hg' t ht.1
    (fun _ => by rw [← hg, hs.start_compiled]; exact .start) horigin
  have hunambiguous : g'.Unambiguous := hg' ▸ (h.valid hs).nodup_productions
  obtain ⟨hparse, hback⟩ := ht.1.counterpart (by
    rw [← hg, ← hg', hs.partsOfSpeech_compiled, (h.valid hs).partsOfSpeech_compiled])
    (hg ▸ hs.nodup_productions) hunambiguous hmatches
  refine ⟨⟨?_, by rw [Parse.yield_renumber]; exact ht.2⟩, hback, fun m n hm happlies => ?_⟩
  · rwa [← hg', (h.valid hs).start_compiled, ← hs.start_compiled, hg, hg']
  · obtain ⟨rule, hrule, q, hq, hn⟩ := happlies
    obtain ⟨rule', hmatch⟩ := hmatches rule hrule
    obtain ⟨r, q', hr, hq', hlhs, hrhs⟩ := id hmatch
    obtain rfl := (Grammar.mem_rules_iff.mp hr).2.unique (Grammar.mem_rules_iff.mp hq).2
    refine ⟨rule', ?_, q', hq', h.origin_of_matches hs hg hg' hq hq' hlhs hrhs hm hn⟩
    rw [Parse.rules_renumber]
    exact List.mem_map.mpr ⟨rule, hrule, hmatch.counterpart_eq hunambiguous⟩

end Sentences

end Schema.PartOf

end IndexedGrammar
