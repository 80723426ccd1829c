import IndexedGrammar.Lexicon
import IndexedGrammar.Proofs.Grammar.Reachable
import IndexedGrammar.Proofs.Parse.Basic
import Mathlib.Data.List.Nodup
import Mathlib.Data.List.Perm.Basic

/-!
# Parses under other rule numbers

Two grammars can have the same productions under different numbers. A parse by the one becomes a parse by the
other when its rules get the numbers of their counterparts, and it is shown as the same tree. So if the rules
of all parses have counterparts on the other side, and these lead back, the parses show the same trees equally
often.
-/

namespace IndexedGrammar

namespace Parse

mutual

/-- The rules that are applied, from the top down. -/
def rules : Parse → List Nat
  | word _ => []
  | nothing => []
  | apply _ rule parts => rule :: rulesOf parts

/-- The rules that are applied in several parses. -/
def rulesOf : List Parse → List Nat
  | [] => []
  | parse :: rest => parse.rules ++ rulesOf rest

end

mutual

/-- The parse with other numbers for its rules. -/
def renumber (number : Nat → Nat) : Parse → Parse
  | word category => word category
  | nothing => nothing
  | apply category rule parts => apply category (number rule) (renumberAll number parts)

/-- Several parses with other numbers for their rules. -/
def renumberAll (number : Nat → Nat) : List Parse → List Parse
  | [] => []
  | parse :: rest => parse.renumber number :: renumberAll number rest

end

variable {number back : Nat → Nat}

/-- A rule is applied in several parses if it is applied in one of them. -/
theorem mem_rulesOf {rule : Nat} {ts : List Parse} : rule ∈ rulesOf ts ↔ ∃ t ∈ ts, rule ∈ t.rules := by
  induction ts with
  | nil => simp [rulesOf]
  | cons t ts ih => simp [rulesOf, ih]

/-- Only the empty category is shown as nothing, under whatever numbers. -/
@[simp] theorem isNothing_renumber (t : Parse) : (t.renumber number).isNothing = t.isNothing := by
  cases t <;> rfl

mutual

/-- The leaves have no numbers. -/
theorem yield_renumber : (t : Parse) → (t.renumber number).yield = t.yield
  | word _ => rfl
  | nothing => rfl
  | apply _ _ parts => by rw [renumber, yield, yields_renumberAll parts, yield]

/-- The leaves of several parses have no numbers. -/
theorem yields_renumberAll : (ts : List Parse) → yields (renumberAll number ts) = yields ts
  | [] => rfl
  | t :: ts => by rw [renumberAll, yields, yield_renumber t, yields_renumberAll ts, yields]

end

mutual

/-- Numbers do not show in trees. -/
theorem tree_renumber (word? : Nat → Option String) :
    (t : Parse) → (start : Nat) → (t.renumber number).tree word? start = t.tree word? start
  | word _, _ => rfl
  | nothing, _ => rfl
  | apply _ _ parts, start => by
    rw [renumber, tree, yields_renumberAll parts, trees_renumberAll word? parts start, tree]

/-- Numbers do not show in trees side by side. -/
theorem trees_renumberAll (word? : Nat → Option String) :
    (ts : List Parse) → (start : Nat) → trees word? start (renumberAll number ts) = trees word? start ts
  | [], _ => rfl
  | t :: ts, start => by
    simp only [renumberAll, trees, isNothing_renumber, yield_renumber t, tree_renumber word? t,
      trees_renumberAll word? ts]

end

mutual

/-- The rules of a parse under other numbers are those of the parse. -/
theorem rules_renumber : (t : Parse) → (t.renumber number).rules = t.rules.map number
  | word _ => rfl
  | nothing => rfl
  | apply _ _ parts => by rw [renumber, rules, rulesOf_renumberAll parts, rules, List.map_cons]

/-- The rules of several parses under other numbers are those of the parses. -/
theorem rulesOf_renumberAll : (ts : List Parse) → rulesOf (renumberAll number ts) = (rulesOf ts).map number
  | [] => rfl
  | t :: ts => by
    rw [renumberAll, rulesOf, rules_renumber t, rulesOf_renumberAll ts, rulesOf, List.map_append]

end

mutual

/-- Numbers that lead back to the old ones give the old parse back. -/
theorem renumber_renumber : (t : Parse) → (∀ rule ∈ t.rules, back (number rule) = rule) →
    (t.renumber number).renumber back = t
  | word _, _ => rfl
  | nothing, _ => rfl
  | apply _ rule parts, h => by
    obtain ⟨hrule, hparts⟩ := List.forall_mem_cons.mp h
    rw [renumber, renumber, hrule, renumberAll_renumberAll parts hparts]

/-- Numbers that lead back to the old ones give several old parses back. -/
theorem renumberAll_renumberAll : (ts : List Parse) → (∀ rule ∈ rulesOf ts, back (number rule) = rule) →
    renumberAll back (renumberAll number ts) = ts
  | [], _ => rfl
  | t :: ts, h => by
    obtain ⟨ht, hts⟩ := List.forall_mem_append.mp h
    rw [renumberAll, renumberAll, renumber_renumber t ht, renumberAll_renumberAll ts hts]

end

/-- Parses that become each other under other numbers show the same trees equally often. -/
theorem map_tree_perm {parses others : List Parse} (hparses : parses.Nodup) (hothers : others.Nodup)
    (hto : ∀ t ∈ parses, t.renumber number ∈ others ∧ (t.renumber number).renumber back = t)
    (hfrom : ∀ t ∈ others, t.renumber back ∈ parses ∧ (t.renumber back).renumber number = t)
    (word? : Nat → Option String) (start : Nat) :
    (parses.map (tree word? start)).Perm (others.map (tree word? start)) := by
  have hnodup : (parses.map (renumber number)).Nodup := by
    refine hparses.map_on fun t ht u hu heq => ?_
    rw [← (hto t ht).2, heq, (hto u hu).2]
  have hperm : (parses.map (renumber number)).Perm others := by
    refine (List.perm_ext_iff_of_nodup hnodup hothers).mpr fun u => ?_
    rw [List.mem_map]
    constructor
    · rintro ⟨t, ht, rfl⟩
      exact (hto t ht).1
    · exact fun hu => ⟨_, hfrom u hu⟩
  refine List.Perm.trans ?_ (hperm.map (tree word? start))
  rw [List.map_map]
  exact .of_eq (List.map_congr_left fun t _ => (tree_renumber word? t start).symm)

end Parse

namespace Grammar

variable {g g' : Grammar} {number : Nat → Nat}

/-- Whether something is a parse of a sentence: of the start category, with words for its leaves. -/
def IsParseOf (g : Grammar) (lexicon : Lexicon) (words : List String) (t : Parse) : Prop :=
  g.IsParse g.start t ∧
    List.Forall₂ (fun category word => category ∈ lexicon.categories word) t.yield words

/-- Whether a parse applies an instance of a schema rule. -/
def Applies (g : Grammar) (t : Parse) (n : Nat) : Prop :=
  ∃ rule ∈ t.rules, ∃ r, (rule, r) ∈ g.rules ∧ r.origin = some n

/-- Whether two rules of two grammars have the same production. -/
def Matches (g g' : Grammar) (rule rule' : Nat) : Prop :=
  ∃ r r', (rule, r) ∈ g.rules ∧ (rule', r') ∈ g'.rules ∧ r'.lhs = r.lhs ∧ r'.rhs = r.rhs

/-- The number in another grammar of the production that a rule has. A rule without a counterpart keeps its
number. -/
def counterpart (g g' : Grammar) (rule : Nat) : Nat :=
  ((g.rule? rule).bind fun r => (g'.rules.find? fun numbered => numbered.2.sameProduction r).map
    Prod.fst).getD rule

/-- No production is listed twice. -/
def Unambiguous (g : Grammar) : Prop :=
  (g.rules.map fun numbered => (numbered.2.lhs, numbered.2.rhs)).Nodup

/-- Rules that match do so in either order. -/
theorem Matches.symm {rule rule' : Nat} (h : g.Matches g' rule rule') : g'.Matches g rule' rule := by
  obtain ⟨r, r', hr, hr', hlhs, hrhs⟩ := h
  exact ⟨r', r, hr', hr, hlhs.symm, hrhs.symm⟩

/-- Where no production is listed twice, the counterpart of a rule is the only rule that it matches. -/
theorem Matches.counterpart_eq (hg' : g'.Unambiguous) {rule rule' : Nat} (h : g.Matches g' rule rule') :
    g.counterpart g' rule = rule' := by
  obtain ⟨r, r', hr, hr', hlhs, hrhs⟩ := h
  have hrule : g.rule? rule = some r := (mem_rules_iff.mp hr).2.rule?
  have hsome : (g'.rules.find? fun numbered => numbered.2.sameProduction r).isSome := by
    rw [List.find?_isSome]
    exact ⟨(rule', r'), hr', by simp [Rule.sameProduction, hlhs, hrhs]⟩
  obtain ⟨⟨other, q⟩, hfind⟩ := Option.isSome_iff_exists.mp hsome
  have hq : (q.lhs, q.rhs) = (r'.lhs, r'.rhs) := by
    have hsame : q.lhs = r.lhs ∧ q.rhs = r.rhs := by
      simpa [Rule.sameProduction] using List.find?_some hfind
    rw [hsame.1, hsame.2, hlhs, hrhs]
  have hother := List.inj_on_of_nodup_map hg' (List.mem_of_find?_eq_some hfind) hr' hq
  rw [counterpart, hrule, Option.bind_some, hfind, Option.map_some, Option.getD_some]
  exact congrArg Prod.fst hother

/-- The counterpart of the counterpart is the rule itself. -/
theorem Matches.counterpart_counterpart (hg : g.Unambiguous) (hg' : g'.Unambiguous) {rule rule' : Nat}
    (h : g.Matches g' rule rule') : g'.counterpart g (g.counterpart g' rule) = rule := by
  rw [h.counterpart_eq hg', h.symm.counterpart_eq hg]

mutual

/-- The rules of a parse are rules of the grammar, and there are parses of their symbols. -/
theorem IsParse.mem_rules {c : Category} : (t : Parse) → g.IsParse c t →
    ∀ rule ∈ t.rules, ∃ r, (rule, r) ∈ g.rules ∧ ∃ parts, g.AreParses r.rhs parts
  | .word _, _, _, hrule => absurd hrule List.not_mem_nil
  | .nothing, _, _, hrule => absurd hrule List.not_mem_nil
  | .apply _ _ parts, h, rule, hrule => by
    rw [IsParse] at h
    obtain ⟨-, -, r, hr, -, hparts⟩ := h
    rcases List.mem_cons.mp hrule with rfl | hrule
    · exact ⟨r, hr, parts, hparts⟩
    · exact AreParses.mem_rules parts hparts rule hrule

/-- The rules of several parses are rules of the grammar, and there are parses of their symbols. -/
theorem AreParses.mem_rules {cs : List Category} : (ts : List Parse) → g.AreParses cs ts →
    ∀ rule ∈ Parse.rulesOf ts, ∃ r, (rule, r) ∈ g.rules ∧ ∃ parts, g.AreParses r.rhs parts
  | [], _, _, hrule => absurd hrule List.not_mem_nil
  | t :: ts, h, rule, hrule => by
    cases cs with
    | nil => simp [AreParses] at h
    | cons c cs =>
      rw [AreParses] at h
      rcases List.mem_append.mp hrule with hrule | hrule
      · exact IsParse.mem_rules t h.1 rule hrule
      · exact AreParses.mem_rules ts h.2 rule hrule

end

mutual

/-- A parse becomes a parse of another grammar with the same parts of speech when its rules get the numbers of
rules that they match. -/
theorem IsParse.renumber (hpos : g'.partsOfSpeech = g.partsOfSpeech) {c : Category} :
    (t : Parse) → g.IsParse c t → (∀ rule ∈ t.rules, g.Matches g' rule (number rule)) →
    g'.IsParse c (t.renumber number)
  | .word _, h, _ => by
    rw [IsParse, isPartOfSpeech] at h
    rw [Parse.renumber, IsParse, isPartOfSpeech, hpos]
    exact h
  | .nothing, h, _ => by
    rw [IsParse] at h
    rwa [Parse.renumber, IsParse]
  | .apply _ rule parts, h, hmatches => by
    obtain ⟨hrule, hparts⟩ := List.forall_mem_cons.mp hmatches
    obtain ⟨q, q', hq, hq', hlhs, hrhs⟩ := hrule
    rw [IsParse, isNonterminal, isPartOfSpeech] at h
    obtain ⟨heq, hsymbol, r, hr, hc, hall⟩ := h
    obtain rfl := (mem_rules_iff.mp hr).2.unique (mem_rules_iff.mp hq).2
    rw [Parse.renumber, IsParse, isNonterminal, isPartOfSpeech, hpos]
    exact ⟨heq, hsymbol, q', hq', hlhs.trans hc, hrhs ▸ AreParses.renumber hpos parts hall hparts⟩

/-- Several parses become parses of another grammar with the same parts of speech when their rules get the
numbers of rules that they match. -/
theorem AreParses.renumber (hpos : g'.partsOfSpeech = g.partsOfSpeech) {cs : List Category} :
    (ts : List Parse) → g.AreParses cs ts → (∀ rule ∈ Parse.rulesOf ts, g.Matches g' rule (number rule)) →
    g'.AreParses cs (Parse.renumberAll number ts)
  | [], h, _ => by
    cases cs with
    | nil => trivial
    | cons c cs => simp [AreParses] at h
  | t :: ts, h, hmatches => by
    obtain ⟨ht, hts⟩ := List.forall_mem_append.mp hmatches
    cases cs with
    | nil => simp [AreParses] at h
    | cons c cs =>
      rw [AreParses] at h
      exact ⟨IsParse.renumber hpos t h.1 ht, AreParses.renumber hpos ts h.2 hts⟩

end

/-- A parse all of whose rules have counterparts becomes a parse of the other grammar under their numbers, and
the counterparts of these lead back. -/
theorem IsParse.counterpart (hpos : g'.partsOfSpeech = g.partsOfSpeech) (hg : g.Unambiguous)
    (hg' : g'.Unambiguous) {c : Category} {t : Parse} (h : g.IsParse c t)
    (hmatches : ∀ rule ∈ t.rules, ∃ rule', g.Matches g' rule rule') :
    g'.IsParse c (t.renumber (g.counterpart g')) ∧
      (t.renumber (g.counterpart g')).renumber (g'.counterpart g) = t := by
  constructor
  · refine IsParse.renumber hpos t h fun rule hrule => ?_
    obtain ⟨rule', hrule'⟩ := hmatches rule hrule
    rwa [hrule'.counterpart_eq hg']
  · refine Parse.renumber_renumber t fun rule hrule => ?_
    obtain ⟨rule', hrule'⟩ := hmatches rule hrule
    exact hrule'.counterpart_counterpart hg hg'

end Grammar

end IndexedGrammar
