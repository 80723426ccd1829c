import IndexedGrammar.Proofs.Grammar.Reachable
import IndexedGrammar.Chart.Basic

/-!
# What stands behind a dot

An item expects the symbol behind its dot, or has completed the left-hand side of its rule. The
name of the synthetic rule's left-hand side is meant for that rule alone; where it stands nowhere
else, no item expects it, so the synthetic rule is begun only once.
-/

namespace IndexedGrammar.Grammar

/-- The symbol behind an item's dot. -/
def Expects (g : Grammar) (item : Item) (symbol : Category) : Prop :=
  g.ahead item.rule item.dot = .expects symbol

/-- The category of which an item is a complete rule. -/
def Completes (g : Grammar) (item : Item) (lhs : Category) : Prop :=
  g.ahead item.rule item.dot = .complete lhs

instance (g : Grammar) (item : Item) (symbol : Category) : Decidable (g.Expects item symbol) :=
  inferInstanceAs (Decidable (_ = _))

instance (g : Grammar) (item : Item) (lhs : Category) : Decidable (g.Completes item lhs) :=
  inferInstanceAs (Decidable (_ = _))

/-- The name of the synthetic rule's left-hand side stands nowhere else in the rules in use. -/
def RootUnused (g : Grammar) : Prop :=
  ∀ root, g.rootRule? = some root → g.start.name ≠ root.lhs.name ∧
    ∀ id r, (id, r) ∈ g.rules → r.lhs.name ≠ root.lhs.name ∧ ∀ c ∈ r.rhs, c.name ≠ root.lhs.name

/-- Nothing waits for the synthetic rule: no other rule in use has its left-hand side, nor asks for it,
unless it is empty, for over the empty category dots move without a rule. -/
def RootUnasked (g : Grammar) : Prop :=
  ∀ root, g.rootRule? = some root → (∀ id r, (id, r) ∈ g.rules → r.lhs ≠ root.lhs) ∧
    (root.lhs.isEpsilon = false → g.start ≠ root.lhs ∧ ∀ id r, (id, r) ∈ g.rules → root.lhs ∉ r.rhs)

/-- No rule in use asks for the synthetic rule's left-hand side as a part of speech. -/
def RootUnscanned (g : Grammar) : Prop :=
  ∀ root, g.rootRule? = some root → root.lhs.isEpsilon = false → g.isPartOfSpeech root.lhs = true →
    ∀ id r, g.HasRule id r → root.lhs ∉ r.rhs

variable {g : Grammar}

/-- An expected symbol stands in the item's rule, behind its dot. -/
theorem expects_iff {item : Item} {symbol : Category} :
    g.Expects item symbol ↔ ∃ r, g.rule? item.rule = some r ∧ r.rhs[item.dot]? = some symbol := by
  unfold Expects ahead
  cases g.rule? item.rule with
  | none => simp
  | some r =>
    cases h : r.rhs[item.dot]? with
    | none => simp [h]
    | some c => simp [h]

/-- A complete item's dot stands behind all symbols of its rule. -/
theorem completes_iff {item : Item} {lhs : Category} :
    g.Completes item lhs ↔ ∃ r, g.rule? item.rule = some r ∧ r.rhs.length ≤ item.dot ∧ r.lhs = lhs := by
  unfold Completes ahead
  cases g.rule? item.rule with
  | none => simp
  | some r =>
    simp only [Option.some.injEq, exists_eq_left', ← List.getElem?_eq_none_iff]
    cases h : r.rhs[item.dot]? with
    | none => simp
    | some c => simp

/-- The dot in front of an expected symbol stands before the end of its rule. -/
theorem Expects.dot_lt {item : Item} {symbol : Category} (h : g.Expects item symbol) {r : Rule}
    (hr : g.rule? item.rule = some r) : item.dot < r.rhs.length := by
  obtain ⟨other, hother, hsymbol⟩ := expects_iff.mp h
  obtain rfl := Option.some.inj (hother.symm.trans hr)
  exact (List.getElem?_eq_some_iff.mp hsymbol).1

/-- An item expects at most one symbol. -/
theorem Expects.unique {item : Item} {a b : Category} (ha : g.Expects item a)
    (hb : g.Expects item b) : a = b :=
  Ahead.expects.inj (ha.symm.trans hb)

/-- An item completes at most one category. -/
theorem Completes.unique {item : Item} {a b : Category} (ha : g.Completes item a)
    (hb : g.Completes item b) : a = b :=
  Ahead.complete.inj (ha.symm.trans hb)

/-- An item that expects a symbol is not complete. -/
theorem Expects.not_completes {item : Item} {a b : Category} (ha : g.Expects item a) :
    ¬g.Completes item b := by
  intro hb
  exact absurd (ha.symm.trans hb) (by simp)

/-- A nonterminal is neither empty nor a part of speech. -/
theorem isNonterminal_iff {c : Category} :
    g.isNonterminal c = true ↔ c.isEpsilon = false ∧ g.isPartOfSpeech c = false := by
  simp [isNonterminal]

/-- An indexed grammar has a synthetic rule, over its start category. -/
theorem Indexed.rootRule? (h : g.Indexed) :
    ∃ name, g.HasRule rootId ⟨Category.bare name, [g.start], none⟩ ∧
      g.rootRule? = some ⟨Category.bare name, [g.start], none⟩ := by
  obtain ⟨name, hroot⟩ := h.root
  exact ⟨name, hroot, hroot.rule?⟩

/-- An indexed grammar has a synthetic rule. -/
theorem Indexed.isSome_rootRule? (h : g.Indexed) : g.rootRule?.isSome = true := by
  obtain ⟨name, -, hroot⟩ := h.rootRule?
  rw [hroot, Option.isSome_some]

/-- What stands behind a dot is known for the rules of a grammar. -/
theorem ahead_ne_unknown {rule : Nat} (h : (g.rule? rule).isSome) (dot : Nat) : g.ahead rule dot ≠ .unknown := by
  obtain ⟨r, hr⟩ := Option.isSome_iff_exists.mp h
  rw [ahead, hr]
  dsimp only
  split <;> simp

/-- Nothing waits for the synthetic rule if its name stands nowhere else. -/
theorem RootUnused.unasked (h : g.RootUnused) : g.RootUnasked := by
  intro root hroot
  obtain ⟨hstart, hrules⟩ := h root hroot
  refine ⟨fun id r hr heq => (hrules id r hr).1 (congrArg Category.name heq), fun _ => ⟨fun heq =>
    hstart (congrArg Category.name heq), fun id r hr hmem => (hrules id r hr).2 _ hmem rfl⟩⟩

/-- No rule in use asks for the synthetic rule's left-hand side, unless it is empty. -/
theorem RootUnasked.lhs_not_mem_rhs (hg : g.Indexed) (hunasked : g.RootUnasked) {root r : Rule}
    {id : Nat} (hroot : g.rootRule? = some root) (hempty : root.lhs.isEpsilon = false)
    (hr : g.HasRule id r) : root.lhs ∉ r.rhs := by
  intro hmem
  obtain ⟨name, hname, hrule⟩ := hg.rootRule?
  obtain rfl := Option.some.inj (hrule.symm.trans hroot)
  obtain ⟨hstart, hrules⟩ := (hunasked _ hroot).2 hempty
  by_cases hid : id = rootId
  · subst hid
    obtain rfl := hr.unique hname
    exact hstart (List.mem_singleton.mp hmem).symm
  · exact hrules id r (mem_rules_iff.mpr ⟨hid, hr⟩) hmem

/-- What no rule asks for, no rule asks for as a part of speech. -/
theorem RootUnasked.unscanned (hg : g.Indexed) (hunasked : g.RootUnasked) : g.RootUnscanned :=
  fun _ hroot hempty _ _ _ hr => hunasked.lhs_not_mem_rhs hg hroot hempty hr

/-- Only the synthetic rule has its left-hand side. -/
theorem RootUnasked.eq_rootId (hunasked : g.RootUnasked) {root r : Rule} {id : Nat}
    (hroot : g.rootRule? = some root) (hr : g.HasRule id r) (hlhs : r.lhs = root.lhs) :
    id = rootId := by
  by_contra hid
  exact (hunasked root hroot).1 id r (mem_rules_iff.mpr ⟨hid, hr⟩) hlhs

/-! A grammar without one of its rules -/

/-- A grammar that has the rules of another but for one, which is not the synthetic rule. -/
structure Without (g : Grammar) (id : Nat) (g' : Grammar) : Prop where
  indexed : g.Indexed
  indexed' : g'.Indexed
  ne_rootId : id ≠ rootId
  partsOfSpeech : g'.partsOfSpeech = g.partsOfSpeech
  rule? : ∀ other, other ≠ id → g'.rule? other = g.rule? other
  hasRule : ∀ other r, g'.HasRule other r ↔ g.HasRule other r ∧ other ≠ id

/-- A grammar from which a rule was removed is without it. -/
theorem without_remove {g' : Grammar} {id : Nat} (hg : g.Indexed) (hremove : g.remove? id = some g') :
    g.Without id g' where
  indexed := hg
  indexed' := hg.remove hremove
  ne_rootId := (removed_of_remove hremove).1
  partsOfSpeech := by
    obtain ⟨-, r, -, rfl⟩ := removed_of_remove hremove
    rfl
  rule? other _ := rule?_remove hremove other
  hasRule _ _ := hasRule_remove hremove

/-- A grammar is without the rule that is inserted next. -/
theorem without_insert {g' : Grammar} (hg : g'.Indexed) (r : Rule) :
    (g'.insert r).Without g'.size g' where
  indexed := hg.insert r
  indexed' := hg
  ne_rootId := by
    obtain ⟨name, hroot⟩ := hg.root
    have hlt := (Array.getElem?_eq_some_iff.mp hroot).1
    exact Nat.ne_of_gt hlt
  partsOfSpeech := rfl
  rule? other hother := by
    have hne : other ≠ g'.slots.size := hother
    simp only [Grammar.rule?, insert, Array.getElem?_push, if_neg hne]
  hasRule other s := by
    rw [hasRule_insert]
    constructor
    · intro hs
      have hlt := (Array.getElem?_eq_some_iff.mp hs).1
      exact ⟨.inl hs, Nat.ne_of_lt hlt⟩
    · rintro ⟨hs | ⟨heq, -⟩, hne⟩
      · exact hs
      · exact absurd heq hne

namespace Without

variable {g' : Grammar} {id : Nat}

/-- The same stands behind the dots of all other rules. -/
theorem ahead (h : g.Without id g') {rule : Nat} (hrule : rule ≠ id) (dot : Nat) :
    g'.ahead rule dot = g.ahead rule dot := by
  unfold Grammar.ahead
  rw [h.rule? rule hrule]

/-- Items on other rules expect the same. -/
theorem expects (h : g.Without id g') {item : Item} (hitem : item.rule ≠ id) {symbol : Category} :
    g'.Expects item symbol ↔ g.Expects item symbol := by
  rw [Expects, h.ahead hitem, Expects]

/-- Items on other rules complete the same. -/
theorem completes (h : g.Without id g') {item : Item} (hitem : item.rule ≠ id) {lhs : Category} :
    g'.Completes item lhs ↔ g.Completes item lhs := by
  rw [Completes, h.ahead hitem, Completes]

/-- The parts of speech are the same. -/
theorem isPartOfSpeech (h : g.Without id g') (c : Category) :
    g'.isPartOfSpeech c = g.isPartOfSpeech c := by
  rw [Grammar.isPartOfSpeech, h.partsOfSpeech, Grammar.isPartOfSpeech]

/-- The nonterminals are the same. -/
theorem isNonterminal (h : g.Without id g') (c : Category) :
    g'.isNonterminal c = g.isNonterminal c := by
  rw [Grammar.isNonterminal, h.isPartOfSpeech, Grammar.isNonterminal]

/-- The rules of a category are the same but for one. -/
theorem mem_rulesFor (h : g.Without id g') {lhs : Category} {other : Nat} {r : Rule} :
    (other, r) ∈ g'.rulesFor lhs ↔ (other, r) ∈ g.rulesFor lhs ∧ other ≠ id := by
  rw [h.indexed'.mem_rulesFor, h.indexed.mem_rulesFor, h.hasRule]
  exact and_right_comm

/-- The rules in use are the same but for one. -/
theorem mem_rules_iff (h : g.Without id g') {other : Nat} {r : Rule} :
    (other, r) ∈ g'.rules ↔ (other, r) ∈ g.rules ∧ other ≠ id := by
  rw [Grammar.mem_rules_iff, Grammar.mem_rules_iff, h.hasRule, and_assoc]

/-- The synthetic rule is the same. -/
theorem rootRule?_eq (h : g.Without id g') : g'.rootRule? = g.rootRule? :=
  h.rule? rootId (Ne.symm h.ne_rootId)

/-- The start category is the same. -/
theorem start_eq (h : g.Without id g') : g'.start = g.start := by
  obtain ⟨name, -, hrule⟩ := h.indexed.rootRule?
  obtain ⟨name', -, hrule'⟩ := h.indexed'.rootRule?
  have heq := Option.some.inj ((hrule'.symm.trans h.rootRule?_eq).trans hrule)
  exact List.singleton_inj.mp (congrArg Rule.rhs heq)

/-- The name of the synthetic rule's left-hand side is as unused as before. -/
theorem rootUnused (h : g.Without id g') (hunused : g.RootUnused) : g'.RootUnused := by
  intro root hroot
  obtain ⟨hname, hrules⟩ := hunused root (h.rootRule?_eq ▸ hroot)
  exact ⟨h.start_eq ▸ hname, fun other r hr => hrules other r (h.mem_rules_iff.mp hr).1⟩

/-- The synthetic rule's left-hand side is asked for as a part of speech no more than before. -/
theorem rootUnscanned (h : g.Without id g') (hunscanned : g.RootUnscanned) : g'.RootUnscanned := by
  intro root hroot hempty hpart other r hr
  rw [h.rootRule?_eq] at hroot
  rw [h.isPartOfSpeech] at hpart
  exact hunscanned root hroot hempty hpart other r ((h.hasRule other r).mp hr).1

end Without

end IndexedGrammar.Grammar
