import IndexedGrammar.Proofs.RuleSpace.Regular
import IndexedGrammar.Proofs.Schema
import IndexedGrammar.Proofs.Source

/-!
# The rules of a rule space are legal

The symbols of a rule space are names as they are read from a source text. None of their characters has
a meaning in a stack text, so every rule of the space is well formed, has proper stack texts, and does to the
stack what the action of its block says.
-/

namespace IndexedGrammar

open RuleSpace

namespace Category

variable {c symbol : Category} {name : String}

/-! How a rule space writes categories -/

/-- A bare category has no wildcard. -/
@[simp] theorem hasWildcard_bare : (bare name).hasWildcard = false := by
  simp [hasWildcard, bare]

/-- A category that inherits the stack has a wildcard. -/
@[simp] theorem hasWildcard_inheriting : (inheriting c).hasWildcard = true :=
  hasWildcard_iff.mpr (by simp [inheriting, Stack.wildcard])

/-- A category with a symbol on top of the wildcard has a wildcard. -/
@[simp] theorem hasWildcard_topped : (topped c symbol).hasWildcard = true :=
  hasWildcard_iff.mpr (by simp [topped, Stack.wildcard])

/-- A bare category is the empty category if its name is. -/
@[simp] theorem isEpsilon_bare : (bare name).isEpsilon = decide (name = epsilonName) :=
  Bool.and_true _

/-- A category that inherits the stack is not the empty category. -/
@[simp] theorem isEpsilon_inheriting : (inheriting c).isEpsilon = false :=
  Bool.and_false _

/-- A category with a symbol on top of the wildcard is not the empty category. -/
@[simp] theorem isEpsilon_topped : (topped c symbol).isEpsilon = false := by
  simp [isEpsilon, topped]

/-- Nothing is explicit on the stack of a bare category. -/
@[simp] theorem explicitDepth_bare : Rule.explicitDepth (bare name) = 0 := by
  rw [Rule.explicitDepth, pattern?_eq_none hasWildcard_bare]

/-- Nothing is explicit on an inherited stack. -/
@[simp] theorem explicitDepth_inheriting : Rule.explicitDepth (inheriting c) = 0 := by
  have hpattern : (inheriting c).pattern? = some ⟨[], []⟩ :=
    pattern?_wildcard c.name (by simp : Stack.separator ∉ "".toList)
  rw [Rule.explicitDepth, hpattern]
  rfl

/-- A symbol on top of the wildcard is explicit. -/
theorem explicitDepth_topped (hsymbol : Stack.IsSymbol symbol.name) :
    Rule.explicitDepth (topped c symbol) = 1 := by
  have hpattern : (topped c symbol).pattern? = some ⟨[], [symbol.name]⟩ := by
    rw [← Stack.segments_join (List.forall_mem_singleton.mpr hsymbol)]
    exact pattern?_wildcard c.name hsymbol.separator_not_mem
  rw [Rule.explicitDepth, hpattern]
  simp [StackPattern.depth, Stack.symbolsOf, hsymbol.ne_empty]

/-- A bare category has a proper stack. -/
theorem hasProperStack_bare : (bare name).hasProperStack = true := by
  simp [hasProperStack, bare]

/-- A category that inherits the stack has a proper one. -/
theorem hasProperStack_inheriting : (inheriting c).hasProperStack = true := by
  rw [hasProperStack, show (inheriting c).stack = "*" from rfl]
  decide

/-- A name on top of the wildcard is a proper stack. -/
theorem hasProperStack_topped (hname : Source.IsName symbol.name) :
    (topped c symbol).hasProperStack = true := by
  have hstack : (topped c symbol).stack.toList = Stack.wildcard :: symbol.name.toList := by
    rw [topped, String.toList_append]
    rfl
  have hsymbol := hname.isSymbol
  have hpieces : Stack.pieces (Stack.wildcard :: symbol.name.toList) =
      [Stack.wildcard :: symbol.name.toList] := by
    refine Stack.pieces_of_not_mem fun hmem => ?_
    rcases List.mem_cons.mp hmem with heq | hmem
    · exact absurd heq (by decide)
    · exact hsymbol.separator_not_mem hmem
  have hcharacters : ∀ ch ∈ symbol.name.toList, (ch ≠ '[' ∧ ch ≠ ']') ∧ Text.isBlank ch = false :=
    fun ch hch => ⟨(Source.ne_of_isNameChar (hname.isNameChar ch hch)).2.2,
      Source.isBlank_of_isNameChar (hname.isNameChar ch hch)⟩
  have hwildcard : (Stack.wildcard ≠ '[' ∧ Stack.wildcard ≠ ']') ∧
      Text.isBlank Stack.wildcard = false := by
    decide
  have hcount : symbol.name.toList.count Stack.wildcard = 0 :=
    List.count_eq_zero.mpr hsymbol.wildcard_not_mem
  rw [hasProperStack, hstack, hpieces]
  simpa [hcount, hwildcard] using hcharacters

end Category

namespace Rule

variable {r : Rule}

/-- A rule with a single right-hand category is well formed if only a left-hand side with a stack has an
heir, and at most one symbol is moved. -/
theorem wellFormed_single {lhs c : Category} (hlhs : lhs.isEpsilon = false)
    (hheir : c.hasWildcard = true → lhs.hasWildcard = true)
    (hmoves : popped ⟨lhs, [c], none⟩ + pushed ⟨lhs, [c], none⟩ ≤ 1) :
    WellFormed ⟨lhs, [c], none⟩ := by
  have hseveral : ¬(1 < popped ⟨lhs, [c], none⟩ ∨ 1 < pushed ⟨lhs, [c], none⟩) := by omega
  have hboth : ¬(0 < popped ⟨lhs, [c], none⟩ ∧ 0 < pushed ⟨lhs, [c], none⟩) := by omega
  unfold WellFormed defect?
  cases hwild : c.hasWildcard with
  | false => simp [hlhs, hwild, hboth, hseveral]
  | true => simp [hlhs, hwild, hheir hwild, hboth, hseveral]

/-- A rule with two right-hand categories is well formed if none of them is empty, at most one is an heir,
only a left-hand side with a stack has one, and at most one symbol is moved. -/
theorem wellFormed_pair {lhs a b : Category} (hlhs : lhs.isEpsilon = false)
    (ha : a.isEpsilon = false) (hb : b.isEpsilon = false)
    (hheirs : ¬(a.hasWildcard = true ∧ b.hasWildcard = true)) (hheir : lhs.hasWildcard = true)
    (hmoves : popped ⟨lhs, [a, b], none⟩ + pushed ⟨lhs, [a, b], none⟩ ≤ 1) :
    WellFormed ⟨lhs, [a, b], none⟩ := by
  have hseveral : ¬(1 < popped ⟨lhs, [a, b], none⟩ ∨ 1 < pushed ⟨lhs, [a, b], none⟩) := by omega
  have hboth : ¬(0 < popped ⟨lhs, [a, b], none⟩ ∧ 0 < pushed ⟨lhs, [a, b], none⟩) := by omega
  have hcount : ¬1 < ([a, b].filter Category.hasWildcard).length := by
    cases hwild : a.hasWildcard <;> cases hwild' : b.hasWildcard <;> simp_all
  unfold WellFormed defect?
  simp [hlhs, ha, hb, hcount, hheir, hboth, hseveral]

end Rule

namespace RuleSpace

/-- A rule space over names as they are read, none of which is that of the empty category. -/
structure OverNames (space : RuleSpace) : Prop where
  bare : ∀ a ∈ space.symbols, a = .bare a.name
  isName : ∀ a ∈ space.symbols, Source.IsName a.name
  ne_epsilon : ∀ a ∈ space.symbols, a.name ≠ Category.epsilonName
  subset : space.nonterminals ⊆ space.symbols
  nodup : space.nonterminals.Nodup
  start : space.start = .bare space.start.name
  start_ne : space.start.name ≠ Category.epsilonName

variable {space : RuleSpace} {x a b c : Category} {rule : Rule} {action : StackAction}

section OverNames

variable (hspace : space.OverNames)
include hspace

/-- A symbol has no wildcard. -/
theorem OverNames.hasWildcard (ha : a ∈ space.symbols) : a.hasWildcard = false := by
  rw [hspace.bare a ha]
  exact Category.hasWildcard_bare

/-- A symbol is not the empty category. -/
theorem OverNames.isEpsilon (ha : a ∈ space.symbols) : a.isEpsilon = false := by
  rw [hspace.bare a ha, Category.isEpsilon_bare]
  exact decide_eq_false (hspace.ne_epsilon a ha)

/-- A symbol on top of the wildcard is explicit. -/
theorem OverNames.explicitDepth_topped (ha : a ∈ space.symbols) :
    Rule.explicitDepth (topped c a) = 1 :=
  Category.explicitDepth_topped (hspace.isName a ha).isSymbol

/-- A single right-hand symbol pushes nothing. -/
theorem OverNames.pushed_single (ha : a ∈ space.symbols) :
    Rule.pushed ⟨c, space.single a, none⟩ = 0 := by
  rw [RuleSpace.single, Rule.pushed]
  split_ifs <;> simp [hspace.hasWildcard ha]

/-- Two right-hand symbols push nothing. -/
theorem OverNames.pushed_pair (ha : a ∈ space.symbols) (hb : b ∈ space.symbols) :
    Rule.pushed ⟨c, space.pair a b, none⟩ = 0 := by
  rw [RuleSpace.pair, Rule.pushed]
  split_ifs <;> simp [hspace.hasWildcard ha, hspace.hasWildcard hb]

/-- A row pops and pushes what its block says. -/
theorem Row.popped_pushed (hrow : space.Row x action rule) (hx : x ∈ space.nonterminals) :
    rule.popped = (if action = .pop then 1 else 0) ∧
      rule.pushed = (if action = .push then 1 else 0) := by
  cases hrow with
  | start =>
    rw [Rule.popped, Rule.pushed, hspace.start]
    simp [hspace.hasWildcard (hspace.subset hx)]
  | single ha => exact ⟨Category.explicitDepth_inheriting, hspace.pushed_single ha⟩
  | pair ha hb => exact ⟨Category.explicitDepth_inheriting, hspace.pushed_pair ha hb⟩
  | push ha => simp [Rule.popped, Rule.pushed, hspace.hasWildcard ha, hspace.explicitDepth_topped ha]
  | erase ha =>
    simp [Rule.popped, Rule.pushed, Rule.epsilon, Category.epsilon, hspace.explicitDepth_topped ha]
  | pop ha => simp [Rule.popped, Rule.pushed, hspace.explicitDepth_topped ha]

/-- A row does to the stack what its block says. -/
theorem Row.action_eq (hrow : space.Row x action rule) (hx : x ∈ space.nonterminals) :
    rule.action = action := by
  obtain ⟨hpopped, hpushed⟩ := hrow.popped_pushed hspace hx
  rw [Rule.action, hpopped, hpushed]
  cases action <;> rfl

/-- A row is well formed. -/
theorem Row.wellFormed (hrow : space.Row x action rule) (hx : x ∈ space.nonterminals) :
    rule.WellFormed := by
  have hmoves : rule.popped + rule.pushed ≤ 1 := by
    obtain ⟨hpopped, hpushed⟩ := hrow.popped_pushed hspace hx
    rw [hpopped, hpushed]
    cases action <;> decide
  cases hrow with
  | start =>
    have hstart : space.start.isEpsilon = false := by
      rw [hspace.start, Category.isEpsilon_bare]
      exact decide_eq_false hspace.start_ne
    exact Rule.wellFormed_single hstart (by simp [hspace.hasWildcard (hspace.subset hx)]) hmoves
  | @single a ha =>
    exact Rule.wellFormed_single Category.isEpsilon_inheriting
      (fun _ => Category.hasWildcard_inheriting) hmoves
  | @pair a b ha hb =>
    revert hmoves
    rw [RuleSpace.pair]
    split_ifs <;> exact Rule.wellFormed_pair Category.isEpsilon_inheriting
      (by simp [hspace.isEpsilon ha]) (by simp [hspace.isEpsilon hb])
      (by simp [hspace.hasWildcard ha, hspace.hasWildcard hb]) Category.hasWildcard_inheriting
  | push ha =>
    exact Rule.wellFormed_pair Category.isEpsilon_inheriting (hspace.isEpsilon ha)
      Category.isEpsilon_topped (by simp [hspace.hasWildcard ha]) Category.hasWildcard_inheriting hmoves
  | erase | pop =>
    exact Rule.wellFormed_single Category.isEpsilon_topped
      (fun _ => Category.hasWildcard_topped) hmoves

/-- A row has proper stack texts. -/
theorem Row.hasProperStack (hrow : space.Row x action rule) (hx : x ∈ space.nonterminals)
    (hc : c ∈ rule.lhs :: rule.rhs) : c.hasProperStack = true := by
  have hbare {a : Category} (ha : a = .bare a.name) : a.hasProperStack = true :=
    ha ▸ Category.hasProperStack_bare
  rcases hrow.mem_cases (hspace.subset hx) hc with rfl | rfl | ha | ⟨y, rfl⟩ | ⟨y, a, ha, rfl⟩
  · exact hbare hspace.start
  · exact Category.hasProperStack_bare
  · exact hbare (hspace.bare c ha)
  · exact Category.hasProperStack_inheriting
  · exact Category.hasProperStack_topped (hspace.isName a ha)

/-- The rules of a space over names are proper. -/
theorem Row.proper (hrow : space.Row x action rule) (hx : x ∈ space.nonterminals) : rule.Proper :=
  ⟨hrow.wellFormed hspace hx, fun _ hc => hrow.hasProperStack hspace hx hc⟩

end OverNames

end RuleSpace

end IndexedGrammar
