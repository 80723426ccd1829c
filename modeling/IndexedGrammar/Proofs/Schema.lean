import IndexedGrammar.Proofs.Grammar.UnitCycle
import IndexedGrammar.Proofs.Result
import IndexedGrammar.Proofs.StackPattern

/-!
# The rules of a schema grammar

Every rule of a schema grammar is well formed and has proper stack texts. So a category of such a rule
has a concrete stack, or a pattern with symbols on both sides of its wildcard, and only a rule with a
wildcard on its left-hand side has one on its right-hand side.
-/

namespace IndexedGrammar

namespace Category

/-- The symbols on the stack of a category. -/
def symbols (c : Category) : List String :=
  Stack.symbols c.stack

/-- The symbols below the wildcard on the stack of a category. -/
def below (c : Category) : List String :=
  Stack.below c.stack

/-- The symbols above the wildcard on the stack of a category. -/
def above (c : Category) : List String :=
  Stack.above c.stack

variable {c : Category}

/-- A category has a wildcard if its stack text does. -/
theorem hasWildcard_iff : c.hasWildcard = true ↔ Stack.wildcard ∈ c.stack.toList :=
  List.contains_iff_mem

/-- A proper stack that is not empty is made of segments that are not empty, with a wildcard only at the
beginning of one. -/
theorem isProper_of_hasProperStack (h : c.hasProperStack = true) (hne : c.stack ≠ "") :
    Stack.IsProper c.stack.toList := by
  have hempty : c.stack.toList.isEmpty = false := by simpa using hne
  simp only [hasProperStack, hempty, Bool.false_or, Bool.not_eq_true', Bool.or_eq_false_iff,
    decide_eq_false_iff_not, Nat.not_lt, List.any_eq_false, List.isEmpty_iff, Bool.or_eq_true,
    Bool.and_eq_true, decide_eq_true_eq, bne_iff_ne, not_or, not_and, not_not] at h
  obtain ⟨⟨-, hcount⟩, hpieces⟩ := h
  refine ⟨fun piece hpiece => (hpieces piece hpiece).1, fun piece hpiece hwild => ?_, hcount⟩
  by_cases hlength : 1 < piece.length
  · exact (hpieces piece hpiece).2 ⟨List.contains_iff_mem.mpr hwild, hlength⟩
  · -- a single character is the wildcard itself
    cases piece with
    | nil => exact absurd hwild List.not_mem_nil
    | cons first rest =>
      obtain rfl : rest = [] := by simpa using hlength
      rw [List.mem_singleton.mp hwild, List.head?_cons]

/-- A proper stack without a wildcard is concrete. -/
theorem isConcrete_of_hasProperStack (h : c.hasProperStack = true) (hwild : c.hasWildcard = false) :
    Stack.IsConcrete c.stack := by
  by_cases hne : c.stack = ""
  · exact ⟨[], fun symbol hsymbol => absurd hsymbol List.not_mem_nil, hne.symm⟩
  · have hproper := isProper_of_hasProperStack h hne
    have hnot : Stack.wildcard ∉ c.stack.toList := by
      rw [← hasWildcard_iff, hwild]
      exact Bool.false_ne_true
    have hsegments := Stack.segmentsOf_eq_symbols hproper.ne_nil
    rw [String.ofList_toList] at hsegments
    refine ⟨c.symbols, fun symbol hsymbol => ?_, ?_⟩
    · refine Stack.isSymbol_of_mem_symbols hnot ?_
      rwa [String.ofList_toList]
    · rw [symbols, ← hsegments]
      exact Stack.join_segments c.stack

/-- A category without a wildcard has no pattern. -/
theorem pattern?_eq_none (hwild : c.hasWildcard = false) : c.pattern? = none := by
  refine StackPattern.parse_eq_none ?_
  rw [← hasWildcard_iff, hwild]
  exact Bool.false_ne_true

/-- The pattern of a category with a wildcard has the symbols on both sides of it. -/
theorem pattern?_eq_some (h : c.hasProperStack = true) (hwild : c.hasWildcard = true) :
    c.pattern? = some ⟨c.below, c.above⟩ := by
  have hmem := hasWildcard_iff.mp hwild
  refine StackPattern.parse_of_isProper (isProper_of_hasProperStack h ?_) hmem
  intro hempty
  rw [hempty] at hmem
  exact absurd hmem List.not_mem_nil

/-- The symbols around the wildcard of a proper stack can stand on a stack. -/
theorem isSymbol_around (h : c.hasProperStack = true) (hwild : c.hasWildcard = true) {symbol : String}
    (hsymbol : symbol ∈ c.below ∨ symbol ∈ c.above) : Stack.IsSymbol symbol := by
  have hmem := hasWildcard_iff.mp hwild
  rcases hsymbol with hbelow | habove
  · exact Stack.isSymbol_of_mem_below hbelow
  · refine (isProper_of_hasProperStack h ?_).isSymbol_of_mem_above hmem habove
    intro hempty
    rw [hempty] at hmem
    exact absurd hmem List.not_mem_nil

/-- A concrete category is as deep as it has symbols. -/
theorem depth_eq_length (h : Stack.IsConcrete c.stack) : c.depth = c.symbols.length := by
  have hpattern : c.pattern? = none := StackPattern.parse_eq_none h.wildcard_not_mem
  rw [depth, hpattern]
  rfl

/-- The category of a name with symbols on its stack. -/
def ofSymbols (name : String) (stack : List String) : Category :=
  ⟨name, Stack.join stack⟩

/-- The name of a category with symbols on its stack. -/
@[simp] theorem name_ofSymbols (name : String) (stack : List String) :
    (ofSymbols name stack).name = name :=
  rfl

/-- The stack of a category with symbols on it. -/
@[simp] theorem stack_ofSymbols (name : String) (stack : List String) :
    (ofSymbols name stack).stack = Stack.join stack :=
  rfl

end Category

namespace Rule

variable {r : Rule}

/-- A well-formed rule has at most two right-hand categories. -/
theorem WellFormed.length_le (h : r.WellFormed) : r.rhs.length ≤ 2 := by
  rcases h.plain with ⟨c, hrhs⟩ | ⟨first, second, hrhs, -⟩
  · simp [hrhs]
  · simp [hrhs]

/-- Only a rule with a wildcard on its left-hand side has an heir. -/
theorem WellFormed.lhs_hasWildcard (h : r.WellFormed) {c : Category} (hc : c ∈ r.rhs)
    (hwild : c.hasWildcard = true) : r.lhs.hasWildcard = true := by
  have hmem : c ∈ r.rhs.filter Category.hasWildcard := List.mem_filter.mpr ⟨hc, hwild⟩
  have hpos := List.length_pos_of_mem hmem
  have hheirs : ¬1 < (r.rhs.filter Category.hasWildcard).length ∧
      ((r.rhs.filter Category.hasWildcard).length = 1 → r.lhs.hasWildcard = true) := by
    unfold WellFormed defect? at h
    grind
  exact hheirs.2 (by omega)

/-- What every rule of a schema grammar satisfies: it is well formed and has proper stack texts. -/
structure Proper (r : Rule) : Prop where
  wellFormed : r.WellFormed
  hasProperStack : ∀ c ∈ r.lhs :: r.rhs, c.hasProperStack = true

/-- A rule that is not refused is proper. -/
theorem proper_of_schemaDefect? (h : r.schemaDefect? = none) : r.Proper := by
  unfold schemaDefect? at h
  split at h
  · contradiction
  · next hdefect =>
    rw [Option.map_eq_none_iff, List.find?_eq_none] at h
    exact ⟨hdefect, fun c hc => by simpa using h c hc⟩

/-- A proper rule is not refused. -/
theorem Proper.schemaDefect? (h : r.Proper) : r.schemaDefect? = none := by
  have hstacks : (r.lhs :: r.rhs).find? (fun c => !c.hasProperStack) = none :=
    List.find?_eq_none.mpr fun c hc => by simp [h.hasProperStack c hc]
  have hdefect : r.defect? = none := h.wellFormed
  rw [Rule.schemaDefect?, hdefect]
  exact congrArg (Option.map Defect.badStack) hstacks

end Rule

namespace Schema

/-- A schema grammar of proper rules. -/
def Valid (s : Schema) : Prop :=
  ∀ r ∈ s.rules, r.Proper

variable {s : Schema}

/-- A schema grammar takes a proper rule. -/
theorem insert_of_proper {rule : Rule} (h : rule.Proper) (s : Schema) :
    s.insert rule = .ok ⟨s.rules.push rule⟩ := by
  rw [insert, h.schemaDefect?]

/-- Rules are added one after the other if all of them are proper, and they are appended. -/
theorem foldlM_insert_eq_ok {rules : List Rule} {before after : Schema} :
    rules.foldlM insert before = .ok after ↔
      (∀ r ∈ rules, r.Proper) ∧ after = ⟨before.rules ++ rules.toArray⟩ := by
  induction rules generalizing before with
  | nil =>
    rw [List.foldlM_nil]
    constructor
    · intro h
      obtain rfl := Except.ok.inj h
      simp
    · rintro ⟨-, rfl⟩
      simp [pure, Except.pure]
  | cons r rest ih =>
    rw [List.foldlM_cons, bind_eq_ok, List.forall_mem_cons]
    constructor
    · rintro ⟨next, hinsert, hrest⟩
      unfold insert at hinsert
      split at hinsert
      · contradiction
      · next hdefect =>
        obtain rfl := Except.ok.inj hinsert
        obtain ⟨hproper, rfl⟩ := ih.mp hrest
        exact ⟨⟨Rule.proper_of_schemaDefect? hdefect, hproper⟩, by simp⟩
    · rintro ⟨⟨hr, hproper⟩, rfl⟩
      exact ⟨_, insert_of_proper hr before, ih.mpr ⟨hproper, by simp⟩⟩

/-- The schema grammar of given rules has these rules, and all of them are proper. -/
theorem ofRules_eq_ok {rules : List Rule} :
    ofRules rules = .ok s ↔ (∀ r ∈ rules, r.Proper) ∧ s = ⟨rules.toArray⟩ := by
  rw [ofRules, foldlM_insert_eq_ok]
  simp [empty]

/-- A grammar made of rules that were not refused is valid. -/
theorem valid_ofRules {rules : List Rule} (h : ofRules rules = .ok s) : s.Valid := by
  obtain ⟨hproper, rfl⟩ := ofRules_eq_ok.mp h
  exact fun r hr => hproper r (by simpa using hr)

/-- The numbered rules are the rules at their places. -/
theorem mem_numbered {n : Nat} {r : Rule} : (n, r) ∈ s.numbered ↔ s.rules[n]? = some r := by
  unfold numbered
  rw [List.mem_map]
  constructor
  · intro hgiven
    obtain ⟨⟨q, m⟩, hmem, heq⟩ := hgiven
    obtain ⟨rfl, rfl⟩ := Prod.mk.inj heq
    simpa using List.mem_zipIdx_iff_getElem?.mp hmem
  · intro h
    exact ⟨(r, n), List.mem_zipIdx_iff_getElem?.mpr (by simpa using h), rfl⟩

/-- The rules of a name are the numbered rules whose left-hand side has it. -/
theorem mem_rulesNamed {name : String} {n : Nat} {r : Rule} :
    (n, r) ∈ s.rulesNamed name ↔ s.rules[n]? = some r ∧ r.lhs.name = name := by
  rw [rulesNamed, List.mem_filter, mem_numbered, decide_eq_true_iff]

/-- The rules of a name are numbered in ascending order. -/
theorem pairwise_rulesNamed (s : Schema) (name : String) :
    (s.rulesNamed name).Pairwise fun a b => a.1 < b.1 := by
  refine List.Pairwise.filter _ ?_
  unfold numbered
  rw [List.pairwise_map]
  have hnumbers : ((s.rules.toList.zipIdx).map Prod.snd).Pairwise (· < ·) := by
    rw [List.zipIdx_map_snd]
    exact List.pairwise_lt_range'
  exact List.pairwise_map.mp hnumbers

end Schema

end IndexedGrammar
