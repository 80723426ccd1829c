import IndexedGrammar.Proofs.RuleSpace.Written
import Mathlib.Data.List.Nodup
import Std.Data.String.ToNat

/-!
# Rule spaces that renaming leaves in place

A rule space over symbols that can stand on a stack is regular if its start category is none of its
nonterminals. A renaming of the nonterminals takes every rule of such a space to a rule of it, and what a
rule mentions to what the new rule mentions.
-/

namespace IndexedGrammar

namespace RuleSpace

/-- A rule space over symbols that can stand on a stack, with a start category of its own. -/
structure Regular (space : RuleSpace) : Prop where
  bare : ∀ a ∈ space.symbols, a = .bare a.name
  isSymbol : ∀ a ∈ space.symbols, Stack.IsSymbol a.name
  subset : space.nonterminals ⊆ space.symbols
  nodup : space.nonterminals.Nodup
  start : space.start = .bare space.start.name
  start_not_mem : space.start ∉ space.nonterminals
  epsilon_not_mem : Category.epsilon ∉ space.nonterminals

/-- A renaming that takes nonterminals to nonterminals and keeps all other names. -/
structure Renames (space : RuleSpace) (names : String → String) : Prop where
  nonterminal : ∀ x ∈ space.nonterminals, x.renamed names ∈ space.nonterminals
  other : ∀ name, Category.bare name ∉ space.nonterminals → names name = name

/-- The rules of a nonterminal, by what they do to the stack. -/
inductive Row (space : RuleSpace) (x : Category) : StackAction → Rule → Prop
  | start : Row space x .constant ⟨space.start, [x], none⟩
  | single {a : Category} : a ∈ space.symbols →
      Row space x .constant ⟨inheriting x, space.single a, none⟩
  | pair {a b : Category} : a ∈ space.symbols → b ∈ space.symbols →
      Row space x .constant ⟨inheriting x, space.pair a b, none⟩
  | push {a y : Category} : a ∈ space.symbols → y ∈ space.nonterminals →
      Row space x .push ⟨inheriting x, [a, topped y a], none⟩
  | erase {a : Category} : a ∈ space.symbols → Row space x .pop (.epsilon (topped x a))
  | pop {a y : Category} : a ∈ space.symbols → y ∈ space.nonterminals →
      Row space x .pop ⟨topped x a, [inheriting y], none⟩

/-- Whether a rule is in the space. -/
def Has (space : RuleSpace) (rule : Rule) : Prop :=
  ∃ place, space.get? place = some rule

variable {space : RuleSpace} {names names' : String → String} {x a b c : Category} {rule : Rule}

/-! Rows -/

/-- The rows of a block are those of its nonterminal. -/
theorem mem_rows {action : StackAction} : rule ∈ space.rows action x ↔ space.Row x action rule := by
  refine ⟨fun hmem => ?_, fun hrow => ?_⟩
  · cases action with
    | constant =>
      rcases List.mem_append.mp hmem with hmem | hmem
      · rcases List.mem_cons.mp hmem with rfl | hmem
        · exact .start
        · obtain ⟨a, ha, rfl⟩ := List.mem_map.mp hmem
          exact .single ha
      · obtain ⟨a, ha, hmem⟩ := List.mem_flatMap.mp hmem
        obtain ⟨b, hb, rfl⟩ := List.mem_map.mp hmem
        exact .pair ha hb
    | push =>
      obtain ⟨a, ha, hmem⟩ := List.mem_flatMap.mp hmem
      obtain ⟨y, hy, rfl⟩ := List.mem_map.mp hmem
      exact .push ha hy
    | pop =>
      rcases List.mem_append.mp hmem with hmem | hmem
      · obtain ⟨a, ha, rfl⟩ := List.mem_map.mp hmem
        exact .erase ha
      · obtain ⟨a, ha, hmem⟩ := List.mem_flatMap.mp hmem
        obtain ⟨y, hy, rfl⟩ := List.mem_map.mp hmem
        exact .pop ha hy
  -- the other way round each constructor tells where its row is listed
  · cases hrow with
    | start => exact List.mem_append_left _ List.mem_cons_self
    | single ha =>
      exact List.mem_append_left _ (List.mem_cons_of_mem _ (List.mem_map_of_mem ha))
    | pair ha hb =>
      exact List.mem_append_right _ (List.mem_flatMap.mpr ⟨_, ha, List.mem_map_of_mem hb⟩)
    | push ha hy => exact List.mem_flatMap.mpr ⟨_, ha, List.mem_map_of_mem hy⟩
    | erase ha => exact List.mem_append_left _ (List.mem_map_of_mem ha)
    | pop ha hy =>
      exact List.mem_append_right _ (List.mem_flatMap.mpr ⟨_, ha, List.mem_map_of_mem hy⟩)

/-- The rules of a space are the rows of its nonterminals. -/
theorem has_iff : space.Has rule ↔ ∃ x ∈ space.nonterminals, ∃ action, space.Row x action rule := by
  refine ⟨fun hrule => ?_, fun hrow => ?_⟩
  · obtain ⟨place, hplace⟩ := hrule
    obtain ⟨x, hx, hrow⟩ := Option.bind_eq_some_iff.mp hplace
    exact ⟨x, List.mem_of_getElem? hx, place.action, mem_rows.mp (List.mem_of_getElem? hrow)⟩
  · obtain ⟨x, hx, action, hrow⟩ := hrow
    obtain ⟨block, hblock⟩ := List.mem_iff_getElem?.mp hx
    obtain ⟨row, hrow⟩ := List.mem_iff_getElem?.mp (mem_rows.mpr hrow)
    exact ⟨⟨action, block, row⟩, Option.bind_eq_some_iff.mpr ⟨x, hblock, hrow⟩⟩

/-- The entries of a space are its coordinates with their rules. -/
theorem mem_entries {place : Coordinate} :
    (place, rule) ∈ space.entries ↔ space.get? place = some rule := by
  obtain ⟨action, block, row⟩ := place
  simp only [entries, List.mem_flatMap, List.mem_map, Prod.exists, Prod.mk.injEq, get?,
    List.mk_mem_zipIdx_iff_getElem?, Option.bind_eq_some_iff, Coordinate.mk.injEq]
  refine ⟨fun hentry => ?_, fun hrow => ?_⟩
  · obtain ⟨action, -, x, block, hx, rule, row, hrow, ⟨rfl, rfl, rfl⟩, rfl⟩ := hentry
    exact ⟨x, hx, hrow⟩
  · obtain ⟨x, hx, hrow⟩ := hrow
    exact ⟨action, by cases action <;> decide, x, block, hx, rule, row, hrow, ⟨rfl, rfl, rfl⟩, rfl⟩

/-- A row remembers no schema rule. -/
theorem Has.origin (h : space.Has rule) : rule.origin = none := by
  obtain ⟨x, hx, action, hrow⟩ := has_iff.mp h
  cases hrow <;> rfl

/-- A rule of the space is found at a place where it is. -/
theorem Has.exists_find? (h : space.Has rule) :
    ∃ place, space.find? rule = some place ∧ space.get? place = some rule := by
  obtain ⟨place, hplace⟩ := id h
  have hsome : (space.find? rule).isSome := by
    rw [find?, Option.isSome_map, List.find?_isSome]
    exact ⟨(place, rule), List.mem_reverse.mpr (mem_entries.mpr hplace), by simp [Rule.sameProduction]⟩
  obtain ⟨found, hfind⟩ := Option.isSome_iff_exists.mp hsome
  obtain ⟨⟨found, r⟩, hentry, rfl⟩ := Option.map_eq_some_iff.mp hfind
  have hr : space.get? found = some r :=
    mem_entries.mp (List.mem_reverse.mp (List.mem_of_find?_eq_some hentry))
  have heq : r = rule := by
    have horigin : r.origin = rule.origin := (Has.origin ⟨found, hr⟩).trans h.origin.symm
    obtain ⟨hlhs, hrhs⟩ : r.lhs = rule.lhs ∧ r.rhs = rule.rhs := by
      simpa [Rule.sameProduction] using List.find?_some hentry
    obtain ⟨lhs, rhs, origin⟩ := r
    dsimp only at hlhs hrhs horigin
    rw [hlhs, hrhs, horigin]
  exact ⟨found, hfind, heq ▸ hr⟩

/-! Regular spaces -/

/-- A nonterminal is its name. -/
theorem Regular.bare_of_mem (hspace : space.Regular) (hx : x ∈ space.nonterminals) :
    x = .bare x.name :=
  hspace.bare x (hspace.subset hx)

/-- Nonterminals of the same name are the same. -/
theorem Regular.eq_of_name_eq (hspace : space.Regular) (ha : a ∈ space.nonterminals)
    (hb : b ∈ space.nonterminals) (hname : a.name = b.name) : a = b := by
  rw [hspace.bare_of_mem ha, hname, ← hspace.bare_of_mem hb]

/-- A nonterminal is renamed by its name. -/
theorem Regular.renamed_of_mem (hspace : space.Regular) (hx : x ∈ space.nonterminals) :
    x.renamed names = .bare (names x.name) :=
  congrArg (Category.renamed names) (hspace.bare_of_mem hx)

/-- The nonterminals of a new rule space are numbered. -/
theorem mem_nonterminals_new (partsOfSpeech : Std.ExtTreeSet String) (settings : Settings) :
    x ∈ (new partsOfSpeech settings).nonterminals ↔
      ∃ i < settings.maxNonterminals, x = nonterminal (i + 1) := by
  simp [new, eq_comm]

/-- A nonterminal is written with a letter and its number. -/
theorem toList_nonterminal (n : Nat) : (nonterminal n).name.toList = 'X' :: Nat.toDigits 10 n := by
  rw [nonterminal, Category.bare, String.toList_append, Nat.toString_eq_repr, Nat.toList_repr]
  rfl

/-- A nonterminal is written with a letter and digits. -/
theorem mem_toList_nonterminal {n : Nat} {ch : Char} (h : ch ∈ (nonterminal n).name.toList) :
    ch = 'X' ∨ ch.isDigit = true := by
  rw [toList_nonterminal] at h
  exact (List.mem_cons.mp h).imp_right (Nat.isDigit_of_mem_toDigits (by decide) (by decide))

/-- A nonterminal's name can stand on a stack. -/
theorem isSymbol_nonterminal (n : Nat) : Stack.IsSymbol (nonterminal n).name where
  ne_empty heq := by
    have htext := toList_nonterminal n
    rw [heq] at htext
    exact absurd htext (by simp)
  separator_not_mem hmem := by
    rcases mem_toList_nonterminal hmem with heq | hdigit
    · exact absurd heq (by decide)
    · exact absurd hdigit (by decide)
  wildcard_not_mem hmem := by
    rcases mem_toList_nonterminal hmem with heq | hdigit
    · exact absurd heq (by decide)
    · exact absurd hdigit (by decide)

/-- Nonterminals of different numbers are different. -/
theorem nonterminal_injective : Function.Injective nonterminal := by
  intro m n heq
  have hname : "X" ++ toString m = "X" ++ toString n := congrArg Category.name heq
  rw [String.append_right_inj] at hname
  exact Nat.repr_injective hname

/-- No nonterminal has the name of the empty category. -/
theorem name_nonterminal_ne (n : Nat) : (nonterminal n).name ≠ Category.epsilonName := by
  intro heq
  have htext := toList_nonterminal n
  rw [heq] at htext
  exact absurd (List.cons.inj htext).1 (by decide)

/-- The nonterminals of a new rule space are all different. -/
theorem nodup_nonterminals_new (partsOfSpeech : Std.ExtTreeSet String) (settings : Settings) :
    (new partsOfSpeech settings).nonterminals.Nodup :=
  List.nodup_range.map fun _ _ heq => Nat.succ.inj (nonterminal_injective heq)

/-- The symbols of a new rule space are its parts of speech and its nonterminals. -/
theorem mem_symbols_new (partsOfSpeech : Std.ExtTreeSet String) (settings : Settings) :
    x ∈ (new partsOfSpeech settings).symbols ↔
      (∃ name ∈ partsOfSpeech, x = .bare name) ∨ x ∈ (new partsOfSpeech settings).nonterminals := by
  refine List.mem_append.trans (or_congr ?_ Iff.rfl)
  simp [Std.ExtTreeSet.mem_toList, eq_comm]

/-- What holds of the parts of speech and of all nonterminals holds of the symbols of a new rule space. -/
theorem forall_mem_symbols_new {partsOfSpeech : Std.ExtTreeSet String} {settings : Settings}
    {good : String → Prop} (hleaves : ∀ name ∈ partsOfSpeech, good name)
    (hnonterminals : ∀ n, good (nonterminal n).name) :
    ∀ a ∈ (new partsOfSpeech settings).symbols, a = .bare a.name ∧ good a.name := by
  intro a ha
  rcases (mem_symbols_new partsOfSpeech settings).mp ha with ⟨name, hname, rfl⟩ | ha
  · exact ⟨rfl, hleaves name hname⟩
  · obtain ⟨i, -, rfl⟩ := (mem_nonterminals_new partsOfSpeech settings).mp ha
    exact ⟨rfl, hnonterminals (i + 1)⟩

/-- A new rule space is regular if its parts of speech can stand on a stack and its start category is
none of its nonterminals. -/
theorem regular_new {partsOfSpeech : Std.ExtTreeSet String} {settings : Settings}
    (hleaves : ∀ name ∈ partsOfSpeech, Stack.IsSymbol name)
    (hstart : (new partsOfSpeech settings).start ∉ (new partsOfSpeech settings).nonterminals) :
    (new partsOfSpeech settings).Regular := by
  have hsymbols : ∀ a ∈ (new partsOfSpeech settings).symbols, a = .bare a.name ∧ Stack.IsSymbol a.name :=
    forall_mem_symbols_new hleaves isSymbol_nonterminal
  refine ⟨fun a ha => (hsymbols a ha).1, fun a ha => (hsymbols a ha).2,
    List.subset_append_right _ _, nodup_nonterminals_new _ _, rfl, hstart, fun hmem => ?_⟩
  obtain ⟨i, -, heq⟩ := (mem_nonterminals_new partsOfSpeech settings).mp hmem
  exact name_nonterminal_ne (i + 1) (congrArg Category.name heq).symm

/-- A single right-hand symbol stands there bare or inherits the stack. -/
theorem mem_single (hc : c ∈ space.single a) : c = a ∨ c = inheriting a := by
  rw [single, List.mem_singleton] at hc
  split at hc
  · exact .inr hc
  · exact .inl hc

/-- Each of two right-hand symbols stands there bare or inherits the stack. -/
theorem mem_pair (hc : c ∈ space.pair a b) :
    (c = a ∨ c = inheriting a) ∨ c = b ∨ c = inheriting b := by
  rw [pair] at hc
  split_ifs at hc <;> rcases List.mem_pair.mp hc with rfl | rfl <;> simp

/-- The categories of a row are the start category, the empty category, symbols, and categories that
inherit the stack or have a symbol on top of it. -/
theorem Row.mem_cases {action : StackAction} (hrow : space.Row x action rule) (hx : x ∈ space.symbols)
    (hc : c ∈ rule.lhs :: rule.rhs) :
    c = space.start ∨ c = .epsilon ∨ c ∈ space.symbols ∨ (∃ y, c = inheriting y) ∨
      ∃ y, ∃ a ∈ space.symbols, c = topped y a := by
  have hsymbol {a : Category} (ha : a ∈ space.symbols) (hc : c = a ∨ c = inheriting a) :
      c ∈ space.symbols ∨ ∃ y, c = inheriting y := by
    rcases hc with rfl | rfl
    · exact .inl ha
    · exact .inr ⟨a, rfl⟩
  rcases List.mem_cons.mp hc with rfl | hc
  · cases hrow with
    | start => exact .inl rfl
    | single | pair | push => exact .inr (.inr (.inr (.inl ⟨x, rfl⟩)))
    | erase ha | pop ha => exact .inr (.inr (.inr (.inr ⟨x, _, ha, rfl⟩)))
  · cases hrow with
    | start => exact .inr (.inr (.inl (List.mem_singleton.mp hc ▸ hx)))
    | single ha => exact .inr (.inr (or_assoc.mp (.inl (hsymbol ha (mem_single hc)))))
    | pair ha hb =>
      exact .inr (.inr (or_assoc.mp (.inl ((mem_pair hc).elim (hsymbol ha) (hsymbol hb)))))
    | push ha =>
      rcases List.mem_pair.mp hc with rfl | rfl
      · exact .inr (.inr (.inl ha))
      · exact .inr (.inr (.inr (.inr ⟨_, _, ha, rfl⟩)))
    | erase => exact .inr (.inl (List.mem_singleton.mp hc))
    | pop => exact .inr (.inr (.inr (.inl ⟨_, List.mem_singleton.mp hc⟩)))

/-- The categories of a row are written as a rule space writes them. -/
theorem Row.written {action : StackAction} (hrow : space.Row x action rule) (hspace : space.Regular)
    (hx : x ∈ space.nonterminals) (hc : c ∈ rule.lhs :: rule.rhs) : c.Written := by
  have hbare {a : Category} (ha : a = .bare a.name) : a.Written := ha ▸ .bare a.name
  rcases hrow.mem_cases (hspace.subset hx) hc with rfl | rfl | ha | ⟨y, rfl⟩ | ⟨y, a, ha, rfl⟩
  · exact hbare hspace.start
  · exact .bare _
  · exact hbare (hspace.bare c ha)
  · exact .inheriting y
  · exact .topped y (hspace.isSymbol a ha)

/-- A row expands the start category or its nonterminal. -/
theorem Row.lhs_eq_or {action : StackAction} (hrow : space.Row x action rule) :
    rule.lhs = space.start ∨ rule.lhs.name = x.name := by
  cases hrow with
  | start => exact .inl rfl
  | single | pair | push | erase | pop => exact .inr rfl

/-! Renaming -/

section Renaming

variable (hnames : space.Renames names) (hspace : space.Regular)
include hnames hspace

/-- Symbols are renamed to symbols. -/
theorem Renames.keepsSymbols : Category.KeepsSymbols names := by
  intro symbol hsymbol
  by_cases hmem : Category.bare symbol ∈ space.nonterminals
  · exact hspace.isSymbol _ (hspace.subset (hnames.nonterminal _ hmem))
  · rwa [hnames.other symbol hmem]

/-- The empty word is no nonterminal. -/
theorem Renames.empty : names "" = "" := by
  refine hnames.other "" fun hmem => ?_
  exact (hspace.isSymbol _ (hspace.subset hmem)).ne_empty rfl

omit hspace in
/-- A bare category that is no nonterminal keeps its name. -/
theorem Renames.renamed_eq_self (hbare : c = .bare c.name) (hc : c ∉ space.nonterminals) :
    c.renamed names = c := by
  rw [hbare] at hc ⊢
  exact congrArg Category.bare (hnames.other c.name hc)

/-- A new symbol is a symbol. -/
theorem Renames.symbol (ha : a ∈ space.symbols) : a.renamed names ∈ space.symbols := by
  by_cases hmem : a ∈ space.nonterminals
  · exact hspace.subset (hnames.nonterminal a hmem)
  · rwa [hnames.renamed_eq_self (hspace.bare a ha) hmem]

/-- The nonterminals among the symbols are renamed to nonterminals, and only those are. -/
theorem Renames.isNonterminal_renamed (ha : a ∈ space.symbols) :
    space.isNonterminal (a.renamed names) = space.isNonterminal a := by
  by_cases hmem : a ∈ space.nonterminals
  · rw [isNonterminal, isNonterminal, List.contains_iff_mem.mpr hmem,
      List.contains_iff_mem.mpr (hnames.nonterminal a hmem)]
  · rw [hnames.renamed_eq_self (hspace.bare a ha) hmem]

/-- Renaming goes through a single right-hand symbol. -/
theorem Renames.renamed_single (ha : a ∈ space.symbols) :
    (space.single a).map (·.renamed names) = space.single (a.renamed names) := by
  rw [single, single, hnames.isNonterminal_renamed hspace ha, List.map_singleton]
  split
  · rw [Category.renamed_inheriting]
  · rfl

/-- Renaming goes through two right-hand symbols. -/
theorem Renames.renamed_pair (ha : a ∈ space.symbols) (hb : b ∈ space.symbols) :
    (space.pair a b).map (·.renamed names) = space.pair (a.renamed names) (b.renamed names) := by
  rw [pair, pair, hnames.isNonterminal_renamed hspace ha, hnames.isNonterminal_renamed hspace hb]
  split
  · rw [List.map_cons, List.map_singleton, Category.renamed_inheriting]
  · split
    · rw [List.map_cons, List.map_singleton, Category.renamed_inheriting]
    · rfl

/-- Renaming goes through a symbol on top of the wildcard. -/
theorem Renames.renamed_topped (ha : a ∈ space.symbols) :
    (topped x a).renamed names = topped (x.renamed names) (a.renamed names) :=
  Category.renamed_topped (hspace.isSymbol a ha)
    (hnames.keepsSymbols hspace _ (hspace.isSymbol a ha))

/-- A row of a nonterminal is renamed to a row of its new name. -/
theorem Renames.row {action : StackAction} (hrow : space.Row x action rule) :
    space.Row (x.renamed names) action (rule.renamed names) := by
  have hstart := hnames.renamed_eq_self hspace.start hspace.start_not_mem
  have hepsilon : Category.epsilon.renamed names = .epsilon :=
    hnames.renamed_eq_self rfl hspace.epsilon_not_mem
  cases hrow with
  | start =>
    rw [Rule.renamed, hstart]
    exact .start
  | single ha =>
    rw [Rule.renamed, Category.renamed_inheriting, hnames.renamed_single hspace ha]
    exact .single (hnames.symbol hspace ha)
  | pair ha hb =>
    rw [Rule.renamed, Category.renamed_inheriting, hnames.renamed_pair hspace ha hb]
    exact .pair (hnames.symbol hspace ha) (hnames.symbol hspace hb)
  | push ha hy =>
    rw [Rule.renamed, Category.renamed_inheriting, List.map_cons, List.map_singleton,
      hnames.renamed_topped hspace ha]
    exact .push (hnames.symbol hspace ha) (hnames.nonterminal _ hy)
  | erase ha =>
    rw [Rule.epsilon, Rule.renamed, hnames.renamed_topped hspace ha, List.map_singleton, hepsilon]
    exact .erase (hnames.symbol hspace ha)
  | pop ha hy =>
    rw [Rule.renamed, hnames.renamed_topped hspace ha, List.map_singleton,
      Category.renamed_inheriting]
    exact .pop (hnames.symbol hspace ha) (hnames.nonterminal _ hy)

/-- A rule space has the renamed rule of each of its rules. -/
theorem Renames.has (hrule : space.Has rule) : space.Has (rule.renamed names) := by
  obtain ⟨x, hx, action, hrow⟩ := has_iff.mp hrule
  exact has_iff.mpr ⟨_, hnames.nonterminal x hx, action, hnames.row hspace hrow⟩

end Renaming

end RuleSpace

end IndexedGrammar
