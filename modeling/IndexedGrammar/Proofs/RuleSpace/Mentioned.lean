import IndexedGrammar.Proofs.RuleSpace.Regular

/-!
# The nonterminals that a rule mentions

A renaming of the nonterminals takes what a rule mentions to what the renamed rule mentions, in the same
order. It acts on the rule through the mentioned nonterminals only.
-/

namespace IndexedGrammar

namespace RuleSpace

variable {space : RuleSpace} {names names' : String → String} {x c : Category} {rule : Rule}

/-- The nonterminal of a name. -/
def named? (space : RuleSpace) (name : String) : Option Category :=
  space.nonterminals.find? fun x => x.name = name

/-- The nonterminals that some categories mention, in order. -/
def mentionedBy (space : RuleSpace) (categories : List Category) : List Category :=
  categories.flatMap space.mentioned

/-- The nonterminals that a rule mentions, in order. -/
def mentions (space : RuleSpace) (rule : Rule) : List Category :=
  space.mentionedBy (rule.lhs :: rule.rhs)

/-- What a category mentions is found by its words. -/
theorem mentioned_eq (c : Category) : space.mentioned c = c.words.filterMap space.named? :=
  rfl

namespace Regular

variable (hspace : space.Regular)
include hspace

/-- The nonterminal of a name is the bare category of that name. -/
theorem named?_eq_some {name : String} :
    space.named? name = some x ↔ x = .bare name ∧ x ∈ space.nonterminals := by
  have hforward (x : Category) (hx : space.named? name = some x) :
      x = .bare name ∧ x ∈ space.nonterminals := by
    have hname : x.name = name := by simpa using List.find?_some hx
    have hmem : x ∈ space.nonterminals := List.mem_of_find?_eq_some hx
    exact ⟨hname ▸ hspace.bare_of_mem hmem, hmem⟩
  refine ⟨hforward x, fun hx => ?_⟩
  obtain ⟨rfl, hmem⟩ := hx
  have hsome : (space.named? name).isSome := by
    rw [named?, List.find?_isSome]
    exact ⟨_, hmem, decide_eq_true rfl⟩
  obtain ⟨y, hy⟩ := Option.isSome_iff_exists.mp hsome
  rw [hy, (hforward y hy).1]

/-- A category mentions the nonterminals among its words. -/
theorem mem_mentioned : x ∈ space.mentioned c ↔ x ∈ space.nonterminals ∧ x.name ∈ c.words := by
  rw [mentioned_eq, List.mem_filterMap]
  refine ⟨fun hfound => ?_, fun hword => ?_⟩
  · obtain ⟨word, hword, hx⟩ := hfound
    obtain ⟨rfl, hmem⟩ := hspace.named?_eq_some.mp hx
    exact ⟨hmem, hword⟩
  · obtain ⟨hmem, hword⟩ := hword
    exact ⟨x.name, hword, hspace.named?_eq_some.mpr ⟨hspace.bare_of_mem hmem, hmem⟩⟩

/-- What a rule mentions are nonterminals. -/
theorem mem_nonterminals_of_mentions (hx : x ∈ space.mentions rule) : x ∈ space.nonterminals := by
  obtain ⟨c, hc, hx⟩ := List.mem_flatMap.mp hx
  exact (hspace.mem_mentioned.mp hx).1

/-- A rule of the space expands the start category or a nonterminal, which it mentions. -/
theorem lhs_eq_or (hrule : space.Has rule) :
    rule.lhs = space.start ∨ Category.bare rule.lhs.name ∈ space.mentions rule := by
  obtain ⟨x, hx, action, hrow⟩ := has_iff.mp hrule
  refine hrow.lhs_eq_or.imp_right fun hname => ?_
  rw [hname, ← hspace.bare_of_mem hx]
  refine List.mem_flatMap.mpr ⟨rule.lhs, List.mem_cons_self, hspace.mem_mentioned.mpr ⟨hx, ?_⟩⟩
  exact hname ▸ List.mem_cons_self

end Regular

/-- The categories of a rule of the space are written as a rule space writes them. -/
theorem Has.written (hrule : space.Has rule) (hspace : space.Regular) :
    ∀ c ∈ rule.lhs :: rule.rhs, c.Written := by
  obtain ⟨x, hx, action, hrow⟩ := has_iff.mp hrule
  exact fun c hc => hrow.written hspace hx hc

namespace Renames

/-- Renaming one way and then another is a renaming. -/
theorem comp (hnames : space.Renames names) (hnames' : space.Renames names')
    (hspace : space.Regular) : space.Renames (names' ∘ names) where
  nonterminal x hx := by
    have hx' := hnames'.nonterminal _ (hnames.nonterminal x hx)
    rw [hspace.bare_of_mem hx] at hx' ⊢
    exact hx'
  other name hname := by
    rw [Function.comp_apply, hnames.other name hname, hnames'.other name hname]

variable (hnames : space.Renames names) (hspace : space.Regular)
include hnames hspace

/-- The nonterminal of a new name is the new name of the nonterminal. -/
theorem named?_renamed (name : String) :
    space.named? (names name) = (space.named? name).map (·.renamed names) := by
  by_cases hmem : Category.bare name ∈ space.nonterminals
  · rw [hspace.named?_eq_some.mpr ⟨rfl, hmem⟩]
    exact hspace.named?_eq_some.mpr ⟨rfl, hnames.nonterminal _ hmem⟩
  · have hnone : space.named? name = none := by
      refine Option.eq_none_iff_forall_ne_some.mpr fun x hx => hmem ?_
      obtain ⟨rfl, hx⟩ := hspace.named?_eq_some.mp hx
      exact hx
    rw [hnames.other name hmem, hnone]
    rfl

/-- A renamed category mentions the new names of what it mentioned. -/
theorem mentioned_renamed (hc : c.Written) :
    space.mentioned (c.renamed names) = (space.mentioned c).map (·.renamed names) := by
  rw [mentioned_eq, mentioned_eq, hc.words_renamed (hnames.empty hspace) (hnames.keepsSymbols hspace),
    List.filterMap_map, List.map_filterMap]
  exact List.filterMap_congr fun word _ => hnames.named?_renamed hspace word

/-- Renamed categories mention the new names of what they mentioned. -/
theorem mentionedBy_renamed {categories : List Category} (hwritten : ∀ c ∈ categories, c.Written) :
    space.mentionedBy (categories.map (·.renamed names)) =
      (space.mentionedBy categories).map (·.renamed names) := by
  rw [mentionedBy, mentionedBy, List.flatMap_map, List.map_flatMap]
  exact List.flatMap_congr fun c hc => hnames.mentioned_renamed hspace (hwritten c hc)

/-- A renamed rule mentions the new names of what it mentioned. -/
theorem mentions_renamed (hrule : space.Has rule) :
    space.mentions (rule.renamed names) = (space.mentions rule).map (·.renamed names) :=
  hnames.mentionedBy_renamed hspace (hrule.written hspace)

/-- Renamings that agree on the nonterminals that a rule mentions rename it alike. -/
theorem renamed_congr (hnames' : space.Renames names') (hrule : space.Has rule)
    (hagree : ∀ x ∈ space.mentions rule, names x.name = names' x.name) :
    rule.renamed names = rule.renamed names' := by
  have hcategory : ∀ c ∈ rule.lhs :: rule.rhs, c.renamed names = c.renamed names' := by
    intro c hc
    refine (hrule.written hspace c hc).renamed_congr (hnames.keepsSymbols hspace) fun word hword => ?_
    by_cases hmem : Category.bare word ∈ space.nonterminals
    · exact hagree _ (List.mem_flatMap.mpr ⟨c, hc, hspace.mem_mentioned.mpr ⟨hmem, hword⟩⟩)
    · rw [hnames.other word hmem, hnames'.other word hmem]
  rw [Rule.renamed, Rule.renamed, hcategory rule.lhs List.mem_cons_self,
    List.map_congr_left fun c hc => hcategory c (List.mem_cons_of_mem _ hc)]

/-- Renaming a rule twice is renaming it by the composition. -/
theorem renamed_renamed (hnames' : space.Renames names') (hrule : space.Has rule) :
    (rule.renamed names).renamed names' = rule.renamed (names' ∘ names) := by
  have hcategory : ∀ c ∈ rule.lhs :: rule.rhs,
      (c.renamed names).renamed names' = c.renamed (names' ∘ names) := fun c hc =>
    (hrule.written hspace c hc).renamed_renamed (hnames.keepsSymbols hspace)
      (hnames'.keepsSymbols hspace)
  have hrhs : (rule.rhs.map (·.renamed names)).map (·.renamed names') =
      rule.rhs.map (·.renamed (names' ∘ names)) := by
    rw [List.map_map]
    exact List.map_congr_left fun c hc => hcategory c (List.mem_cons_of_mem _ hc)
  rw [Rule.renamed, Rule.renamed, Rule.renamed, hcategory rule.lhs List.mem_cons_self, hrhs]

end Renames

end RuleSpace

end IndexedGrammar
