import IndexedGrammar.Proofs.Hypothesis.Order
import Mathlib.Data.List.Sort

/-!
# Canonical forms

The canonical form of a hypothesis is the hypothesis with its nonterminals renamed into canonical order. It
is the same for a renamed hypothesis if the renaming keeps the order of the rules of each category, and that
of the rules that mention nonterminals which are not reached; it is its own canonical form if the renaming
into canonical order keeps these orders. In general neither holds, since the order of the rules depends on
the names.
-/

namespace IndexedGrammar

/-- Whether one rule is found before another one. -/
def RuleSpace.Before (space : RuleSpace) (r s : Rule) : Prop :=
  ∃ place ∈ space.find? r, ∃ place' ∈ space.find? s, compare place place' = .lt

instance (space : RuleSpace) : DecidableRel space.Before := fun r s =>
  inferInstanceAs (Decidable (∃ place ∈ space.find? r, ∃ place' ∈ space.find? s,
    compare place place' = .lt))

namespace Hypothesis

/-- Whether all coordinates are in a rule space. -/
def Over (h : Hypothesis) (space : RuleSpace) : Prop :=
  ∀ place ∈ h.toList, (space.get? place).isSome

instance (h : Hypothesis) (space : RuleSpace) : Decidable (h.Over space) :=
  inferInstanceAs (Decidable (∀ place ∈ h.toList, (space.get? place).isSome))

/-- The rules at the coordinates that are in a rule space, in order. -/
def ruleList (h : Hypothesis) (space : RuleSpace) : List Rule :=
  h.toList.filterMap space.get?

/-- The hypothesis of the rules that are in a rule space. -/
def ofRules (space : RuleSpace) (rules : List Rule) : Hypothesis :=
  ofList (rules.filterMap space.find?)

/-- The hypothesis with its nonterminals renamed. -/
def renamed (h : Hypothesis) (space : RuleSpace) (names : String → String) : Hypothesis :=
  ofRules space ((h.ruleList space).map (·.renamed names))

/-- Whether one hypothesis has the rules of another one, with their nonterminals renamed. -/
def IsRenaming (h : Hypothesis) (space : RuleSpace) (names : String → String) (other : Hypothesis) : Prop :=
  ∀ r, r ∈ other.ruleList space ↔ ∃ s ∈ h.ruleList space, s.renamed names = r

/-- The nonterminals that a rule mentions and that are not known. -/
def missing (space : RuleSpace) (known : List Category) (r : Rule) : List Category :=
  (space.mentions r).filter (· ∉ known)

/-- Whether the canonical order can depend on which one of two rules comes first: they expand the same
category, or both mention nonterminals that are not reached. -/
def Related (space : RuleSpace) (rules : List Rule) (r s : Rule) : Prop :=
  r.lhs.name = s.lhs.name ∨
    missing space (reached space rules) r ≠ [] ∧ missing space (reached space rules) s ≠ []

instance (space : RuleSpace) (rules : List Rule) : DecidableRel (Related space rules) := fun r s =>
  inferInstanceAs (Decidable (r.lhs.name = s.lhs.name ∨
    missing space (reached space rules) r ≠ [] ∧ missing space (reached space rules) s ≠ []))

/-- Whether a renaming keeps the order of related rules. -/
def KeepsOrder (space : RuleSpace) (rules : List Rule) (names : String → String) : Prop :=
  rules.Pairwise fun r s => Related space rules r s → space.Before (r.renamed names) (s.renamed names)

instance (space : RuleSpace) (rules : List Rule) (names : String → String) :
    Decidable (KeepsOrder space rules names) :=
  inferInstanceAs (Decidable (rules.Pairwise fun r s =>
    Related space rules r s → space.Before (r.renamed names) (s.renamed names)))

variable {space : RuleSpace} {names : String → String} {rules rules' : List Rule} {rule : Rule}
  {h : Hypothesis} {place : Coordinate}

/-! Rules of hypotheses -/

/-- The hypothesis of some coordinates has these coordinates. -/
theorem mem_toList_ofList {places : List Coordinate} :
    place ∈ (ofList places).toList ↔ place ∈ places := by
  rw [toList, ofList, Std.ExtTreeSet.mem_toList, Std.ExtTreeSet.mem_ofList, List.contains_iff_mem]

/-- The rules of a hypothesis are at its coordinates. -/
theorem mem_ruleList : rule ∈ h.ruleList space ↔ ∃ place ∈ h.toList, space.get? place = some rule :=
  List.mem_filterMap

/-- The rules of a hypothesis are in the space. -/
theorem has_of_mem_ruleList (hrule : rule ∈ h.ruleList space) : space.Has rule := by
  obtain ⟨place, -, hplace⟩ := mem_ruleList.mp hrule
  exact ⟨place, hplace⟩

/-- Steps that always succeed give what they find at each element. -/
theorem mapM_eq_ok {α β : Type} {step : α → Except Breach β} {found : α → Option β} {list : List α}
    (hstep : ∀ a ∈ list, ∃ b, found a = some b ∧ step a = .ok b) :
    list.mapM step = .ok (list.filterMap found) := by
  induction list with
  | nil => rfl
  | cons a rest ih =>
    obtain ⟨⟨b, hfound, hb⟩, hrest⟩ := List.forall_mem_cons.mp hstep
    rw [List.mapM_cons, hb, ih hrest, List.filterMap_cons_some hfound]
    rfl

/-- What comes after steps that always succeed gets what they find. -/
theorem bind_mapM_eq {α β γ : Type} {step : α → Except Breach β} {found : α → Option β} {list : List α}
    {next : List β → Except Breach γ} (hstep : ∀ a ∈ list, ∃ b, found a = some b ∧ step a = .ok b) :
    list.mapM step >>= next = next (list.filterMap found) := by
  rw [mapM_eq_ok hstep]
  rfl

/-- A hypothesis over a rule space has rules. -/
theorem rules_eq (hover : h.Over space) : h.rules space = .ok (h.ruleList space) := by
  refine mapM_eq_ok fun place hplace => ?_
  obtain ⟨rule, hrule⟩ := Option.isSome_iff_exists.mp (hover place hplace)
  exact ⟨rule, hrule, by rw [RuleSpace.ruleAt, hrule]⟩

section OfRules

variable (hrules : ∀ r ∈ rules, space.Has r)
include hrules

/-- The coordinates of a hypothesis of rules are those at which the rules are found. -/
theorem mem_toList_ofRules : place ∈ (ofRules space rules).toList ↔
    ∃ r ∈ rules, space.find? r = some place ∧ space.get? place = some r := by
  rw [ofRules, mem_toList_ofList, List.mem_filterMap]
  refine ⟨fun hfound => ?_, fun hplace => ?_⟩
  · obtain ⟨r, hr, hfind⟩ := hfound
    obtain ⟨found, hfound, hget⟩ := (hrules r hr).exists_find?
    obtain rfl := Option.some.inj (hfound.symm.trans hfind)
    exact ⟨r, hr, hfound, hget⟩
  · obtain ⟨r, hr, hfind, -⟩ := hplace
    exact ⟨r, hr, hfind⟩

/-- A hypothesis of rules is over their space. -/
theorem over_ofRules : (ofRules space rules).Over space := by
  intro place hplace
  obtain ⟨r, -, -, hget⟩ := (mem_toList_ofRules hrules).mp hplace
  exact Option.isSome_iff_exists.mpr ⟨r, hget⟩

/-- A hypothesis of rules has these rules. -/
theorem mem_ruleList_ofRules : rule ∈ (ofRules space rules).ruleList space ↔ rule ∈ rules := by
  rw [mem_ruleList]
  refine ⟨fun hplace => ?_, fun hrule => ?_⟩
  · obtain ⟨place, hplace, hrule⟩ := hplace
    obtain ⟨r, hr, -, hget⟩ := (mem_toList_ofRules hrules).mp hplace
    exact Option.some.inj (hget.symm.trans hrule) ▸ hr
  · obtain ⟨place, hfind, hget⟩ := (hrules rule hrule).exists_find?
    exact ⟨place, (mem_toList_ofRules hrules).mpr ⟨rule, hrule, hfind, hget⟩, hget⟩

/-- A hypothesis of rules has them in the order in which they are found. -/
theorem pairwise_ruleList_ofRules :
    ((ofRules space rules).ruleList space).Pairwise space.Before := by
  have hordered : (ofRules space rules).toList.Pairwise fun place place' =>
      compare place place' = .lt := Std.ExtTreeSet.ordered_toList
  have hfound : ∀ place ∈ (ofRules space rules).toList, ∀ r, space.get? place = some r →
      space.find? r = some place := by
    intro place hplace r hr
    obtain ⟨s, -, hfind, hget⟩ := (mem_toList_ofRules hrules).mp hplace
    exact Option.some.inj (hget.symm.trans hr) ▸ hfind
  rw [ruleList, List.pairwise_filterMap]
  refine hordered.imp_of_mem fun hplace hplace' hlt r hr s hs => ?_
  exact ⟨_, hfound _ hplace r hr, _, hfound _ hplace' s hs, hlt⟩

end OfRules

/-- Hypotheses of the same rules are equal. -/
theorem ofRules_congr (hsame : ∀ r, r ∈ rules ↔ r ∈ rules') :
    ofRules space rules = ofRules space rules' := by
  refine congrArg Hypothesis.mk (Std.ExtTreeSet.ext_mem fun place => ?_)
  simp only [Std.ExtTreeSet.mem_ofList, List.contains_iff_mem, List.mem_filterMap, hsame]

section Renaming

variable (hnames : space.Renames names) (hspace : space.Regular)
include hnames hspace

/-- The new rules are in the space. -/
theorem has_of_mem_map_renamed :
    ∀ r ∈ (h.ruleList space).map (·.renamed names), space.Has r := by
  intro r hr
  obtain ⟨s, hs, rfl⟩ := List.mem_map.mp hr
  exact hnames.has hspace (has_of_mem_ruleList hs)

/-- A renamed hypothesis has the new rules. -/
theorem isRenaming_renamed : h.IsRenaming space names (h.renamed space names) := by
  intro r
  rw [renamed, mem_ruleList_ofRules (has_of_mem_map_renamed hnames hspace), List.mem_map]

end Renaming

/-- The canonical form of a hypothesis is the hypothesis renamed into canonical order. -/
theorem canonicalize_eq (hspace : space.Regular) (hover : h.Over space) :
    h.canonicalize space = .ok (h.renamed space (canonicalNames space (h.ruleList space))) := by
  have hnames : space.Renames (canonicalNames space (h.ruleList space)) :=
    renames_canonicalNames hspace
  have hrules : h.rules space = pure (h.ruleList space) := rules_eq hover
  rw [canonicalize, hrules, pure_bind, renamed, ofRules, List.filterMap_map]
  refine bind_mapM_eq fun r hr => ?_
  obtain ⟨place, hfind, -⟩ := (hnames.has hspace (has_of_mem_ruleList hr)).exists_find?
  exact ⟨place, hfind, by rw [← canonicalNames, hfind]⟩

/-! Renamed hypotheses -/

/-- Of two rules at most one is found before the other. -/
instance : Std.Asymm space.Before where
  asymm r s hrs hsr := by
    obtain ⟨place, hr, place', hs, hlt⟩ := hrs
    obtain ⟨found', hs', found, hr', hgt⟩ := hsr
    obtain rfl := Option.some.inj (hr.symm.trans hr')
    obtain rfl := Option.some.inj (hs.symm.trans hs')
    exact absurd (Std.OrientedOrd.eq_swap.symm.trans hgt) (by rw [hlt]; decide)

/-- The nonterminals that are mentioned and not known come from the rules that mention one of them. -/
theorem filter_mentions (known : List Category) :
    (mentions space rules).filter (· ∉ known) =
      (rules.filter fun r => missing space known r ≠ []).flatMap (missing space known) := by
  induction rules with
  | nil => rfl
  | cons r rest ih =>
    rw [mentions, List.flatMap_cons, List.filter_append, List.filter_cons]
    split_ifs with hmissing
    · rw [List.flatMap_cons, ← ih, mentions, missing]
    · have hnil : (space.mentions r).filter (· ∉ known) = [] :=
        not_not.mp fun hne => hmissing (decide_eq_true hne)
      rw [hnil, List.nil_append, ← ih, mentions]

section Invariance

variable (hnames : space.Renames names) (hspace : space.Regular)
include hnames hspace

/-- A part of the rules whose order is kept stays in order under renaming. -/
theorem filter_ruleList_renamed (part part' : Rule → Bool)
    (hpart : ∀ r ∈ h.ruleList space, part' (r.renamed names) = part r)
    (hkeeps : (h.ruleList space).Pairwise fun r s =>
      part r = true → part s = true → space.Before (r.renamed names) (s.renamed names)) :
    ((h.renamed space names).ruleList space).filter part' =
      ((h.ruleList space).filter part).map (·.renamed names) := by
  have hordered := pairwise_ruleList_ofRules (has_of_mem_map_renamed hnames hspace (h := h))
  refine (hordered.filter part').eq_of_mem_iff ?_ fun r => ?_
  · rw [List.pairwise_map, List.pairwise_filter]
    exact hkeeps
  · rw [List.mem_filter, List.mem_map]
    refine ⟨fun hr => ?_, fun hs => ?_⟩
    · obtain ⟨hr, hpart'⟩ := hr
      obtain ⟨s, hs, rfl⟩ := (isRenaming_renamed hnames hspace _).mp hr
      exact ⟨s, List.mem_filter.mpr ⟨hs, hpart s hs ▸ hpart'⟩, rfl⟩
    · obtain ⟨s, hs, rfl⟩ := hs
      obtain ⟨hs, hpart'⟩ := List.mem_filter.mp hs
      exact ⟨(isRenaming_renamed hnames hspace _).mpr ⟨s, hs, rfl⟩, (hpart s hs).trans hpart'⟩

variable (hinj : Set.InjOn (·.renamed names) (vocabulary space (h.ruleList space)))
  (hkeeps : KeepsOrder space (h.ruleList space) names)
include hinj hkeeps

/-- The children of a renamed category are the new names of its children. -/
theorem children_renamed {c : Category} (hc : c ∈ vocabulary space (h.ruleList space)) :
    children space ((h.renamed space names).ruleList space) (c.renamed names) =
      (children space (h.ruleList space) c).map (·.renamed names) := by
  have hlhs : ∀ r ∈ h.ruleList space,
      decide ((r.renamed names).lhs.name = (c.renamed names).name) = decide (r.lhs.name = c.name) := by
    intro r hr
    refine decide_eq_decide.mpr ⟨fun hname => ?_, congrArg names⟩
    have hmem : Category.bare r.lhs.name ∈ vocabulary space (h.ruleList space) := by
      refine (hspace.lhs_eq_or (has_of_mem_ruleList hr)).imp (fun hstart => ?_) fun hx =>
        List.mem_flatMap.mpr ⟨r, hr, hx⟩
      rw [hstart, ← hspace.start]
    have heq : Category.bare r.lhs.name = c := by
      refine hinj hmem hc ?_
      rw [bare_of_mem_vocabulary hspace hc]
      exact congrArg Category.bare hname
    rw [← heq]
    rfl
  have hfilter := filter_ruleList_renamed hnames hspace
    (fun r => r.lhs.name = c.name) (fun r => r.lhs.name = (c.renamed names).name) hlhs
    (hkeeps.imp fun hrs hr hs => hrs (.inl ((of_decide_eq_true hr).trans (of_decide_eq_true hs).symm)))
  rw [children, children, hfilter, List.flatMap_map, List.map_flatMap]
  refine List.flatMap_congr fun r hr => ?_
  have hwritten := (has_of_mem_ruleList (List.mem_filter.mp hr).1).written hspace
  exact hnames.mentionedBy_renamed hspace fun x hx => hwritten x (List.mem_cons_of_mem _ hx)

/-- The nonterminals that are mentioned and not reached get their new names. -/
theorem filter_mentions_renamed :
    (mentions space ((h.renamed space names).ruleList space)).filter
        (· ∉ (reached space (h.ruleList space)).map (·.renamed names)) =
      ((mentions space (h.ruleList space)).filter (· ∉ reached space (h.ruleList space))).map
        (·.renamed names) := by
  set known := reached space (h.ruleList space)
  have hmissing : ∀ r ∈ h.ruleList space,
      missing space (known.map (·.renamed names)) (r.renamed names) =
        (missing space known r).map (·.renamed names) := by
    intro r hr
    rw [missing, hnames.mentions_renamed hspace (has_of_mem_ruleList hr), List.filter_map]
    refine congrArg (List.map _) (List.filter_congr fun x hx => ?_)
    refine decide_eq_decide.mpr (not_congr ⟨fun hmem => ?_, List.mem_map_of_mem⟩)
    obtain ⟨y, hy, heq⟩ := List.mem_map.mp hmem
    have hyx : y = x := hinj (.inr (mem_order.mp (mem_addMissing.mpr (.inl hy))))
      (.inr (List.mem_flatMap.mpr ⟨r, hr, hx⟩)) heq
    exact hyx ▸ hy
  have hfilter := filter_ruleList_renamed hnames hspace (fun r => missing space known r ≠ [])
    (fun r => missing space (known.map (·.renamed names)) r ≠ [])
    (fun r hr => decide_eq_decide.mpr (by rw [hmissing r hr, Ne, List.map_eq_nil_iff]))
    (hkeeps.imp fun hrs hr hs => hrs (.inr ⟨of_decide_eq_true hr, of_decide_eq_true hs⟩))
  rw [filter_mentions, filter_mentions, hfilter, List.flatMap_map, List.map_flatMap]
  exact List.flatMap_congr fun r hr => hmissing r (List.mem_filter.mp hr).1

/-- The canonical order of a renamed hypothesis has the new names. -/
theorem order_renamed : order space ((h.renamed space names).ruleList space) =
    (order space (h.ruleList space)).map (·.renamed names) :=
  order_map hinj (hnames.renamed_eq_self hspace.start hspace.start_not_mem)
    (fun _ hc => children_renamed hnames hspace hinj hkeeps hc)
    (filter_mentions_renamed hnames hspace hinj hkeeps)

/-- The canonical name of a renamed nonterminal is its canonical name. -/
theorem canonicalNames_renamed {x : Category} (hx : x ∈ mentions space (h.ruleList space)) :
    canonicalNames space ((h.renamed space names).ruleList space) (names x.name) =
      canonicalNames space (h.ruleList space) x.name := by
  rw [canonicalNames, canonicalNames, order_renamed hnames hspace hinj hkeeps]
  refine renameInOrder_map (fun y hy hname => ?_) (mem_order.mpr hx) (length_order_le hspace)
  have hy := mem_order.mp hy
  refine congrArg Category.name (hinj (.inr hy) (.inr hx) ?_)
  dsimp only
  rw [hspace.renamed_of_mem (mentions_subset hspace hy), hname,
    hspace.renamed_of_mem (mentions_subset hspace hx)]

/-- Renaming a hypothesis does not change its canonical form, if the renaming keeps its vocabulary apart and
the order of related rules. -/
theorem canonicalize_renamed_of_injOn (hover : h.Over space) :
    (h.renamed space names).canonicalize space = h.canonicalize space := by
  have hcanonical {rules : List Rule} : space.Renames (canonicalNames space rules) :=
    renames_canonicalNames hspace
  have htwice : ∀ r ∈ h.ruleList space,
      (r.renamed names).renamed (canonicalNames space ((h.renamed space names).ruleList space)) =
        r.renamed (canonicalNames space (h.ruleList space)) := by
    intro r hr
    have hhas := has_of_mem_ruleList hr
    rw [hnames.renamed_renamed hspace hcanonical hhas]
    refine (hnames.comp hcanonical hspace).renamed_congr hspace hcanonical hhas fun x hx => ?_
    exact canonicalNames_renamed hnames hspace hinj hkeeps (List.mem_flatMap.mpr ⟨r, hr, hx⟩)
  have hover' : (h.renamed space names).Over space :=
    over_ofRules (has_of_mem_map_renamed hnames hspace)
  rw [canonicalize_eq hspace hover', canonicalize_eq hspace hover]
  refine congrArg Except.ok (ofRules_congr fun r => ?_)
  rw [List.mem_map, List.mem_map]
  refine ⟨fun hs => ?_, fun hr => ?_⟩
  · obtain ⟨s, hs, rfl⟩ := hs
    obtain ⟨r, hr, rfl⟩ := (isRenaming_renamed hnames hspace _).mp hs
    exact ⟨r, hr, (htwice r hr).symm⟩
  · obtain ⟨r, hr, rfl⟩ := hr
    exact ⟨_, (isRenaming_renamed hnames hspace _).mpr ⟨r, hr, rfl⟩, htwice r hr⟩

end Invariance

end Hypothesis

end IndexedGrammar
