import IndexedGrammar.Proofs.Hypothesis.Naming
import IndexedGrammar.Proofs.RuleSpace.Coordinates
import IndexedGrammar.Proofs.Schema.Renamed
import Mathlib.Algebra.Group.End
import Mathlib.Data.Fintype.Sum

/-!
# Canonical naming is a permutation

Over parts of speech that are names and no nonterminals, renaming into canonical order is what some
permutation of all nonterminals does to a hypothesis. So the canonical form has as many rules as the
hypothesis, and they form the renamed schema grammar in another order. Its rules name the first
nonterminals, as many as the rules of the hypothesis name.
-/

namespace IndexedGrammar

/-- The nonterminals of a rule space that the rules of a hypothesis name, in the order of the space. -/
def Hypothesis.named (h : Hypothesis) (space : RuleSpace) : List Category :=
  space.nonterminals.filter fun x => ∃ rule ∈ h.ruleList space, rule.Names x.name

variable {space : RuleSpace} {names : String → String} {σ : Equiv.Perm String} {x c : Category} {rule : Rule}
  {h : Hypothesis}

/-- What holds at the first places of a list and nowhere else selects its beginning. -/
theorem filter_eq_take {α : Type} {p : α → Bool} {list : List α} {m : Nat}
    (hp : ∀ (i : Nat) a, list[i]? = some a → (p a = true ↔ i < m)) : list.filter p = list.take m := by
  induction list generalizing m with
  | nil => simp
  | cons a rest ih =>
    have hrest : ∀ (i : Nat) b, rest[i]? = some b → (p b = true ↔ i < m - 1) := fun i b hi =>
      (hp (i + 1) b hi).trans (by omega)
    have ha := hp 0 a rfl
    cases m with
    | zero =>
      rw [List.filter_cons_of_neg (fun h => absurd (ha.mp h) (by decide)), ih hrest]
      simp
    | succ m =>
      rw [List.filter_cons_of_pos (ha.mpr m.succ_pos), ih hrest, List.take_succ_cons, Nat.add_sub_cancel]

namespace Category.Written

/-- The words of a category are its name and the symbols written on its stack. -/
theorem mem_words (hc : c.Written) {name : String} (hne : name ≠ "") :
    name ∈ c.words ↔ name = c.name ∨ name ∈ c.writtenSymbols := by
  cases hc with
  | bare text =>
    have hwritten : (Category.bare text).writtenSymbols = [] := rfl
    rw [words_bare, hwritten]
    simp [Category.bare, hne]
  | inheriting c =>
    have hpattern : (RuleSpace.inheriting c).pattern? = some ⟨[], []⟩ :=
      pattern?_wildcard c.name (by simp : Stack.separator ∉ "".toList)
    rw [words_inheriting, writtenSymbols, hpattern]
    simp [RuleSpace.inheriting, Stack.symbolsOf, hne]
  | @topped c symbol hsymbol =>
    have hpattern : (RuleSpace.topped c symbol).pattern? = some ⟨[], [symbol.name]⟩ := by
      rw [← Stack.segments_join (List.forall_mem_singleton.mpr hsymbol)]
      exact pattern?_wildcard c.name hsymbol.separator_not_mem
    rw [words_topped hsymbol, writtenSymbols, hpattern]
    simp [RuleSpace.topped, Stack.symbolsOf, hsymbol.ne_empty, hne]

/-- A category with the names it had is the same. -/
theorem renamed_id (hc : c.Written) : c.renamed id = c := by
  cases hc with
  | bare name => rfl
  | inheriting c =>
    rw [renamed_inheriting]
    rfl
  | topped c hsymbol =>
    rw [renamed_topped hsymbol hsymbol]
    rfl

end Category.Written

namespace RuleSpace

/-- A rule of a space with the names it had is the same. -/
theorem Has.renamed_id (hrule : space.Has rule) (hspace : space.Regular) : rule.renamed id = rule := by
  have hwritten := hrule.written hspace
  have hrhs : rule.rhs.map (·.renamed id) = rule.rhs :=
    (List.map_congr_left fun c hc => (hwritten c (List.mem_cons_of_mem _ hc)).renamed_id).trans
      (List.map_id _)
  rw [Rule.renamed, (hwritten _ List.mem_cons_self).renamed_id, hrhs]

/-- A rule of a space mentions the nonterminals that it names. -/
theorem Has.names_iff (hrule : space.Has rule) (hspace : space.Regular) (hx : x ∈ space.nonterminals) :
    rule.Names x.name ↔ x ∈ space.mentions rule := by
  have hne : x.name ≠ "" := (hspace.isSymbol x (hspace.subset hx)).ne_empty
  rw [Rule.Names, mentions, mentionedBy, List.mem_flatMap]
  refine exists_congr fun c => and_congr_right fun hc => ?_
  rw [hspace.mem_mentioned, and_iff_right hx, (hrule.written hspace c hc).mem_words hne]

/-- A permutation of the nonterminals takes different rules to different rules. -/
theorem Has.renamed_inj {rule' : Rule} (hrule : space.Has rule) (hrule' : space.Has rule')
    (hspace : space.Regular) (hσ : ∀ name, Category.bare name ∉ space.nonterminals → σ name = name)
    (heq : rule.renamed σ = rule'.renamed σ) : rule = rule' := by
  have hnames : space.Renames σ := Hypothesis.renames_perm hspace hσ
  have hback : space.Renames σ.symm := Hypothesis.renames_perm hspace fun name hname =>
    σ.injective ((σ.apply_symm_apply name).trans (hσ name hname).symm)
  have hundo {r : Rule} (hr : space.Has r) : (r.renamed σ).renamed σ.symm = r := by
    rw [hnames.renamed_renamed hspace hback hr, Equiv.symm_comp_self, hr.renamed_id hspace]
  rw [← hundo hrule, heq, hundo hrule']

/-- A renaming that takes some nonterminals to different ones does to them what a permutation of all
nonterminals does. -/
theorem Regular.exists_perm (hspace : space.Regular) (hnames : space.Renames names) {within : Set Category}
    (hwithin : within ⊆ {x | x ∈ space.nonterminals}) (hinj : Set.InjOn (·.renamed names) within) :
    ∃ σ : Equiv.Perm String, (∀ name, Category.bare name ∉ space.nonterminals → σ name = name) ∧
      ∀ x ∈ within, σ x.name = names x.name := by
  set texts : Finset String := (space.nonterminals.map Category.name).toFinset with htexts
  have hmem {name : String} : name ∈ texts ↔ Category.bare name ∈ space.nonterminals := by
    rw [htexts, List.mem_toFinset, List.mem_map]
    refine ⟨fun hx => ?_, fun hname => ⟨_, hname, rfl⟩⟩
    obtain ⟨x, hx, rfl⟩ := hx
    rwa [← hspace.bare_of_mem hx]
  have hmaps : Set.MapsTo (fun name : texts => names name) {name | .bare name.1 ∈ within} texts := by
    intro name hname
    exact hmem.mpr (hnames.nonterminal _ (hwithin hname))
  have hapart : Set.InjOn (fun name : texts => names name) {name | .bare name.1 ∈ within} := by
    intro a ha b hb heq
    exact Subtype.ext (congrArg Category.name (hinj ha hb (congrArg Category.bare heq)))
  obtain ⟨g, hg⟩ := hmaps.exists_equiv_extend_of_card_eq (Fintype.card_coe texts) hapart
  refine ⟨Equiv.Perm.ofSubtype g, fun name hname => ?_, fun x hx => ?_⟩
  · exact Equiv.Perm.ofSubtype_apply_of_not_mem g fun hin => hname (hmem.mp hin)
  · have hbare := hspace.bare_of_mem (hwithin hx)
    have hin : x.name ∈ texts := hmem.mpr (hbare ▸ hwithin hx)
    rw [Equiv.Perm.ofSubtype_apply_of_mem g hin]
    exact hg ⟨x.name, hin⟩ (show Category.bare x.name ∈ within by rwa [← hbare])

end RuleSpace

namespace Hypothesis

/-- The named nonterminals are those that are mentioned. -/
theorem mem_named (hspace : space.Regular) : x ∈ h.named space ↔ x ∈ mentions space (h.ruleList space) := by
  rw [named, List.mem_filter, decide_eq_true_iff, mentions, List.mem_flatMap]
  refine ⟨fun hx => ?_, fun hx => ?_⟩
  · obtain ⟨hx, rule, hrule, hnames⟩ := hx
    exact ⟨rule, hrule, ((has_of_mem_ruleList hrule).names_iff hspace hx).mp hnames⟩
  · obtain ⟨rule, hrule, hx⟩ := hx
    have hmem := hspace.mem_nonterminals_of_mentions hx
    exact ⟨hmem, rule, hrule, ((has_of_mem_ruleList hrule).names_iff hspace hmem).mpr hx⟩

/-- The canonical order has as many nonterminals as are named. -/
theorem length_order (hspace : space.Regular) :
    (order space (h.ruleList space)).length = (h.named space).length := by
  refine ((List.perm_ext_iff_of_nodup nodup_order (hspace.nodup.filter _)).mpr fun x => ?_).length_eq
  rw [mem_order, ← mem_named hspace, named]

section Permuted

variable (hspace : space.Regular)
  (hσ : ∀ name, Category.bare name ∉ space.nonterminals → σ name = name)
include hspace hσ

/-- A hypothesis with its nonterminals permuted names the new nonterminals. -/
theorem mem_named_renamed :
    x ∈ (h.renamed space σ).named space ↔ ∃ y ∈ h.named space, y.renamed σ = x := by
  have hnames : space.Renames σ := renames_perm hspace hσ
  simp only [mem_named hspace, mentions, List.mem_flatMap]
  refine ⟨fun hx => ?_, fun hy => ?_⟩
  · obtain ⟨r, hr, hx⟩ := hx
    obtain ⟨rule, hrule, rfl⟩ := (isRenaming_renamed hnames hspace r).mp hr
    rw [hnames.mentions_renamed hspace (has_of_mem_ruleList hrule), List.mem_map] at hx
    obtain ⟨y, hy, rfl⟩ := hx
    exact ⟨y, ⟨rule, hrule, hy⟩, rfl⟩
  · obtain ⟨y, ⟨rule, hrule, hy⟩, rfl⟩ := hy
    refine ⟨rule.renamed σ, (isRenaming_renamed hnames hspace _).mpr ⟨rule, hrule, rfl⟩, ?_⟩
    rw [hnames.mentions_renamed hspace (has_of_mem_ruleList hrule)]
    exact List.mem_map_of_mem hy

end Permuted

/-- There is a permutation of the nonterminals that names those of a hypothesis in canonical order. -/
theorem exists_perm_canonicalNames (hspace : space.Regular) (h : Hypothesis) :
    ∃ σ : Equiv.Perm String, (∀ name, Category.bare name ∉ space.nonterminals → σ name = name) ∧
      (∀ x ∈ mentions space (h.ruleList space),
        σ x.name = canonicalNames space (h.ruleList space) x.name) ∧
      h.renamed space (canonicalNames space (h.ruleList space)) = h.renamed space σ := by
  have hcanonical : space.Renames (canonicalNames space (h.ruleList space)) :=
    renames_canonicalNames hspace
  have hwithin : ∀ x ∈ {x | x ∈ mentions space (h.ruleList space)}, x ∈ space.nonterminals :=
    fun x hx => mentions_subset hspace hx
  obtain ⟨σ, hσ, hagree⟩ := hspace.exists_perm hcanonical hwithin
    ((injOn_canonicalNames hspace).mono fun x hx => .inr hx)
  refine ⟨σ, hσ, hagree, congrArg (ofRules space) (List.map_congr_left fun rule hrule => ?_)⟩
  refine hcanonical.renamed_congr hspace (renames_perm hspace hσ) (has_of_mem_ruleList hrule) fun x hx => ?_
  exact (hagree x (List.mem_flatMap.mpr ⟨rule, hrule, hx⟩)).symm

/-- In canonical order, the first nonterminals are those that are named. -/
theorem named_canonical (hspace : space.Regular)
    (hσ : ∀ name, Category.bare name ∉ space.nonterminals → σ name = name)
    (hagree : ∀ x ∈ mentions space (h.ruleList space),
      σ x.name = canonicalNames space (h.ruleList space) x.name) :
    (h.renamed space σ).named space = space.nonterminals.take (h.named space).length := by
  have hplace : ∀ x ∈ h.named space, ∃ i : Nat, (order space (h.ruleList space))[i]? = some x ∧
      space.nonterminals[i]? = some (x.renamed σ) := by
    intro x hx
    have hx := (mem_named hspace).mp hx
    obtain ⟨i, z, hi, hz, hname⟩ := exists_canonicalNames hspace hx
    refine ⟨i, hi, hz.trans (congrArg some ?_)⟩
    rw [hspace.renamed_of_mem (mentions_subset hspace hx), hagree x hx, hname]
    exact hspace.bare_of_mem (List.mem_of_getElem? hz)
  -- the nonterminals at the first places are those that got them
  refine filter_eq_take fun i z hz => ?_
  have hmem : z ∈ (h.renamed space σ).named space ↔ ∃ y ∈ h.named space, y.renamed σ = z :=
    mem_named_renamed hspace hσ
  rw [named, List.mem_filter, and_iff_right (List.mem_of_getElem? hz)] at hmem
  rw [hmem, ← length_order hspace]
  refine ⟨fun hy => ?_, fun hi => ?_⟩
  · obtain ⟨y, hy, rfl⟩ := hy
    obtain ⟨j, hj, hjz⟩ := hplace y hy
    obtain rfl := (List.getElem?_inj (List.getElem?_eq_some_iff.mp hz).1 hspace.nodup).mp (hz.trans hjz.symm)
    exact (List.getElem?_eq_some_iff.mp hj).1
  · have hy := List.getElem_mem hi
    set y := (order space (h.ruleList space))[i] with hyi
    have hy : y ∈ h.named space := (mem_named hspace).mpr (mem_order.mp hy)
    obtain ⟨j, hj, hjz⟩ := hplace y hy
    obtain rfl := (List.getElem?_inj hi nodup_order).mp ((List.getElem?_eq_getElem hi).trans hj.symm)
    exact ⟨y, hy, Option.some.inj (hjz.symm.trans hz)⟩

section Rules

variable (hspace : space.OverNames) (hsymbols : space.symbols.Nodup)
include hspace hsymbols

/-- No rule of a hypothesis is listed twice. -/
theorem nodup_ruleList : (h.ruleList space).Nodup := by
  have hplaces : h.toList.Nodup := by
    refine (Std.ExtTreeSet.ordered_toList : h.toList.Pairwise _).imp fun hlt heq => ?_
    simp [heq] at hlt
  refine hplaces.filterMap fun place place' rule hrule hrule' => ?_
  exact hspace.get?_injective hsymbols hrule hrule'

/-- A hypothesis with its nonterminals permuted has the renamed rules, each once. -/
theorem ruleList_renamed_perm (hregular : space.Regular)
    (hσ : ∀ name, Category.bare name ∉ space.nonterminals → σ name = name) :
    ((h.renamed space σ).ruleList space).Perm ((h.ruleList space).map (·.renamed σ)) := by
  have hnodup : ((h.ruleList space).map (·.renamed σ)).Nodup := by
    refine (nodup_ruleList hspace hsymbols).map_on fun r hr r' hr' heq => ?_
    exact (has_of_mem_ruleList hr).renamed_inj (has_of_mem_ruleList hr') hregular hσ heq
  refine (List.perm_ext_iff_of_nodup (nodup_ruleList hspace hsymbols) hnodup).mpr fun r => ?_
  rw [List.mem_map]
  exact isRenaming_renamed (renames_perm hregular hσ) hregular r

end Rules

/-- The schema grammar of a hypothesis has its rules. -/
theorem toList_rules_of_toSchema {s : Schema} (hs : h.toSchema space = .ok s) :
    s.rules.toList = h.ruleList space := by
  have hall : ∀ (places : List Coordinate) (rules : List Rule),
      List.Forall₂ (fun place rule => space.get? place = some rule) places rules →
        rules = places.filterMap space.get? := by
    intro places rules hrules
    induction hrules with
    | nil => rfl
    | cons hrule _ ih => rw [List.filterMap_cons_some hrule, ← ih]
  exact hall _ _ (toSchema_eq_ok.mp hs).1

/-- The schema grammar of a hypothesis is renamed rule by rule. -/
theorem renamed_schema (hspace : space.OverNames) (hregular : space.Regular) (hnames : space.Renames names)
    {s : Schema} (hs : h.toSchema space = .ok s) :
    s.renamed names = .ok ⟨((h.ruleList space).map (·.renamed names)).toArray⟩ := by
  have hdetached : ∀ r ∈ h.ruleList space, (r.renamed names).detached = r.renamed names := by
    intro r hr
    have horigin : (r.renamed names).origin = none := (has_of_mem_ruleList hr).origin
    rw [Rule.detached, ← horigin]
  rw [Schema.renamed, toList_rules_of_toSchema hs, List.map_congr_left hdetached]
  refine Schema.ofRules_eq_ok.mpr ⟨fun r hr => ?_, rfl⟩
  obtain ⟨place, hplace⟩ := has_of_mem_map_renamed hnames hregular r hr
  exact (hspace.proper_of_get? hplace).1

/-- A hypothesis with its nonterminals permuted has as many rules, and its schema grammar is the renamed one up
to the order of the rules. -/
theorem toSchema_renamed (hspace : space.OverNames) (hsymbols : space.symbols.Nodup) (hregular : space.Regular)
    (hσ : ∀ name, Category.bare name ∉ space.nonterminals → σ name = name) (hover : h.Over space) :
    (h.renamed space σ).size = h.size ∧ ∃ s s' renamed,
      h.toSchema space = .ok s ∧ (h.renamed space σ).toSchema space = .ok s' ∧
      s.renamed σ = .ok renamed ∧ s'.rules.toList.Perm renamed.rules.toList := by
  have hplaces {other : Hypothesis} (hover : other.Over space) :
      ∀ place ∈ other.toList, place ∈ space.coordinates :=
    fun place hplace => RuleSpace.mem_coordinates.mpr (Option.isSome_iff_exists.mp (hover place hplace))
  have hnames := renames_perm hregular hσ
  have hover' : (h.renamed space σ).Over space := over_ofRules (has_of_mem_map_renamed hnames hregular)
  obtain ⟨s, hs, hsize, -⟩ := toSchema_eq hspace (hplaces hover)
  obtain ⟨s', hs', hsize', -⟩ := toSchema_eq hspace (hplaces hover')
  have hperm : s'.rules.toList.Perm ((h.ruleList space).map (·.renamed σ)) :=
    toList_rules_of_toSchema hs' ▸ ruleList_renamed_perm hspace hsymbols hregular hσ
  have hlength : s'.size = s.size := by
    have hlength := hperm.length_eq
    rwa [List.length_map, ← toList_rules_of_toSchema hs, Array.length_toList, Array.length_toList] at hlength
  exact ⟨hsize'.symm.trans (hlength.trans hsize), s, s', _, hs, hs',
    renamed_schema hspace hregular hnames hs, hperm⟩

/-- Over parts of speech that are names and no nonterminals, every hypothesis has a canonical form, and some
permutation of the nonterminals takes the hypothesis to it: it has as many rules, they name the first of the
nonterminals, as many as were named, and its schema grammar is the renamed one up to the order of the rules. -/
theorem canonicalize_permutes {partsOfSpeech : Std.ExtTreeSet String} {settings : Settings}
    (hspace : space = .new partsOfSpeech settings)
    (hstart : settings.start ≠ Category.epsilonName ∧ space.start ∉ space.nonterminals)
    (hleaves : ∀ name ∈ partsOfSpeech, Source.IsName name ∧ name ≠ Category.epsilonName ∧
      Category.bare name ∉ space.nonterminals)
    (hover : h.Over space) :
    ∃ (canonical : Hypothesis) (σ : Equiv.Perm String),
      h.canonicalize space = .ok canonical ∧
      (∀ name, Category.bare name ∉ space.nonterminals → σ name = name) ∧
      canonical = h.renamed space σ ∧ h.IsRenaming space σ canonical ∧
      canonical.named space = space.nonterminals.take (h.named space).length ∧
      canonical.size = h.size ∧ ∃ s s' renamed,
        h.toSchema space = .ok s ∧ canonical.toSchema space = .ok s' ∧
        s.renamed σ = .ok renamed ∧ s'.rules.toList.Perm renamed.rules.toList := by
  subst hspace
  have hovernames : (RuleSpace.new partsOfSpeech settings).OverNames :=
    RuleSpace.overNames_new hstart.1 fun name hname => ⟨(hleaves name hname).1, (hleaves name hname).2.1⟩
  have hregular : (RuleSpace.new partsOfSpeech settings).Regular :=
    RuleSpace.regular_new (fun name hname => (hleaves name hname).1.isSymbol) hstart.2
  have hsymbols : (RuleSpace.new partsOfSpeech settings).symbols.Nodup := by
    refine RuleSpace.nodup_symbols_new.mpr fun i hi hname => (hleaves _ hname).2.2 ?_
    exact (RuleSpace.mem_nonterminals_new _ _).mpr ⟨i, hi, rfl⟩
  obtain ⟨σ, hσ, hagree, hsame⟩ := exists_perm_canonicalNames hregular h
  exact ⟨_, σ, hsame ▸ canonicalize_eq hregular hover, hσ, rfl,
    isRenaming_renamed (renames_perm hregular hσ) hregular, named_canonical hregular hσ hagree,
    toSchema_renamed hovernames hsymbols hregular hσ hover⟩

/-- Where the second nonterminal has two rules, one of which names all three, the canonical form is another
hypothesis, of as many rules that name all nonterminals. -/
theorem canonicalize_permutes_branching : ∃ (canonical : Hypothesis) (σ : Equiv.Perm String),
    Sample.branching.canonicalize (Sample.nounSpace 3) = .ok canonical ∧ canonical ≠ Sample.branching ∧
      canonical = Sample.branching.renamed (Sample.nounSpace 3) σ ∧
      canonical.named (Sample.nounSpace 3) = (Sample.nounSpace 3).nonterminals ∧ canonical.size = 3 := by
  have hnoun : ∀ name ∈ Std.ExtTreeSet.ofList ["N"], Source.IsName name ∧ name ≠ Category.epsilonName ∧
      Category.bare name ∉ (Sample.nounSpace 3).nonterminals := by
    intro name hname
    rw [Std.ExtTreeSet.mem_ofList, List.contains_iff_mem, List.mem_singleton] at hname
    subst hname
    refine ⟨⟨by decide, fun ch hch => ?_⟩, by decide, by decide +kernel⟩
    obtain rfl : ch = 'N' := List.mem_singleton.mp hch
    decide
  obtain ⟨canonical, σ, hcanonical, -, hrenamed, -, hnamed, hsize, -⟩ := canonicalize_permutes
    (rfl : Sample.nounSpace 3 = .new (Std.ExtTreeSet.ofList ["N"]) { maxNonterminals := 3 })
    ⟨by decide, by decide +kernel⟩ hnoun (by decide +kernel : Sample.branching.Over _)
  have hchanged : Sample.branching.canonicalize (Sample.nounSpace 3) ≠ .ok Sample.branching := by
    decide +kernel
  have hall : (Sample.branching.named (Sample.nounSpace 3)).length = 3 := by decide +kernel
  have hnames : canonical.named (Sample.nounSpace 3) = (Sample.nounSpace 3).nonterminals := by
    rw [hnamed, hall]
    rfl
  exact ⟨canonical, σ, hcanonical, fun heq => hchanged (heq ▸ hcanonical), hrenamed, hnames,
    hsize.trans (by decide +kernel)⟩

end Hypothesis

end IndexedGrammar
