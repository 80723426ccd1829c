import IndexedGrammar.Hypothesis
import IndexedGrammar.Proofs.Choices
import IndexedGrammar.Proofs.RuleSpace.Legal

/-!
# The coordinates of a rule space

Every block of a rule space has as many rows as its symbols and nonterminals allow for, and a schema
grammar takes every row. If no symbol of the space is listed twice, no rule is: a rule tells the
action of its block, then the nonterminal, then the symbols. So coordinates and rules determine each other
exactly if no part of speech has the name of a nonterminal.
-/

namespace IndexedGrammar

namespace RuleSpace

variable {space : RuleSpace} {x x' a a' b b' : Category} {rule : Rule} {action : StackAction}
  {place place' : Coordinate}

/-! Rows -/

/-- A block whose rules keep the stack has a row for the start category, for each symbol, and for each
pair of symbols. -/
theorem length_constantRows : (space.constantRows x).length =
    1 + space.symbols.length + space.symbols.length * space.symbols.length := by
  simp [constantRows, List.length_flatMap]
  omega

/-- A block whose rules push has a row for each symbol and nonterminal. -/
theorem length_pushRows : (space.pushRows x).length =
    space.symbols.length * space.nonterminals.length := by
  simp [pushRows, List.length_flatMap]

/-- A block whose rules pop has a row for each symbol, and for each symbol and nonterminal. -/
theorem length_popRows : (space.popRows x).length =
    space.symbols.length + space.symbols.length * space.nonterminals.length := by
  simp [popRows, List.length_flatMap]

/-- A row either expands the start category to its nonterminal, or expands its nonterminal with a wildcard
on the stack. -/
theorem Row.lhs_cases (hrow : space.Row x action rule) :
    rule.lhs = space.start ∧ rule.rhs = [x] ∨
      rule.lhs.name = x.name ∧ rule.lhs.hasWildcard = true := by
  cases hrow with
  | start => exact .inl ⟨rfl, rfl⟩
  | single | pair | push => exact .inr ⟨rfl, Category.hasWildcard_inheriting⟩
  | erase | pop => exact .inr ⟨rfl, Category.hasWildcard_topped⟩

/-- A single right-hand symbol keeps its name. -/
theorem names_single : (space.single a).map Category.name = [a.name] := by
  rw [single]
  split <;> rfl

/-- Two right-hand symbols keep their names. -/
theorem names_pair : (space.pair a b).map Category.name = [a.name, b.name] := by
  rw [pair]
  split_ifs <;> rfl

/-- A category with a symbol on top of the wildcard is known by both names. -/
theorem names_of_topped_eq (h : topped x a = topped x' a') : x.name = x'.name ∧ a.name = a'.name := by
  obtain ⟨hname, hstack⟩ := Category.mk.inj h
  exact ⟨hname, String.append_right_inj _ |>.mp hstack⟩

section OverNames

variable (hspace : space.OverNames)
include hspace

/-- Symbols of the same name are the same. -/
theorem OverNames.eq_of_name_eq (ha : a ∈ space.symbols) (ha' : a' ∈ space.symbols)
    (hname : a.name = a'.name) : a = a' := by
  rw [hspace.bare a ha, hname, ← hspace.bare a' ha']

/-- A row belongs to one nonterminal. -/
theorem Row.unique (hrow : space.Row x action rule) (hrow' : space.Row x' action rule)
    (hx : x ∈ space.nonterminals) (hx' : x' ∈ space.nonterminals) : x = x' := by
  have hstart (hlhs : rule.lhs = space.start) : rule.lhs.hasWildcard = false := by
    rw [hlhs, hspace.start]
    exact Category.hasWildcard_bare
  rcases hrow.lhs_cases with ⟨hlhs, hrhs⟩ | ⟨hname, hwild⟩
  · rcases hrow'.lhs_cases with ⟨-, hrhs'⟩ | ⟨-, hwild⟩
    · exact (List.cons.inj (hrhs.symm.trans hrhs')).1
    · exact absurd hwild (by simp [hstart hlhs])
  · rcases hrow'.lhs_cases with ⟨hlhs, -⟩ | ⟨hname', -⟩
    · exact absurd hwild (by simp [hstart hlhs])
    · exact hspace.eq_of_name_eq (hspace.subset hx) (hspace.subset hx') (hname.symm.trans hname')

variable (hsymbols : space.symbols.Nodup)
include hsymbols

/-- No row that keeps the stack is listed twice. -/
theorem OverNames.nodup_constantRows : (space.constantRows x).Nodup := by
  have hsingle : (space.symbols.map fun a => (⟨inheriting x, space.single a, none⟩ : Rule)).Nodup := by
    refine hsymbols.map_on fun a ha a' ha' heq => hspace.eq_of_name_eq ha ha' ?_
    have hnames := congrArg (List.map Category.name) (Rule.mk.inj heq).2.1
    rw [names_single, names_single] at hnames
    exact (List.cons.inj hnames).1
  have hpair : (space.symbols.flatMap fun a => space.symbols.map fun b =>
      (⟨inheriting x, space.pair a b, none⟩ : Rule)).Nodup := by
    refine nodup_table hsymbols hsymbols fun a ha a' ha' b hb b' hb' heq => ?_
    have hnames := congrArg (List.map Category.name) (Rule.mk.inj heq).2.1
    rw [names_pair, names_pair] at hnames
    obtain ⟨hname, hnames⟩ := List.cons.inj hnames
    exact ⟨hspace.eq_of_name_eq ha ha' hname, hspace.eq_of_name_eq hb hb' (List.cons.inj hnames).1⟩
  have hstart {rhs : List Category} : (⟨space.start, [x], none⟩ : Rule) ≠ ⟨inheriting x, rhs, none⟩ := by
    intro heq
    have hwild := congrArg Category.hasWildcard (Rule.mk.inj heq).1
    rw [hspace.start] at hwild
    simp at hwild
  have hlength (a b c : Category) : (⟨inheriting x, space.single a, none⟩ : Rule) ≠
      ⟨inheriting x, space.pair b c, none⟩ := by
    intro heq
    have hnames := congrArg (List.map Category.name) (Rule.mk.inj heq).2.1
    rw [names_single, names_pair] at hnames
    exact absurd (congrArg List.length hnames) (by simp)
  -- rows of different kinds differ on the left side or in the length of the right side
  rw [constantRows, List.cons_append, List.nodup_cons, List.nodup_append]
  refine ⟨fun hmem => ?_, hsingle, hpair, fun r hr r' hr' => ?_⟩
  · rcases List.mem_append.mp hmem with hmem | hmem
    · obtain ⟨a, -, heq⟩ := List.mem_map.mp hmem
      exact hstart heq.symm
    · obtain ⟨a, -, hmem⟩ := List.mem_flatMap.mp hmem
      obtain ⟨b, -, heq⟩ := List.mem_map.mp hmem
      exact hstart heq.symm
  · obtain ⟨a, -, rfl⟩ := List.mem_map.mp hr
    obtain ⟨b, -, hr'⟩ := List.mem_flatMap.mp hr'
    obtain ⟨c, -, rfl⟩ := List.mem_map.mp hr'
    exact hlength a b c

/-- No row that pushes is listed twice. -/
theorem OverNames.nodup_pushRows : (space.pushRows x).Nodup := by
  refine nodup_table hsymbols hspace.nodup fun a ha a' ha' y hy y' hy' heq => ?_
  obtain ⟨rfl, htopped⟩ := List.cons.inj (Rule.mk.inj heq).2.1
  have hname := (names_of_topped_eq (List.cons.inj htopped).1).1
  exact ⟨rfl, hspace.eq_of_name_eq (hspace.subset hy) (hspace.subset hy') hname⟩

/-- No row that pops is listed twice. -/
theorem OverNames.nodup_popRows : (space.popRows x).Nodup := by
  refine List.nodup_append.mpr ⟨?_, ?_, fun r hr r' hr' heq => ?_⟩
  · refine hsymbols.map_on fun a ha a' ha' heq => hspace.eq_of_name_eq ha ha' ?_
    exact (names_of_topped_eq (Rule.mk.inj heq).1).2
  · refine nodup_table hsymbols hspace.nodup fun a ha a' ha' y hy y' hy' heq => ?_
    obtain ⟨hlhs, hrhs, -⟩ := Rule.mk.inj heq
    have hname := (Category.mk.inj (List.cons.inj hrhs).1).1
    exact ⟨hspace.eq_of_name_eq ha ha' (names_of_topped_eq hlhs).2,
      hspace.eq_of_name_eq (hspace.subset hy) (hspace.subset hy') hname⟩
  · obtain ⟨a, -, rfl⟩ := List.mem_map.mp hr
    obtain ⟨b, -, hr'⟩ := List.mem_flatMap.mp hr'
    obtain ⟨y, -, rfl⟩ := List.mem_map.mp hr'
    have hstack := congrArg Category.stack (List.cons.inj (Rule.mk.inj heq).2.1).1
    exact absurd hstack (by simp [Category.epsilon, Category.bare, inheriting])

/-- No row of a block is listed twice. -/
theorem OverNames.nodup_rows : (space.rows action x).Nodup := by
  cases action with
  | constant => exact hspace.nodup_constantRows hsymbols
  | push => exact hspace.nodup_pushRows hsymbols
  | pop => exact hspace.nodup_popRows hsymbols

/-- A rule is at one place. -/
theorem OverNames.get?_injective (h : space.get? place = some rule) (h' : space.get? place' = some rule) :
    place = place' := by
  obtain ⟨action, block, row⟩ := place
  obtain ⟨action', block', row'⟩ := place'
  obtain ⟨x, hblock, hrow⟩ := Option.bind_eq_some_iff.mp h
  obtain ⟨x', hblock', hrow'⟩ := Option.bind_eq_some_iff.mp h'
  dsimp only at hblock hrow hblock' hrow'
  have hx := List.mem_of_getElem? hblock
  have hx' := List.mem_of_getElem? hblock'
  have hmem := mem_rows.mp (List.mem_of_getElem? hrow)
  have hmem' := mem_rows.mp (List.mem_of_getElem? hrow')
  obtain rfl : action = action' := (hmem.action_eq hspace hx).symm.trans (hmem'.action_eq hspace hx')
  obtain rfl : x = x' := hmem.unique hspace hmem' hx hx'
  obtain rfl : block = block' := (List.getElem?_inj (List.getElem?_eq_some_iff.mp hblock).1 hspace.nodup).mp
    (hblock.trans hblock'.symm)
  obtain rfl : row = row' := (List.getElem?_inj (List.getElem?_eq_some_iff.mp hrow).1
    (hspace.nodup_rows hsymbols)).mp (hrow.trans hrow'.symm)
  rfl

/-- A rule is found where it is. -/
theorem OverNames.find?_of_get? (h : space.get? place = some rule) : space.find? rule = some place := by
  obtain ⟨found, hfind, hfound⟩ := Has.exists_find? ⟨place, h⟩
  rw [hfind, hspace.get?_injective hsymbols hfound h]

end OverNames

/-- Where a rule is found is a rule with its categories. -/
theorem exists_get?_of_find? (h : space.find? rule = some place) :
    ∃ r, space.get? place = some r ∧ r.lhs = rule.lhs ∧ r.rhs = rule.rhs := by
  obtain ⟨⟨place, r⟩, hentry, rfl⟩ := Option.map_eq_some_iff.mp h
  have hget := mem_entries.mp (List.mem_reverse.mp (List.mem_of_find?_eq_some hentry))
  exact ⟨r, hget, by simpa [Rule.sameProduction] using List.find?_some hentry⟩

/-- If every rule is found where it is, no symbol is listed twice. -/
theorem nodup_symbols_of_find? (hfirst : space.nonterminals[0]? = some x)
    (hfind : ∀ place rule, space.get? place = some rule → space.find? rule = some place) :
    space.symbols.Nodup := by
  have hget {i : Nat} {a : Category} (hi : space.symbols[i]? = some a) :
      space.get? ⟨.pop, 0, i⟩ = some (.epsilon (topped x a)) := by
    refine Option.bind_eq_some_iff.mpr ⟨x, hfirst, ?_⟩
    obtain ⟨hlt, -⟩ := List.getElem?_eq_some_iff.mp hi
    rw [rows, popRows, List.getElem?_append_left (by simpa using hlt), List.getElem?_map, hi]
    rfl
  refine List.nodup_iff_getElem?_ne_getElem?.mpr fun i j hij hj heq => ?_
  have hi : space.symbols[j]? = some space.symbols[j] := List.getElem?_eq_getElem hj
  have hplaces := (hfind _ _ (hget (heq.trans hi))).symm.trans (hfind _ _ (hget hi))
  exact absurd (Coordinate.mk.inj (Option.some.inj hplaces)).2.2 (Nat.ne_of_lt hij)

/-! Rule spaces over parts of speech -/

section New

variable {partsOfSpeech : Std.ExtTreeSet String} {settings : Settings}

/-- A nonterminal is a name as it is read. -/
theorem isName_nonterminal (n : Nat) : Source.IsName (nonterminal n).name where
  ne_empty := (isSymbol_nonterminal n).ne_empty
  isNameChar ch hch := by
    rcases mem_toList_nonterminal hch with rfl | hdigit
    · decide
    · simp [Source.isNameChar, Char.isAlphanum, hdigit]

/-- A new rule space is over names if its parts of speech are names. -/
theorem overNames_new (hstart : settings.start ≠ Category.epsilonName)
    (hleaves : ∀ name ∈ partsOfSpeech, Source.IsName name ∧ name ≠ Category.epsilonName) :
    (new partsOfSpeech settings).OverNames := by
  have hsymbols : ∀ a ∈ (new partsOfSpeech settings).symbols,
      a = .bare a.name ∧ Source.IsName a.name ∧ a.name ≠ Category.epsilonName :=
    forall_mem_symbols_new hleaves fun n => ⟨isName_nonterminal n, name_nonterminal_ne n⟩
  exact ⟨fun a ha => (hsymbols a ha).1, fun a ha => (hsymbols a ha).2.1, fun a ha => (hsymbols a ha).2.2,
    List.subset_append_right _ _, nodup_nonterminals_new _ _, rfl, hstart⟩

/-- No symbol of a new rule space is listed twice if no part of speech has the name of a nonterminal. -/
theorem nodup_symbols_new : (new partsOfSpeech settings).symbols.Nodup ↔
    ∀ i < settings.maxNonterminals, (nonterminal (i + 1)).name ∉ partsOfSpeech := by
  have hleaves : (partsOfSpeech.toList.map Category.bare).Nodup := by
    refine List.Nodup.map (fun name name' heq => congrArg Category.name heq) ?_
    exact Std.ExtTreeSet.distinct_toList.imp fun hne heq => hne (Std.LawfulEqOrd.compare_eq_iff_eq.mpr heq)
  refine List.nodup_append.trans ⟨fun h i hi hmem => ?_, fun h => ?_⟩
  · refine h.2.2 (nonterminal (i + 1)) ?_ (nonterminal (i + 1)) ?_ rfl
    · exact List.mem_map.mpr ⟨_, Std.ExtTreeSet.mem_toList.mpr hmem, rfl⟩
    · exact (mem_nonterminals_new partsOfSpeech settings).mpr ⟨i, hi, rfl⟩
  · refine ⟨hleaves, nodup_nonterminals_new partsOfSpeech settings, fun a ha b hb heq => ?_⟩
    obtain ⟨name, hname, rfl⟩ := List.mem_map.mp ha
    obtain ⟨i, hi, rfl⟩ := (mem_nonterminals_new partsOfSpeech settings).mp hb
    refine h i hi ?_
    rw [← heq]
    exact Std.ExtTreeSet.mem_toList.mp hname

/-- A new rule space has as many nonterminals as the settings say. -/
theorem length_nonterminals_new (partsOfSpeech : Std.ExtTreeSet String) (settings : Settings) :
    (new partsOfSpeech settings).nonterminals.length = settings.maxNonterminals := by
  simp [new]

end New

/-- The coordinates of a space are the places of its rules. -/
theorem mem_coordinates : place ∈ space.coordinates ↔ ∃ rule, space.get? place = some rule := by
  simp [coordinates, mem_entries]

/-- The rules of a space over names are proper, and do to the stack what their coordinate says. -/
theorem OverNames.proper_of_get? (hspace : space.OverNames) (h : space.get? place = some rule) :
    rule.Proper ∧ rule.action = place.action := by
  obtain ⟨x, hblock, hrow⟩ := Option.bind_eq_some_iff.mp h
  have hx := List.mem_of_getElem? hblock
  have hrow := mem_rows.mp (List.mem_of_getElem? hrow)
  exact ⟨hrow.proper hspace hx, hrow.action_eq hspace hx⟩

/-- The rows of a block are those of its nonterminal. -/
theorem rowCount_eq {block : Nat} (hblock : block < space.nonterminals.length) (action : StackAction) :
    space.rowCount action block = (space.rows action space.nonterminals[block]).length := by
  rw [rowCount, List.getElem?_eq_getElem hblock]

end RuleSpace

namespace Hypothesis

variable {space : RuleSpace} {h : Hypothesis}

/-- A rule is added if it is in the space and the schema grammar takes it. -/
theorem addTo_eq_ok {place : Coordinate} {s s' : Schema} : addTo space s place = .ok s' ↔
    ∃ rule, space.get? place = some rule ∧ s.insert rule = .ok s' := by
  simp only [addTo, bind_eq_ok, mapError_eq_ok]
  refine exists_congr fun rule => and_congr_left fun _ => ?_
  rw [RuleSpace.ruleAt]
  cases space.get? place <;> simp

/-- Rules are added one after the other if they are in the space and the schema grammar takes them. -/
theorem foldlM_addTo_eq_ok {places : List Coordinate} {before after : Schema} :
    places.foldlM (addTo space) before = .ok after ↔
      ∃ rules, List.Forall₂ (fun place rule => space.get? place = some rule) places rules ∧
        rules.foldlM Schema.insert before = .ok after := by
  induction places generalizing before with
  | nil => simp [pure, Except.pure]
  | cons place rest ih =>
    simp only [List.foldlM_cons, bind_eq_ok, addTo_eq_ok, ih, List.forall₂_cons_left_iff]
    constructor
    · rintro ⟨next, ⟨rule, hrule, hinsert⟩, rules, hrules, hfold⟩
      exact ⟨rule :: rules, ⟨rule, rules, hrule, hrules, rfl⟩,
        by rw [List.foldlM_cons]; exact bind_eq_ok.mpr ⟨next, hinsert, hfold⟩⟩
    · rintro ⟨_, ⟨rule, rules, hrule, hrules, rfl⟩, hfold⟩
      rw [List.foldlM_cons] at hfold
      obtain ⟨next, hinsert, hfold⟩ := bind_eq_ok.mp hfold
      exact ⟨next, ⟨rule, hrule, hinsert⟩, rules, hrules, hfold⟩

/-- A hypothesis stands for the schema grammar of the rules at its coordinates, in order, if all of them are in
the space and proper. -/
theorem toSchema_eq_ok {s : Schema} : h.toSchema space = .ok s ↔
    List.Forall₂ (fun place rule => space.get? place = some rule) h.toList s.rules.toList ∧ s.Valid := by
  rw [toSchema, foldlM_addTo_eq_ok]
  constructor
  · rintro ⟨rules, hrules, hfold⟩
    have hs : Schema.ofRules rules = .ok s := hfold
    obtain ⟨-, rfl⟩ := Schema.ofRules_eq_ok.mp hs
    exact ⟨hrules, Schema.valid_ofRules hs⟩
  · rintro ⟨hrules, hvalid⟩
    exact ⟨_, hrules, Schema.ofRules_eq_ok.mpr ⟨fun r hr => hvalid r (Array.mem_def.mpr hr), rfl⟩⟩

/-- A hypothesis over a space of names stands for a schema grammar with the rule at its first coordinate,
then that at its second one, and so on. -/
theorem toSchema_eq (hspace : space.OverNames) (hover : ∀ place ∈ h.toList, place ∈ space.coordinates) :
    ∃ s, h.toSchema space = .ok s ∧ s.size = h.size ∧
      ∀ (n : Nat) place, h.toList[n]? = some place → s.rules[n]? = space.get? place := by
  obtain ⟨rules, hrules⟩ := exists_forall₂ fun place hplace =>
    RuleSpace.mem_coordinates.mp (hover place hplace)
  have hproper : ∀ rule ∈ rules, rule.Proper := by
    intro rule hrule
    obtain ⟨place, -, hplace⟩ := exists_of_forall₂ hrules hrule
    exact (hspace.proper_of_get? hplace).1
  obtain ⟨hlength, hall⟩ := List.forall₂_iff_get.mp hrules
  refine ⟨⟨rules.toArray⟩, toSchema_eq_ok.mpr ⟨hrules, fun r hr => hproper r (by simpa using hr)⟩, ?_,
    fun n place hplace => ?_⟩
  · rw [Schema.size, List.size_toArray, ← hlength]
    exact Std.ExtTreeSet.length_toList
  · obtain ⟨hn, rfl⟩ := List.getElem?_eq_some_iff.mp hplace
    rw [List.getElem?_toArray, List.getElem?_eq_getElem (hlength ▸ hn)]
    exact (hall n hn (hlength ▸ hn)).symm

end Hypothesis

/-- Over parts of speech that are names, every rule of a space is well formed, does to the stack what its
coordinate says, and is taken by every schema grammar; the blocks are as long as the symbols and
nonterminals make them; and hypotheses stand for the schema grammars of their rules, in order. A rule is found
exactly at its coordinate if and only if no part of speech has the name of a nonterminal. -/
theorem RuleSpace.coordinates_identify_rules {partsOfSpeech : Std.ExtTreeSet String} {settings : Settings}
    {space : RuleSpace} (hspace : space = .new partsOfSpeech settings)
    (hstart : settings.start ≠ Category.epsilonName)
    (hleaves : ∀ name ∈ partsOfSpeech, Source.IsName name ∧ name ≠ Category.epsilonName) :
    (∀ place ∈ space.coordinates, ∃ rule, space.get? place = some rule ∧ rule.WellFormed ∧
      rule.action = place.action ∧ ∀ s : Schema, s.insert rule = .ok ⟨s.rules.push rule⟩) ∧
    (∀ block < settings.maxNonterminals,
      space.rowCount .constant block =
        1 + space.symbols.length + space.symbols.length * space.symbols.length ∧
      space.rowCount .push block = space.symbols.length * settings.maxNonterminals ∧
      space.rowCount .pop block =
        space.symbols.length + space.symbols.length * settings.maxNonterminals) ∧
    (0 < settings.maxNonterminals →
      ((∀ i < settings.maxNonterminals, (nonterminal (i + 1)).name ∉ partsOfSpeech) ↔
        (∀ place rule, space.get? place = some rule → space.find? rule = some place) ∧
        ∀ rule place, space.find? rule = some place →
          ∃ r, space.get? place = some r ∧ r.lhs = rule.lhs ∧ r.rhs = rule.rhs)) ∧
    ∀ h : Hypothesis, (∀ place ∈ h.toList, place ∈ space.coordinates) →
      ∃ s, h.toSchema space = .ok s ∧ s.size = h.size ∧
        ∀ (n : Nat) place, h.toList[n]? = some place → s.rules[n]? = space.get? place := by
  subst hspace
  have hover := overNames_new hstart hleaves
  refine ⟨fun place hplace => ?_, fun block hblock => ?_, fun hsome => ?_, fun h => Hypothesis.toSchema_eq hover⟩
  · obtain ⟨rule, hrule⟩ := mem_coordinates.mp hplace
    obtain ⟨hproper, haction⟩ := hover.proper_of_get? hrule
    exact ⟨rule, hrule, hproper.wellFormed, haction, Schema.insert_of_proper hproper⟩
  · rw [← length_nonterminals_new partsOfSpeech settings] at hblock ⊢
    simp only [rowCount_eq hblock]
    exact ⟨length_constantRows, length_pushRows, length_popRows⟩
  · rw [← nodup_symbols_new]
    refine ⟨fun hsymbols => ⟨fun place rule => hover.find?_of_get? hsymbols, fun rule place =>
      exists_get?_of_find?⟩, fun hfind => ?_⟩
    rw [← length_nonterminals_new partsOfSpeech settings] at hsome
    exact nodup_symbols_of_find? (List.getElem?_eq_getElem hsome) hfind.1

/-- Two parts of speech. -/
def Sample.leaves : Std.ExtTreeSet String :=
  .ofList ["N", "V-1"]

/-- The rule space over two parts of speech and two nonterminals. -/
def Sample.leafSpace : RuleSpace :=
  .new leaves { maxNonterminals := 2 }

/-- A rule that pushes and a rule that pops. -/
def Sample.moving : Hypothesis :=
  .ofList [⟨.push, 1, 3⟩, ⟨.pop, 0, 1⟩]

/-- Over two parts of speech and two nonterminals, every rule is found at its coordinate, and two rules
stand for a schema grammar of two rules. -/
theorem RuleSpace.coordinates_identify_rules_leaves :
    (∀ place rule, Sample.leafSpace.get? place = some rule → Sample.leafSpace.find? rule = some place) ∧
      ∃ s, Sample.moving.toSchema Sample.leafSpace = .ok s ∧ s.size = 2 := by
  have hmem {name : String} : name ∈ Sample.leaves ↔ name ∈ ["N", "V-1"] := by
    rw [Sample.leaves, Std.ExtTreeSet.mem_ofList, List.contains_iff_mem]
  have hleaves : ∀ name ∈ Sample.leaves, Source.IsName name ∧ name ≠ Category.epsilonName := by
    have hall : ∀ name ∈ ["N", "V-1"], (name ≠ "" ∧ name.toList.all Source.isNameChar = true) ∧
        name ≠ Category.epsilonName := by
      decide
    intro name hname
    obtain ⟨⟨hne, hchars⟩, hepsilon⟩ := hall name (hmem.mp hname)
    exact ⟨⟨hne, fun ch => List.all_eq_true.mp hchars ch⟩, hepsilon⟩
  have hfree : ∀ i < 2, (nonterminal (i + 1)).name ∉ Sample.leaves := by
    have hall : ∀ i < 2, (nonterminal (i + 1)).name ∉ ["N", "V-1"] := by decide
    exact fun i hi hname => hall i hi (hmem.mp hname)
  obtain ⟨-, -, hfind, hschema⟩ := coordinates_identify_rules (rfl : Sample.leafSpace = _) (by decide) hleaves
  obtain ⟨s, hs, hsize, -⟩ := hschema Sample.moving (by decide +kernel)
  exact ⟨((hfind (by decide)).mp hfree).1, s, hs, hsize.trans (by decide +kernel)⟩

end IndexedGrammar
