import IndexedGrammar.Proofs.Expansion.Compiled
import IndexedGrammar.Proofs.Grammar.Relabelled

/-!
# Compiling renamed schema grammars

A renaming that keeps the words of a schema grammar apart, and keeps the reserved ones, goes through expansion:
a renamed rule yields for a renamed category what the rule yields, renamed, and categories are met and
expanded in the same order. So a renamed schema grammar compiles if the schema grammar does, to the renamed rules
under their numbers.
-/

namespace IndexedGrammar

/-- The words that a schema grammar cannot rename: the parts of speech, and the names of the start category, the
synthetic one and the empty one. -/
def Settings.reserved (settings : Settings) (partsOfSpeech : Std.ExtTreeSet String) : Set String :=
  {word | word ∈ partsOfSpeech ∨ word ∈ [settings.start, settings.gamma, Category.epsilonName]}

variable {words reserved : Set String} {names : String → String} {partsOfSpeech : Std.ExtTreeSet String}
  {maxDepth : Nat} {c d written : Category} {r : Rule} {captured : List String} {rhs : List Category}

/-! What renamed rules yield -/

namespace Category

/-- What a category that is written with some words stands for is written with them, if what is captured is. -/
theorem fill_mem_concrete (hwritten : written.hasProperStack = true) (hwithin : written.Within words)
    (hcaptured : ∀ symbol ∈ captured, symbol ∈ words ∧ Stack.IsSymbol symbol) :
    written.fill captured ∈ concrete words := by
  cases hwild : written.hasWildcard with
  | false =>
    rw [fill_of_not_hasWildcard hwild]
    exact ⟨hwithin, isConcrete_of_hasProperStack hwritten hwild⟩
  | true =>
    have haround := writtenSymbols_of_hasWildcard hwritten hwild
    rw [fill_of_hasWildcard hwild]
    refine ofSymbols_mem_concrete hwithin.name (fun symbol hsymbol => ?_)
      (isSymbol_filled hwritten hwild fun symbol hsymbol => (hcaptured symbol hsymbol).2)
    rw [List.mem_append, List.mem_append] at hsymbol
    rcases hsymbol with (hbelow | hmem) | habove
    · exact hwithin.writtenSymbols symbol (haround ▸ List.mem_append_left _ hbelow)
    · exact (hcaptured symbol hmem).1
    · exact hwithin.writtenSymbols symbol (haround ▸ List.mem_append_right _ habove)

section Renamed

variable (h : Renaming words reserved names) (hpos : ∀ name ∈ partsOfSpeech, name ∈ reserved)
  (hwritten : written.hasProperStack = true) (hwithin : written.Within words)
  (hcaptured : ∀ symbol ∈ captured, symbol ∈ words ∧ Stack.IsSymbol symbol)
include h hwritten hwithin hcaptured

/-- Renaming goes through filling in. -/
theorem fill_renamed : (written.renamed names).fill (captured.map names) = (written.fill captured).renamed names := by
  have hconcrete := (fill_mem_concrete hwritten hwithin hcaptured).2
  have hwild' := hasWildcard_renamed h hwithin hwritten
  cases hwild : written.hasWildcard with
  | false => rw [fill_of_not_hasWildcard hwild, fill_of_not_hasWildcard (hwild'.trans hwild)]
  | true =>
    obtain ⟨hbelow, habove⟩ := around_renamed h hwithin hwritten hwild
    have hsymbols := symbols_fill hwritten hwild fun symbol hsymbol => (hcaptured symbol hsymbol).2
    rw [renamed_of_isConcrete hconcrete, hsymbols, fill_of_hasWildcard (hwild'.trans hwild), hbelow, habove,
      name_fill, List.map_append, List.map_append]
    rfl

include hpos in
/-- A renamed category fits if the category did. -/
theorem fits_renamed : (written.renamed names).Fits partsOfSpeech maxDepth (captured.map names) ↔
    written.Fits partsOfSpeech maxDepth captured := by
  have hconcrete := fill_mem_concrete hwritten hwithin hcaptured
  have hstack : ((written.renamed names).fill (captured.map names)).stack = "" ↔
      (written.fill captured).stack = "" := by
    rw [fill_renamed h hwritten hwithin hcaptured, ← String.isEmpty_iff, ← String.isEmpty_iff,
      isEmpty_stack_renamed h hconcrete.1 hconcrete.2]
  have hname : names written.name ∈ partsOfSpeech ↔ written.name ∈ partsOfSpeech :=
    h.mem_partsOfSpeech_iff hpos hwithin.name
  have hlength (hwild : written.hasWildcard = true) :
      ((written.renamed names).below ++ captured.map names ++ (written.renamed names).above).length =
        (written.below ++ captured ++ written.above).length := by
    obtain ⟨hbelow, habove⟩ := around_renamed h hwithin hwritten hwild
    rw [hbelow, habove, ← List.map_append, ← List.map_append, List.length_map]
  have hwild' := hasWildcard_renamed h hwithin hwritten
  constructor
  · intro hfits
    refine ⟨fun hwild => ?_, fun hne hmem => ?_⟩
    · exact hlength hwild ▸ hfits.depth_le (hwild'.trans hwild)
    · exact hfits.not_partOfSpeech (fun hempty => hne (hstack.mp hempty)) (hname.mpr hmem)
  · intro hfits
    refine ⟨fun hwild => ?_, fun hne hmem => ?_⟩
    · have hwild := hwild'.symm.trans hwild
      exact (hlength hwild).symm ▸ hfits.depth_le hwild
    · exact hfits.not_partOfSpeech (fun hempty => hne (hstack.mpr hempty)) (hname.mp hmem)

end Renamed

end Category

namespace Rule

section Renamed

variable (hr : r.Proper) (hwithin : ∀ c ∈ r.lhs :: r.rhs, c.Within words) (hc : c ∈ Category.concrete words)
include hr hwithin hc

omit hr hwithin in
/-- What is captured of a category that is written with some words is among them. -/
theorem mem_of_captured {below above : List String} (hsymbols : below ++ captured ++ above = c.symbols) :
    ∀ symbol ∈ captured, symbol ∈ words ∧ Stack.IsSymbol symbol := by
  intro symbol hsymbol
  have hmem : symbol ∈ c.symbols := by
    rw [← hsymbols]
    simp [hsymbol]
  exact ⟨Category.mem_of_mem_symbols hc symbol hmem, hc.2.isSymbol hmem⟩

omit hc in
/-- What is written around the wildcard of a left-hand side is among the words. -/
theorem writtenSymbols_lhs (hwild : r.lhs.hasWildcard = true) :
    (∀ symbol ∈ r.lhs.below, symbol ∈ words) ∧ ∀ symbol ∈ r.lhs.above, symbol ∈ words := by
  have hwritten := (hwithin _ List.mem_cons_self).writtenSymbols
  rw [Category.writtenSymbols_of_hasWildcard (hr.hasProperStack _ List.mem_cons_self) hwild] at hwritten
  exact List.forall_mem_append.mp hwritten

/-- What a rule that is written with some words yields is written with them. -/
theorem Yields.mem_concrete (hyields : r.Yields partsOfSpeech maxDepth c rhs) :
    ∀ d ∈ rhs, d ∈ Category.concrete words := by
  intro d hd
  have hrhs {written : Category} (hwritten : written ∈ r.rhs) :
      written.hasProperStack = true ∧ written.Within words :=
    ⟨hr.hasProperStack _ (List.mem_cons_of_mem _ hwritten), hwithin _ (List.mem_cons_of_mem _ hwritten)⟩
  rcases hyields.cases_child hr hd with ⟨hmem, hwild⟩ | ⟨heir, hheir, -, captured, hcaptured, -, rfl⟩
  · exact ⟨(hrhs hmem).2, Category.isConcrete_of_hasProperStack (hrhs hmem).1 hwild⟩
  · refine Category.fill_mem_concrete (hrhs hheir).1 (hrhs hheir).2 fun symbol hsymbol => ?_
    have hmem := hcaptured symbol hsymbol
    exact ⟨Category.mem_of_mem_symbols hc symbol hmem, hc.2.isSymbol hmem⟩

variable (h : Renaming words reserved names)
include h

omit hc in
/-- Renaming goes through filling in a right-hand side. -/
theorem map_fill_renamed (hcaptured : ∀ symbol ∈ captured, symbol ∈ words ∧ Stack.IsSymbol symbol) :
    (r.renamed names).rhs.map (Category.fill (captured.map names)) =
      (r.rhs.map (Category.fill captured)).map (·.renamed names) := by
  rw [Rule.renamed, List.map_map, List.map_map]
  refine List.map_congr_left fun written hwritten => ?_
  dsimp only [Function.comp_apply]
  have hmem : written ∈ r.lhs :: r.rhs := List.mem_cons_of_mem _ hwritten
  exact Category.fill_renamed h (hr.hasProperStack _ hmem) (hwithin _ hmem) hcaptured

omit hc in
/-- There is an heir on a renamed right-hand side if there was one. -/
theorem exists_heir_renamed : (∃ heir ∈ (r.renamed names).rhs, heir.hasWildcard = true) ↔
    ∃ heir ∈ r.rhs, heir.hasWildcard = true := by
  simp only [Rule.renamed, List.mem_map, exists_exists_and_eq_and]
  refine exists_congr fun heir => and_congr_right fun hheir => ?_
  have hmem : heir ∈ r.lhs :: r.rhs := List.mem_cons_of_mem _ hheir
  rw [Category.hasWildcard_renamed h (hwithin _ hmem) (hr.hasProperStack _ hmem)]

variable (hpos : ∀ name ∈ partsOfSpeech, name ∈ reserved)
include hpos

omit hc in
/-- The categories of a renamed right-hand side fit if the categories did. -/
theorem forall_fits_renamed (hcaptured : ∀ symbol ∈ captured, symbol ∈ words ∧ Stack.IsSymbol symbol) :
    (∀ written ∈ (r.renamed names).rhs, written.Fits partsOfSpeech maxDepth (captured.map names)) ↔
      ∀ written ∈ r.rhs, written.Fits partsOfSpeech maxDepth captured := by
  simp only [Rule.renamed, List.forall_mem_map]
  refine forall₂_congr fun written hwritten => ?_
  have hmem : written ∈ r.lhs :: r.rhs := List.mem_cons_of_mem _ hwritten
  exact Category.fits_renamed h hpos (hr.hasProperStack _ hmem) (hwithin _ hmem) hcaptured

/-- What a rule yields, renamed, is what the renamed rule yields for the renamed category. -/
theorem Yields.renamed (hyields : r.Yields partsOfSpeech maxDepth c rhs) :
    (r.renamed names).Yields partsOfSpeech maxDepth (c.renamed names) (rhs.map (·.renamed names)) := by
  have hlhs : (r.lhs.renamed names).hasWildcard = r.lhs.hasWildcard :=
    Category.hasWildcard_renamed h (hwithin _ List.mem_cons_self) (hr.hasProperStack _ List.mem_cons_self)
  cases hyields with
  | verbatim hwild heq => exact .verbatim (hlhs.trans hwild) (congrArg (Category.renamed names) heq)
  | @filled captured hwild hname hsymbols hheir hfits =>
    have hcaptured := mem_of_captured hc hsymbols
    obtain ⟨hbelow, habove⟩ := Category.around_renamed h (hwithin _ List.mem_cons_self)
      (hr.hasProperStack _ List.mem_cons_self) hwild
    have hnew : (r.renamed names).lhs.below ++ captured.map names ++ (r.renamed names).lhs.above =
        (c.renamed names).symbols := by
      rw [Rule.renamed, hbelow, habove, Category.symbols_renamed h hc.1 hc.2, ← hsymbols, List.map_append,
        List.map_append]
    rw [← map_fill_renamed hr hwithin h hcaptured]
    refine .filled (hlhs.trans hwild) (congrArg names hname) hnew (hheir.imp (fun hnil => ?_) ?_) ?_
    · rw [hnil, List.map_nil]
    · exact (exists_heir_renamed hr hwithin h).mpr
    · exact (forall_fits_renamed hr hwithin h hpos hcaptured).mpr hfits

/-- What a renamed rule yields for a renamed category is what the rule yields, renamed. -/
theorem Yields.of_renamed {rhs' : List Category}
    (hyields : (r.renamed names).Yields partsOfSpeech maxDepth (c.renamed names) rhs') :
    ∃ rhs, r.Yields partsOfSpeech maxDepth c rhs ∧ rhs.map (·.renamed names) = rhs' := by
  have hproper := hr.hasProperStack _ List.mem_cons_self
  have hlhs : (r.lhs.renamed names).hasWildcard = r.lhs.hasWildcard :=
    Category.hasWildcard_renamed h (hwithin _ List.mem_cons_self) hproper
  cases hyields with
  | verbatim hwild heq =>
    have hwild := hlhs.symm.trans hwild
    have hconcrete := Category.isConcrete_of_hasProperStack hproper hwild
    have heq := Category.injOn_renamed h ⟨hwithin _ List.mem_cons_self, hconcrete⟩ hc heq
    exact ⟨r.rhs, .verbatim hwild heq, rfl⟩
  | @filled captured' hwild hname hsymbols hheir hfits =>
    have hwild := hlhs.symm.trans hwild
    obtain ⟨hbelow, habove⟩ := Category.around_renamed h (hwithin _ List.mem_cons_self) hproper hwild
    have hlhs := writtenSymbols_lhs hr hwithin hwild
    -- the symbols are cut where the new ones are
    obtain ⟨captured, hcut, rfl⟩ : ∃ captured, r.lhs.below ++ captured ++ r.lhs.above = c.symbols ∧
        captured.map names = captured' := by
      rw [Rule.renamed, hbelow, habove, Category.symbols_renamed h hc.1 hc.2] at hsymbols
      obtain ⟨rest, above, hcut, hrest, hsame⟩ := List.map_eq_append_iff.mp hsymbols.symm
      obtain ⟨below, captured, rfl, hsame', hcaptured⟩ := List.map_eq_append_iff.mp hrest
      have hwords : ∀ symbol ∈ below ++ captured ++ above, symbol ∈ words :=
        hcut ▸ Category.mem_of_mem_symbols hc
      simp only [List.forall_mem_append] at hwords
      obtain rfl := eq_of_map_eq h.injOn hwords.1.1 hlhs.1 hsame'
      obtain rfl := eq_of_map_eq h.injOn hwords.2 hlhs.2 hsame
      exact ⟨captured, hcut.symm, hcaptured⟩
    have hcaptured := mem_of_captured hc hcut
    have hname : r.lhs.name = c.name := h.injOn (hwithin _ List.mem_cons_self).name hc.1.name hname
    refine ⟨_, .filled hwild hname hcut (hheir.imp List.map_eq_nil_iff.mp ?_) ?_,
      (map_fill_renamed hr hwithin h hcaptured).symm⟩
    · exact (exists_heir_renamed hr hwithin h).mp
    · exact (forall_fits_renamed hr hwithin h hpos hcaptured).mp hfits

omit hr hwithin hc h hpos in
/-- What a rule yields does not depend on where it comes from. -/
theorem Yields.detached (hyields : r.Yields partsOfSpeech maxDepth c rhs) :
    r.detached.Yields partsOfSpeech maxDepth c rhs := by
  cases hyields with
  | verbatim hwild heq => exact .verbatim hwild heq
  | filled hwild hname hsymbols hheir hfits => exact .filled hwild hname hsymbols hheir hfits

omit hr hwithin hc h hpos in
/-- The instance of a rule does not depend on where the rule comes from. -/
theorem instance?_detached :
    r.detached.instance? partsOfSpeech maxDepth c = r.instance? partsOfSpeech maxDepth c :=
  rfl

/-- A renamed rule has the renamed instance for a renamed category. -/
theorem instance?_renamed (hreserved : Category.epsilonName ∈ reserved) :
    (r.renamed names).instance? partsOfSpeech maxDepth (c.renamed names) =
      (r.instance? partsOfSpeech maxDepth c).map (List.map (·.renamed names)) := by
  refine Option.ext fun rhs' => ?_
  rw [Option.map_eq_some_iff, instance?_eq_some_iff (hr.renamed h hreserved hwithin)
    (Category.isConcrete_renamed h hc.1 hc.2)]
  simp only [instance?_eq_some_iff hr hc.2]
  constructor
  · exact Yields.of_renamed hr hwithin hc h hpos
  · rintro ⟨rhs, hyields, rfl⟩
    exact hyields.renamed hr hwithin hc h hpos

end Renamed

end Rule

/-! Expanding a renamed schema grammar -/

namespace Category

/-- A renaming of words keeps the concrete categories that are written with them apart. -/
theorem relabels (h : Renaming words reserved names) (hreserved : epsilonName ∈ reserved) :
    Relabels names (concrete words) where
  injOn := injOn_renamed h
  isEpsilon _ hc := isEpsilon_renamed_of_isEmpty h hc.1 hreserved (isEmpty_stack_renamed h hc.1 hc.2)

/-- A reserved word is the name of a concrete category, which is not renamed. -/
theorem bare_mem_concrete (h : Renaming words reserved names) {name : String} (hname : name ∈ reserved) :
    bare name ∈ concrete words ∧ (bare name).renamed names = bare name := by
  have hmem : bare name ∈ concrete words :=
    ofSymbols_mem_concrete (h.subset hname) (fun _ hsymbol => absurd hsymbol List.not_mem_nil)
      fun _ hsymbol => absurd hsymbol List.not_mem_nil
  exact ⟨hmem, congrArg bare (h.keeps name hname)⟩

/-- A renamed category is a nonterminal if the category was. -/
theorem isNonterminal_renamed (h : Renaming words reserved names) (hreserved : epsilonName ∈ reserved)
    (hpos : ∀ name ∈ partsOfSpeech, name ∈ reserved) (hc : c ∈ concrete words) :
    (c.renamed names).IsNonterminal partsOfSpeech ↔ c.IsNonterminal partsOfSpeech := by
  have hname : (c.renamed names).name ∈ partsOfSpeech ↔ c.name ∈ partsOfSpeech :=
    h.mem_partsOfSpeech_iff hpos hc.1.name
  unfold IsNonterminal
  rw [(relabels h hreserved).isEpsilon c hc, hname, ← String.isEmpty_iff, ← String.isEmpty_iff,
    isEmpty_stack_renamed h hc.1 hc.2]

end Category

variable {s : Schema}

/-- The renamed schema grammar spells the renamed category. -/
theorem Schema.Spells.renamed (hs : s.Valid) (h : Renaming words reserved names) (hwords : s.words ⊆ words)
    (hmem : c ∈ Category.concrete words) (hc : s.Spells c) : (s.relabelled names).Spells (c.renamed names) where
  isConcrete := Category.isConcrete_renamed h hmem.1 hmem.2
  mem_alphabet symbol hsymbol := by
    rw [Category.symbols_renamed h hmem.1 hmem.2] at hsymbol
    obtain ⟨old, hold, rfl⟩ := List.mem_map.mp hsymbol
    exact Schema.mem_alphabet_relabelled hs h hwords (hc.mem_alphabet old hold)

namespace Expansion

/-- An expansion of a schema grammar, and one of the renamed schema grammar that is as far. -/
structure Mirrors (words reserved : Set String) (names : String → String) (s : Schema)
    (e e' : Expansion) : Prop where
  relabelled : e.grammar.Relabelled names (Category.concrete words) e'.grammar
  reserved : ∀ name ∈ e.grammar.partsOfSpeech, name ∈ reserved
  indexed : e.grammar.Indexed
  indexed' : e'.grammar.Indexed
  queue_eq : e'.queue = e.queue.map (·.renamed names)
  queued : ∀ c ∈ e.queue, c ∈ e.seen
  mem_seen : ∀ {c'}, c' ∈ e'.seen ↔ ∃ c ∈ e.seen, c.renamed names = c'
  spells : ∀ c ∈ e.seen, c ∈ Category.concrete words ∧ s.Spells c

namespace Mirrors

variable {e e' : Expansion} {n : Nat} (maxDepth) (hs : s.Valid) (h : Renaming words reserved names)
  (hreserved : Category.epsilonName ∈ reserved) (hwords : s.words ⊆ words)
include h hreserved

/-- Meeting a category in one expansion and the renamed category in the other. -/
theorem meet (hm : Mirrors words reserved names s e e') (hd : d ∈ Category.concrete words ∧ s.Spells d)
    (hadmits : s.admits maxDepth d = true)
    (hadmits' : (s.relabelled names).admits maxDepth (d.renamed names) = true) :
    Mirrors words reserved names s (e.meet s maxDepth d)
      (e'.meet (s.relabelled names) maxDepth (d.renamed names)) := by
  have hnonterminal : e'.grammar.isNonterminal (d.renamed names) = e.grammar.isNonterminal d := by
    rw [Bool.eq_iff_iff, Grammar.isNonterminal_eq_true_iff, Grammar.isNonterminal_eq_true_iff,
      hm.relabelled.partsOfSpeech_eq, Category.isNonterminal_renamed h hreserved hm.reserved hd.1]
  have hseen : e'.seen.contains (d.renamed names) = e.seen.contains d := by
    rw [Bool.eq_iff_iff, ← Std.ExtTreeSet.mem_iff_contains, ← Std.ExtTreeSet.mem_iff_contains, hm.mem_seen]
    refine ⟨fun ⟨c, hc, heq⟩ => ?_, fun hd => ⟨d, hd, rfl⟩⟩
    exact Category.injOn_renamed h (hm.spells c hc).1 hd.1 heq ▸ hc
  unfold Expansion.meet
  rw [hnonterminal, hseen, hadmits, hadmits']
  split
  · exact {
      hm with
      queue_eq := by
        dsimp only
        rw [hm.queue_eq, List.map_append, List.map_singleton]
      queued := by
        intro c hc
        rw [Std.ExtTreeSet.mem_insert, Std.compare_eq_iff_eq]
        rcases List.mem_append.mp hc with hold | hnew
        · exact .inr (hm.queued c hold)
        · exact .inl (List.mem_singleton.mp hnew).symm
      mem_seen := by
        simp only [Std.ExtTreeSet.mem_insert, Std.compare_eq_iff_eq, hm.mem_seen, or_and_right, exists_or,
          exists_eq_left', implies_true]
      spells := by
        intro c hc
        rw [Std.ExtTreeSet.mem_insert, Std.compare_eq_iff_eq] at hc
        exact hc.elim (fun heq => heq ▸ hd) (hm.spells c) }
  · exact hm

/-- Meeting categories in one expansion and the renamed categories in the other. -/
theorem foldl_meet (hm : Mirrors words reserved names s e e')
    (hrhs : ∀ d ∈ rhs, d ∈ Category.concrete words ∧ s.Spells d)
    (hadmits : ∀ d ∈ rhs, s.admits maxDepth d = true)
    (hadmits' : ∀ d ∈ rhs, (s.relabelled names).admits maxDepth (d.renamed names) = true) :
    Mirrors words reserved names s (rhs.foldl (Expansion.meet s maxDepth) e)
      ((rhs.map (·.renamed names)).foldl (Expansion.meet (s.relabelled names) maxDepth) e') := by
  induction rhs generalizing e e' with
  | nil => exact hm
  | cons d rest ih =>
    obtain ⟨hd, hrest⟩ := List.forall_mem_cons.mp hrhs
    obtain ⟨had, harest⟩ := List.forall_mem_cons.mp hadmits
    obtain ⟨had', harest'⟩ := List.forall_mem_cons.mp hadmits'
    exact ih (hm.meet maxDepth h hreserved hd had had') hrest harest harest'

include hs hwords

/-- Trying a rule for a category in one expansion and the renamed rule for the renamed category in the other. -/
theorem apply (hm : Mirrors words reserved names s e e') (hc : c ∈ Category.concrete words ∧ s.Spells c)
    (hr : r ∈ s.rules) :
    Mirrors words reserved names s (e.apply s maxDepth c (n, r))
      (e'.apply (s.relabelled names) maxDepth (c.renamed names) (n, (r.renamed names).detached)) := by
  have hproper := hs r hr
  have hwithin := Schema.within_of_mem_rules hwords hr
  have hinstance : (r.renamed names).detached.instance? e'.grammar.partsOfSpeech maxDepth (c.renamed names) =
      (r.instance? e.grammar.partsOfSpeech maxDepth c).map (List.map (·.renamed names)) := by
    rw [hm.relabelled.partsOfSpeech_eq, Rule.instance?_detached,
      Rule.instance?_renamed hproper hwithin hc.1 h hm.reserved hreserved]
  unfold Expansion.apply
  rw [hinstance]
  cases hrhs : r.instance? e.grammar.partsOfSpeech maxDepth c with
  | none => exact hm
  | some rhs =>
    have hyields := (Rule.instance?_eq_some_iff hproper hc.1.2).mp hrhs
    have hyields' := (hyields.renamed hproper hwithin hc.1 h hm.reserved).detached
    have hmem := hyields.mem_concrete hproper hwithin hc.1
    have hvalid := (Schema.renamed_eq_ok hs h hreserved hwords).2
    have hr' : (r.renamed names).detached ∈ (s.relabelled names).rules := Array.mem_map_of_mem hr
    have hspells' := hc.2.renamed hs h hwords hc.1
    have hmet := hm.foldl_meet maxDepth h hreserved
      (fun d hd => ⟨hmem d hd, (hc.2.child hs hr hyields hd).1⟩)
      (fun d hd => hc.2.admits_child hs hr hyields hd)
      fun d hd => hspells'.admits_child hvalid hr' hyields' (List.mem_map_of_mem hd)
    -- the production is in both grammars or in neither
    have hcontains := hmet.relabelled.containsProduction_eq (Category.relabels h hreserved) hmet.indexed
      hmet.indexed' (List.forall_mem_cons.mpr ⟨hc.1, hmem⟩)
    dsimp only [Option.map_some]
    rw [hcontains]
    split
    · exact hmet
    · exact {
        hmet with
        relabelled := hmet.relabelled.insert (r := ⟨c, rhs, some n⟩) (List.forall_mem_cons.mpr ⟨hc.1, hmem⟩)
        indexed := hmet.indexed.insert _
        indexed' := hmet.indexed'.insert _ }

/-- Trying rules for a category in one expansion and the renamed rules for the renamed category in the other. -/
theorem foldl_apply {rules : List (Nat × Rule)} (hm : Mirrors words reserved names s e e')
    (hc : c ∈ Category.concrete words ∧ s.Spells c) (hrules : ∀ numbered ∈ rules, numbered.2 ∈ s.rules) :
    Mirrors words reserved names s (rules.foldl (Expansion.apply s maxDepth c) e)
      ((rules.map fun numbered => (numbered.1, (numbered.2.renamed names).detached)).foldl
        (Expansion.apply (s.relabelled names) maxDepth (c.renamed names)) e') := by
  induction rules generalizing e e' with
  | nil => exact hm
  | cons first rest ih =>
    obtain ⟨hfirst, hrest⟩ := List.forall_mem_cons.mp hrules
    exact ih (hm.apply maxDepth hs h hreserved hwords hc hfirst) hrest

/-- Expanding a category in one expansion and the renamed category in the other. -/
theorem expand (hm : Mirrors words reserved names s e e') (hc : c ∈ Category.concrete words ∧ s.Spells c) :
    Mirrors words reserved names s (e.expand s maxDepth c)
      (e'.expand (s.relabelled names) maxDepth (c.renamed names)) := by
  have hrules : (s.relabelled names).rulesNamed (c.renamed names).name =
      (s.rulesNamed c.name).map fun numbered => (numbered.1, (numbered.2.renamed names).detached) :=
    Schema.rulesNamed_relabelled h hwords hc.1.1.name
  have hmem : ∀ numbered ∈ s.rulesNamed c.name, numbered.2 ∈ s.rules := fun numbered hnumbered =>
    Array.mem_of_getElem? (Schema.mem_rulesNamed.mp hnumbered).1
  have happlied := hm.foldl_apply maxDepth hs h hreserved hwords hc hmem
  unfold Expansion.expand
  rw [hrules]
  exact {
    happlied with
    relabelled := happlied.relabelled.markExpanded c
    indexed := ⟨happlied.indexed.root, happlied.indexed.mem_byLhs⟩
    indexed' := ⟨happlied.indexed'.root, happlied.indexed'.mem_byLhs⟩ }

/-- Expanding until both queues are empty. -/
theorem run (hm : Mirrors words reserved names s e e') :
    Mirrors words reserved names s (e.run s maxDepth) (e'.run (s.relabelled names) maxDepth) := by
  induction e using Expansion.run.induct s maxDepth generalizing e' with
  | case1 e hqueue =>
    have hqueue' : e'.queue = [] := by rw [hm.queue_eq, hqueue, List.map_nil]
    rwa [Expansion.run_of_nil hqueue, Expansion.run_of_nil hqueue']
  | case2 e c rest hqueue ih =>
    have hqueue' : e'.queue = c.renamed names :: rest.map (·.renamed names) := by
      rw [hm.queue_eq, hqueue, List.map_cons]
    have hqueued := hm.queued
    rw [hqueue, List.forall_mem_cons] at hqueued
    rw [Expansion.run_of_cons hqueue, Expansion.run_of_cons hqueue']
    have hrest : Mirrors words reserved names s { e with queue := rest }
        { e' with queue := rest.map (·.renamed names) } :=
      { hm with queue_eq := rfl, queued := hqueued.2 }
    exact ih (hrest.expand maxDepth hs h hreserved hwords (hm.spells c hqueued.1))

omit hreserved hwords in
/-- Both expansions begin alike. -/
theorem initial {settings : Settings} (hpos : ∀ name ∈ partsOfSpeech, name ∈ reserved)
    (hstart : settings.start ∈ reserved) (hgamma : settings.gamma ∈ reserved) :
    Mirrors words reserved names s (Expansion.initial partsOfSpeech settings)
      (Expansion.initial partsOfSpeech settings) := by
  obtain ⟨hstart, hstart'⟩ := Category.bare_mem_concrete h hstart
  obtain ⟨hgamma, hgamma'⟩ := Category.bare_mem_concrete h hgamma
  have hseen {c : Category} : c ∈ (Expansion.initial partsOfSpeech settings).seen ↔
      c = Category.bare settings.start := by
    rw [Expansion.initial, Std.ExtTreeSet.mem_ofList, List.contains_iff_mem, List.mem_singleton]
  refine ⟨⟨rfl, rfl, ?_, ?_, ?_⟩, hpos, Grammar.indexed_new _ _ _, Grammar.indexed_new _ _ _, ?_, ?_, ?_, ?_⟩
  · simp [Expansion.initial, Grammar.new, Grammar.insert, Rule.renamed, hstart', hgamma']
  · simp [Expansion.initial, Grammar.new, Grammar.insert]
  · intro slot hslot
    obtain rfl := Array.mem_singleton.mp hslot
    simpa using ⟨hgamma, hstart⟩
  · exact (congrArg (fun c => [c]) hstart').symm
  · intro c hc
    exact hseen.mpr (List.mem_singleton.mp hc)
  · simp only [hseen, exists_eq_left, hstart', eq_comm, implies_true]
  · intro c hc
    rw [hseen.mp hc]
    have hreaches : s.Reaches partsOfSpeech settings (.bare settings.start) := .start
    exact ⟨hstart, hreaches.spells hs⟩

end Mirrors

end Expansion

/-- The words that a renaming of a compiled schema grammar keeps apart: those of the rules, and the reserved
ones. -/
def Schema.vocabulary (s : Schema) (partsOfSpeech : Std.ExtTreeSet String) (settings : Settings) : Set String :=
  s.words ∪ settings.reserved partsOfSpeech

section Compiled

variable {rules : List Rule} {settings : Settings} {g : Grammar} (hs : Schema.ofRules rules = .ok s)
  (h : Renaming (s.vocabulary partsOfSpeech settings) (settings.reserved partsOfSpeech) names)
include hs h

/-- A schema grammar and the renamed one are expanded alike. -/
theorem Schema.mirrors_run :
    Expansion.Mirrors (s.vocabulary partsOfSpeech settings) (settings.reserved partsOfSpeech) names s
      ((Expansion.initial partsOfSpeech settings).run s settings.maxStackDepth)
      ((Expansion.initial partsOfSpeech settings).run (s.relabelled names) settings.maxStackDepth) := by
  have hvalid := Schema.valid_ofRules hs
  have hinitial : Expansion.Mirrors _ _ names s (.initial partsOfSpeech settings) (.initial partsOfSpeech settings) :=
    .initial hvalid h (fun _ hname => .inl hname) (.inr (by simp)) (.inr (by simp))
  exact hinitial.run settings.maxStackDepth hvalid h (.inr (by simp)) Set.subset_union_left

/-- If a renaming keeps the words apart and keeps the reserved ones, each category of the rules and of the
compiled rules has, once it is renamed, the depth that was kept for it. -/
theorem counted_renamed_of_compile (hg : compile s partsOfSpeech settings = .ok g) :
    (∀ r ∈ s.rules, ∀ c ∈ r.lhs :: r.rhs, c.counted.renamed names = (c.renamed names).counted) ∧
      ∀ slot ∈ g.slots, ∀ c ∈ slot.rule.lhs :: slot.rule.rhs,
        c.counted.renamed names = (c.renamed names).counted := by
  have hvalid := Schema.valid_ofRules hs
  obtain ⟨rfl, -⟩ := compile_eq_ok_iff.mp hg
  refine ⟨fun r hr c hc => ?_, fun slot hslot c hc => ?_⟩
  · exact Category.counted_renamed h (Schema.within_of_mem_rules Set.subset_union_left hr c hc)
      (.inl ((hvalid r hr).hasProperStack c hc))
  · obtain ⟨hwithin, hconcrete⟩ := (Schema.mirrors_run hs h).relabelled.within slot hslot c hc
    exact Category.counted_renamed h hwithin (.inr hconcrete)

end Compiled

/-- If a renaming keeps the words apart and keeps the reserved ones, the schema grammar can be renamed, and it
compiles if it did before. Then the rules are the compiled rules under their numbers, each with the schema rule it
came from, with all categories renamed, and so are the expanded categories, one by one. -/
theorem compile_renamed {rules : List Rule} {settings : Settings} (hs : Schema.ofRules rules = .ok s)
    (h : Renaming (s.vocabulary partsOfSpeech settings) (settings.reserved partsOfSpeech) names) :
    ∃ s', s.renamed names = .ok s' ∧
      ((∃ g', compile s' partsOfSpeech settings = .ok g') ↔ ∃ g, compile s partsOfSpeech settings = .ok g) ∧
      ∀ g g', compile s partsOfSpeech settings = .ok g → compile s' partsOfSpeech settings = .ok g' →
        g'.rules = g.rules.map (fun numbered => (numbered.1, numbered.2.renamed names)) ∧
        g'.slots = g.slots.map (fun slot => { slot with rule := slot.rule.renamed names }) ∧
        (∀ c, c ∈ g'.expanded ↔ ∃ d ∈ g.expanded, d.renamed names = c) ∧
        Set.InjOn (·.renamed names) {c | c ∈ g.expanded} := by
  have hvalid := Schema.valid_ofRules hs
  have hreserved : Category.epsilonName ∈ settings.reserved partsOfSpeech := .inr (by simp)
  have hwords : s.words ⊆ s.vocabulary partsOfSpeech settings := Set.subset_union_left
  -- both expansions go through the same steps
  have hmirrors := Schema.mirrors_run hs h
  have hrelabelled : (s.compiled partsOfSpeech settings).Relabelled names (Category.concrete _)
      ((s.relabelled names).compiled partsOfSpeech settings) := hmirrors.relabelled
  have hcycle := hrelabelled.hasUnitCycle_eq (Category.relabels h hreserved)
  refine ⟨_, (Schema.renamed_eq_ok hvalid h hreserved hwords).1, ?_, ?_⟩
  · simp only [compile_eq_ok_iff, exists_eq_left', hcycle]
  · intro g g' hg hg'
    obtain ⟨rfl, -⟩ := compile_eq_ok_iff.mp hg
    obtain ⟨rfl, -⟩ := compile_eq_ok_iff.mp hg'
    refine ⟨hrelabelled.rules_eq, hrelabelled.slots_eq, fun c => hrelabelled.mem_expanded, ?_⟩
    refine (Category.injOn_renamed h).mono fun c hc => ?_
    exact (hmirrors.spells c ((Expansion.consistent_initial.run hvalid).1.mem_seen.mpr (.inr hc))).1

open Sample in
/-- Swapping a category name of counted lists with the symbol on stacks renames the compiled rules. -/
theorem compile_renamed_counted : ∃ s' g g', counted.renamed (Equiv.swap "T" "x") = .ok s' ∧
    compile counted lists.partsOfSpeech forCounted = .ok g ∧
    compile s' lists.partsOfSpeech forCounted = .ok g' ∧ ⟨"x", "T.T"⟩ ∈ g'.expanded ∧
    g'.rules = g.rules.map fun numbered => (numbered.1, numbered.2.renamed (Equiv.swap "T" "x")) := by
  have hlegal : Stack.IsLegal "T" ∧ Stack.IsLegal "x" := by
    refine ⟨⟨⟨by decide, by decide, by decide⟩, fun ch hch => ?_⟩, ⟨by decide, by decide, by decide⟩, fun ch hch => ?_⟩
    · obtain rfl : ch = 'T' := List.mem_singleton.mp hch
      decide
    · obtain rfl : ch = 'x' := List.mem_singleton.mp hch
      decide
  have hrenaming : Renaming (counted.vocabulary lists.partsOfSpeech forCounted)
      (forCounted.reserved lists.partsOfSpeech) (Equiv.swap "T" "x") := by
    refine ⟨(Equiv.injective _).injOn, fun word _ => ?_, Set.subset_union_right, fun word hword => ?_⟩
    · by_cases hsame : word = "T" ∨ word = "x"
      · rcases hsame with rfl | rfl
        · exact .inr hlegal.2
        · exact .inr hlegal.1
      · rw [not_or] at hsame
        exact .inl (Equiv.swap_apply_of_ne_of_ne hsame.1 hsame.2)
    · have hkept : word ∈ ["n", "S", "γ", Category.epsilonName] := by
        rcases hword with hnoun | hname
        · have hnoun : word ∈ Std.ExtTreeSet.ofList ["n"] := hnoun
          rw [Std.ExtTreeSet.mem_ofList, List.contains_iff_mem] at hnoun
          exact List.mem_append_left _ hnoun
        · exact List.mem_cons_of_mem _ hname
      exact (by decide : ∀ word ∈ ["n", "S", "γ", Category.epsilonName], Equiv.swap "T" "x" word = word) word hkept
  have hcompile : ((compile counted lists.partsOfSpeech forCounted).toOption.any fun g =>
      g.expanded.contains ⟨"T", "x.x"⟩) = true := by decide +kernel
  -- only the first compilation is evaluated; the renamed one follows from the theorem
  obtain ⟨g, hg, hcontains⟩ := exists_ok_of_any hcompile
  obtain ⟨s', hs', hiff, hsame⟩ := compile_renamed ofRules_counted hrenaming
  obtain ⟨g', hg'⟩ := hiff.mpr ⟨g, hg⟩
  obtain ⟨hrules, -, hexpanded, -⟩ := hsame g g' hg hg'
  refine ⟨s', g, g', hs', hg, hg', (hexpanded _).mpr ⟨_, Std.ExtTreeSet.mem_iff_contains.mpr hcontains, ?_⟩, hrules⟩
  decide +kernel

end IndexedGrammar
