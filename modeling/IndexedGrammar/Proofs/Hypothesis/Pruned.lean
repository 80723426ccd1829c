import IndexedGrammar.Objective
import IndexedGrammar.Proofs.Expansion.Part
import IndexedGrammar.Proofs.Forest.Faithful
import IndexedGrammar.Proofs.Hypothesis.Canonical
import IndexedGrammar.Proofs.RuleSpace.Coordinates
import IndexedGrammar.Proofs.Score.Used

/-!
# Pruning keeps all trees

Pruning takes the rules out of a hypothesis that no parse of the corpus applies. Unless the synthetic category
has the name of a symbol, what is left has the same trees for every sentence of the corpus, and all of it is
applied, so pruning once more changes nothing. Otherwise a rule that no parse applies can be kept, since the
synthetic rule then makes up a symbol within a forest.
-/

namespace IndexedGrammar

variable {g g' : Grammar} {lexicon : Lexicon} {budget budget' : Budget} {words : List String}
  {trees trees' : List (Tree Category String)}

/-- The compiled grammar of a schema that keeps its names apart is faithful if it has no unit cycles. -/
theorem Schema.Apart.faithful {s : Schema} {partsOfSpeech : Std.ExtTreeSet String} {settings : Settings}
    (hs : s.Valid) (hapart : s.Apart settings) (hg : s.compiled partsOfSpeech settings = g)
    (hcycle : g.hasUnitCycle = false) : g.Faithful := by
  subst hg
  exact ⟨hs.indexed_compiled, hapart.rootUnasked_compiled hs, hapart.wellFormed_compiled hs, hcycle⟩

/-! Parts of schemas that keep what a corpus applies -/

section Kept

variable {s part : Schema} {kept : List Nat} {partsOfSpeech : Std.ExtTreeSet String} {settings : Settings}
  {corpus : Corpus} (h : part.PartOf s kept) (hs : s.Valid) (hapart : s.Apart settings)
  (hg : s.compiled partsOfSpeech settings = g) (hg' : part.compiled partsOfSpeech settings = g')
include h hs hapart hg hg'

/-- The compiled grammar of a part is faithful if that of the whole is. -/
theorem Schema.PartOf.faithful (hfaithful : g.Faithful) : g'.Faithful :=
  (h.apart hapart).faithful (h.valid hs) hg'
    (hfaithful.wellFormed.plain.hasUnitCycle_mono (h.productionsIn hs hapart hg hg') hfaithful.acyclic)

variable (hkept : ∀ n, corpus.Applies g lexicon n → n ∈ kept)
include hkept

/-- A part has the same trees for a sentence of the corpus. -/
theorem Schema.PartOf.perm_trees (hfaithful : g.Faithful) (hwords : words ∈ corpus.sentences)
    (htrees : g.parse lexicon budget words = .ok trees)
    (htrees' : g'.parse lexicon budget' words = .ok trees') : trees'.Perm trees := by
  have hstart : g'.start = g.start := by
    rw [← hg, ← hg', (h.valid hs).start_compiled, hs.start_compiled]
  refine hfaithful.perm_trees (h.faithful hs hapart hg hg' hfaithful) hstart
    (fun t ht => h.isParseOf_whole hs hapart hg hg' ht) (fun t ht => ?_) htrees htrees'
  obtain ⟨hparse, hback, -⟩ := h.isParseOf_part hs hapart hg hg' ht fun n hn =>
    hkept n ⟨words, hwords, t, ht, hn⟩
  exact ⟨hparse, hback⟩

/-- A rule of a part is applied if it is applied in the whole. -/
theorem Schema.PartOf.applies {m n : Nat} (hm : kept[m]? = some n) (hn : corpus.Applies g lexicon n) :
    corpus.Applies g' lexicon m := by
  obtain ⟨words, hwords, t, ht, happlies⟩ := hn
  obtain ⟨hparse, -, happlies'⟩ := h.isParseOf_part hs hapart hg hg' ht fun n hn =>
    hkept n ⟨words, hwords, t, ht, hn⟩
  exact ⟨words, hwords, _, hparse, happlies' m n hm happlies⟩

end Kept

namespace Hypothesis

variable {h h' : Hypothesis} {space : RuleSpace} {partsOfSpeech : Std.ExtTreeSet String} {settings : Settings}
  {corpus : Corpus} {kept : List Nat} {s : Schema}

/-! Parts of hypotheses -/

/-- The compiled grammar of a hypothesis holds the compiled rules of its schema grammar. -/
theorem compile_eq_ok : h.compile space partsOfSpeech settings = .ok g ↔
    ∃ s, h.toSchema space = .ok s ∧ s.compiled partsOfSpeech settings = g ∧ g.hasUnitCycle = false := by
  rw [compile, bind_eq_ok]
  refine exists_congr fun s => and_congr_right fun _ => ?_
  rw [mapError_eq_ok, compile_eq_ok_iff]

/-- Over a rule space that does not know the synthetic category, the schema grammar of a hypothesis keeps its
names apart. -/
theorem apart_of_toSchema {names : Std.ExtTreeSet String}
    (hgamma : Category.bare settings.gamma ∉
      (RuleSpace.new names settings).start :: (RuleSpace.new names settings).symbols)
    (hs : h.toSchema (.new names settings) = .ok s) : s.Apart settings := by
  obtain ⟨hrules, hvalid⟩ := toSchema_eq_ok.mp hs
  refine RuleSpace.apart_new hvalid hgamma fun r hr => ?_
  obtain ⟨place, -, hplace⟩ := exists_of_forall₂ hrules (Array.mem_def.mp hr)
  exact ⟨place, hplace⟩

/-- The rules that are applied have coordinates. -/
theorem lt_of_applies (hs : h.toSchema space = .ok s) (hg : s.compiled partsOfSpeech settings = g) {n : Nat}
    (hn : corpus.Applies g lexicon n) : n < h.toList.length := by
  obtain ⟨hrules, hvalid⟩ := toSchema_eq_ok.mp hs
  obtain ⟨words, -, t, -, rule, -, q, hq, horigin⟩ := hn
  obtain ⟨-, first, r, hfirst, hr, -⟩ := hvalid.origin_eq (hg ▸ hq)
  obtain rfl := Option.some.inj (hfirst.symm.trans horigin)
  obtain ⟨hlt, -⟩ := Array.getElem?_eq_some_iff.mp hr
  exact hrules.length_eq ▸ hlt

/-- A hypothesis of coordinates in order has these coordinates in order. -/
theorem toList_ofList {places : List Coordinate} (hplaces : places.Sublist h.toList) :
    (ofList places).toList = places := by
  have hordered (other : Hypothesis) : other.toList.Pairwise fun place place' =>
      compare place place' = .lt := Std.ExtTreeSet.ordered_toList
  have hasymm : Std.Asymm fun place place' : Coordinate => compare place place' = .lt :=
    ⟨fun _ _ hlt hgt => absurd (Std.OrientedOrd.eq_swap.symm.trans hgt) (by rw [hlt]; decide)⟩
  exact (hordered _).eq_of_mem_iff ((hordered h).sublist hplaces) fun _ => mem_toList_ofList

/-- A hypothesis that keeps some coordinates of another one stands for a part of its schema grammar. -/
theorem exists_partOf (hs : h.toSchema space = .ok s)
    (hkept : List.Forall₂ (fun place n => h.toList[n]? = some place) h'.toList kept)
    (hascending : kept.Pairwise (· < ·)) : ∃ s', h'.toSchema space = .ok s' ∧ s'.PartOf s kept := by
  obtain ⟨hrules, hvalid⟩ := toSchema_eq_ok.mp hs
  obtain ⟨hlength, hall⟩ := List.forall₂_iff_get.mp hrules
  have hplace {place : Coordinate} {n : Nat} (hn : h.toList[n]? = some place) :
      ∃ rule, space.get? place = some rule ∧ s.rules[n]? = some rule := by
    obtain ⟨hlt, rfl⟩ := List.getElem?_eq_some_iff.mp hn
    refine ⟨_, hall n hlt (hlength ▸ hlt), ?_⟩
    rw [← Array.getElem?_toList]
    exact List.getElem?_eq_getElem (hlength ▸ hlt)
  obtain ⟨rules, hrules'⟩ := exists_forall₂ fun place (hmem : place ∈ h'.toList) => by
    obtain ⟨n, -, hn⟩ := exists_of_forall₂ hkept.flip hmem
    obtain ⟨rule, hrule, -⟩ := hplace hn
    exact ⟨rule, hrule⟩
  have hpart : (⟨rules.toArray⟩ : Schema).PartOf s kept := by
    refine ⟨forall₂_across (fun place rule n hrule hn => ?_) hrules' hkept, hascending⟩
    obtain ⟨rule', hrule', hsame⟩ := hplace hn
    exact Option.some.inj (hrule.symm.trans hrule') ▸ hsame
  exact ⟨_, toSchema_eq_ok.mpr ⟨hrules', hpart.valid hvalid⟩, hpart⟩

/-! Coordinates that are used -/

/-- The coordinates of the rules that are used, with the numbers of the rules. -/
def used (h : Hypothesis) (usage : Usage) : List (Coordinate × Nat) :=
  h.toList.zipIdx.filter fun (_, n) => usage.contains n

/-- Pruning keeps the coordinates of the rules that an evaluation finds to be used. -/
theorem prune_eq_ok : h.prune space lexicon settings corpus = .ok h' ↔ ∃ g score,
    h.compile space lexicon.partsOfSpeech settings = .ok g ∧
    evaluate g lexicon settings false corpus = .ok score ∧
    ofList ((h.used score.schemaUsage).map Prod.fst) = h' := by
  simp only [prune, score, bind_eq_ok, pure, Except.pure, Except.ok.injEq, used]
  constructor
  · rintro ⟨score, ⟨g, hg, hscore⟩, heq⟩
    exact ⟨g, score, hg, hscore, heq⟩
  · rintro ⟨g, score, hg, hscore, heq⟩
    exact ⟨score, ⟨g, hg, hscore⟩, heq⟩

/-- The coordinates that are used stay in order. -/
theorem toList_used (usage : Usage) :
    (ofList ((h.used usage).map Prod.fst)).toList = (h.used usage).map Prod.fst := by
  have hsub : (h.used usage).Sublist h.toList.zipIdx := List.filter_sublist
  refine toList_ofList (h := h) ?_
  simpa only [List.zipIdx_map_fst] using hsub.map Prod.fst

/-- Every coordinate that is used stands with its number. -/
theorem forall₂_used (usage : Usage) : List.Forall₂ (fun place n => h.toList[n]? = some place)
    ((h.used usage).map Prod.fst) ((h.used usage).map Prod.snd) := by
  rw [List.forall₂_map_left_iff, List.forall₂_map_right_iff, List.forall₂_same]
  intro numbered hnumbered
  exact List.mem_zipIdx_iff_getElem?.mp (List.mem_filter.mp hnumbered).1

/-- The numbers of the rules that are used are in order. -/
theorem pairwise_used (usage : Usage) : ((h.used usage).map Prod.snd).Pairwise (· < ·) := by
  refine List.Pairwise.sublist (List.filter_sublist.map Prod.snd) ?_
  rw [List.zipIdx_map_snd]
  exact List.pairwise_lt_range'

/-- The numbers of the rules that are used are those in the usage. -/
theorem mem_used {usage : Usage} {n : Nat} :
    n ∈ (h.used usage).map Prod.snd ↔ n < h.toList.length ∧ n ∈ usage := by
  simp [used, List.mem_zipIdx_iff_getElem?, ← Option.isSome_iff_exists, and_comm]

/-- The coordinates of the rules that are used are those with a number in the usage. -/
theorem mem_map_fst_used {usage : Usage} {place : Coordinate} {n : Nat} (hplace : h.toList[n]? = some place) :
    place ∈ (h.used usage).map Prod.fst ↔ n ∈ usage := by
  have hnodup : h.toList.Nodup := by
    refine (Std.ExtTreeSet.ordered_toList : h.toList.Pairwise _).imp fun hlt heq => ?_
    simp [heq] at hlt
  have hmem (m : Nat) : (place, m) ∈ h.used usage ↔ h.toList[m]? = some place ∧ m ∈ usage := by
    simp [used, List.mem_zipIdx_iff_getElem?]
  rw [List.mem_map]
  refine ⟨fun hused => ?_, fun hn => ⟨(place, n), (hmem n).mpr ⟨hplace, hn⟩, rfl⟩⟩
  obtain ⟨⟨_, m⟩, hm, rfl⟩ := hused
  obtain ⟨hsame, hm⟩ := (hmem m).mp hm
  obtain ⟨hlt, -⟩ := List.getElem?_eq_some_iff.mp hsame
  exact (List.getElem?_inj hlt hnodup).mp (hsame.trans hplace.symm) ▸ hm

/-- If all rules are used, then so are all coordinates. -/
theorem ofList_used {usage : Usage} (hall : ∀ n < h.toList.length, n ∈ usage) :
    ofList ((h.used usage).map Prod.fst) = h := by
  have hused : h.used usage = h.toList.zipIdx := by
    refine List.filter_eq_self.mpr fun numbered hnumbered => ?_
    obtain ⟨hlt, -⟩ := List.getElem?_eq_some_iff.mp (List.mem_zipIdx_iff_getElem?.mp hnumbered)
    exact Std.ExtTreeMap.contains_iff_mem.mpr (hall _ hlt)
  rw [hused, List.zipIdx_map_fst]
  refine congrArg Hypothesis.mk (Std.ExtTreeSet.ext_mem fun place => ?_)
  rw [Std.ExtTreeSet.mem_ofList, List.contains_iff_mem, toList, Std.ExtTreeSet.mem_toList]

/-- Pruning does not change a hypothesis whose rules are all applied, unless a parse is given up. -/
theorem prune_eq_self_or_unbounded (hcompile : h.compile space lexicon.partsOfSpeech settings = .ok g)
    (hfaithful : g.Faithful) (hall : ∀ n < h.toList.length, corpus.Applies g lexicon n) :
    h.prune space lexicon settings corpus = .ok h ∨
      ∃ k, h.prune space lexicon settings corpus =
        .error (.fault (.unbounded k settings.maxStatesPerColumn)) := by
  rcases evaluate_ok_or_unbounded hfaithful.indexed settings corpus with ⟨score, hscore⟩ | ⟨k, hlimit⟩
  · have hused : ∀ n < h.toList.length, n ∈ score.schemaUsage := fun n hn =>
      (mem_schemaUsage_of_evaluate hfaithful.indexed hfaithful.rootUnasked hscore).mpr (hall n hn)
    exact .inl (prune_eq_ok.mpr ⟨g, score, hcompile, hscore, ofList_used hused⟩)
  · refine .inr ⟨k, ?_⟩
    rw [prune, Hypothesis.score, hcompile]
    simp only [bind, Except.bind, hlimit]

/-! Pruned hypotheses -/

/-- What is left of a hypothesis over a rule space that does not know the synthetic category is a part of it, with
the rules that are applied in parses of the corpus; its compiled grammar has the same trees for every sentence of
the corpus, and every rule is applied in one of them. So pruning changes nothing more. -/
theorem prune_keeps_trees {names : Std.ExtTreeSet String} (hspace : space = .new names settings)
    (hgamma : Category.bare settings.gamma ∉ space.start :: space.symbols)
    (hprune : h.prune space lexicon settings corpus = .ok h') :
    (∀ place ∈ h'.toList, place ∈ h.toList) ∧
    ∃ g g', h.compile space lexicon.partsOfSpeech settings = .ok g ∧
      h'.compile space lexicon.partsOfSpeech settings = .ok g' ∧
      (∀ n place, h.toList[n]? = some place → (place ∈ h'.toList ↔ corpus.Applies g lexicon n)) ∧
      (∀ n < h'.toList.length, corpus.Applies g' lexicon n) ∧
      (∀ words ∈ corpus.sentences,
        ∃ trees, g.parse lexicon (settings.budget false) words = .ok trees ∧
          ∀ budget trees', g'.parse lexicon budget words = .ok trees' → trees'.Perm trees) ∧
      (h'.prune space lexicon settings corpus = .ok h' ∨
        ∃ k, h'.prune space lexicon settings corpus =
          .error (.fault (.unbounded k settings.maxStatesPerColumn))) := by
  subst hspace
  obtain ⟨g, score, hcompile, hscore, rfl⟩ := prune_eq_ok.mp hprune
  obtain ⟨s, hs, hg, hcycle⟩ := compile_eq_ok.mp hcompile
  have hvalid : s.Valid := (toSchema_eq_ok.mp hs).2
  have hapart : s.Apart settings := apart_of_toSchema hgamma hs
  have hfaithful : g.Faithful := hapart.faithful hvalid hg hcycle
  have happlies (n : Nat) : n ∈ score.schemaUsage ↔ corpus.Applies g lexicon n :=
    mem_schemaUsage_of_evaluate hfaithful.indexed hfaithful.rootUnasked hscore
  -- the rules that are kept, by their numbers, and the hypothesis of their coordinates
  set kept := (h.used score.schemaUsage).map Prod.snd
  have hkept : ∀ n, corpus.Applies g lexicon n → n ∈ kept := fun n hn =>
    mem_used.mpr ⟨lt_of_applies hs hg hn, (happlies n).mpr hn⟩
  have hlist := toList_used (h := h) score.schemaUsage
  set left := ofList ((h.used score.schemaUsage).map Prod.fst)
  have hnumbers : List.Forall₂ (fun place n => h.toList[n]? = some place) left.toList kept :=
    hlist ▸ forall₂_used _
  obtain ⟨s', hs', hpart⟩ := exists_partOf hs hnumbers (pairwise_used _)
  obtain ⟨g', hg'⟩ : ∃ g', s'.compiled lexicon.partsOfSpeech settings = g' := ⟨_, rfl⟩
  have hfaithful' : g'.Faithful := hpart.faithful hvalid hapart hg hg' hfaithful
  have hcompile' := compile_eq_ok.mpr ⟨s', hs', hg', hfaithful'.acyclic⟩
  -- what a parse of the corpus applies is kept, so the parse is one by the part too
  have hall : ∀ m < left.toList.length, corpus.Applies g' lexicon m := by
    intro m hm
    have hm : m < kept.length := hnumbers.length_eq ▸ hm
    have hn := (happlies kept[m]).mp (mem_used.mp (List.getElem_mem hm)).2
    exact hpart.applies hvalid hapart hg hg' hkept (List.getElem?_eq_getElem hm) hn
  refine ⟨fun place hplace => ?_, g, g', hcompile, hcompile', fun n place hplace => ?_, hall,
    fun words hwords => ?_, prune_eq_self_or_unbounded hcompile' hfaithful' hall⟩
  · obtain ⟨n, -, hn⟩ := exists_of_forall₂ hnumbers.flip hplace
    exact List.mem_of_getElem? hn
  · rw [hlist, mem_map_fst_used hplace, happlies]
  · obtain ⟨forest, hforest⟩ := exists_parseForest_of_evaluate hscore hwords
    have htrees : g.parse lexicon (settings.budget false) words = .ok forest.trees := by
      rw [Grammar.parse, hforest]
      rfl
    exact ⟨_, htrees, fun budget trees' => hpart.perm_trees hvalid hapart hg hg' hkept hfaithful hwords htrees⟩

end Hypothesis

/-- The rule space over the part of speech of the words, with one nonterminal. -/
def Sample.wordSpace : RuleSpace :=
  .new Sample.words.partsOfSpeech { maxNonterminals := 1 }

/-- Lists of nouns, in which a pair is also a noun before a noun, and a rule that pushes what is never popped. -/
def Sample.spare : Hypothesis :=
  .ofList [⟨.constant, 0, 0⟩, ⟨.constant, 0, 1⟩, ⟨.constant, 0, 3⟩, ⟨.constant, 0, 4⟩, ⟨.push, 0, 0⟩]

/-- Of the lists of nouns, the rule that pushes is pruned, and a pair still has both its trees. -/
theorem Hypothesis.prune_keeps_trees_spare : ∃ h' g g' trees,
    Sample.spare.prune Sample.wordSpace Sample.words { maxNonterminals := 1 } Sample.sentences = .ok h' ∧
    h'.size = 4 ∧ ⟨.push, 0, 0⟩ ∉ h'.toList ∧
    Sample.spare.compile Sample.wordSpace Sample.words.partsOfSpeech { maxNonterminals := 1 } = .ok g ∧
    h'.compile Sample.wordSpace Sample.words.partsOfSpeech { maxNonterminals := 1 } = .ok g' ∧
    (∀ n < 4, Sample.sentences.Applies g' Sample.words n) ∧
    g.parse Sample.words ⟨100000, none⟩ ["a", "b"] = .ok trees ∧
    ∀ budget trees', g'.parse Sample.words budget ["a", "b"] = .ok trees' → trees'.Perm trees := by
  have hrun : (Sample.spare.prune Sample.wordSpace Sample.words { maxNonterminals := 1 }
      Sample.sentences).toOption.any (fun h' =>
        decide (h'.size = 4 ∧ ⟨.push, 0, 0⟩ ∉ h'.toList)) = true := by
    decide +kernel
  obtain ⟨h', hprune, hleft⟩ := Sample.exists_ok_of_any hrun
  obtain ⟨hsize, hpush⟩ := of_decide_eq_true hleft
  obtain ⟨-, g, g', hg, hg', -, hall, htrees, -⟩ :=
    prune_keeps_trees (rfl : Sample.wordSpace = _) (by decide +kernel) hprune
  obtain ⟨trees, hparse, hperm⟩ := htrees ["a", "b"] (by decide)
  have hlength : h'.toList.length = 4 := Std.ExtTreeSet.length_toList.trans hsize
  exact ⟨h', g, g', trees, hprune, hsize, hpush, hg, hg', hlength ▸ hall, hparse, hperm⟩

/-- A rule space with a part of speech that has the name of the synthetic category. -/
def Sample.namesake : RuleSpace :=
  .new (.ofList ["Gamma", "n"]) {}

/-- Single nouns, and a rule for the part of speech that no word has. -/
def Sample.misnamed : Hypothesis :=
  .ofList [⟨.constant, 0, 0⟩, ⟨.constant, 0, 1⟩, ⟨.constant, 0, 2⟩]

/-- Whether a tree is a word below categories that stand one under the other. -/
def Sample.isChain (word : String) : List Category → Tree Category String → Bool
  | [], .leaf value _ => value = word
  | [], .branch _ _ _ => false
  | _ :: _, .leaf _ _ => false
  | c :: cs, .branch value _ children => value = c ∧ children.length = 1 ∧ children.all (isChain word cs)

/-- If a part of speech of the space has the name of the synthetic category, pruning can keep a rule that no parse
applies and no tree shows, although no word is of this part of speech. -/
theorem Hypothesis.exists_prune_keeps_unused : "Gamma" ∉ Sample.words.partsOfSpeech ∧ ∃ h' g,
    Sample.misnamed.prune Sample.namesake Sample.words {} ⟨[["a"]]⟩ = .ok h' ∧
    h'.toList[1]? = some ⟨.constant, 0, 1⟩ ∧
    Sample.namesake.get? ⟨.constant, 0, 1⟩ = some ⟨⟨"X1", "*"⟩, [.bare "Gamma"], none⟩ ∧
    h'.compile Sample.namesake Sample.words.partsOfSpeech {} = .ok g ∧
    (∃ t, g.parse Sample.words Sample.ample ["a"] = .ok [t] ∧
      Sample.isChain "a" [.bare "START", .bare "X1"] t) ∧
    ¬Corpus.Applies ⟨[["a"]]⟩ g Sample.words 1 := by
  have hrun : (Sample.misnamed.prune Sample.namesake Sample.words {} ⟨[["a"]]⟩).toOption.any (fun h' =>
      decide (h'.toList[1]? = some ⟨.constant, 0, 1⟩) &&
      (h'.compile Sample.namesake Sample.words.partsOfSpeech {}).toOption.any fun g =>
        decide (g.isPartOfSpeech (.bare "Gamma") = false ∧ ∀ numbered ∈ g.rules,
          numbered.2.lhs ≠ .bare "Gamma" ∧
          (numbered.2.origin = some 1 → numbered.2.rhs = [.bare "Gamma"])) &&
        (g.parse Sample.words Sample.ample ["a"]).toOption.any fun trees =>
          decide (trees.length = 1 ∧ ∀ t ∈ trees,
            Sample.isChain "a" [.bare "START", .bare "X1"] t = true)) = true := by
    decide +kernel
  obtain ⟨h', hprune, hrest⟩ := Sample.exists_ok_of_any hrun
  rw [Bool.and_eq_true, decide_eq_true_iff] at hrest
  obtain ⟨g, hg, hparse⟩ := Sample.exists_ok_of_any hrest.2
  rw [Bool.and_eq_true, decide_eq_true_iff] at hparse
  obtain ⟨⟨hpos, hrules⟩, hparse⟩ := hparse
  obtain ⟨trees, htrees, hshown⟩ := Sample.exists_ok_of_any hparse
  refine ⟨by decide +kernel, h', g, hprune, hrest.1, by decide +kernel, hg, ?_, fun happlies => ?_⟩
  · obtain ⟨hlength, hchain⟩ := of_decide_eq_true hshown
    obtain ⟨t, rfl⟩ := List.length_eq_one_iff.mp hlength
    exact ⟨t, htrees, hchain t (List.mem_singleton_self t)⟩
  -- nothing parses the misnamed part of speech: no word has it, and no rule is for it
  · obtain ⟨words, -, t, ht, rule, hrule, q, hq, horigin⟩ := happlies
    obtain ⟨r, hr, parts, hparts⟩ := ht.1.mem_rules t rule hrule
    obtain rfl := (Grammar.mem_rules_iff.mp hr).2.unique (Grammar.mem_rules_iff.mp hq).2
    rw [(hrules _ hq).2 horigin, Grammar.areParses_iff_forall₂] at hparts
    obtain ⟨part, -, hpart, -⟩ := List.forall₂_cons_left_iff.mp hparts
    cases part with
    | word c => exact absurd (hpos.symm.trans hpart.2.2) Bool.false_ne_true
    | nothing => exact absurd hpart Bool.false_ne_true
    | apply lhs id parts =>
      obtain ⟨-, -, q, hq, hlhs, -⟩ := hpart
      exact (hrules _ hq).1 hlhs

end IndexedGrammar
