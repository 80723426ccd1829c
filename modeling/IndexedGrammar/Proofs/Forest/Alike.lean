import IndexedGrammar.Forest.Count
import IndexedGrammar.Proofs.Counts
import IndexedGrammar.Proofs.Forest.Reached
import Mathlib.Data.List.Perm.Basic
import Mathlib.Logic.Function.Iterate

/-!
# Forests that are alike

What is counted in a forest does not depend on the numbers of its nodes: counts of trees up to a height can
be said of sites, and uses of rules of the ways of making sites up. So the forests of two charts that read alike
have the same counts and the same uses.
-/

namespace IndexedGrammar

namespace Chart

/-- How many trees of at most some height there are at a site, as it is read off a chart. -/
def treesWithin (c : Chart) (g : Grammar) : Nat → Site → Nat
  | 0, site => if g.isNonterminal site.category then 0 else 1
  | height + 1, site =>
    if g.isNonterminal site.category then
      cappedSum ((c.waysOf g site).map fun way => cappedProduct (way.2.2.map (c.treesWithin g height)))
    else 1

/-- The rules, with the schema rules behind them, in all ways of making up sites with nodes. -/
def rulesUsed (c : Chart) (g : Grammar) : List (Nat × Option Nat) :=
  (Forest.discover c g).sites.toList.flatMap fun site =>
    (c.waysOf g site).map fun way => (way.1, way.2.1)

variable {g g' : Grammar} {c d : Chart} {site : Site}

/-- Charts that read alike have the same trees at a site with a node. -/
theorem ReadAlike.treesWithin_eq (h : ReadAlike g g' c d) (hsite : c.HasNode g site) (height : Nat) :
    c.treesWithin g height site = d.treesWithin g' height site := by
  induction height generalizing site with
  | zero =>
    unfold treesWithin
    rw [h.isNonterminal_eq]
  | succ height ih =>
    unfold treesWithin
    rw [h.isNonterminal_eq]
    split
    · have hparts : (c.waysOf g site).map (fun way =>
            cappedProduct (way.2.2.map (c.treesWithin g height))) =
          (c.waysOf g site).map fun way => cappedProduct (way.2.2.map (d.treesWithin g' height)) := by
        refine List.map_congr_left fun way hway => ?_
        refine congrArg cappedProduct (List.map_congr_left fun part hpart => ih ?_)
        exact hsite.parts h.left.traced hway hpart
      rw [hparts]
      exact cappedSum_perm ((h.waysOf_perm hsite).map _)
    · rfl

/-- Charts that read alike use the same rules. -/
theorem ReadAlike.rulesUsed_perm (h : ReadAlike g g' c d) : (c.rulesUsed g).Perm (d.rulesUsed g') := by
  refine (List.Perm.flatMap_left _ fun site hsite => ?_).trans (h.sites_perm.flatMap_right _)
  exact (h.waysOf_perm (h.left.traced.mem_sites.mp hsite)).map _

end Chart

namespace Forest

/-- Forests with the same counts and uses. -/
structure Alike (f f' : Forest) : Prop where
  isEmpty : f.isEmpty = f'.isEmpty
  treeCountWithin : ∀ height, f.treeCountWithin height = f'.treeCountWithin height
  ruleUsage : f.ruleUsage = f'.ruleUsage
  schemaUsage : f.schemaUsage = f'.schemaUsage

variable {g g' : Grammar} {c d : Chart} {site : Site}

/-- Counts at greater heights stop growing only when they would stay the same. -/
theorem growCounts_eq (f : Forest) (height : Nat) (counts : Array Nat) :
    f.growCounts height counts = f.tallerCounts^[height] counts := by
  induction height generalizing counts with
  | zero => rfl
  | succ height ih =>
    unfold growCounts
    dsimp only
    split
    · next hsame => exact (Function.iterate_fixed hsame _).symm
    · rw [ih, Function.iterate_succ_apply]

/-- A nonterminal node is made of the ways of making it up. -/
theorem kindOf_nonterminal (c : Chart) (number : Site → Nat)
    (hsymbol : g.isNonterminal site.category = true) : kindOf c g number site =
      .branch ((c.waysOf g site).map fun way => ⟨way.1, way.2.1, way.2.2.map number⟩) := by
  obtain ⟨hempty, hpos⟩ := Grammar.isNonterminal_iff.mp hsymbol
  simp [kindOf, hempty, hpos]

/-- Any other node is empty or a leaf. -/
theorem kindOf_other (c : Chart) (number : Site → Nat) (hsymbol : g.isNonterminal site.category = false) :
    kindOf c g number site = .empty ∨ ∃ word, kindOf c g number site = .leaf word := by
  unfold Grammar.isNonterminal at hsymbol
  unfold kindOf
  cases hempty : site.category.isEpsilon <;> cases hpos : g.isPartOfSpeech site.category <;>
    simp [hempty, hpos] at hsymbol ⊢

/-- The ways of making up a node are those of making up its site. -/
theorem alternatives_kindOf (c : Chart) (number : Site → Nat) (site : Site) :
    (⟨site, kindOf c g number site⟩ : Node).alternatives =
      (c.waysOf g site).map fun way => ⟨way.1, way.2.1, way.2.2.map number⟩ := by
  unfold Node.alternatives
  cases hsymbol : g.isNonterminal site.category with
  | true => simp only [kindOf_nonterminal c _ hsymbol]
  | false =>
    have hways : c.waysOf g site = [] := by simp [Chart.waysOf, Chart.isComposite, hsymbol]
    obtain hkind | ⟨word, hkind⟩ := kindOf_other c number hsymbol
    · simp [hkind, hways]
    · simp [hkind, hways]

/-- The counts of a forest are those of the sites of its nodes. -/
theorem getElem?_iterate_tallerCounts (h : c.Traced g) (hsite : c.HasNode g site) (height : Nat) :
    ((ofChart c g).tallerCounts^[height] (ofChart c g).flatCounts)[c.siteNumber g site]? =
      some (c.treesWithin g height site) := by
  induction height generalizing site with
  | zero =>
    have hnode : (ofChart c g).nodes[c.siteNumber g site]? = _ := node?_siteNumber h hsite
    rw [Function.iterate_zero_apply, flatCounts, Array.getElem?_map, hnode, Option.map_some,
      Chart.treesWithin]
    cases hsymbol : g.isNonterminal site.category with
    | true => rw [kindOf_nonterminal c _ hsymbol, if_pos rfl]
    | false =>
      obtain hkind | ⟨word, hkind⟩ := kindOf_other c (c.siteNumber g) hsymbol
      · simp [hkind]
      · simp [hkind]
  | succ height ih =>
    rw [Function.iterate_succ_apply']
    have hnode : (ofChart c g).nodes[c.siteNumber g site]? = _ := node?_siteNumber h hsite
    -- one more level multiplies the counts of the parts and adds up the ways
    rw [tallerCounts, Array.getElem?_map, hnode, Option.map_some, Chart.treesWithin]
    cases hsymbol : g.isNonterminal site.category with
    | true =>
      rw [kindOf_nonterminal c _ hsymbol, if_pos rfl]
      dsimp only
      rw [List.map_map]
      refine congrArg (fun counts => some (cappedSum counts)) (List.map_congr_left fun way hway => ?_)
      refine congrArg cappedProduct ?_
      rw [List.map_map]
      refine List.map_congr_left fun part hpart => ?_
      rw [Function.comp_apply, Array.getD_eq_getD_getElem?, ih (hsite.parts h hway hpart),
        Option.getD_some]
    | false =>
      obtain hkind | ⟨word, hkind⟩ := kindOf_other c (c.siteNumber g) hsymbol
      · simp [hkind]
      · simp [hkind]

/-- The trees of a forest are those of the whole sentences. -/
theorem treeCountWithin_ofChart (h : c.Traced g) (height : Nat) :
    (ofChart c g).treeCountWithin height =
      cappedSum ((c.rootSites g).map (c.treesWithin g height)) := by
  unfold treeCountWithin countsWithin
  dsimp only
  rw [growCounts_eq]
  show cappedSum (((c.rootSites g).map (c.siteNumber g)).map _) = _
  rw [List.map_map]
  refine congrArg cappedSum (List.map_congr_left fun site hsite => ?_)
  rw [Function.comp_apply, Array.getD_eq_getD_getElem?,
    getElem?_iterate_tallerCounts h (h.explores_discover.2 site hsite), Option.getD_some]

/-- The packed ways of a forest are on the rules in the ways of making up its sites. -/
theorem map_packed_ofChart (c : Chart) (g : Grammar) :
    (ofChart c g).packed.map (fun packed => (packed.rule, packed.origin)) = c.rulesUsed g := by
  have hnodes : (ofChart c g).nodes.toList = (discover c g).sites.toList.map fun site =>
      ⟨site, kindOf c g (c.siteNumber g) site⟩ := Array.toList_map
  rw [packed, hnodes, List.flatMap_map, List.map_flatMap, Chart.rulesUsed]
  refine congrArg (List.flatMap · _) (funext fun site => ?_)
  rw [alternatives_kindOf, List.map_map]
  rfl

/-- Uses of rules are counted over the rules in the ways of making up sites. -/
theorem ruleUsage_ofChart (c : Chart) (g : Grammar) : (ofChart c g).ruleUsage =
    (c.rulesUsed g).foldl (fun usage used => usage.add used.1 1) ∅ := by
  rw [ruleUsage, ← map_packed_ofChart, List.foldl_map]

/-- Uses of schema rules are counted over the rules in the ways of making up sites. -/
theorem schemaUsage_ofChart (c : Chart) (g : Grammar) : (ofChart c g).schemaUsage =
    (c.rulesUsed g).foldl (fun usage used =>
      match used.2 with
      | some origin => usage.add origin 1
      | none => usage) ∅ := by
  rw [schemaUsage, ← map_packed_ofChart]
  symm
  exact List.foldl_map

/-- The forests of charts that read alike are alike. -/
theorem alike_ofChart (h : Chart.ReadAlike g g' c d) : (ofChart c g).Alike (ofChart d g') where
  isEmpty := by
    show ((c.rootSites g).map _).isEmpty = ((d.rootSites g').map _).isEmpty
    rw [List.isEmpty_map, List.isEmpty_map, h.rootSites_perm.isEmpty_eq]
  treeCountWithin height := by
    rw [treeCountWithin_ofChart h.left.traced, treeCountWithin_ofChart h.right.traced]
    have hroots : (c.rootSites g).map (c.treesWithin g height) =
        (c.rootSites g).map (d.treesWithin g' height) :=
      List.map_congr_left fun site hsite =>
        h.treesWithin_eq (h.left.traced.explores_discover.2 site hsite) height
    rw [hroots]
    exact cappedSum_perm (h.rootSites_perm.map _)
  ruleUsage := by
    rw [ruleUsage_ofChart, ruleUsage_ofChart]
    exact h.rulesUsed_perm.foldl_eq' (fun _ _ _ _ usage => Usage.add_right_comm usage _ _ 1 1) ∅
  schemaUsage := by
    rw [schemaUsage_ofChart, schemaUsage_ofChart]
    refine h.rulesUsed_perm.foldl_eq' (fun a _ b _ usage => ?_) ∅
    cases a.2 with
    | none => rfl
    | some origin =>
      cases b.2 with
      | none => rfl
      | some other => exact Usage.add_right_comm usage _ _ 1 1

end Forest

end IndexedGrammar
