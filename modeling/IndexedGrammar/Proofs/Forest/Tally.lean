import IndexedGrammar.Proofs.Forest.Counted
import Mathlib.Logic.Relation

/-!
# Tallying the trees of a forest

Going down from a node, sites become smaller until they are empty. So in a grammar without unit cycles no node
is below itself, and a tally never comes back to a node that is being counted: what it knows of a node is the
number of all its trees.
-/

namespace IndexedGrammar

variable {g : Grammar} {c : Chart} {rank : Category → Nat} {site : Site}

/-! Nodes below nodes -/

namespace Forest

/-- Whether a node is among the parts of a way of making up another node. -/
def HasChild (f : Forest) (id child : Nat) : Prop :=
  ∃ node, f.node? id = some node ∧ ∃ packed ∈ node.alternatives, child ∈ packed.children

/-- A node with a child is that of a nonterminal, and the child is the node of a part. -/
theorem HasChild.exists_way (h : c.Traced g) {id child : Nat} (hchild : (ofChart c g).HasChild id child) :
    ∃ site, c.HasNode g site ∧ c.siteNumber g site = id ∧ g.isNonterminal site.category = true ∧
      ∃ rule origin parts, (rule, origin, parts) ∈ c.waysOf g site ∧
        ∃ part ∈ parts, c.siteNumber g part = child := by
  obtain ⟨node, hnode, packed, hpacked, hmem⟩ := hchild
  obtain ⟨site, hsite, hnumber, rfl⟩ := exists_site_of_node? h hnode
  rw [alternatives_kindOf] at hpacked
  obtain ⟨⟨rule, origin, parts⟩, hway, rfl⟩ := List.mem_map.mp hpacked
  obtain ⟨part, hpart, hnumber'⟩ := List.mem_map.mp hmem
  exact ⟨site, hsite, hnumber, (Chart.mem_waysOf.mp hway).1, rule, origin, parts, hway, part, hpart, hnumber'⟩

/-- What is below a node is smaller, unless it is empty. -/
theorem size_lt_of_below (h : c.Settled g) (hwell : g.WellFormed) (hrank : g.Ranked rank) {id lower : Nat}
    (hbelow : Relation.TransGen (ofChart c g).HasChild id lower) {site other : Site}
    (hsite : c.HasNode g site) (hid : c.siteNumber g site = id) (hother : c.HasNode g other)
    (hlower : c.siteNumber g other = lower) (hempty : other.category.isEpsilon = false) :
    other.size rank < site.size rank := by
  -- the last step leads from a nonterminal, which is not empty, to one of its parts
  have hstep {id lower : Nat} (hchild : (ofChart c g).HasChild id lower) {other : Site}
      (hother : c.HasNode g other) (hlower : c.siteNumber g other = lower)
      (hempty : other.category.isEpsilon = false) : ∃ above, c.HasNode g above ∧ c.siteNumber g above = id ∧
        above.category.isEpsilon = false ∧ other.size rank < above.size rank := by
    obtain ⟨above, habove, hid, hsymbol, rule, origin, parts, hway, part, hpart, hnumber⟩ :=
      hchild.exists_way h.traced
    obtain rfl := Chart.HasNode.siteNumber_inj h.traced (habove.parts h.traced hway hpart) hother
      (hnumber.trans hlower.symm)
    exact ⟨above, habove, hid, (Grammar.isNonterminal_iff.mp hsymbol).1,
      part_lt h hwell hrank (habove.found h).1 hway hpart hempty⟩
  induction hbelow generalizing other with
  | single hchild =>
    obtain ⟨above, habove, hid', -, hlt⟩ := hstep hchild hother hlower hempty
    obtain rfl := Chart.HasNode.siteNumber_inj h.traced habove hsite (hid'.trans hid.symm)
    exact hlt
  | tail _ hchild ih =>
    obtain ⟨above, habove, hid', hempty', hlt⟩ := hstep hchild hother hlower hempty
    exact lt_trans hlt (ih habove hid' hempty')

/-- No node is below itself. -/
theorem not_below_itself (h : c.Settled g) (hwell : g.WellFormed) (hcycle : g.hasUnitCycle = false)
    (id : Nat) : ¬Relation.TransGen (ofChart c g).HasChild id id := by
  intro hbelow
  obtain ⟨rank, hrank⟩ := Grammar.exists_ranked hwell hcycle
  obtain ⟨child, hchild, -⟩ := Relation.TransGen.head'_iff.mp hbelow
  obtain ⟨site, hsite, hid, hsymbol, -⟩ := hchild.exists_way h.traced
  have hempty := (Grammar.isNonterminal_iff.mp hsymbol).1
  exact lt_irrefl _ (size_lt_of_below h hwell hrank hbelow hsite hid hsite hid hempty)

/-! Tallies -/

namespace Tally

variable {α σ : Type}

/-- Counts several things, one after the other, and puts the counts together. -/
def fold (count : α → σ → Nat × σ) (combine : Nat → Nat → Nat) (as : List α) (start : Nat × σ) : Nat × σ :=
  as.foldl (fun sofar a => (combine sofar.1 (count a sofar.2).1, (count a sofar.2).2)) start

/-- Things are counted alike under other names. -/
theorem fold_map {β : Type} (count : β → σ → Nat × σ) (combine : Nat → Nat → Nat) (name : α → β)
    (as : List α) (start : Nat × σ) :
    fold count combine (as.map name) start = fold (fun a => count (name a)) combine as start :=
  List.foldl_map

/-- Notes the count for a node, which is no longer pending. -/
def close (id : Nat) (outcome : Nat × Tally) : Nat × Tally :=
  (outcome.1, ⟨outcome.2.known.insert id outcome.1, outcome.2.pending.erase id⟩)

/-- Counting gives a number, and leaves a tally of which something holds. -/
structure Gives (holds : σ → Prop) (n : Nat) (outcome : Nat × σ) : Prop where
  value : outcome.1 = n
  tally : holds outcome.2

/-- If counting each thing gives a number and something keeps holding, counting all of them gives the numbers put
together. -/
theorem fold_gives {holds : σ → Prop} {count : α → σ → Nat × σ} {combine : Nat → Nat → Nat}
    {value : α → Nat} {as : List α} (h : ∀ a ∈ as, ∀ tally, holds tally → Gives holds (value a) (count a tally))
    {n : Nat} {tally : σ} (htally : holds tally) :
    Gives holds ((as.map value).foldl combine n) (fold count combine as (n, tally)) := by
  induction as generalizing n tally with
  | nil => exact ⟨rfl, htally⟩
  | cons a rest ih =>
    have hfirst := h a List.mem_cons_self tally htally
    show Gives holds ((rest.map value).foldl combine (combine n (value a)))
      (fold count combine rest (combine n (count a tally).1, (count a tally).2))
    rw [hfirst.value]
    exact ih (fun b hb => h b (List.mem_cons_of_mem a hb)) hfirst.tally

/-- What is known of nodes is the number of parses of their sites, cut down, and certain nodes are pending. -/
structure Right (c : Chart) (g : Grammar) (parses : Site → List Parse) (pending : Std.ExtTreeSet Nat)
    (tally : Tally) : Prop where
  known : ∀ {site n}, c.HasNode g site → tally.known[c.siteNumber g site]? = some n →
    n = capped (parses site).length
  pending_eq : tally.pending = pending

variable {parses : Site → List Parse} {pending : Std.ExtTreeSet Nat}

/-- In the beginning nothing is known and nothing is pending. -/
theorem right_empty : Right c g parses ∅ ⟨∅, ∅⟩ :=
  ⟨fun _ hknown => by simp at hknown, rfl⟩

/-- Before the count of a node, the node is pending. -/
theorem Right.opened {tally : Tally} (h : Right c g parses pending tally) (id : Nat) :
    Right c g parses (pending.insert id) { tally with pending := tally.pending.insert id } :=
  ⟨h.known, by rw [h.pending_eq]⟩

/-- What is added to a set and taken out again leaves the set as it was. -/
theorem erase_insert_self {id : Nat} (hnot : id ∉ pending) : (pending.insert id).erase id = pending := by
  ext other
  rw [Std.ExtTreeSet.mem_erase, Std.ExtTreeSet.mem_insert, Std.compare_eq_iff_eq]
  constructor
  · rintro ⟨hne, heq | hmem⟩
    · exact absurd (by rw [heq]; exact Std.ReflCmp.compare_self) hne
    · exact hmem
  · intro hmem
    refine ⟨fun heq => hnot ?_, .inr hmem⟩
    rwa [Std.LawfulEqOrd.eq_of_compare heq]

/-- Noting the number of parses of a site for its node leaves a right tally. -/
theorem Gives.close (htraced : c.Traced g) (hsite : c.HasNode g site) (hnot : c.siteNumber g site ∉ pending)
    {outcome : Nat × Tally} (h : Gives (Right c g parses (pending.insert (c.siteNumber g site)))
      (capped (parses site).length) outcome) :
    Gives (Right c g parses pending) (capped (parses site).length) (Tally.close (c.siteNumber g site) outcome) where
  value := h.value
  tally := by
    refine ⟨fun {other n} hother hknown => ?_, ?_⟩
    · rw [Tally.close, Std.ExtTreeMap.getElem?_insert] at hknown
      split at hknown
      · next heq =>
        have heq := Std.LawfulEqOrd.eq_of_compare heq
        obtain rfl := Chart.HasNode.siteNumber_inj htraced hsite hother heq
        rw [← Option.some.inj hknown, h.value]
      · exact h.tally.known hother hknown
    · show (outcome.2.pending).erase _ = pending
      rw [h.tally.pending_eq, erase_insert_self hnot]

end Tally

/-- The nodes that are being counted above a site: they are those of nonterminals, and for larger sites unless the
site is empty. -/
def Pending (c : Chart) (g : Grammar) (rank : Category → Nat) (site : Site) (pending : Std.ExtTreeSet Nat) : Prop :=
  ∀ id ∈ pending, ∃ other, c.HasNode g other ∧ c.siteNumber g other = id ∧
    g.isNonterminal other.category = true ∧
    (site.category.isEpsilon = false → site.size rank < other.size rank)

variable {pending : Std.ExtTreeSet Nat}

/-- Nothing is being counted above a root. -/
theorem pending_empty (site : Site) : Pending c g rank site ∅ :=
  fun _ hid => absurd hid Std.ExtTreeSet.not_mem_empty

/-- A node is not being counted above itself. -/
theorem Pending.not_mem (h : Pending c g rank site pending) (htraced : c.Traced g)
    (hsite : c.HasNode g site) : c.siteNumber g site ∉ pending := by
  intro hmem
  obtain ⟨other, hother, hnumber, hsymbol, hlt⟩ := h _ hmem
  obtain rfl := Chart.HasNode.siteNumber_inj htraced hother hsite hnumber
  exact lt_irrefl _ (hlt (Grammar.isNonterminal_iff.mp hsymbol).1)

/-- What is being counted above a nonterminal, and the nonterminal, are being counted above its parts. -/
theorem Pending.part (h : Pending c g rank site pending) (hsite : c.HasNode g site)
    (hsymbol : g.isNonterminal site.category = true) {part : Site}
    (hlt : part.category.isEpsilon = false → part.size rank < site.size rank) :
    Pending c g rank part (pending.insert (c.siteNumber g site)) := by
  intro id hid
  rw [Std.ExtTreeSet.mem_insert, Std.compare_eq_iff_eq] at hid
  rcases hid with rfl | hmem
  · exact ⟨site, hsite, rfl, hsymbol, hlt⟩
  · obtain ⟨other, hother, hnumber, hsymbol', hlt'⟩ := h id hmem
    exact ⟨other, hother, hnumber, hsymbol',
      fun hempty => lt_trans (hlt hempty) (hlt' (Grammar.isNonterminal_iff.mp hsymbol).1)⟩

/-- No more nodes are being counted than there are. -/
theorem Pending.size_le (h : Pending c g rank site pending) (htraced : c.Traced g) :
    pending.size ≤ (ofChart c g).size := by
  have hnodup : pending.toList.Nodup :=
    Std.ExtTreeSet.distinct_toList.imp fun hne heq => hne (by rw [heq]; exact Std.ReflCmp.compare_self)
  rw [← Std.ExtTreeSet.length_toList]
  refine length_le_size htraced hnodup fun id hid => ?_
  obtain ⟨other, hother, hnumber, -⟩ := h id (Std.ExtTreeSet.mem_toList.mp hid)
  exact ⟨other, hother, hnumber⟩

/-! The count of all trees -/

section Counting

variable {f : Forest} {depth id : Nat} {tally : Tally}

/-- A node that is known is not counted again. -/
theorem tallyNode_known {n : Nat} (hknown : tally.known[id]? = some n) :
    f.tallyNode (depth + 1) id tally = (n, tally) := by
  rw [tallyNode, hknown]

/-- A node with ways of making it up is counted by adding over the ways and multiplying over the parts. -/
theorem tallyNode_branch {site : Site} {alternatives : List Packed} (hknown : tally.known[id]? = none)
    (hnot : id ∉ tally.pending) (hnode : f.node? id = some ⟨site, .branch alternatives⟩) :
    f.tallyNode (depth + 1) id tally = Tally.close id (Tally.fold (fun packed tally =>
        Tally.fold (f.tallyNode depth) cappedMul packed.children (1, tally)) cappedAdd alternatives
      (0, { tally with pending := tally.pending.insert id })) := by
  rw [tallyNode, hknown]
  dsimp only
  rw [if_neg (by simpa using hnot), hnode]
  rfl

/-- Any other node is counted once. -/
theorem tallyNode_other {node : Node} (hknown : tally.known[id]? = none) (hnot : id ∉ tally.pending)
    (hnode : f.node? id = some node) (hkind : node.kind = .empty ∨ ∃ word, node.kind = .leaf word) :
    f.tallyNode (depth + 1) id tally =
      Tally.close id (1, { tally with pending := tally.pending.insert id }) := by
  obtain ⟨site, kind⟩ := node
  rw [tallyNode, hknown]
  dsimp only
  rw [if_neg (by simpa using hnot), hnode]
  rcases hkind with hkind | ⟨word, hkind⟩
  · obtain rfl : kind = .empty := hkind
    rfl
  · obtain rfl : kind = .leaf word := hkind
    rfl

/-- The trees of a forest are counted by adding over the roots. -/
theorem treeCount_eq (f : Forest) : f.treeCount =
    (Tally.fold (f.tallyNode (f.size + 1)) cappedAdd f.roots (0, ⟨∅, ∅⟩)).1 :=
  rfl

end Counting

variable {parses : Site → List Parse}

/-- The parses of a nonterminal are counted by adding over the ways of making it up and multiplying over the
parts. -/
theorem cappedSum_parses (h : c.Settled g)
    (hparses : ∀ site, c.HasNode g site → Enumerates g c.input c.layout.last site (parses site))
    (hsite : c.HasNode g site) (hsymbol : g.isNonterminal site.category = true) :
    cappedSum ((c.waysOf g site).map fun way => cappedProduct
      (way.2.2.map fun part => capped (parses part).length)) = capped (parses site).length := by
  obtain ⟨hfound, hlast⟩ := hsite.found h
  have hall := enumerates_applications h hfound hlast hsymbol
    fun way hway part hpart => hparses part (hsite.parts h.traced hway hpart)
  rw [cappedSum_applications fun _ _ _ _ => rfl, (hall.perm (hparses site hsite)).length_eq]

/-- Tallying a node gives the number of parses of its site, and leaves a right tally. -/
theorem tallyNode_gives (h : c.Settled g) (hwell : g.WellFormed) (hrank : g.Ranked rank)
    (hparses : ∀ site, c.HasNode g site → Enumerates g c.input c.layout.last site (parses site)) {depth : Nat}
    {tally : Tally} (hsite : c.HasNode g site) (hpending : Pending c g rank site pending)
    (htally : Tally.Right c g parses pending tally) (hdepth : (ofChart c g).size < depth + pending.size) :
    Tally.Gives (Tally.Right c g parses pending) (capped (parses site).length)
      ((ofChart c g).tallyNode depth (c.siteNumber g site) tally) := by
  -- each level makes one more node pending, so the depth that is left covers the others
  induction depth generalizing site pending tally with
  | zero =>
    have hsize := hpending.size_le h.traced
    omega
  | succ depth ih =>
    have hnot := hpending.not_mem h.traced hsite
    have hnot' : c.siteNumber g site ∉ tally.pending := htally.pending_eq ▸ hnot
    have hnode := node?_siteNumber h.traced hsite
    obtain ⟨hfound, hlast⟩ := hsite.found h
    cases hknown : tally.known[c.siteNumber g site]? with
    | some n =>
      rw [tallyNode_known hknown]
      exact ⟨htally.known hsite hknown, htally⟩
    | none =>
      cases hsymbol : g.isNonterminal site.category with
      | false =>
        rw [tallyNode_other hknown hnot' hnode (kindOf_other c _ hsymbol)]
        refine Tally.Gives.close h.traced hsite hnot ⟨?_, htally.opened _⟩
        obtain ⟨t, ht, -⟩ := exists_enumerates_flat hsymbol hfound hlast
        rw [((hparses site hsite).perm ht).length_eq]
        rfl
      | true =>
        have hsize : (pending.insert (c.siteNumber g site)).size = pending.size + 1 := by
          rw [Std.ExtTreeSet.size_insert, if_neg (by simpa using hnot)]
        have hparts (way : Nat × Option Nat × List Site) (hway : way ∈ c.waysOf g site) (part : Site)
            (hpart : part ∈ way.2.2) (tally : Tally)
            (htally : Tally.Right c g parses (pending.insert (c.siteNumber g site)) tally) :=
          ih (hsite.parts h.traced hway hpart)
            (hpending.part hsite hsymbol (part_lt h hwell hrank hfound hway hpart)) htally
            (by rw [hsize]; omega)
        rw [kindOf_nonterminal c _ hsymbol] at hnode
        rw [tallyNode_branch hknown hnot' hnode, Tally.fold_map]
        -- the ways are added up, and for each way the counts of its parts are multiplied
        refine Tally.Gives.close h.traced hsite hnot ?_
        rw [← cappedSum_parses h hparses hsite hsymbol]
        refine Tally.fold_gives (fun way hway tally htally => ?_) (htally.opened _)
        dsimp only
        rw [Tally.fold_map]
        exact Tally.fold_gives (hparts way hway) htally

/-- The trees of a forest are counted as the parses of the whole sentences. -/
theorem treeCount_ofChart (h : c.Settled g) (hwell : g.WellFormed) (hrank : g.Ranked rank)
    (hparses : ∀ site, c.HasNode g site → Enumerates g c.input c.layout.last site (parses site)) :
    (ofChart c g).treeCount = capped ((c.rootSites g).flatMap parses).length := by
  have hroots : (ofChart c g).roots = (c.rootSites g).map (c.siteNumber g) := rfl
  have hroot (site : Site) (hsite : site ∈ c.rootSites g) (tally : Tally)
      (htally : Tally.Right c g parses ∅ tally) : Tally.Gives (Tally.Right c g parses ∅)
        (capped (parses site).length)
        ((ofChart c g).tallyNode ((ofChart c g).size + 1) (c.siteNumber g site) tally) :=
    tallyNode_gives h hwell hrank hparses (h.traced.explores_discover.2 site hsite) (pending_empty site) htally
      (Nat.lt_succ_self _)
  rw [treeCount_eq, hroots, Tally.fold_map, (Tally.fold_gives hroot Tally.right_empty).value,
    List.length_flatMap]
  show cappedSum _ = _
  rw [cappedSum_eq]
  exact capped_map_sum_congr fun site _ => capped_capped _

end Forest

end IndexedGrammar
