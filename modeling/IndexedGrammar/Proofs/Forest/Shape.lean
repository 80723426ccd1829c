import IndexedGrammar.Proofs.Chart.Licensed
import IndexedGrammar.Proofs.Forest.Derived
import IndexedGrammar.Proofs.Forest.Tally

/-!
# The shape of a forest

However a chart came about, reading its forest ends, and the forest is well-formed: nodes are for different sites,
each of them is below a root, and each way of making one up is a rule for its category, with the sites of the
children side by side. This holds in the middle of a transaction, after runs that were given up, and for grammars
with unit cycles, whose nodes may be below themselves.

Nodes are numbered before their children are, and a child is met before it is known whether a whole sequence of
children can be read. But a dot behind the child was moved there through live states, so the sequence can be read.
-/

namespace IndexedGrammar

namespace Forest

/-- The site of a node. -/
def site? (f : Forest) (id : Nat) : Option Site :=
  (f.node? id).map Node.site

/-- A way of making up a site: a rule for its category, with one child for each right-hand category. The sites of
the children are of these categories, and lie side by side from the beginning of the site to its end. -/
def Makes (g : Grammar) (f : Forest) (site : Site) (packed : Packed) : Prop :=
  ∃ r parts, g.rule? packed.rule = some r ∧ r.lhs = site.category ∧ r.origin = packed.origin ∧
    packed.children.map f.site? = parts.map some ∧
    Row (fun part => part.start ≤ part.stop) site.start r.rhs site.stop parts

/-- A forest in which nodes are what they should be for a grammar. -/
structure WellFormed (g : Grammar) (f : Forest) : Prop where
  /-- No two nodes are for the same site. -/
  unique : ∀ {i j site}, f.site? i = some site → f.site? j = some site → i = j
  /-- Exactly the node of a site is found by its category and its two ends. -/
  find?_iff : ∀ {category start stop id},
    f.find? category start stop = some id ↔ f.site? id = some ⟨category, start, stop⟩
  /-- A root is a node of the start category from the first column on. -/
  root : ∀ root ∈ f.roots, ∃ stop, f.site? root = some ⟨g.start, 0, stop⟩
  /-- Every node is a root, or is below one. -/
  below : ∀ id < f.size, ∃ root ∈ f.roots, Relation.ReflTransGen f.HasChild root id
  /-- No way of making up a node is listed twice. -/
  nodup : ∀ {id node}, f.node? id = some node → node.alternatives.Nodup
  makes : ∀ {id node packed}, f.node? id = some node → packed ∈ node.alternatives →
    f.Makes g node.site packed
  /-- A leaf is as long as one word. -/
  leaf : ∀ {id node}, f.node? id = some node → node.isLeaf = true → node.site.stop = node.site.start + 1
  /-- A node of the empty category is as long as nothing. -/
  empty : ∀ {id node}, f.node? id = some node → node.kind = .empty → node.site.stop = node.site.start

end Forest

variable {partsOfSpeech : Std.ExtTreeSet String} {root : String} {g : Grammar} {c : Chart} {site : Site}

/-! Sites that are as long as they should be -/

namespace Chart

/-- What a dot is moved over does not end before it begins. -/
theorem Crosses.start_le_stop (h : c.Crosses g site) (hc : c.Filed g) : site.start ≤ site.stop := by
  cases h with
  | nothing => exact Nat.le_refl _
  | word => exact Nat.le_succ _
  | completed hs => exact (hc.bounds hs.spot?).1

/-- What a licensed chart completes is a nonterminal, unless it is empty. -/
theorem Licensed.isNonterminal_of_completes (h : c.Licensed root g) (hg : g.Over partsOfSpeech root) {id : Nat}
    {s : Spot} {symbol : Category} (hs : c.Live id s) (hcompletes : g.Completes s.item symbol)
    (hempty : symbol.isEpsilon = false) : g.isNonterminal symbol = true := by
  obtain ⟨r, hr, -, rfl⟩ := Grammar.completes_iff.mp hcompletes
  rcases h.licenses hs.spot? with hroot | ⟨r', hr', hlhs, -⟩
  · rw [hroot] at hr
    obtain rfl := Option.some.inj (hg.rootRule?_eq.symm.trans hr)
    exact Grammar.isNonterminal_iff.mpr ⟨hempty, hg.isPartOfSpeech_root⟩
  · obtain rfl := Option.some.inj (hr'.symm.trans hr)
    exact hlhs

/-- The whole sentences on a licensed chart are of the start category and begin at the first column, and the dot of
the synthetic rule was moved over them. -/
theorem Licensed.crosses_of_mem_rootSites (h : c.Licensed root g) (hg : g.Over partsOfSpeech root)
    (hc : c.Grounded g) (hsite : site ∈ c.rootSites g) :
    site.category = g.start ∧ site.start = 0 ∧ c.Crosses g site := by
  unfold rootSites at hsite
  rw [mem_addNew, or_iff_right List.not_mem_nil, List.mem_filterMap] at hsite
  obtain ⟨id, hid, hsite⟩ := hsite
  unfold accepted acceptedAs at hid
  rw [hg.rootRule?_eq] at hid
  simp only [List.mem_flatMap, hc.filed.mem_completed] at hid
  obtain ⟨k, -, s, hs, horigin, -, hcompletes⟩ := hid
  obtain ⟨r, hr, hlength, hlhs⟩ := Grammar.completes_iff.mp hcompletes
  have hrule : s.item.rule = Grammar.rootId := by
    refine (h.licenses hs.spot?).resolve_right fun hgiven => ?_
    obtain ⟨r', hr', -, hname⟩ := hgiven
    obtain rfl := Option.some.inj (hr'.symm.trans hr)
    exact hname (congrArg Category.name hlhs)
  have hroot := hr
  rw [hrule] at hroot
  obtain rfl := Option.some.inj (hg.rootRule?_eq.symm.trans hroot)
  -- the only symbol of the synthetic rule is the last one before the dot
  obtain ⟨parts, hparts⟩ := hc.exists_sequence hs
  have hrow := hc.row_of_mem_sequences hs hr hparts
  rw [List.take_of_length_le hlength, ← List.nil_append [g.start]] at hrow
  obtain ⟨rest, middle, hrest, hcrosses, -⟩ := row_concat.mp hrow
  obtain ⟨-, rfl⟩ := row_nil.mp hrest
  obtain ⟨state, hstate, -, rfl⟩ := hs
  rw [hstate, Option.map_some] at hsite
  obtain rfl := Option.some.inj hsite
  exact ⟨rfl, horigin, hcrosses⟩

/-- Every site with a node on a licensed chart is as long as it should be. -/
theorem HasNode.fitting (hsite : c.HasNode g site) (hc : c.Grounded g) (h : c.Licensed root g)
    (hg : g.Over partsOfSpeech root) : site.Fitting g := by
  refine hsite.induction hc (Site.Fitting g) (fun site hroot => ?_) fun site _ rule origin parts hway part hpart => ?_
  · exact (h.crosses_of_mem_rootSites hg hc hroot).2.2.fitting (h.isNonterminal_of_completes hg)
  · obtain ⟨r, -, -, -, -, hrow⟩ := hc.row_of_mem_waysOf hway
    exact (hrow.found part hpart).fitting (h.isNonterminal_of_completes hg)

end Chart

/-! The nodes of a forest -/

namespace Forest

/-- The nodes of a forest are those of the sites with nodes, under their numbers. -/
theorem site?_ofChart (hc : c.Traced g) {id : Nat} :
    (ofChart c g).site? id = some site ↔ c.HasNode g site ∧ c.siteNumber g site = id := by
  rw [← getElem?_sites hc, site?, node?_ofChart, Option.map_map]
  exact Eq.congr_left Option.map_id'

/-- A site is found under the number of its node. -/
theorem find?_ofChart (hc : c.Traced g) {category : Category} {start stop id : Nat} :
    (ofChart c g).find? category start stop = some id ↔
      (ofChart c g).site? id = some ⟨category, start, stop⟩ := by
  rw [site?_ofChart hc, ← getElem?_sites hc]
  exact hc.explores_discover.1.consistent

/-- The parts of a way of making up a node are its children. -/
theorem hasChild_of_way (hc : c.Traced g) (hsite : c.HasNode g site) {rule : Nat} {origin : Option Nat}
    {parts : List Site} (hway : (rule, origin, parts) ∈ c.waysOf g site) {part : Site} (hpart : part ∈ parts) :
    (ofChart c g).HasChild (c.siteNumber g site) (c.siteNumber g part) := by
  refine ⟨_, node?_siteNumber hc hsite, ⟨rule, origin, parts.map (c.siteNumber g)⟩, ?_, List.mem_map_of_mem hpart⟩
  rw [alternatives_kindOf]
  exact List.mem_map_of_mem hway

/-- Every node is below a root. -/
theorem below_root (hc : c.Grounded g) (hsite : c.HasNode g site) : ∃ root ∈ (ofChart c g).roots,
    Relation.ReflTransGen (ofChart c g).HasChild root (c.siteNumber g site) := by
  refine (hsite.induction hc (fun site => c.HasNode g site ∧ ∃ root ∈ (ofChart c g).roots,
    Relation.ReflTransGen (ofChart c g).HasChild root (c.siteNumber g site)) (fun site hroot => ?_)
    fun site hgiven rule origin parts hway part hpart => ?_).2
  · exact ⟨hc.explores_discover.2 site hroot, _, List.mem_map_of_mem hroot, .refl⟩
  · obtain ⟨hnode, root, hroot, hbelow⟩ := hgiven
    exact ⟨hnode.parts hc.toTraced hway hpart, root, hroot,
      hbelow.tail (hasChild_of_way hc.toTraced hnode hway hpart)⟩

/-- The sites of the children of a node are the parts. -/
theorem map_site?_parts (hc : c.Traced g) (hsite : c.HasNode g site) {rule : Nat} {origin : Option Nat}
    {parts : List Site} (hway : (rule, origin, parts) ∈ c.waysOf g site) :
    (parts.map (c.siteNumber g)).map (ofChart c g).site? = parts.map some := by
  rw [List.map_map]
  exact List.map_congr_left fun part hpart => (site?_ofChart hc).mpr ⟨hsite.parts hc hway hpart, rfl⟩

/-- The ways of making up a node are listed once each, since different parts have different numbers. -/
theorem nodup_alternatives (hc : c.Traced g) (hsite : c.HasNode g site) :
    (⟨site, kindOf c g (c.siteNumber g) site⟩ : Node).alternatives.Nodup := by
  rw [alternatives_kindOf]
  refine (Chart.nodup_waysOf c g site).map_on fun way hway other hother heq => ?_
  obtain ⟨rule, origin, parts⟩ := way
  obtain ⟨rule', origin', parts'⟩ := other
  obtain ⟨rfl, rfl, hnumbers⟩ := Packed.mk.inj heq
  have hsites := map_site?_parts hc hsite hway
  rw [hnumbers, map_site?_parts hc hsite hother] at hsites
  rw [List.map_injective_iff.mpr (Option.some_injective Site) hsites]

/-- Each way of making up a node is one by a rule for its category, with the children side by side. -/
theorem makes_of_mem_alternatives (hc : c.Traced g) (hsite : c.HasNode g site) {packed : Packed}
    (hpacked : packed ∈ (⟨site, kindOf c g (c.siteNumber g) site⟩ : Node).alternatives) :
    (ofChart c g).Makes g site packed := by
  rw [alternatives_kindOf] at hpacked
  obtain ⟨⟨rule, origin, parts⟩, hway, rfl⟩ := List.mem_map.mp hpacked
  obtain ⟨r, -, hr, hlhs, horigin, hrow⟩ := hc.row_of_mem_waysOf hway
  exact ⟨r, parts, hr, hlhs, horigin, map_site?_parts hc hsite hway,
    hrow.imp fun part hcrosses => hcrosses.start_le_stop hc.filed⟩

/-- A leaf is neither empty nor a nonterminal. -/
theorem of_isLeaf_kindOf {number : Site → Nat} (h : (⟨site, kindOf c g number site⟩ : Node).isLeaf = true) :
    site.category.isEpsilon = false ∧ g.isNonterminal site.category = false := by
  unfold Node.isLeaf kindOf at h
  unfold Grammar.isNonterminal
  cases hempty : site.category.isEpsilon <;> cases hpos : g.isPartOfSpeech site.category <;>
    simp [hempty, hpos] at h ⊢

/-- An empty node is of the empty category. -/
theorem isEpsilon_of_kindOf {number : Site → Nat} (h : kindOf c g number site = .empty) :
    site.category.isEpsilon = true := by
  unfold kindOf at h
  cases hempty : site.category.isEpsilon <;> cases hpos : g.isPartOfSpeech site.category <;>
    simp [hempty, hpos] at h ⊢

/-- The forest of a grounded and licensed chart is well-formed. -/
theorem wellFormed_ofChart (hc : c.Grounded g) (h : c.Licensed root g) (hg : g.Over partsOfSpeech root) :
    (ofChart c g).WellFormed g where
  unique {i j site} hi hj := by
    obtain ⟨-, rfl⟩ := (site?_ofChart hc.toTraced).mp hi
    exact ((site?_ofChart hc.toTraced).mp hj).2
  find?_iff := find?_ofChart hc.toTraced
  root id hid := by
    have hid : id ∈ (c.rootSites g).map (c.siteNumber g) := hid
    obtain ⟨⟨category, start, stop⟩, hsite, rfl⟩ := List.mem_map.mp hid
    obtain ⟨hcategory, hstart, -⟩ := h.crosses_of_mem_rootSites hg hc hsite
    obtain rfl : category = g.start := hcategory
    obtain rfl : start = 0 := hstart
    exact ⟨stop, (site?_ofChart hc.toTraced).mpr ⟨hc.explores_discover.2 _ hsite, rfl⟩⟩
  below id hid := by
    obtain ⟨site, hsite⟩ : ∃ site, (ofChart c g).site? id = some site := by
      rw [site?, node?, Array.getElem?_eq_getElem hid]
      exact ⟨_, rfl⟩
    obtain ⟨hnode, rfl⟩ := (site?_ofChart hc.toTraced).mp hsite
    exact below_root hc hnode
  nodup hnode := by
    obtain ⟨site, hsite, -, rfl⟩ := exists_site_of_node? hc.toTraced hnode
    exact nodup_alternatives hc.toTraced hsite
  makes hnode hpacked := by
    obtain ⟨site, hsite, -, rfl⟩ := exists_site_of_node? hc.toTraced hnode
    exact makes_of_mem_alternatives hc.toTraced hsite hpacked
  leaf hnode hleaf := by
    obtain ⟨site, hsite, -, rfl⟩ := exists_site_of_node? hc.toTraced hnode
    obtain ⟨hempty, hsymbol⟩ := of_isLeaf_kindOf hleaf
    simpa [hempty] using hsite.fitting hc h hg hsymbol
  empty hnode hkind := by
    obtain ⟨site, hsite, -, rfl⟩ := exists_site_of_node? hc.toTraced hnode
    have hempty := isEpsilon_of_kindOf hkind
    have hsymbol : g.isNonterminal site.category = false := by simp [Grammar.isNonterminal, hempty]
    simpa [hempty] using hsite.fitting hc h hg hsymbol

end Forest

/-- However an editor came about, with grammars over some parts of speech whose synthetic name is none of them and
stands nowhere else, the forest of its chart can be read and is well-formed. -/
theorem Editor.Evolves.read_wellFormed {e : Editor} (h : Evolves (Grammar.Over partsOfSpeech root) e g) :
    Forest.read e.chart g = .ok (Forest.ofChart e.chart g) ∧ (Forest.ofChart e.chart g).WellFormed g := by
  have hg := h.admitted
  have harises : Arises (fun symbol => g.isPartOfSpeech symbol = true) e g :=
    arises_iff_evolves.mpr (h.mono fun g' hg' => hg.partsWithin hg')
  have hc := h.reachable.sound.filed.grounded harises.wired.chart
  exact ⟨Forest.read_eq_ok hc hg.indexed.isSome_rootRule?, Forest.wellFormed_ofChart hc h.licensed hg⟩

open Sample in
/-- In the middle of a transaction in which a unit cycle was inserted, the forest of two words is well-formed, and its
root is below itself. -/
theorem Editor.read_wellFormed_looped : ∃ e e₁ e₂ : Editor,
    (Editor.new blank ample).build lists = .ok (e, none) ∧ e.begin = .ok e₁ ∧
    e₁.insertRule (lists.insert looped) 3 = .ok (e₂, none) ∧ e₂.inTransaction = true ∧
    (lists.insert looped).hasUnitCycle = true ∧
    Forest.read e₂.chart (lists.insert looped) = .ok (Forest.ofChart e₂.chart (lists.insert looped)) ∧
    (Forest.ofChart e₂.chart (lists.insert looped)).WellFormed (lists.insert looped) ∧
    ∃ root ∈ (Forest.ofChart e₂.chart (lists.insert looped)).roots,
      (Forest.ofChart e₂.chart (lists.insert looped)).HasChild root root := by
  have hrun : ((completed? ((Editor.new blank ample).build lists)).bind fun e => e.begin.toOption.bind
      fun e₁ => (completed? (e₁.insertRule (lists.insert looped) 3)).filter fun e₂ => e₂.inTransaction &&
        let f := Forest.ofChart e₂.chart (lists.insert looped)
        f.roots.any fun root => (f.node? root).any fun node =>
          node.alternatives.any fun packed => packed.children.contains root).isSome = true := by
    decide +kernel
  obtain ⟨e₂, hrun⟩ := Option.isSome_iff_exists.mp hrun
  simp only [Option.bind_eq_some_iff, Option.filter_eq_some_iff, Bool.and_eq_true, List.any_eq_true,
    Option.any_eq_true, List.contains_iff_mem] at hrun
  obtain ⟨e, hbuild, e₁, hbegin, hinsert, hopen, root, hroot, hchild⟩ := hrun
  have hbuild := ok_of_completed? hbuild
  have hbegin := ok_of_toOption hbegin
  have hinsert := ok_of_completed? hinsert
  have hover : lists.Over (Std.ExtTreeSet.ofList ["n"]) "γ" :=
    ⟨fit_lists.reachable.indexed, rfl, rfl, by decide +kernel, rootUnused_lists⟩
  have he₁ : Editor.Evolves (Grammar.Over (Std.ExtTreeSet.ofList ["n"]) "γ") e₁ lists :=
    .step (.step (.new _ _ _ hover) (.build hbuild)) (.begin hbegin)
  have he₂ : Editor.Evolves (Grammar.Over (Std.ExtTreeSet.ofList ["n"]) "γ") e₂ (lists.insert looped) :=
    .step (.regrammar he₁ (Editor.sameRules_insert he₁.reachable.sound.filed looped)
      (hover.insert (by decide +kernel))) (.insertRule hinsert)
  obtain ⟨hread, hwell⟩ := Editor.Evolves.read_wellFormed he₂
  obtain ⟨node, hnode, packed, hpacked, hmem⟩ := hchild
  exact ⟨e, e₁, e₂, hbuild, hbegin, hinsert, hopen, by decide +kernel, hread, hwell, root, hroot, node, hnode,
    packed, hpacked, hmem⟩

end IndexedGrammar
