import IndexedGrammar.Proofs.Forest.Discovery
import IndexedGrammar.Proofs.Forest.Ways

/-!
# The nodes of a forest

Everything that the walk through a chart comes upon was crossed by some dot, or is a whole sentence. So the
chart has enough derivations for the walk to meet every site below a site that it meets: the parts of
every way of making up a node have nodes, and the number of a site is that of its node.
-/

namespace IndexedGrammar

namespace Chart

variable {g : Grammar} {terminal : Category → Prop} {c : Chart}

/-- The sites that dots were moved over. -/
def crossedSites (c : Chart) (g : Grammar) : List Site :=
  c.states.toList.flatMap fun state => state.derivations.filterMap fun d =>
    c.crossed? g state (state.item.dot - 1) d

/-- A derivation moves a dot over at most one site. -/
theorem length_crossedSites_le (c : Chart) (g : Grammar) :
    (c.crossedSites g).length ≤ Forest.derivationCount c := by
  unfold crossedSites Forest.derivationCount
  induction c.states.toList with
  | nil => exact Nat.le_refl 0
  | cons state states ih =>
    rw [List.flatMap_cons, List.length_append, total]
    exact Nat.add_le_add (List.length_filterMap_le _ _) ih

/-- What is read off a derivation: what the dot was moved over, and what is read off the predecessor. -/
theorem mem_sitesOf_succ {dot id : Nat} {site : Site} :
    site ∈ c.sitesOf g (dot + 1) id ↔ ∃ state d crossed i, c.states[id]? = some state ∧
      d ∈ state.derivations ∧ c.crossed? g state dot d = some crossed ∧ d.predecessor = some i ∧
      (site = crossed ∨ site ∈ c.sitesOf g dot i) := by
  rw [sitesOf]
  cases hstate : c.states[id]? with
  | none => simp
  | some state =>
    rw [List.mem_flatMap]
    constructor
    · intro hgiven
      obtain ⟨d, hd, hsite⟩ := hgiven
      split at hsite
      · next crossed i hcrossed hi =>
        exact ⟨state, d, crossed, i, rfl, hd, hcrossed, hi, List.mem_cons.mp hsite⟩
      · exact absurd hsite List.not_mem_nil
    · intro hgiven
      obtain ⟨state', d, crossed, i, hstate', hd, hcrossed, hi, hsite⟩ := hgiven
      obtain rfl := Option.some.inj hstate'
      refine ⟨d, hd, ?_⟩
      rw [hcrossed, hi]
      exact List.mem_cons.mpr hsite

/-- The sequences read off a state consist of the sites read off it. -/
theorem mem_sitesOf_of_sequences {dot id : Nat} {parts : List Site} (h : parts ∈ c.sequences g dot id)
    {site : Site} (hsite : site ∈ parts) : site ∈ c.sitesOf g dot id := by
  induction dot generalizing id parts with
  | zero =>
    rw [sequences, List.mem_singleton] at h
    exact absurd (h ▸ hsite) List.not_mem_nil
  | succ dot ih =>
    obtain ⟨state, d, crossed, i, hstate, hd, hcrossed, hi, rest, hrest, heq⟩ :=
      mem_sequences_succ.mp h
    refine mem_sitesOf_succ.mpr ⟨state, d, crossed, i, hstate, hd, hcrossed, hi, ?_⟩
    rw [← heq, List.mem_append, List.mem_singleton] at hsite
    exact hsite.symm.imp_right fun hmem => ih hrest hmem

/-- The parts of a way of making up a site are below the site. -/
theorem mem_sitesBelow {site : Site} {rule : Nat} {origin : Option Nat} {parts : List Site}
    (h : (rule, origin, parts) ∈ c.waysOf g site) {part : Site} (hpart : part ∈ parts) :
    part ∈ c.sitesBelow g site := by
  obtain ⟨hsymbol, id, hid, state, r, hstate, -, -, -, hparts⟩ := mem_waysOf.mp h
  unfold sitesBelow isComposite
  rw [if_pos hsymbol, List.mem_flatMap]
  refine ⟨id, hid, ?_⟩
  rw [hstate]
  exact mem_sitesOf_of_sequences hparts hpart

/-- Everything read off a live state was crossed by some dot. -/
theorem mem_crossedSites (hsteps : ∀ {id s d}, c.Live id s → c.Derives id d → c.Steps g terminal s d) {id : Nat}
    {s : Spot} (hs : c.Live id s) {site : Site} (hsite : site ∈ c.sitesOf g s.item.dot id) :
    site ∈ c.crossedSites g := by
  generalize hdot : s.item.dot = dot at hsite
  induction dot generalizing id s with
  | zero => exact absurd hsite List.not_mem_nil
  | succ dot ih =>
    obtain ⟨state, d, crossed, i, hstate, hd, hcrossed, hi, hsite⟩ := mem_sitesOf_succ.mp hsite
    obtain ⟨hremoved, rfl⟩ := hs.state hstate
    have hdot' : state.item.dot = dot + 1 := hdot
    rcases hsite with heq | hsite
    · subst heq
      refine List.mem_flatMap.mpr ⟨state, ?_, List.mem_filterMap.mpr ⟨d, hd, ?_⟩⟩
      · exact Array.mem_toList_iff.mpr (Array.mem_of_getElem? hstate)
      · rw [hdot', Nat.add_sub_cancel, hcrossed]
    · have hsteps := hsteps ⟨state, hstate, hremoved, rfl⟩ ⟨state, hstate, hremoved, hd⟩
      obtain ⟨p, hp, hpdot⟩ := hsteps.predecessor hi
      exact ih hp (Nat.succ.inj (hpdot.symm.trans hdot)) hsite

/-- Everything below a site was crossed by some dot. -/
theorem Filed.sitesBelow_crossed (hc : c.Filed g)
    (hsteps : ∀ {id s d}, c.Live id s → c.Derives id d → c.Steps g terminal s d) {site other : Site}
    (hother : other ∈ c.sitesBelow g site) : other ∈ c.crossedSites g := by
  unfold sitesBelow at hother
  split at hother
  · obtain ⟨id, hid, hother⟩ := List.mem_flatMap.mp hother
    obtain ⟨s, hs, -, -, -⟩ := hc.mem_completed.mp hid
    obtain ⟨state, hstate, hremoved, hspot⟩ := hs
    subst hspot
    rw [hstate] at hother
    exact mem_crossedSites hsteps ⟨state, hstate, hremoved, rfl⟩ hother
  · exact absurd hother List.not_mem_nil

/-- The walk may go deeper than there are whole sentences and sites that dots were moved over. -/
theorem missing_lt_depth (c : Chart) (g : Grammar) :
    Discovery.missing (c.rootSites g ++ c.crossedSites g) .empty <
      Forest.derivationCount c + (c.rootSites g).length + 1 := by
  have hmissing : Discovery.missing (c.rootSites g ++ c.crossedSites g) .empty ≤
      (c.rootSites g ++ c.crossedSites g).length := List.countP_le_length
  have hlength : (c.rootSites g ++ c.crossedSites g).length = (c.rootSites g).length + (c.crossedSites g).length :=
    List.length_append
  have hcrossed := length_crossedSites_le c g
  omega

/-- The number of a site in the forest of a chart. -/
def siteNumber (c : Chart) (g : Grammar) (site : Site) : Nat :=
  (Forest.discover c g).numbers.getD site 0

/-- Whether a site has a node in the forest of a chart. -/
def HasNode (c : Chart) (g : Grammar) (site : Site) : Prop :=
  (Forest.discover c g).Knows site

/-- The walk meets the whole sentences and everything below the sites that it meets. -/
theorem Traced.explores_discover (h : c.Traced g) :
    Discovery.Explores (c.sitesBelow g) .empty (Forest.discover c g) ∧
      ∀ site ∈ c.rootSites g, c.HasNode g site := by
  have hbelow : ∀ site ∈ c.rootSites g ++ c.crossedSites g, ∀ other ∈ c.sitesBelow g site,
      other ∈ c.rootSites g ++ c.crossedSites g :=
    fun _ _ other hother => List.mem_append_right _ (h.filed.sitesBelow_crossed h.steps hother)
  exact Discovery.explores_foldl (fun _ _ hfound hsite hdepth =>
    Discovery.visit_spec hbelow hfound hsite hdepth)
    (fun _ hsite => List.mem_append_left _ hsite) Discovery.consistent_empty (missing_lt_depth c g)

/-- The walk may go deeper and meets the same sites in the same order. -/
theorem Filed.discover_eq (hc : c.Filed g)
    (hsteps : ∀ {id s d}, c.Live id s → c.Derives id d → c.Steps g terminal s d) {depth : Nat}
    (hdepth : Forest.derivationCount c + (c.rootSites g).length + 1 ≤ depth) :
    Forest.discover c g = (c.rootSites g).foldl (Discovery.visit (c.sitesBelow g) depth) .empty := by
  have hbelow : ∀ site ∈ c.rootSites g ++ c.crossedSites g, ∀ other ∈ c.sitesBelow g site,
      other ∈ c.rootSites g ++ c.crossedSites g :=
    fun _ _ other hother => List.mem_append_right _ (hc.sitesBelow_crossed hsteps hother)
  have hmissing := missing_lt_depth c g
  exact Discovery.foldl_visit_eq hbelow (fun hfound hsite hdepth hmore => Discovery.visit_eq hbelow hfound hsite hdepth
    hmore) (fun _ hsite => List.mem_append_left _ hsite) Discovery.consistent_empty hmissing
    (Nat.lt_of_lt_of_le hmissing hdepth)

/-- The parts of a way of making up a node have nodes. -/
theorem HasNode.parts (h : c.Traced g) {site : Site} (hsite : c.HasNode g site) {rule : Nat}
    {origin : Option Nat} {parts : List Site} (hway : (rule, origin, parts) ∈ c.waysOf g site) {part : Site}
    (hpart : part ∈ parts) : c.HasNode g part :=
  h.explores_discover.1.closed hsite Discovery.not_knows_empty part (mem_sitesBelow hway hpart)

/-- The number of a site with a node is the place of the site. -/
theorem HasNode.sites_siteNumber (h : c.Traced g) {site : Site} (hsite : c.HasNode g site) :
    (Forest.discover c g).sites[c.siteNumber g site]? = some site := by
  obtain ⟨n, hn⟩ := Discovery.knows_iff.mp hsite
  have hnumber : c.siteNumber g site = n := by
    rw [siteNumber, Std.ExtTreeMap.getD_eq_getD_getElem?, hn, Option.getD_some]
  rw [hnumber]
  exact h.explores_discover.1.consistent.mp hn

/-- What stands at some place of the walk has a node with that number. -/
theorem hasNode_of_sites (h : c.Traced g) {site : Site} {id : Nat}
    (hsite : (Forest.discover c g).sites[id]? = some site) : c.HasNode g site ∧ c.siteNumber g site = id := by
  have hnumber := h.explores_discover.1.consistent.mpr hsite
  refine ⟨Discovery.knows_iff.mpr ⟨id, hnumber⟩, ?_⟩
  rw [siteNumber, Std.ExtTreeMap.getD_eq_getD_getElem?, hnumber, Option.getD_some]

/-- Sites with nodes have different numbers. -/
theorem HasNode.siteNumber_inj (h : c.Traced g) {site other : Site} (hsite : c.HasNode g site)
    (hother : c.HasNode g other) (heq : c.siteNumber g site = c.siteNumber g other) : site = other := by
  have hplace := hsite.sites_siteNumber h
  rw [heq, hother.sites_siteNumber h] at hplace
  exact (Option.some.inj hplace).symm

end Chart

namespace Forest

variable {g : Grammar} {c : Chart}

/-- The nodes of a forest are numbered in the order of the walk. -/
theorem node?_ofChart (c : Chart) (g : Grammar) (id : Nat) :
    (ofChart c g).node? id = ((discover c g).sites[id]?).map fun site =>
      ⟨site, kindOf c g (c.siteNumber g) site⟩ :=
  Array.getElem?_map

/-- A place of the walk is the number of the site that stands there. -/
theorem getElem?_sites (h : c.Traced g) {site : Site} {id : Nat} :
    (discover c g).sites[id]? = some site ↔ c.HasNode g site ∧ c.siteNumber g site = id := by
  refine ⟨Chart.hasNode_of_sites h, fun hgiven => ?_⟩
  obtain ⟨hnode, rfl⟩ := hgiven
  exact hnode.sites_siteNumber h

/-- Every node of a forest is that of a site. -/
theorem exists_site_of_node? (h : c.Traced g) {id : Nat} {node : Node} (hnode : (ofChart c g).node? id = some node) :
    ∃ site, c.HasNode g site ∧ c.siteNumber g site = id ∧ node = ⟨site, kindOf c g (c.siteNumber g) site⟩ := by
  rw [node?_ofChart] at hnode
  obtain ⟨site, hsite, rfl⟩ := Option.map_eq_some_iff.mp hnode
  obtain ⟨hnode, hnumber⟩ := (getElem?_sites h).mp hsite
  exact ⟨site, hnode, hnumber, rfl⟩

/-- The node of a site. -/
theorem node?_siteNumber (h : c.Traced g) {site : Site} (hsite : c.HasNode g site) :
    (ofChart c g).node? (c.siteNumber g site) = some ⟨site, kindOf c g (c.siteNumber g) site⟩ := by
  rw [node?_ofChart, hsite.sites_siteNumber h, Option.map_some]

/-- The numbers of sites with nodes are below the number of nodes. -/
theorem siteNumber_lt_size (h : c.Traced g) {site : Site} (hsite : c.HasNode g site) :
    c.siteNumber g site < (ofChart c g).size := by
  have hplace := hsite.sites_siteNumber h
  have hlt := (Array.getElem?_eq_some_iff.mp hplace).1
  rwa [size, ofChart, Array.size_map]

/-- No site of a grounded chart is unreadable: live states are on rules of the grammar, with their dots within
the rules. -/
theorem isUnreadable_eq_false (h : c.Grounded g) (site : Site) : c.isUnreadable g site = false := by
  refine Bool.and_eq_false_imp.mpr fun _ => List.any_eq_false.mpr fun id hid => ?_
  obtain ⟨s, hs, -⟩ := h.filed.mem_completed.mp hid
  obtain ⟨r, hr⟩ := Option.isSome_iff_exists.mp (h.filed.known hs.spot?)
  have hwithin := h.dot_le hs hr
  obtain ⟨state, hstate, -, rfl⟩ := hs
  have hrule : g.rule? state.item.rule = some r := hr
  have hwithin : state.item.dot ≤ r.rhs.length := hwithin
  rw [hstate]
  dsimp only
  rw [hrule]
  simpa using hwithin

/-- A grounded chart can be read, if the grammar has a synthetic rule. -/
theorem read_eq_ok (h : c.Grounded g) (hroot : g.rootRule?.isSome) : read c g = .ok (ofChart c g) := by
  unfold read
  rw [Option.isNone_eq_false_iff.mpr hroot, if_neg Bool.false_ne_true]
  simp [isUnreadable_eq_false h]

/-- Exactly the nodes of the empty category are empty. -/
theorem isEmptyNode_siteNumber (h : c.Traced g) {site : Site} (hsite : c.HasNode g site) :
    (ofChart c g).isEmptyNode (c.siteNumber g site) = site.category.isEpsilon := by
  rw [isEmptyNode, node?_siteNumber h hsite]
  unfold kindOf
  cases hempty : site.category.isEpsilon with
  | true => simp
  | false => cases hpos : g.isPartOfSpeech site.category <;> simp

end Forest

end IndexedGrammar
