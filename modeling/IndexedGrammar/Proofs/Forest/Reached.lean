import IndexedGrammar.Proofs.Forest.Nodes
import IndexedGrammar.Proofs.Forest.Roots
import Mathlib.Data.List.Perm.Lattice

/-!
# The nodes of two charts

A walk meets nothing but the whole sentences and what is below them, and what is below a site are the parts
of the ways of making it up. So two charts that hold what a grammar finds in the same input lead to nodes
for the same sites, with the same ways of making them up, though perhaps in another order.
-/

namespace IndexedGrammar

namespace Discovery

variable {below : Site → List Site} {holds : Site → Prop} {found : Discovery} {site : Site}

/-- Whatever steps keep of all known sites, a walk to several sites keeps. -/
theorem foldl_induction {sites : List Site} {step : Discovery → Site → Discovery}
    (hstep : ∀ found site, (∀ other, found.Knows other → holds other) → holds site →
      ∀ other, (step found site).Knows other → holds other)
    (hfound : ∀ other, found.Knows other → holds other) (hsites : ∀ site ∈ sites, holds site) :
    ∀ other, (sites.foldl step found).Knows other → holds other := by
  induction sites generalizing found with
  | nil => exact hfound
  | cons first rest ih =>
    obtain ⟨hfirst, hrest⟩ := List.forall_mem_cons.mp hsites
    exact ih (hstep found first hfound hfirst) hrest

/-- A walk meets nothing but what has a property that goes down. -/
theorem visit_induction (hbelow : ∀ site, holds site → ∀ other ∈ below site, holds other) {depth : Nat}
    (hfound : ∀ other, found.Knows other → holds other) (hsite : holds site) :
    ∀ other, (visit below depth found site).Knows other → holds other := by
  induction depth generalizing found site with
  | zero => exact hfound
  | succ depth ih =>
    unfold visit
    split
    · exact hfound
    · refine foldl_induction (fun _ _ => ih) (fun other hother => ?_) (hbelow site hsite)
      rcases knows_meet.mp hother with heq | hknown
      · exact heq ▸ hsite
      · exact hfound other hknown

/-- The sites of a consistent discovery are those that are known. -/
theorem Consistent.mem_sites (h : found.Consistent) : site ∈ found.sites ↔ found.Knows site := by
  rw [knows_iff, Array.mem_iff_getElem?]
  exact exists_congr fun n => h.symm

/-- No site of a consistent discovery was met twice. -/
theorem Consistent.nodup_sites (h : found.Consistent) : found.sites.toList.Nodup := by
  rw [List.nodup_iff_getElem?_ne_getElem?]
  intro i j hij hj heq
  rw [Array.getElem?_toList, Array.getElem?_toList] at heq
  have hsite : found.sites[j]? = some found.sites[j] := Array.getElem?_eq_getElem hj
  have hi := h.mpr (heq.trans hsite)
  rw [h.mpr hsite] at hi
  exact absurd (Option.some.inj hi).symm (Nat.ne_of_lt hij)

end Discovery

namespace Chart

variable {g : Grammar} {c d : Chart} {site : Site}

/-- A live state has a sequence. -/
theorem Grounded.exists_sequence (h : c.Grounded g) {id : Nat} {s : Spot} (hs : c.Live id s) :
    ∃ parts, parts ∈ c.sequences g s.item.dot id := by
  generalize hdot : s.item.dot = dot
  induction dot generalizing id s with
  | zero => exact ⟨[], List.mem_singleton.mpr rfl⟩
  | succ dot ih =>
    obtain ⟨d, state, hstate, hremoved, hd⟩ := h.derived hs
    obtain rfl := hs.unique ⟨state, hstate, hremoved, rfl⟩
    rcases h.derives_cases hstate hremoved hd with hzero | ⟨i, p, symbol, hi, hp, -, hstep, -, hcrossed⟩
    · exact absurd (hzero.symm.trans hdot) (Nat.succ_ne_zero dot).symm
    · have hpdot := dot_of_step hstep hdot
      obtain ⟨rest, hrest⟩ := ih hp hpdot
      rw [hpdot] at hcrossed
      exact ⟨rest ++ [_], mem_sequences_succ.mpr ⟨state, d, _, i, hstate, hd, hcrossed, hi, rest, hrest, rfl⟩⟩

/-- Every site that is read off a live state is part of a sequence. -/
theorem Grounded.exists_sequence_of_mem_sitesOf (h : c.Grounded g) {id : Nat} {s : Spot} (hs : c.Live id s)
    (hsite : site ∈ c.sitesOf g s.item.dot id) : ∃ parts ∈ c.sequences g s.item.dot id, site ∈ parts := by
  generalize hdot : s.item.dot = dot at hsite
  induction dot generalizing id s with
  | zero => exact absurd hsite List.not_mem_nil
  | succ dot ih =>
    obtain ⟨state, d, crossed, i, hstate, hd, hcrossed, hi, hsite⟩ := mem_sitesOf_succ.mp hsite
    obtain ⟨p, -, hp, hpdot, -⟩ := h.crossed_spec hs hdot hstate hd hcrossed hi
    have hlonger {rest : List Site} (hrest : rest ∈ c.sequences g dot i) :
        rest ++ [crossed] ∈ c.sequences g (dot + 1) id :=
      mem_sequences_succ.mpr ⟨state, d, crossed, i, hstate, hd, hcrossed, hi, rest, hrest, rfl⟩
    rcases hsite with heq | hsite
    · obtain ⟨rest, hrest⟩ := h.exists_sequence hp
      exact ⟨rest ++ [crossed], hlonger (hpdot ▸ hrest), by simp [heq]⟩
    · obtain ⟨rest, hrest, hmem⟩ := ih hp hpdot hsite
      exact ⟨rest ++ [crossed], hlonger hrest, List.mem_append_left _ hmem⟩

/-- What is below a site are the parts of the ways of making it up. -/
theorem Grounded.mem_sitesBelow_iff (h : c.Grounded g) {other : Site} : other ∈ c.sitesBelow g site ↔
    ∃ rule origin parts, (rule, origin, parts) ∈ c.waysOf g site ∧ other ∈ parts := by
  constructor
  · intro hother
    unfold sitesBelow isComposite at hother
    split at hother
    · next hsymbol =>
      obtain ⟨id, hid, hother⟩ := List.mem_flatMap.mp hother
      obtain ⟨s, hs, -⟩ := h.filed.mem_completed.mp hid
      obtain ⟨r, hr⟩ := Option.isSome_iff_exists.mp (h.filed.known hs.spot?)
      obtain ⟨state, hstate, hremoved, rfl⟩ := hs
      rw [hstate] at hother
      obtain ⟨parts, hparts, hmem⟩ :=
        h.exists_sequence_of_mem_sitesOf ⟨state, hstate, hremoved, rfl⟩ hother
      exact ⟨state.item.rule, r.origin, parts,
        Chart.mem_waysOf.mpr ⟨hsymbol, id, hid, state, r, hstate, hr, rfl, rfl, hparts⟩, hmem⟩
    · exact absurd hother List.not_mem_nil
  · intro hgiven
    obtain ⟨rule, origin, parts, hway, hmem⟩ := hgiven
    exact mem_sitesBelow hway hmem

/-- The parts of a site that is found are found. -/
theorem Settled.found_parts (h : c.Settled g) (hsite : site.Found g c.input c.layout.last) {rule : Nat}
    {origin : Option Nat} {parts : List Site} (hway : (rule, origin, parts) ∈ c.waysOf g site)
    {part : Site} (hpart : part ∈ parts) : part.Found g c.input c.layout.last := by
  obtain ⟨r, -, -, -, hrow⟩ := (h.mem_waysOf hsite (Chart.mem_waysOf.mp hway).1).mp hway
  exact hrow.found part hpart

/-- No whole sentence is listed twice. -/
theorem nodup_rootSites (c : Chart) (g : Grammar) : (c.rootSites g).Nodup :=
  nodup_addNew _ List.nodup_nil

/-- Two charts that hold what a grammar finds in the same input. -/
structure Twins (g : Grammar) (c d : Chart) : Prop where
  left : c.Settled g
  right : d.Settled g
  layout : d.layout = c.layout
  input : d.input = c.input

namespace Twins

/-- What is found by one chart is found by the other. -/
theorem found (h : Twins g c d) (hsite : site.Found g c.input c.layout.last) :
    site.Found g d.input d.layout.last := by
  rwa [h.layout, h.input]

/-- Twins have the same whole sentences. -/
theorem rootSites_perm (h : Twins g c d) : (c.rootSites g).Perm (d.rootSites g) := by
  refine (List.perm_ext_iff_of_nodup (nodup_rootSites c g) (nodup_rootSites d g)).mpr fun site => ?_
  rw [h.left.mem_rootSites, h.right.mem_rootSites, h.layout, h.input]

/-- Twins have the same ways of making up a site that is found. -/
theorem waysOf_perm (h : Twins g c d) (hsite : site.Found g c.input c.layout.last) :
    (c.waysOf g site).Perm (d.waysOf g site) := by
  refine (List.perm_ext_iff_of_nodup (nodup_waysOf c g site) (nodup_waysOf d g site)).mpr ?_
  intro way
  obtain ⟨rule, origin, parts⟩ := way
  cases hsymbol : g.isNonterminal site.category with
  | false => simp [Chart.mem_waysOf, hsymbol]
  | true =>
    rw [h.left.mem_waysOf hsite hsymbol, h.right.mem_waysOf (h.found hsite) hsymbol, h.layout, h.input]

end Twins

/-- What holds of the whole sentences, and of the parts of whatever it holds of, holds of every site with a node. -/
theorem HasNode.induction (h : c.Grounded g) (holds : Site → Prop)
    (hroots : ∀ site ∈ c.rootSites g, holds site)
    (hparts : ∀ site, holds site → ∀ rule origin parts, (rule, origin, parts) ∈ c.waysOf g site →
      ∀ part ∈ parts, holds part) (hsite : c.HasNode g site) : holds site := by
  have hbelow (site : Site) (hholds : holds site) : ∀ other ∈ c.sitesBelow g site, holds other := by
    intro other hother
    obtain ⟨rule, origin, parts, hway, hmem⟩ := h.mem_sitesBelow_iff.mp hother
    exact hparts site hholds rule origin parts hway other hmem
  exact Discovery.foldl_induction (fun _ _ hfound hsite => Discovery.visit_induction hbelow hfound hsite)
    (fun _ hknown => absurd hknown Discovery.not_knows_empty) hroots site hsite

/-- A site with a node is found, and it ends where the input ends at the latest. -/
theorem HasNode.found (h : c.Settled g) (hsite : c.HasNode g site) :
    site.Found g c.input c.layout.last ∧ site.stop ≤ c.layout.last := by
  refine hsite.induction h.grounded (fun site => site.Found g c.input c.layout.last ∧ site.stop ≤ c.layout.last)
    (fun site hroot => ?_) fun site hfound rule origin parts hway part hpart => ?_
  · obtain ⟨-, -, hfinal, hfound⟩ := h.mem_rootSites.mp hroot
    exact ⟨hfound, Layout.le_last_of_isFinal hfinal⟩
  · obtain ⟨r, -, -, -, hrow⟩ := (h.mem_waysOf hfound.1 (Chart.mem_waysOf.mp hway).1).mp hway
    exact ⟨hrow.found part hpart, Nat.le_trans (hrow.within hpart).2 hfound.2⟩

/-- The walk meets the sites with nodes. -/
theorem Traced.mem_sites (h : c.Traced g) {site : Site} :
    site ∈ (Forest.discover c g).sites.toList ↔ c.HasNode g site :=
  Array.mem_toList_iff.trans (Discovery.Consistent.mem_sites h.explores_discover.1.consistent)

/-- Two charts that read alike, though perhaps for different grammars: the nonterminals and the whole sentences are
the same, and so are the ways of making up whatever they lead to. -/
structure ReadAlike (g g' : Grammar) (c d : Chart) : Prop where
  left : c.Settled g
  right : d.Settled g'
  isNonterminal_eq : ∀ category, g'.isNonterminal category = g.isNonterminal category
  rootSites_perm : (c.rootSites g).Perm (d.rootSites g')
  waysOf_perm : ∀ {site}, c.HasNode g site → (c.waysOf g site).Perm (d.waysOf g' site)

/-- Twins read alike. -/
theorem Twins.readAlike (h : Twins g c d) : ReadAlike g g c d where
  left := h.left
  right := h.right
  isNonterminal_eq _ := rfl
  rootSites_perm := h.rootSites_perm
  waysOf_perm hsite := h.waysOf_perm (hsite.found h.left).1

namespace ReadAlike

variable {g' : Grammar}

/-- Charts that read alike lead to nodes for the same sites. -/
theorem hasNode_iff (h : ReadAlike g g' c d) : d.HasNode g' site ↔ c.HasNode g site := by
  constructor <;> intro hsite
  · refine hsite.induction h.right.grounded (c.HasNode g) (fun site hroot => ?_)
      fun site hnode rule origin parts hway part hpart => ?_
    · exact h.left.traced.explores_discover.2 site (h.rootSites_perm.mem_iff.mpr hroot)
    · exact hnode.parts h.left.traced ((h.waysOf_perm hnode).mem_iff.mpr hway) hpart
  · refine (hsite.induction h.left.grounded (fun site => c.HasNode g site ∧ d.HasNode g' site) (fun site hroot => ?_)
      fun site hnode rule origin parts hway part hpart => ?_).2
    · exact ⟨h.left.traced.explores_discover.2 site hroot,
        h.right.traced.explores_discover.2 site (h.rootSites_perm.mem_iff.mp hroot)⟩
    · exact ⟨hnode.1.parts h.left.traced hway hpart,
        hnode.2.parts h.right.traced ((h.waysOf_perm hnode.1).mem_iff.mp hway) hpart⟩

/-- Walks over charts that read alike meet the same sites. -/
theorem sites_perm (h : ReadAlike g g' c d) :
    (Forest.discover c g).sites.toList.Perm (Forest.discover d g').sites.toList := by
  have hleft : (Forest.discover c g).Consistent := h.left.traced.explores_discover.1.consistent
  have hright : (Forest.discover d g').Consistent := h.right.traced.explores_discover.1.consistent
  refine (List.perm_ext_iff_of_nodup hleft.nodup_sites hright.nodup_sites).mpr fun site => ?_
  rw [h.left.traced.mem_sites, h.right.traced.mem_sites, h.hasNode_iff]

end ReadAlike

end Chart

end IndexedGrammar
