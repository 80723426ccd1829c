import IndexedGrammar.Proofs.Forest.Alike
import IndexedGrammar.Proofs.Forest.Enumeration
import IndexedGrammar.Proofs.Parse.Renumbered
import IndexedGrammar.Proofs.Result

/-!
# The rules that a forest uses

Every node of a forest takes part in a parse of a whole sentence, for parses of the other parts can be found
beside every parse of a node; and every rule that such a parse applies is in a way of making up some node. So a
forest uses exactly the rules that are applied in parses of whole sentences.
-/

namespace IndexedGrammar

namespace Chart

variable {g : Grammar} {c : Chart} {site part : Site} {rule : Nat} {origin : Option Nat} {parts : List Site}

/-! Nodes take part in sentences -/

/-- Whether every parse of a site can be completed to one of a whole sentence. -/
def TakesPart (c : Chart) (g : Grammar) (site : Site) : Prop :=
  ∀ t, Covers g c.input c.layout.last site t → ∃ u, c.IsSentence g u ∧ t.rules ⊆ u.rules

/-- The parts in a way of making up a site that is found are within the columns and have parses. -/
theorem Settled.parses_parts (h : c.Settled g) (hfound : site.Found g c.input c.layout.last)
    (hlast : site.stop ≤ c.layout.last) (hway : (rule, origin, parts) ∈ c.waysOf g site) :
    ∀ part ∈ parts, part.stop ≤ c.layout.last ∧ ∃ t, Covers g c.input c.layout.last part t := by
  intro part hpart
  obtain ⟨r, -, -, -, hrow⟩ := (h.mem_waysOf hfound (Chart.mem_waysOf.mp hway).1).mp hway
  have hstop := Nat.le_trans (hrow.within hpart).2 hlast
  exact ⟨hstop, (h.found_parts hfound hway hpart).exists_parse h.indexed h.rootUnasked hstop⟩

/-- Parses of the parts in a way of making up a site that is found make up a parse of it. -/
theorem Settled.covers_of_way (h : c.Settled g) (hfound : site.Found g c.input c.layout.last)
    (hlast : site.stop ≤ c.layout.last) (hway : (rule, origin, parts) ∈ c.waysOf g site) {ts : List Parse}
    (hts : List.Forall₂ (Covers g c.input c.layout.last) parts ts) :
    Covers g c.input c.layout.last site (.apply site.category rule ts) :=
  (covers_iff_exists_way h hfound hlast (Chart.mem_waysOf.mp hway).1).mpr ⟨_, hway, ts, hts, rfl⟩

/-- A site with a node is found within the columns, and takes part in whole sentences. -/
theorem HasNode.takesPart (h : c.Settled g) (hsite : c.HasNode g site) :
    site.Found g c.input c.layout.last ∧ site.stop ≤ c.layout.last ∧ c.TakesPart g site := by
  have hall : ∀ site, (Forest.discover c g).Knows site →
      site.Found g c.input c.layout.last ∧ site.stop ≤ c.layout.last ∧ c.TakesPart g site := by
    refine Discovery.foldl_induction (fun _ _ hknown hsite => Discovery.visit_induction ?_ hknown hsite)
      (fun _ hknown => absurd hknown Discovery.not_knows_empty) (fun site hroot => ?_)
    · rintro site ⟨hfound, hlast, htakes⟩ part hpart
      obtain ⟨rule, origin, parts, hway, hmem⟩ := h.grounded.mem_sitesBelow_iff.mp hpart
      have hparts := h.parses_parts hfound hlast hway
      refine ⟨h.found_parts hfound hway hmem, (hparts part hmem).1, fun t ht => ?_⟩
      obtain ⟨ts, hts, htmem⟩ := exists_forall₂_mem (fun other hother => (hparts other hother).2) hmem ht
      obtain ⟨u, hu, hrules⟩ := htakes _ (h.covers_of_way hfound hlast hway hts)
      refine ⟨u, hu, fun other hother => hrules ?_⟩
      exact List.mem_cons_of_mem rule (Parse.mem_rulesOf.mpr ⟨t, htmem, hother⟩)
    · obtain ⟨-, -, hfinal, hfound⟩ := h.mem_rootSites.mp hroot
      refine ⟨hfound, Layout.le_last_of_isFinal hfinal, fun t ht => ?_⟩
      exact ⟨t, h.covers_rootSites_iff.mp ⟨site, hroot, ht⟩, List.Subset.refl _⟩
  exact hall site hsite

/-- The rules in a way of making up a site with a node are used. -/
theorem HasNode.mem_rulesUsed (h : c.Settled g) (hsite : c.HasNode g site)
    (hway : (rule, origin, parts) ∈ c.waysOf g site) : (rule, origin) ∈ c.rulesUsed g :=
  List.mem_flatMap.mpr ⟨site, h.traced.mem_sites.mpr hsite, List.mem_map.mpr ⟨_, hway, rfl⟩⟩

/-! Rules that are used -/

mutual

/-- The rules that are applied in a parse of a site with a node are used. -/
theorem HasNode.used_of_covers (h : c.Settled g) {site : Site} : (t : Parse) → c.HasNode g site →
    Covers g c.input c.layout.last site t →
    ∀ rule ∈ t.rules, ∃ r, (rule, r) ∈ g.rules ∧ (rule, r.origin) ∈ c.rulesUsed g
  | .word _, _, _, _, hrule => absurd hrule List.not_mem_nil
  | .nothing, _, _, _, hrule => absurd hrule List.not_mem_nil
  | .apply category applied ts, hsite, hcovers, rule, hrule => by
    obtain ⟨hfound, hlast, -⟩ := hsite.takesPart h
    have hsymbol : g.isNonterminal site.category = true := by
      have hparse := hcovers.isParse
      rw [Grammar.IsParse] at hparse
      exact hparse.2.1
    obtain ⟨⟨way, origin, parts⟩, hway, us, hus, heq⟩ :=
      (covers_iff_exists_way h hfound hlast hsymbol).mp hcovers
    obtain ⟨-, rfl, rfl⟩ := Parse.apply.inj heq
    rcases List.mem_cons.mp hrule with rfl | hparts
    · obtain ⟨r, hr, -, rfl, -⟩ := (h.mem_waysOf hfound hsymbol).mp hway
      exact ⟨r, hr, hsite.mem_rulesUsed h hway⟩
    · exact used_of_covers_all h ts (fun part hpart => hsite.parts h.traced hway hpart) hus rule hparts

/-- The rules that are applied in parses of sites with nodes are used. -/
theorem used_of_covers_all (h : c.Settled g) {parts : List Site} : (ts : List Parse) →
    (∀ part ∈ parts, c.HasNode g part) → List.Forall₂ (Covers g c.input c.layout.last) parts ts →
    ∀ rule ∈ Parse.rulesOf ts, ∃ r, (rule, r) ∈ g.rules ∧ (rule, r.origin) ∈ c.rulesUsed g
  | [], _, _, _, hrule => absurd hrule List.not_mem_nil
  | t :: ts, hnodes, hcovers, rule, hrule => by
    obtain ⟨part, rest, hpart, hrest, rfl⟩ := List.forall₂_cons_right_iff.mp hcovers
    obtain ⟨hnode, hnodes⟩ := List.forall_mem_cons.mp hnodes
    rcases List.mem_append.mp hrule with hfirst | hothers
    · exact HasNode.used_of_covers h t hnode hpart rule hfirst
    · exact used_of_covers_all h ts hnodes hrest rule hothers

end

/-- The rules that are applied in a parse of a whole sentence are used. -/
theorem IsSentence.mem_rulesUsed (h : c.Settled g) {t : Parse} (ht : c.IsSentence g t) (hrule : rule ∈ t.rules) :
    ∃ r, (rule, r) ∈ g.rules ∧ (rule, r.origin) ∈ c.rulesUsed g := by
  obtain ⟨site, hroot, hcovers⟩ := h.covers_rootSites_iff.mpr ht
  exact HasNode.used_of_covers h t (h.traced.explores_discover.2 site hroot) hcovers rule hrule

/-- A forest uses the rules that are applied in parses of whole sentences. -/
theorem Settled.mem_rulesUsed (h : c.Settled g) : (rule, origin) ∈ c.rulesUsed g ↔
    ∃ t, c.IsSentence g t ∧ rule ∈ t.rules ∧ ∃ r, (rule, r) ∈ g.rules ∧ r.origin = origin := by
  constructor
  · intro hused
    obtain ⟨site, hsite, hused⟩ := List.mem_flatMap.mp hused
    obtain ⟨⟨rule', origin', parts⟩, hway, heq⟩ := List.mem_map.mp hused
    obtain ⟨rfl, rfl⟩ : rule' = rule ∧ origin' = origin := Prod.mk.inj heq
    have hnode : c.HasNode g site := h.traced.mem_sites.mp hsite
    obtain ⟨hfound, hlast, htakes⟩ := hnode.takesPart h
    obtain ⟨r, hr, -, horigin, -⟩ := (h.mem_waysOf hfound (Chart.mem_waysOf.mp hway).1).mp hway
    obtain ⟨ts, hts⟩ := exists_forall₂ fun part hpart => (h.parses_parts hfound hlast hway part hpart).2
    obtain ⟨u, hu, hrules⟩ := htakes _ (h.covers_of_way hfound hlast hway hts)
    exact ⟨u, hu, hrules List.mem_cons_self, r, hr, horigin⟩
  · rintro ⟨t, ht, hrule, r, hr, rfl⟩
    obtain ⟨r', hr', hused⟩ := ht.mem_rulesUsed h hrule
    obtain rfl := (Grammar.mem_rules_iff.mp hr).2.unique (Grammar.mem_rules_iff.mp hr').2
    exact hused

end Chart

/-! Counting uses -/

/-- Counting uses of a rule adds it to the rules that are used. -/
theorem Usage.mem_add {usage : Usage} {rule n m : Nat} :
    m ∈ usage.add rule n ↔ m = rule ∨ m ∈ usage := by
  rw [Usage.add, Std.ExtTreeMap.mem_insert, Std.compare_eq_iff_eq, eq_comm]

/-- When every element of a list adds some rules, the rules used in the end are those and the first ones. -/
theorem Usage.mem_foldl {α : Type} {step : Usage → α → Usage} {n : Nat} {adds : α → Prop}
    (hstep : ∀ usage a, n ∈ step usage a ↔ adds a ∨ n ∈ usage) (as : List α) (usage : Usage) :
    n ∈ as.foldl step usage ↔ (∃ a ∈ as, adds a) ∨ n ∈ usage := by
  induction as generalizing usage with
  | nil => simp
  | cons a as ih =>
    rw [List.foldl_cons, ih, hstep, List.exists_mem_cons_iff, or_left_comm, or_assoc]

/-- Adding rule by rule unites the rules that are used. -/
theorem Usage.mem_merge {usage more : Usage} {n : Nat} : n ∈ usage.merge more ↔ n ∈ more ∨ n ∈ usage := by
  have hstep (usage : Usage) (entry : Nat × Nat) :
      n ∈ usage.add entry.1 entry.2 ↔ n = entry.1 ∨ n ∈ usage := Usage.mem_add
  refine (Usage.mem_foldl hstep more.toList usage).trans (or_congr_left ?_)
  rw [Std.ExtTreeMap.mem_iff_isSome_getElem?, Option.isSome_iff_exists]
  simp only [Prod.exists, Std.ExtTreeMap.mem_toList_iff_getElem?_eq_some]
  exact ⟨fun ⟨_, m, hm, heq⟩ => ⟨m, heq ▸ hm⟩, fun ⟨m, hm⟩ => ⟨n, m, hm, rfl⟩⟩

/-- A rule is used in a forest if it is applied in a parse of a whole sentence. -/
theorem Forest.mem_ruleUsage {g : Grammar} {c : Chart} (h : c.Settled g) {n : Nat} :
    n ∈ (Forest.ofChart c g).ruleUsage ↔ ∃ t, c.IsSentence g t ∧ n ∈ t.rules := by
  have hused : n ∈ (Forest.ofChart c g).ruleUsage ↔ ∃ used ∈ c.rulesUsed g, used.1 = n := by
    rw [ruleUsage_ofChart]
    refine (Usage.mem_foldl (fun usage used => ?_) _ _).trans (or_iff_left Std.ExtTreeMap.not_mem_empty)
    rw [Usage.mem_add, eq_comm]
  rw [hused]
  constructor
  · rintro ⟨⟨rule, origin⟩, hmem, rfl⟩
    obtain ⟨t, ht, hrule, -⟩ := h.mem_rulesUsed.mp hmem
    exact ⟨t, ht, hrule⟩
  · rintro ⟨t, ht, hrule⟩
    obtain ⟨r, -, hmem⟩ := ht.mem_rulesUsed h hrule
    exact ⟨_, hmem, rfl⟩

/-- A schema rule is used in a forest if an instance of it is applied in a parse of a whole sentence. -/
theorem Forest.mem_schemaUsage {g : Grammar} {c : Chart} (h : c.Settled g) {n : Nat} :
    n ∈ (Forest.ofChart c g).schemaUsage ↔ ∃ t, c.IsSentence g t ∧ g.Applies t n := by
  have hused : n ∈ (Forest.ofChart c g).schemaUsage ↔ ∃ used ∈ c.rulesUsed g, used.2 = some n := by
    rw [schemaUsage_ofChart]
    refine (Usage.mem_foldl (fun usage used => ?_) _ _).trans (or_iff_left Std.ExtTreeMap.not_mem_empty)
    cases used.2 with
    | none => simp
    | some origin => rw [Usage.mem_add, Option.some.injEq, eq_comm]
  rw [hused, Prod.exists]
  simp only [h.mem_rulesUsed, Grammar.Applies]
  constructor
  · rintro ⟨rule, origin, ⟨t, ht, hrule, r, hr, rfl⟩, horigin⟩
    exact ⟨t, ht, rule, hrule, r, hr, horigin⟩
  · rintro ⟨t, ht, rule, hrule, r, hr, horigin⟩
    exact ⟨rule, _, ⟨t, ht, hrule, r, hr, rfl⟩, horigin⟩

end IndexedGrammar
