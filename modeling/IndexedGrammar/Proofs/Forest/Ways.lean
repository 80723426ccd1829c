import IndexedGrammar.Proofs.Chart.Pruned
import IndexedGrammar.Proofs.Forest.Traced

/-!
# Reading a chart

Reading the derivations of a state backwards gives exactly the rows of found sites for the symbols
before its dot, and reading the completed states of a site gives exactly the rules with the rows that make
it up, each once.
-/

namespace IndexedGrammar.Chart

/-- A chart that holds only what a grammar finds, with its states where they should be. -/
structure Readable (g : Grammar) (c : Chart) : Prop where
  indexed : g.Indexed
  filed : c.Filed g
  justified : c.Justified g

/-- A chart that holds what a grammar finds, with its states where they should be, for a grammar with an
index and a synthetic rule of its own. -/
structure Settled (g : Grammar) (c : Chart) : Prop where
  indexed : g.Indexed
  rootUnasked : g.RootUnasked
  filed : c.Filed g
  holds : c.Holds g

variable {g : Grammar} {c : Chart}

/-- A settled chart is readable. -/
theorem Settled.readable (h : c.Settled g) : c.Readable g where
  indexed := h.indexed
  filed := h.filed
  justified := h.holds.justified

/-- A readable chart is traced. -/
theorem Readable.traced (h : c.Readable g) : c.Traced g where
  filed := h.filed
  begun hs hdot := by
    obtain ⟨l, hl⟩ := h.justified.live hs
    exact hl.stop_eq_origin hdot
  steps hs hd := h.justified.steps (fun _ hpart => hpart) h.filed hs hd

/-- A settled chart is traced. -/
theorem Settled.traced (h : c.Settled g) : c.Traced g :=
  h.readable.traced

/-- A settled chart is grounded. -/
theorem Settled.grounded (h : c.Settled g) : c.Grounded g where
  toTraced := h.traced
  derived {id s} hs := by
    obtain ⟨l, hl⟩ := (h.holds.live s).mp ⟨id, hs⟩
    obtain ⟨id', d, hs', hd, -⟩ := (h.holds.derivation s l).mpr hl
    obtain rfl := h.filed.unique hs' hs
    exact ⟨d, hd⟩

/-- What a derivation of a live state moved the dot over is found. -/
theorem Settled.found (h : c.Settled g) {id i : Nat} {s p : Spot} {d : Derivation} {symbol : Category}
    (hs : c.Live id s) (hd : c.Derives id d) (hi : d.predecessor = some i) (hp : c.Live i p)
    (hexpects : g.Expects p.item symbol) : Site.Found g c.input c.layout.last ⟨symbol, p.stop, s.stop⟩ := by
  have hpredecessor : (c.link d).predecessor = some p := by
    rw [link, hi, Option.bind_some, hp.spot?]
  obtain ⟨found, hexpects', -, hfound⟩ :=
    (h.readable.justified.derives hs hd).found h.indexed h.rootUnasked hpredecessor
  obtain rfl := hexpects'.unique hexpects
  exact hfound

/-- A live state whose dot can be moved there over a found site, from a found spot, has a derivation from which the site
is read. -/
theorem Settled.exists_crossed (h : c.Settled g) {id : Nat} {s p : Spot} {m : Link} {symbol : Category}
    (hs : c.Live id s) (hstep : s = p.step s.stop) (hm : Derivable g c.input c.layout.last p m)
    (hexpects : g.Expects p.item symbol)
    (hfound : Site.Found g c.input c.layout.last ⟨symbol, p.stop, s.stop⟩) :
    ∃ state d i, c.states[id]? = some state ∧ d ∈ state.derivations ∧
      c.crossed? g state p.item.dot d = some ⟨symbol, p.stop, s.stop⟩ ∧ d.predecessor = some i ∧ c.Live i p := by
  obtain ⟨l, hl, hbefore⟩ := hfound.step hm hexpects rfl
  rw [← hstep] at hl
  obtain ⟨id', d, hs', ⟨state, hstate, hremoved, hd⟩, rfl⟩ := (h.holds.derivation _ _).mpr hl
  obtain rfl := h.filed.unique hs' hs
  obtain ⟨-, rfl⟩ := hs.state hstate
  rcases h.traced.derives_cases hstate hremoved hd with hzero |
    ⟨i, q, other, hi, hq, hexpects', -, -, hcrossed⟩
  · have hdot : state.spot.item.dot = p.item.dot + 1 := congrArg (fun s : Spot => s.item.dot) hstep
    exact absurd (hzero.symm.trans hdot) (Nat.succ_ne_zero _).symm
  · have hlinked : d.predecessor.bind c.spot? = some p := hbefore
    rw [hi, Option.bind_some, hq.spot?] at hlinked
    obtain rfl := Option.some.inj hlinked
    obtain rfl := hexpects'.unique hexpects
    exact ⟨state, d, i, hstate, hd, hcrossed, hi, hq⟩

/-- The sequences read off a live state are the rows of found sites for the symbols before its dot. -/
theorem Settled.mem_sequences (h : c.Settled g) {id : Nat} {s : Spot} {r : Rule} {parts : List Site}
    (hs : c.Live id s) (hr : g.HasRule s.item.rule r) : parts ∈ c.sequences g s.item.dot id ↔
      Row (Site.Found g c.input c.layout.last) s.item.origin (r.rhs.take s.item.dot) s.stop parts := by
  obtain ⟨l, hl⟩ := (h.holds.live s).mp ⟨id, hs⟩
  generalize hdot : s.item.dot = dot
  induction dot generalizing id s l parts with
  | zero =>
    rw [sequences, List.take_zero, row_nil, List.mem_singleton, hl.stop_eq_origin hdot]
    exact (and_iff_left rfl).symm
  | succ dot ih =>
    have hlt : dot < r.rhs.length := by
      obtain ⟨r', hr', hle⟩ := hl.hasRule h.indexed
      obtain rfl := hr'.unique hr
      omega
    have hsymbol : r.rhs[dot]? = some r.rhs[dot] := List.getElem?_eq_getElem hlt
    rw [mem_sequences_succ, take_succ_of_getElem? hsymbol, row_concat]
    -- the state before the move is read by the induction hypothesis
    have hread {i : Nat} {p : Spot} (hp : c.Live i p) (hstep : s = p.step s.stop) (hpdot : p.item.dot = dot)
        (rest : List Site) : rest ∈ c.sequences g dot i ↔
          Row (Site.Found g c.input c.layout.last) s.item.origin (r.rhs.take dot) p.stop rest := by
      obtain ⟨hrule, horigin⟩ := Spot.of_step hstep
      obtain ⟨m, hm⟩ := (h.holds.live p).mp ⟨i, hp⟩
      rw [horigin]
      exact ih hp (hrule ▸ hr) m hm hpdot
    constructor
    · intro hgiven
      obtain ⟨state, d, site, i, hstate, hd, hsite, hi, rest, hrest, rfl⟩ := hgiven
      obtain ⟨p, symbol, hp, hpdot, hexpects, hstep, rfl, -⟩ :=
        h.traced.crossed_spec hs hdot hstate hd hsite hi
      have hfound := h.found hs ⟨state, hstate, (hs.state hstate).1, hd⟩ hi hp hexpects
      obtain rfl : r.rhs[dot] = symbol :=
        hexpects.eq_symbol ((Spot.of_step hstep).1 ▸ hr) (by rw [hpdot, hsymbol])
      exact ⟨rest, p.stop, (hread hp hstep hpdot rest).mp hrest, hfound, rfl⟩
    · intro hgiven
      obtain ⟨rest, middle, hrest, hfound, rfl⟩ := hgiven
      obtain ⟨m, hm⟩ := hrest.findable hr (Nat.le_of_lt hlt) hl.begun
      have hexpects : g.Expects ⟨s.item.rule, dot, s.item.origin⟩ r.rhs[dot] :=
        Grammar.expects_iff.mpr ⟨r, hr.rule?, hsymbol⟩
      have hstep : s = (⟨⟨s.item.rule, dot, s.item.origin⟩, middle⟩ : Spot).step s.stop := by
        simp only [Spot.step, Item.advance, ← hdot]
      obtain ⟨state, d, i, hstate, hd, hcrossed, hi, hp⟩ := h.exists_crossed hs hstep hm hexpects hfound
      exact ⟨state, d, _, i, hstate, hd, hcrossed, hi, rest, (hread hp hstep rfl rest).mpr hrest, rfl⟩

/-- The ways of making up a nonterminal that is found are its rules, with the rows of found sites for
their symbols. -/
theorem Settled.mem_waysOf (h : c.Settled g) {site : Site} (hsite : site.Found g c.input c.layout.last)
    (hsymbol : g.isNonterminal site.category = true) {rule : Nat} {origin : Option Nat}
    {parts : List Site} : (rule, origin, parts) ∈ c.waysOf g site ↔ ∃ r, (rule, r) ∈ g.rules ∧
      r.lhs = site.category ∧ r.origin = origin ∧
      Row (Site.Found g c.input c.layout.last) site.start r.rhs site.stop parts := by
  obtain ⟨hwanted, rule₀, r₀, hr₀, hlhs₀⟩ := hsite.wanted h.indexed hsymbol
  obtain ⟨hroot₀, hr₀⟩ := Grammar.mem_rules_iff.mp hr₀
  rw [Chart.mem_waysOf, and_iff_right hsymbol]
  constructor
  · intro hgiven
    obtain ⟨id, hid, state, r, hstate, hr, hrule, horigin, hparts⟩ := hgiven
    obtain ⟨s, hs, hstart, hstop, hcompletes⟩ := h.filed.mem_completed.mp hid
    obtain ⟨l, hl⟩ := (h.holds.live s).mp ⟨id, hs⟩
    obtain ⟨-, rfl⟩ := hs.state hstate
    obtain ⟨r', hr', -⟩ := hl.hasRule h.indexed
    obtain rfl := Option.some.inj (hr'.rule?.symm.trans hr)
    obtain ⟨r'', hr'', hlength, hlhs⟩ := Grammar.completes_iff.mp hcompletes
    obtain rfl := Option.some.inj (hr'.rule?.symm.trans hr'')
    have hrow := (h.mem_sequences hs hr').mp hparts
    rw [List.take_of_length_le hlength, hstart, hstop] at hrow
    -- the synthetic rule completes a category that no other rule is for
    have hroot : state.item.rule ≠ Grammar.rootId := by
      intro hroot
      have hroot' : g.rootRule? = some r' := by
        rw [← hr, hroot]
        rfl
      exact hroot₀ (h.rootUnasked.eq_rootId hroot' hr₀ (hlhs₀.trans hlhs.symm))
    subst hrule
    exact ⟨r', Grammar.mem_rules_iff.mpr ⟨hroot, hr'⟩, hlhs, horigin, hrow⟩
  · intro hgiven
    obtain ⟨r, hr, hlhs, horigin, hrow⟩ := hgiven
    obtain ⟨hroot, hr⟩ := Grammar.mem_rules_iff.mp hr
    rw [← List.take_length (l := r.rhs)] at hrow
    -- moving the dot over the parts one by one leads to the completed state
    have hfindable := hrow.findable hr (Nat.le_refl _) (hwanted.begun h.indexed hr hlhs)
    obtain ⟨id, hs⟩ := (h.holds.live _).mpr hfindable
    have hparts := (h.mem_sequences hs hr).mpr hrow
    obtain ⟨state, hstate, hremoved, hspot⟩ := hs
    have hitem : state.item = ⟨rule, r.rhs.length, site.start⟩ := congrArg Spot.item hspot
    refine ⟨id, h.filed.mem_completed.mpr ⟨_, ⟨state, hstate, hremoved, hspot⟩, rfl, rfl, ?_⟩, state, r,
      hstate, by rw [hitem]; exact hr.rule?, by rw [hitem], horigin, by rw [hitem]; exact hparts⟩
    exact Grammar.completes_iff.mpr ⟨r, hr.rule?, Nat.le_refl _, hlhs⟩

end IndexedGrammar.Chart
