import IndexedGrammar.Proofs.Grammar.Ahead

/-!
# What a chart should hold

The items that a grammar finds in an input, and every way in which it finds them, as the least set
that holds the synthetic rule at the first column and is closed under beginning rules, moving over
nothing, over a part of speech, and over a completed item. No order of work enters into it.

An item found begins where its category is asked for, and lies within the columns.
-/

namespace IndexedGrammar

/-- An item with the column up to which it is found. -/
structure Spot where
  item : Item
  stop : Nat
deriving DecidableEq

/-- The spot with its dot behind the next symbol, up to a column. -/
def Spot.step (s : Spot) (stop : Nat) : Spot :=
  ⟨s.item.advance, stop⟩

/-- A dot stays on its rule, and behind where the rule was begun. -/
theorem Spot.of_step {s p : Spot} {stop : Nat} (h : s = p.step stop) :
    s.item.rule = p.item.rule ∧ s.item.origin = p.item.origin := by
  subst h
  exact ⟨rfl, rfl⟩

/-- One way in which a spot is found: the spot whose dot was moved, and the one it was moved over. -/
structure Link where
  predecessor : Option Spot
  reductor : Option Spot
deriving DecidableEq

/-- The way in which a spot is found when its rule is begun. -/
def Link.predicted : Link := ⟨none, none⟩

/-- The spots that a grammar finds in an input up to its last column, with every way of finding
them. -/
inductive Derivable (g : Grammar) (input : Input) (last : Nat) : Spot → Link → Prop
  /-- The synthetic rule is begun at the first column. -/
  | root : Derivable g input last ⟨⟨Grammar.rootId, 0, 0⟩, 0⟩ .predicted
  /-- The rules of an expected nonterminal are begun. -/
  | predict {s : Spot} {l : Link} {symbol : Category} {rule : Nat} {r : Rule} :
      Derivable g input last s l → g.Expects s.item symbol → g.isNonterminal symbol = true →
      (rule, r) ∈ g.rulesFor symbol →
      Derivable g input last ⟨⟨rule, 0, s.stop⟩, s.stop⟩ .predicted
  /-- A dot moves over the empty category. -/
  | skip {s : Spot} {l : Link} {symbol : Category} :
      Derivable g input last s l → g.Expects s.item symbol → symbol.isEpsilon = true →
      Derivable g input last (s.step s.stop) ⟨some s, none⟩
  /-- A dot moves over a part of speech that can be found behind it. -/
  | scan {s : Spot} {l : Link} {symbol : Category} :
      Derivable g input last s l → g.Expects s.item symbol → symbol.isEpsilon = false →
      g.isPartOfSpeech symbol = true → s.stop < last → input.allows s.stop symbol = true →
      Derivable g input last (s.step (s.stop + 1)) ⟨some s, none⟩
  /-- A dot moves over a category that has been completed behind it. -/
  | complete {s t : Spot} {l m : Link} {symbol : Category} :
      Derivable g input last s l → Derivable g input last t m → g.Expects s.item symbol →
      symbol.isEpsilon = false → g.Completes t.item symbol → t.item.origin = s.stop →
      Derivable g input last (s.step t.stop) ⟨some s, some t⟩

/-- A spot that is found in some way. -/
def Findable (g : Grammar) (input : Input) (last : Nat) (s : Spot) : Prop :=
  ∃ l, Derivable g input last s l

/-- A nonterminal that a spot up to a column expects. -/
def Wanted (g : Grammar) (input : Input) (last k : Nat) (symbol : Category) : Prop :=
  ∃ s, Findable g input last s ∧ s.stop = k ∧ g.Expects s.item symbol ∧
    g.isNonterminal symbol = true

variable {g : Grammar} {input : Input} {last : Nat}

/-- What a way of finding a spot goes through is found too. -/
theorem Derivable.findable_predecessor {s p : Spot} {l : Link} (h : Derivable g input last s l)
    (hp : l.predecessor = some p) : Findable g input last p := by
  cases h with
  | root => cases hp
  | predict => cases hp
  | skip hs => cases hp; exact ⟨_, hs⟩
  | scan hs => cases hp; exact ⟨_, hs⟩
  | complete hs => cases hp; exact ⟨_, hs⟩

/-- A spot that is found by no move has its dot in front. -/
theorem Derivable.dot_eq_zero {s : Spot} {l : Link} (h : Derivable g input last s l)
    (hp : l.predecessor = none) : s.item.dot = 0 := by
  cases h with
  | root => rfl
  | predict => rfl
  | skip => contradiction
  | scan => contradiction
  | complete => contradiction

/-- A spot with its dot in front of its rule ends where it begins. -/
theorem Derivable.stop_eq_origin {s : Spot} {l : Link} (h : Derivable g input last s l)
    (hdot : s.item.dot = 0) : s.stop = s.item.origin := by
  cases h with
  | root => rfl
  | predict => rfl
  | skip => exact absurd hdot (Nat.succ_ne_zero _)
  | scan => exact absurd hdot (Nat.succ_ne_zero _)
  | complete => exact absurd hdot (Nat.succ_ne_zero _)

/-- A move takes the dot over the expected symbol, to the end of what it was moved over. -/
theorem Derivable.moved {s p : Spot} {l : Link} (h : Derivable g input last s l)
    (hp : l.predecessor = some p) : ∃ symbol, g.Expects p.item symbol ∧ s = p.step s.stop ∧
      ∀ t, l.reductor = some t → t.item.origin = p.stop ∧ t.stop = s.stop := by
  cases h with
  | root => contradiction
  | predict => contradiction
  | @skip q m symbol hq hexpects hempty =>
    obtain rfl : q = p := Option.some.inj hp
    exact ⟨symbol, hexpects, rfl, fun t ht => by contradiction⟩
  | @scan q m symbol hq hexpects hempty hpos hlast hallows =>
    obtain rfl : q = p := Option.some.inj hp
    exact ⟨symbol, hexpects, rfl, fun t ht => by contradiction⟩
  | @complete q u m m' symbol hq hu hexpects hempty hcompletes horigin =>
    obtain rfl : q = p := Option.some.inj hp
    refine ⟨symbol, hexpects, rfl, fun t ht => ?_⟩
    obtain rfl : u = t := Option.some.inj ht
    exact ⟨horigin, rfl⟩

/-- A spot begins no later than it ends, and ends within the columns. -/
theorem Derivable.bounds {s : Spot} {l : Link} (h : Derivable g input last s l) :
    s.item.origin ≤ s.stop ∧ s.stop ≤ last := by
  induction h with
  | root => exact ⟨Nat.le_refl _, Nat.zero_le _⟩
  | predict _ _ _ _ ih => exact ⟨Nat.le_refl _, ih.2⟩
  | skip _ _ _ ih => exact ih
  | scan _ _ _ _ hlast _ ih => exact ⟨Nat.le_succ_of_le ih.1, hlast⟩
  | complete _ _ _ _ _ horigin ihs iht =>
    exact ⟨Nat.le_trans ihs.1 (horigin ▸ iht.1), iht.2⟩

/-- A dot is moved on, not back. -/
theorem Derivable.stop_predecessor_le {s p : Spot} {l : Link} (h : Derivable g input last s l)
    (hp : l.predecessor = some p) : p.stop ≤ s.stop := by
  cases h with
  | root => contradiction
  | predict => contradiction
  | skip => exact Nat.le_of_eq (congrArg Spot.stop (Option.some.inj hp)).symm
  | scan => exact Nat.le_succ_of_le (Nat.le_of_eq (congrArg Spot.stop (Option.some.inj hp)).symm)
  | complete _ ht _ _ _ horigin =>
    obtain rfl := Option.some.inj hp
    exact horigin ▸ ht.bounds.1

/-- A spot is on a rule in use, with its dot within the rule. -/
theorem Derivable.hasRule (hg : g.Indexed) {s : Spot} {l : Link} (h : Derivable g input last s l) :
    ∃ r, g.HasRule s.item.rule r ∧ s.item.dot ≤ r.rhs.length := by
  have hstep {s : Spot} {symbol : Category} (stop : Nat)
      (ih : ∃ r, g.HasRule s.item.rule r ∧ s.item.dot ≤ r.rhs.length)
      (hexpects : g.Expects s.item symbol) :
      ∃ r, g.HasRule (s.step stop).item.rule r ∧ (s.step stop).item.dot ≤ r.rhs.length := by
    obtain ⟨r, hr, -⟩ := ih
    obtain ⟨r', hr', hsymbol⟩ := Grammar.expects_iff.mp hexpects
    obtain rfl := Option.some.inj (hr.rule?.symm.trans hr')
    exact ⟨r, hr, (List.getElem?_eq_some_iff.mp hsymbol).1⟩
  induction h with
  | root =>
    obtain ⟨name, hroot⟩ := hg.root
    exact ⟨_, hroot, Nat.zero_le _⟩
  | predict _ _ _ hrule _ => exact ⟨_, (hg.mem_rulesFor.mp hrule).1, Nat.zero_le _⟩
  | skip _ hexpects _ ih => exact hstep _ ih hexpects
  | scan _ hexpects _ _ _ _ ih => exact hstep _ ih hexpects
  | complete _ _ hexpects _ _ _ ih _ => exact hstep _ ih hexpects

/-- The rules for a nonterminal are begun where it is wanted. -/
theorem Wanted.begun (hg : g.Indexed) {k rule : Nat} {symbol : Category}
    (h : Wanted g input last k symbol) {r : Rule} (hr : g.HasRule rule r) (hlhs : r.lhs = symbol) :
    Findable g input last ⟨⟨rule, 0, k⟩, k⟩ := by
  obtain ⟨s, ⟨l, hs⟩, rfl, hexpects, hsymbol⟩ := h
  exact ⟨_, .predict hs hexpects hsymbol (hg.mem_rulesFor.mpr ⟨hr, hlhs⟩)⟩

/-- A spot not on the synthetic rule begins where its category is wanted. -/
theorem Derivable.wanted_lhs (hg : g.Indexed) {s : Spot} {l : Link}
    (h : Derivable g input last s l) {r : Rule} (hr : g.HasRule s.item.rule r)
    (hroot : s.item.rule ≠ Grammar.rootId) : Wanted g input last s.item.origin r.lhs := by
  induction h with
  | root => exact absurd rfl hroot
  | @predict s l symbol rule r' hs hexpects hnonterminal hrule _ =>
    obtain ⟨hr', rfl⟩ := hg.mem_rulesFor.mp hrule
    obtain rfl := hr.unique hr'
    exact ⟨s, ⟨l, hs⟩, rfl, hexpects, hnonterminal⟩
  | skip _ _ _ ih => exact ih hr hroot
  | scan _ _ _ _ _ _ ih => exact ih hr hroot
  | complete _ _ _ _ _ _ ih _ => exact ih hr hroot

/-- No rule for a category that a spot expects is the synthetic one. -/
theorem Derivable.ne_rootId (hg : g.Indexed) (hunasked : g.RootUnasked) {s : Spot} {l : Link}
    (hs : Derivable g input last s l) {rule : Nat} {r : Rule} (hr : g.rule? rule = some r)
    (hexpects : g.Expects s.item r.lhs) (hempty : r.lhs.isEpsilon = false) : rule ≠ Grammar.rootId := by
  rintro rfl
  obtain ⟨q, hq, hsymbol⟩ := Grammar.expects_iff.mp hexpects
  obtain ⟨q', hq', -⟩ := hs.hasRule hg
  obtain rfl := Option.some.inj (hq'.rule?.symm.trans hq)
  exact hunasked.lhs_not_mem_rhs hg hr hempty hq' (List.mem_of_getElem? hsymbol)

/-- What a dot moves over is not on the synthetic rule. -/
theorem Derivable.ne_rootId_of_completes (hg : g.Indexed) (hunasked : g.RootUnasked) {s t : Spot} {l : Link}
    {symbol : Category} (hs : Derivable g input last s l) (hexpects : g.Expects s.item symbol)
    (hempty : symbol.isEpsilon = false) (hcompletes : g.Completes t.item symbol) :
    t.item.rule ≠ Grammar.rootId := by
  obtain ⟨q, hq, -, rfl⟩ := Grammar.completes_iff.mp hcompletes
  exact hs.ne_rootId hg hunasked hq hexpects hempty

/-- What a dot moves over is a nonterminal, unless it is empty, also when the synthetic rule was completed. -/
theorem Derivable.isNonterminal_of_completes (hg : g.Indexed) (hunscanned : g.RootUnscanned) {s t : Spot}
    {l m : Link} {symbol : Category} (hs : Derivable g input last s l)
    (ht : Derivable g input last t m) (hexpects : g.Expects s.item symbol)
    (hempty : symbol.isEpsilon = false) (hcompletes : g.Completes t.item symbol) :
    g.isNonterminal symbol = true := by
  obtain ⟨r, hr, -⟩ := ht.hasRule hg
  obtain ⟨r', hr', -, rfl⟩ := Grammar.completes_iff.mp hcompletes
  obtain rfl := Option.some.inj (hr.rule?.symm.trans hr')
  by_cases hroot : t.item.rule = Grammar.rootId
  · refine Grammar.isNonterminal_iff.mpr ⟨hempty, Bool.eq_false_iff.mpr fun hpart => ?_⟩
    obtain ⟨q, hq, hsymbol⟩ := Grammar.expects_iff.mp hexpects
    obtain ⟨q', hq', -⟩ := hs.hasRule hg
    obtain rfl := Option.some.inj (hq'.rule?.symm.trans hq)
    rw [hroot] at hr'
    exact hunscanned _ hr' hempty hpart _ _ hq' (List.mem_of_getElem? hsymbol)
  · obtain ⟨-, -, -, -, hnonterminal⟩ := ht.wanted_lhs hg hr hroot
    exact hnonterminal

/-- A spot that a grammar finds without a rule is not on that rule. -/
theorem Derivable.rule_ne {g' : Grammar} {id : Nat} (hwithout : g.Without id g') {s : Spot} {l : Link}
    (h : Derivable g' input last s l) : s.item.rule ≠ id := by
  obtain ⟨r, hr, -⟩ := h.hasRule hwithout.indexed'
  exact ((hwithout.hasRule _ _).mp hr).2

/-- What a grammar finds without one of its rules, it finds with it. -/
theorem Derivable.of_without {g' : Grammar} {id : Nat} (hwithout : g.Without id g') {s : Spot}
    {l : Link} (h : Derivable g' input last s l) : Derivable g input last s l := by
  induction h with
  | root => exact .root
  | predict hs hexpects hsymbol hrule ih =>
    exact .predict ih ((hwithout.expects (hs.rule_ne hwithout)).mp hexpects)
      (hwithout.isNonterminal _ ▸ hsymbol) (hwithout.mem_rulesFor.mp hrule).1
  | skip hs hexpects hsymbol ih =>
    exact .skip ih ((hwithout.expects (hs.rule_ne hwithout)).mp hexpects) hsymbol
  | scan hs hexpects hsymbol hpos hlast hallows ih =>
    exact .scan ih ((hwithout.expects (hs.rule_ne hwithout)).mp hexpects) hsymbol
      (hwithout.isPartOfSpeech _ ▸ hpos) hlast hallows
  | complete hs ht hexpects hsymbol hcompletes horigin ihs iht =>
    exact .complete ihs iht ((hwithout.expects (hs.rule_ne hwithout)).mp hexpects) hsymbol
      ((hwithout.completes (ht.rule_ne hwithout)).mp hcompletes) horigin

/-- A move is one without a rule too if all that it goes through is found without the rule. -/
theorem Derivable.to_without {g' : Grammar} {id : Nat} (hwithout : g.Without id g') {s p : Spot} {l : Link}
    (h : Derivable g input last s l) (hp : l.predecessor = some p) (hfound : Findable g' input last p)
    (hreductor : ∀ t, l.reductor = some t → Findable g' input last t) : Derivable g' input last s l := by
  obtain ⟨m, hm⟩ := hfound
  have hexpects' {symbol : Category} (hexpects : g.Expects p.item symbol) : g'.Expects p.item symbol :=
    (hwithout.expects (hm.rule_ne hwithout)).mpr hexpects
  cases h with
  | root => contradiction
  | predict => contradiction
  | skip _ hexpects hsymbol =>
    obtain rfl := Option.some.inj hp
    exact .skip hm (hexpects' hexpects) hsymbol
  | scan _ hexpects hsymbol hpos hlast hallows =>
    obtain rfl := Option.some.inj hp
    exact .scan hm (hexpects' hexpects) hsymbol (hwithout.isPartOfSpeech _ ▸ hpos) hlast hallows
  | @complete _ t _ _ _ _ _ hexpects hsymbol hcompletes horigin =>
    obtain rfl := Option.some.inj hp
    obtain ⟨n, hn⟩ := hreductor t rfl
    exact .complete hm hn (hexpects' hexpects) hsymbol ((hwithout.completes (hn.rule_ne hwithout)).mpr hcompletes)
      horigin

/-- What a grammar wants without one of its rules, it wants with it. -/
theorem Wanted.of_without {g' : Grammar} {id k : Nat} {symbol : Category}
    (hwithout : g.Without id g') (h : Wanted g' input last k symbol) :
    Wanted g input last k symbol := by
  obtain ⟨s, ⟨l, hs⟩, hstop, hexpects, hsymbol⟩ := h
  exact ⟨s, ⟨l, hs.of_without hwithout⟩, hstop,
    (hwithout.expects (hs.rule_ne hwithout)).mp hexpects, hwithout.isNonterminal _ ▸ hsymbol⟩

end IndexedGrammar
