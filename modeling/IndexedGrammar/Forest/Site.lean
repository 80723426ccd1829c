import IndexedGrammar.Chart.Basic

/-!
# Sites

A site is a category over a stretch of a sentence. A completed state of a category leads to the
sites of its right-hand categories: reading its derivations backwards from the last category gives
every list of sites that lie side by side and make up the state.
-/

namespace IndexedGrammar

/-- A category between two columns. -/
structure Site where
  category : Category
  start : Nat
  stop : Nat
deriving DecidableEq

namespace Site

instance : Ord Site where
  compare := compareLex (compareOn category) (compareLex (compareOn start) (compareOn stop))

instance : Std.TransOrd Site :=
  inferInstanceAs (Std.TransCmp
    (compareLex (compareOn category) (compareLex (compareOn start) (compareOn stop))))

instance : Std.LawfulEqOrd Site where
  eq_of_compare {a b} h := by
    have h : compareLex (compareOn category) (compareLex (compareOn start) (compareOn stop)) a b =
      .eq := h
    rw [compareLex_eq_eq, compareLex_eq_eq] at h
    obtain ⟨hcategory, hstart, hstop⟩ := h
    cases a
    cases b
    simp only [compareOn] at hcategory hstart hstop
    rw [Std.LawfulEqOrd.eq_of_compare hcategory, Std.LawfulEqOrd.eq_of_compare hstart,
      Std.LawfulEqOrd.eq_of_compare hstop]

end Site

namespace Chart

variable (c : Chart) (g : Grammar)

/-- The site of the symbol that a derivation moved the dot over, to reach `state` with its dot
behind the symbol at position `dot`. The dot was moved over a completed state, or from the end of
the predecessor to the end of the state. -/
def crossed? (state : State) (dot : Nat) (d : Derivation) : Option Site := do
  let rule ← g.rule? state.item.rule
  let category ← rule.rhs[dot]?
  let predecessor ← c.states[(← d.predecessor)]?
  match d.reductor with
  | some reductor =>
    let completed ← c.states[reductor]?
    some ⟨category, completed.item.origin, completed.stop⟩
  | none => some ⟨category, predecessor.stop, state.stop⟩

/-- The sites that the derivations of a state with this dot lead to, in the order in which reading
backwards comes upon them. -/
def sitesOf : Nat → Nat → List Site
  | 0, _ => []
  | dot + 1, id =>
    match c.states[id]? with
    | none => []
    | some state => state.derivations.flatMap fun d =>
      match c.crossed? g state dot d, d.predecessor with
      | some site, some predecessor => site :: sitesOf dot predecessor
      | _, _ => []

/-- Adds the elements that are not yet there, one after the other. -/
def addNew {α : Type} [DecidableEq α] (known new : List α) : List α :=
  new.foldl (fun known a => if a ∈ known then known else known ++ [a]) known

/-- The different lists of sites, one for each symbol in front of the dot, that make up a state. -/
def sequences : Nat → Nat → List (List Site)
  | 0, _ => [[]]
  | dot + 1, id =>
    match c.states[id]? with
    | none => []
    | some state => state.derivations.foldl (fun known d =>
      match c.crossed? g state dot d, d.predecessor with
      | some site, some predecessor =>
        addNew known ((sequences dot predecessor).map (· ++ [site]))
      | _, _ => known) []

/-- Whether a site's parts are read off the chart: it is neither empty nor a word. -/
def isComposite (site : Site) : Bool :=
  g.isNonterminal site.category

/-- The sites that the completed states of a site lead to. -/
def sitesBelow (site : Site) : List Site :=
  if isComposite g site then
    (c.completed site.category site.start site.stop).flatMap fun id =>
      match c.states[id]? with
      | some state => c.sitesOf g state.item.dot id
      | none => []
  else []

/-- The ways of making up a site: a rule, the schema rule behind it, and the sites of its parts. -/
def waysOf (site : Site) : List (Nat × Option Nat × List Site) :=
  if isComposite g site then
    (c.completed site.category site.start site.stop).foldl (fun known id =>
      match c.states[id]? with
      | none => known
      | some state =>
        match g.rule? state.item.rule with
        | none => known
        | some rule => addNew known ((c.sequences g state.item.dot id).map fun parts =>
            (state.item.rule, rule.origin, parts))) []
  else []

/-- Whether some completed state of a site is on a rule that the grammar does not have, or that is
too short for its dot. -/
def isUnreadable (site : Site) : Bool :=
  isComposite g site && (c.completed site.category site.start site.stop).any fun id =>
    match c.states[id]? with
    | none => true
    | some state =>
      match g.rule? state.item.rule with
      | none => true
      | some rule => rule.rhs.length < state.item.dot

/-- The sites of whole sentences. -/
def rootSites : List Site :=
  addNew [] ((c.accepted g).filterMap fun id =>
    c.states[id]?.map fun state => ⟨g.start, state.item.origin, state.stop⟩)

end Chart

end IndexedGrammar
