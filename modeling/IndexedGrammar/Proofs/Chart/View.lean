import IndexedGrammar.Chart.Build
import IndexedGrammar.Proofs.Chart.Derivable

/-!
# Looking at a chart

A chart is looked at through a few relations: which spot has which number, which numbers are live,
which derivations a live state has, and which parents. Adding to a chart is described by what it does
to these relations and to the lists of each column.
-/

namespace IndexedGrammar

/-- The spot that a state stands for. -/
def State.spot (s : State) : Spot := ⟨s.item, s.stop⟩

namespace Chart

/-- The spot that a number stands for, taken out or not. -/
def spot? (c : Chart) (id : Nat) : Option Spot :=
  c.states[id]?.map State.spot

/-- A number that stands for a spot and was not taken out. -/
def Live (c : Chart) (id : Nat) (spot : Spot) : Prop :=
  ∃ s, c.states[id]? = some s ∧ s.removed = false ∧ s.spot = spot

/-- A derivation of a state that was not taken out. -/
def Derives (c : Chart) (id : Nat) (d : Derivation) : Prop :=
  ∃ s, c.states[id]? = some s ∧ s.removed = false ∧ d ∈ s.derivations

/-- A state noted as having a derivation through another one. -/
def HasParent (c : Chart) (id parent : Nat) : Prop :=
  ∃ s, c.states[id]? = some s ∧ parent ∈ s.parents

/-- A state listed at a column. -/
def Lists (c : Chart) (k id : Nat) : Prop :=
  ∃ column, c.columns[k]? = some column ∧ id ∈ column.states

/-- A derivation with spots in place of numbers. -/
def link (c : Chart) (d : Derivation) : Link :=
  ⟨d.predecessor.bind c.spot?, d.reductor.bind c.spot?⟩

/-- What is live has a spot. -/
theorem Live.spot? {c : Chart} {id : Nat} {s : Spot} (h : c.Live id s) : c.spot? id = some s := by
  obtain ⟨state, hstate, -, rfl⟩ := h
  rw [Chart.spot?, hstate, Option.map_some]

/-- The state with a live number was not taken out, and stands for its spot. -/
theorem Live.state {c : Chart} {id : Nat} {s : Spot} {state : State} (h : c.Live id s)
    (hstate : c.states[id]? = some state) : state.removed = false ∧ state.spot = s := by
  obtain ⟨other, hother, hremoved, hspot⟩ := h
  obtain rfl := Option.some.inj (hstate.symm.trans hother)
  exact ⟨hremoved, hspot⟩

/-- A number is live for at most one spot. -/
theorem Live.unique {c : Chart} {id : Nat} {s t : Spot} (hs : c.Live id s) (ht : c.Live id t) :
    s = t :=
  Option.some.inj (hs.spot?.symm.trans ht.spot?)

/-- A number with a spot is below the size. -/
theorem lt_size_of_spot? {c : Chart} {id : Nat} {s : Spot} (h : c.spot? id = some s) :
    id < c.states.size := by
  obtain ⟨state, hstate, -⟩ := Option.map_eq_some_iff.mp h
  exact (Array.getElem?_eq_some_iff.mp hstate).1

/-- What is live is below the size. -/
theorem Live.lt_size {c : Chart} {id : Nat} {s : Spot} (h : c.Live id s) : id < c.states.size :=
  lt_size_of_spot? h.spot?

/-- A state with a derivation is live. -/
theorem Derives.live {c : Chart} {id : Nat} {d : Derivation} (h : c.Derives id d) :
    ∃ s, c.Live id s := by
  obtain ⟨state, hstate, hremoved, -⟩ := h
  exact ⟨state.spot, state, hstate, hremoved, rfl⟩

/-- What is predicted is predicted at a column. -/
theorem lt_columns_of_isPredicted {c : Chart} {k : Nat} {symbol : Category} (h : c.isPredicted k symbol = true) :
    k < c.columns.size := by
  unfold isPredicted at h
  split at h
  · next column hcolumn => exact (Array.getElem?_eq_some_iff.mp hcolumn).1
  · contradiction

/-- The chart after a new state was filed under what stands behind its dot. -/
def file (c : Chart) (g : Grammar) (item : Item) (stop id : Nat) : Chart :=
  match g.ahead item.rule item.dot with
  | .unknown => c
  | .complete lhs => c.fileReductor item.origin lhs id
  | .expects symbol => c.fileExpecting stop symbol id

/-! The chart in which nothing has been found -/

section New

variable {layout : Layout} {input : Input}

/-- The columns of a new chart are empty. -/
theorem columns_new {k : Nat} {column : Column} (h : (new layout input).columns[k]? = some column) :
    column = .empty := by
  simp only [new, Array.getElem?_replicate] at h
  split at h
  · exact (Option.some.inj h).symm
  · contradiction

/-- Nothing has a spot in a new chart. -/
theorem spot?_new (id : Nat) : (new layout input).spot? id = none := rfl

/-- Nothing is live in a new chart. -/
theorem not_live_new {id : Nat} {s : Spot} : ¬(new layout input).Live id s := by
  rintro ⟨state, hstate, -⟩
  simp [new] at hstate

/-- Nothing has a derivation in a new chart. -/
theorem not_derives_new {id : Nat} {d : Derivation} : ¬(new layout input).Derives id d := by
  rintro ⟨state, hstate, -⟩
  simp [new] at hstate

/-- No item is found in a new chart. -/
theorem find?_new (item : Item) (stop : Nat) : (new layout input).find? item stop = none := by
  unfold find?
  cases h : (new layout input).columns[stop]? with
  | none => rfl
  | some column => rw [columns_new h, Option.bind_some]; exact Std.ExtTreeMap.getElem?_empty

/-- Nothing waits in a new chart. -/
theorem expecting_new (k : Nat) (symbol : Category) : (new layout input).expecting k symbol = [] := by
  unfold expecting
  split
  · next column h => rw [columns_new h]; exact Index.ids_empty symbol
  · rfl

/-- Nothing is completed in a new chart. -/
theorem reductors_new (k : Nat) (lhs : Category) : (new layout input).reductors k lhs = [] := by
  unfold reductors
  split
  · next column h => rw [columns_new h]; exact Index.ids_empty lhs
  · rfl

/-- Nothing is predicted in a new chart. -/
theorem isPredicted_new (layout : Layout) (input : Input) (k : Nat) (symbol : Category) :
    (new layout input).isPredicted k symbol = false := by
  unfold isPredicted
  split
  · next column h => rw [columns_new h]; exact Std.ExtTreeSet.contains_empty
  · rfl

/-- Nothing is listed in a new chart. -/
theorem not_lists_new {k id : Nat} : ¬(new layout input).Lists k id := by
  rintro ⟨column, h, hid⟩
  rw [columns_new h] at hid
  simp [Column.empty] at hid

end New

/-! The states after a change -/

/-- Adding one number to the parents of several states adds it once for each time a state is met. -/
theorem getElem?_foldl_parents (states : Array State) (links : List Nat) (id j : Nat) :
    (links.foldl (fun states link => states.modify link fun state =>
      { state with parents := state.parents ++ [id] }) states)[j]? = states[j]?.map fun s =>
      { s with parents := s.parents ++ List.replicate (links.count j) id } := by
  induction links generalizing states with
  | nil => simp
  | cons first rest ih =>
    rw [List.foldl_cons, ih, Array.getElem?_modify, List.count_cons]
    by_cases hfirst : first = j
    · subst hfirst
      simp only [if_true, Option.map_map, beq_self_eq_true]
      congr 1
      funext s
      simp only [Function.comp_apply, List.append_assoc, List.singleton_append, List.replicate_succ]
    · simp [hfirst]

/-- Noting a derivation adds a parent for each link, and changes nothing else. -/
theorem getElem?_linkParents (c : Chart) (id : Nat) (d : Derivation) (j : Nat) :
    (c.linkParents id d).states[j]? = c.states[j]?.map fun s =>
      { s with parents := s.parents ++ List.replicate (d.links.count j) id } :=
  getElem?_foldl_parents c.states d.links id j

/-- Noting a derivation leaves the columns alone. -/
@[simp] theorem columns_linkParents (c : Chart) (id : Nat) (d : Derivation) :
    (c.linkParents id d).columns = c.columns := rfl

/-- Noting a derivation leaves the states on each rule alone. -/
@[simp] theorem byRule_linkParents (c : Chart) (id : Nat) (d : Derivation) :
    (c.linkParents id d).byRule = c.byRule := rfl

/-- Noting a derivation adds no state. -/
@[simp] theorem size_states_linkParents (c : Chart) (id : Nat) (d : Derivation) :
    (c.linkParents id d).states.size = c.states.size := by
  unfold linkParents
  dsimp only
  generalize c.states = states
  induction d.links generalizing states with
  | nil => rfl
  | cons first rest ih => rw [List.foldl_cons, ih, Array.size_modify]

/-- Packing appends a derivation that is not there yet, and adds a parent for each link. -/
theorem getElem?_pack {c : Chart} {id : Nat} {d : Derivation} {state : State}
    (hstate : c.states[id]? = some state) (hd : d ∉ state.derivations) (j : Nat) :
    (c.pack id d).states[j]? = c.states[j]?.map fun s =>
      { s with
        derivations := if j = id then s.derivations ++ [d] else s.derivations
        parents := s.parents ++ List.replicate (d.links.count j) id } := by
  simp only [pack, hstate, if_neg hd, getElem?_linkParents, Array.getElem?_modify]
  by_cases hj : id = j
  · subst hj
    simp [hstate]
  · simp [hj, Ne.symm hj]

/-- Packing adds no state. -/
@[simp] theorem size_states_pack (c : Chart) (id : Nat) (d : Derivation) :
    (c.pack id d).states.size = c.states.size := by
  unfold pack
  split
  · rfl
  · split
    · rfl
    · rw [size_states_linkParents, Array.size_modify]

/-- Recording adds one state. -/
@[simp] theorem size_states_record (c : Chart) (item : Item) (stop : Nat) (d : Derivation) :
    (c.record item stop d).states.size = c.states.size + 1 :=
  (size_states_linkParents _ _ _).trans (Array.size_push _)

/-- Packing a derivation that is there changes nothing. -/
theorem pack_eq_self {c : Chart} {id : Nat} {d : Derivation} {state : State}
    (hstate : c.states[id]? = some state) (hd : d ∈ state.derivations) : c.pack id d = c := by
  simp only [pack, hstate, if_pos hd]

/-- Recording adds one state, and a parent for each of its links. -/
theorem getElem?_record (c : Chart) (item : Item) (stop : Nat) (d : Derivation) (j : Nat) :
    (c.record item stop d).states[j]? =
      if j = c.states.size then
        some ⟨item, stop, [d], List.replicate (d.links.count j) c.states.size, false⟩
      else c.states[j]?.map fun s =>
        { s with parents := s.parents ++ List.replicate (d.links.count j) c.states.size } := by
  show (linkParents _ _ _).states[j]? = _
  rw [getElem?_linkParents, Array.getElem?_push]
  by_cases hj : j = c.states.size
  · simp [hj]
  · simp [hj]

/-! The relations after packing -/

section Pack

variable {c : Chart} {id : Nat} {d : Derivation}

/-- Packing leaves every spot. -/
theorem spot?_pack (c : Chart) (id : Nat) (d : Derivation) (j : Nat) :
    (c.pack id d).spot? j = c.spot? j := by
  cases hstate : c.states[id]? with
  | none => simp only [pack, hstate]
  | some state =>
    by_cases hd : d ∈ state.derivations
    · rw [pack_eq_self hstate hd]
    · rw [spot?, getElem?_pack hstate hd, Option.map_map, spot?]
      rfl

/-- Packing keeps what is live. -/
theorem live_pack {j : Nat} {s : Spot} : (c.pack id d).Live j s ↔ c.Live j s := by
  cases hstate : c.states[id]? with
  | none => simp only [pack, hstate]
  | some state =>
    by_cases hd : d ∈ state.derivations
    · rw [pack_eq_self hstate hd]
    · simp only [Live, getElem?_pack hstate hd, Option.map_eq_some_iff, State.spot]
      constructor
      · rintro ⟨-, ⟨old, hold, rfl⟩, hremoved, rfl⟩
        exact ⟨old, hold, hremoved, rfl⟩
      · rintro ⟨old, hold, hremoved, rfl⟩
        exact ⟨_, ⟨old, hold, rfl⟩, hremoved, rfl⟩

/-- Packing gives a live state the derivation, and no other state any. -/
theorem derives_pack {s : Spot} (hlive : c.Live id s) {j : Nat} {e : Derivation} :
    (c.pack id d).Derives j e ↔ c.Derives j e ∨ j = id ∧ e = d := by
  obtain ⟨state, hstate, hremoved, -⟩ := hlive
  by_cases hd : d ∈ state.derivations
  · rw [pack_eq_self hstate hd]
    refine ⟨.inl, ?_⟩
    rintro (he | ⟨rfl, rfl⟩)
    · exact he
    · exact ⟨state, hstate, hremoved, hd⟩
  · simp only [Derives, getElem?_pack hstate hd, Option.map_eq_some_iff]
    by_cases hj : j = id
    · subst hj
      simp [hstate, hremoved]
    · simp [hj]

/-- Packing keeps every parent. -/
theorem HasParent.pack {j parent : Nat} (h : c.HasParent j parent) :
    (c.pack id d).HasParent j parent := by
  obtain ⟨old, hold, hparent⟩ := h
  cases hstate : c.states[id]? with
  | none => simpa only [Chart.pack, hstate] using ⟨old, hold, hparent⟩
  | some state =>
    by_cases hd : d ∈ state.derivations
    · rw [pack_eq_self hstate hd]
      exact ⟨old, hold, hparent⟩
    · simp only [HasParent, getElem?_pack hstate hd, hold, Option.map_some, Option.some.injEq,
        exists_eq_left']
      exact List.mem_append_left _ hparent

/-- A state that a derivation goes through has its state for a parent once that is packed. -/
theorem hasParent_pack {s : Spot} (hlive : c.Live id s) {link : Nat} {t : Spot}
    (hlink : link ∈ d.links) (hstored : c.spot? link = some t)
    (hold : c.Derives id d → c.HasParent link id) : (c.pack id d).HasParent link id := by
  obtain ⟨state, hstate, hremoved, -⟩ := hlive
  by_cases hd : d ∈ state.derivations
  · exact (hold ⟨state, hstate, hremoved, hd⟩).pack
  · obtain ⟨old, hold, -⟩ := Option.map_eq_some_iff.mp hstored
    simp only [HasParent, getElem?_pack hstate hd, hold, Option.map_some, Option.some.injEq,
      exists_eq_left']
    exact List.mem_append_right _ (List.mem_replicate.mpr ⟨Nat.ne_of_gt (List.count_pos_iff.mpr hlink), rfl⟩)

/-- Packing changes states only. -/
theorem pack_eq : c.pack id d = { c with states := (c.pack id d).states } := by
  unfold pack
  split
  · rfl
  · split <;> rfl

/-- Packing leaves the columns alone. -/
@[simp] theorem columns_pack : (c.pack id d).columns = c.columns := by
  rw [pack_eq]

/-- Packing leaves the states on each rule alone. -/
@[simp] theorem byRule_pack : (c.pack id d).byRule = c.byRule := by
  rw [pack_eq]

/-- Packing leaves the layout alone. -/
@[simp] theorem layout_pack : (c.pack id d).layout = c.layout := by
  rw [pack_eq]

/-- Packing leaves the input alone. -/
@[simp] theorem input_pack : (c.pack id d).input = c.input := by
  rw [pack_eq]

end Pack

/-! The relations after recording and filing a new state -/

section Grow

variable {c : Chart} {g : Grammar} {item : Item} {stop : Nat} {d : Derivation}

/-- The chart with a new state, recorded and filed. -/
def grow (c : Chart) (g : Grammar) (item : Item) (stop : Nat) (d : Derivation) : Chart :=
  (c.record item stop d).file g item stop c.states.size

/-- Filing changes columns only. -/
theorem file_eq {id : Nat} :
    c.file g item stop id = { c with columns := (c.file g item stop id).columns } := by
  unfold file fileReductor fileExpecting
  split
  · rfl
  · rfl
  · split <;> rfl

/-- Filing leaves the states alone. -/
@[simp] theorem states_file {id : Nat} : (c.file g item stop id).states = c.states := by
  rw [file_eq]

/-- Filing leaves the states on each rule alone. -/
@[simp] theorem byRule_file {id : Nat} : (c.file g item stop id).byRule = c.byRule := by
  rw [file_eq]

/-- Filing leaves the layout alone. -/
@[simp] theorem layout_file {id : Nat} : (c.file g item stop id).layout = c.layout := by
  rw [file_eq]

/-- Filing leaves the input alone. -/
@[simp] theorem input_file {id : Nat} : (c.file g item stop id).input = c.input := by
  rw [file_eq]

/-- The states after growing. -/
theorem getElem?_grow (j : Nat) : (c.grow g item stop d).states[j]? =
    if j = c.states.size then
      some ⟨item, stop, [d], List.replicate (d.links.count j) c.states.size, false⟩
    else c.states[j]?.map fun s =>
      { s with parents := s.parents ++ List.replicate (d.links.count j) c.states.size } := by
  rw [grow, states_file, getElem?_record]

/-- Growing gives the new number its spot. -/
theorem spot?_grow (j : Nat) : (c.grow g item stop d).spot? j =
    if j = c.states.size then some ⟨item, stop⟩ else c.spot? j := by
  rw [spot?, getElem?_grow]
  split
  · rfl
  · rw [Option.map_map, spot?]
    rfl

/-- Growing makes the new number live. -/
theorem live_grow {j : Nat} {s : Spot} : (c.grow g item stop d).Live j s ↔
    c.Live j s ∨ j = c.states.size ∧ s = ⟨item, stop⟩ := by
  simp only [Live, getElem?_grow]
  by_cases hj : j = c.states.size
  · subst hj
    simp only [if_true, Option.some.injEq, exists_eq_left', State.spot, true_and]
    constructor
    · rintro rfl
      exact .inr rfl
    · rintro (⟨old, hold, -⟩ | rfl)
      · exact absurd (Array.getElem?_eq_some_iff.mp hold).1 (Nat.lt_irrefl _)
      · rfl
  · rw [if_neg hj]
    simp only [Option.map_eq_some_iff, hj, false_and, or_false]
    constructor
    · rintro ⟨-, ⟨old, hold, rfl⟩, hremoved, rfl⟩
      exact ⟨old, hold, hremoved, rfl⟩
    · rintro ⟨old, hold, hremoved, rfl⟩
      exact ⟨_, ⟨old, hold, rfl⟩, hremoved, rfl⟩

/-- What has a spot of a kind after growing is what had one, and the new number if its spot is of the kind. -/
theorem exists_spot?_grow {P : Spot → Prop} {j : Nat} :
    (∃ s, (c.grow g item stop d).spot? j = some s ∧ P s) ↔
      (∃ s, c.spot? j = some s ∧ P s) ∨ P ⟨item, stop⟩ ∧ j = c.states.size := by
  simp only [spot?_grow]
  by_cases hj : j = c.states.size
  · subst hj
    have hnone : c.spot? c.states.size = none := by simp [spot?]
    simp [hnone]
  · simp [hj]

/-- What is live at a spot of a kind after growing is what was, and the new number if its spot is of the kind. -/
theorem exists_live_grow {P : Spot → Prop} {j : Nat} :
    (∃ s, (c.grow g item stop d).Live j s ∧ P s) ↔
      (∃ s, c.Live j s ∧ P s) ∨ P ⟨item, stop⟩ ∧ j = c.states.size := by
  simp only [live_grow]
  constructor
  · rintro ⟨s, hs | ⟨hj, rfl⟩, hP⟩
    · exact .inl ⟨s, hs, hP⟩
    · exact .inr ⟨hP, hj⟩
  · rintro (⟨s, hs, hP⟩ | ⟨hP, hj⟩)
    · exact ⟨s, .inl hs, hP⟩
    · exact ⟨_, .inr ⟨hj, rfl⟩, hP⟩

/-- Growing gives the new number its derivation. -/
theorem derives_grow {j : Nat} {e : Derivation} : (c.grow g item stop d).Derives j e ↔
    c.Derives j e ∨ j = c.states.size ∧ e = d := by
  simp only [Derives, getElem?_grow]
  by_cases hj : j = c.states.size
  · subst hj
    simp
  · simp [hj]

/-- Growing keeps every parent. -/
theorem HasParent.grow {j parent : Nat} (h : c.HasParent j parent) :
    (c.grow g item stop d).HasParent j parent := by
  obtain ⟨old, hold, hparent⟩ := h
  have hj : j ≠ c.states.size := Nat.ne_of_lt (Array.getElem?_eq_some_iff.mp hold).1
  simp only [HasParent, getElem?_grow, if_neg hj, hold, Option.map_some, Option.some.injEq,
    exists_eq_left']
  exact List.mem_append_left _ hparent

/-- A state that the new derivation goes through has the new state for a parent. -/
theorem hasParent_grow {link : Nat} {t : Spot} (hlink : link ∈ d.links)
    (hstored : c.spot? link = some t) : (c.grow g item stop d).HasParent link c.states.size := by
  have hne : link ≠ c.states.size := Nat.ne_of_lt (lt_size_of_spot? hstored)
  obtain ⟨old, hold, -⟩ := Option.map_eq_some_iff.mp hstored
  simp only [HasParent, getElem?_grow, if_neg hne, hold, Option.map_some, Option.some.injEq,
    exists_eq_left']
  exact List.mem_append_right _ (List.mem_replicate.mpr ⟨Nat.ne_of_gt (List.count_pos_iff.mpr hlink), rfl⟩)

/-- A column after recording. -/
theorem columns_record (k : Nat) : (c.record item stop d).columns[k]? =
    c.columns[k]?.map fun column => if stop = k then
      { column with
        lookup := column.lookup.insert item c.states.size
        states := column.states.push c.states.size } else column := by
  show (c.columns.modify _ _)[k]? = _
  rw [Array.getElem?_modify]
  split
  · rfl
  · simp

/-- A column after filing. -/
theorem columns_file (id k : Nat) : (c.file g item stop id).columns[k]? =
    c.columns[k]?.map fun column => { column with
      expecting := match g.ahead item.rule item.dot with
        | .expects symbol => if stop = k ∧ symbol.isEpsilon = false then
            column.expecting.push symbol id else column.expecting
        | _ => column.expecting
      reductors := match g.ahead item.rule item.dot with
        | .complete lhs => if item.origin = k then column.reductors.push lhs id else column.reductors
        | _ => column.reductors } := by
  unfold file fileReductor fileExpecting
  cases g.ahead item.rule item.dot with
  | unknown => simp
  | complete lhs =>
    simp only [Array.getElem?_modify]
    by_cases hk : item.origin = k <;> simp [hk]
  | expects symbol =>
    cases hsymbol : symbol.isEpsilon with
    | true => simp [hsymbol]
    | false =>
      simp only [hsymbol, Bool.false_eq_true, if_false, Array.getElem?_modify, and_true]
      by_cases hk : stop = k <;> simp [hk]

/-- A column after growing. -/
theorem columns_grow (k : Nat) : (c.grow g item stop d).columns[k]? =
    c.columns[k]?.map fun column => { column with
      lookup := if stop = k then column.lookup.insert item c.states.size else column.lookup
      states := if stop = k then column.states.push c.states.size else column.states
      expecting := match g.ahead item.rule item.dot with
        | .expects symbol => if stop = k ∧ symbol.isEpsilon = false then
            column.expecting.push symbol c.states.size else column.expecting
        | _ => column.expecting
      reductors := match g.ahead item.rule item.dot with
        | .complete lhs =>
            if item.origin = k then column.reductors.push lhs c.states.size else column.reductors
        | _ => column.reductors } := by
  rw [grow, columns_file, columns_record, Option.map_map]
  congr 1
  funext column
  by_cases hk : stop = k
  · simp only [Function.comp_apply, if_pos hk]
  · simp only [Function.comp_apply, if_neg hk]

/-- Growing adds no column. -/
theorem size_columns_grow : (c.grow g item stop d).columns.size = c.columns.size := by
  unfold grow file fileReductor fileExpecting record
  split
  · exact Array.size_modify
  · simp only [Array.size_modify, linkParents]
  · split
    · exact Array.size_modify
    · simp only [Array.size_modify, linkParents]

/-- Growing files the new number under its rule. -/
theorem byRule_grow : (c.grow g item stop d).byRule = c.byRule.push item.rule c.states.size := by
  rw [grow, byRule_file]
  rfl

/-- Growing leaves the layout alone. -/
theorem layout_grow : (c.grow g item stop d).layout = c.layout := by
  rw [grow, layout_file]
  rfl

/-- Growing leaves the input alone. -/
theorem input_grow : (c.grow g item stop d).input = c.input := by
  rw [grow, input_file]
  rfl

/-- Growing finds the new item, and all others as before. -/
theorem find?_grow (hstop : stop < c.columns.size) (other : Item) (k : Nat) :
    (c.grow g item stop d).find? other k =
      if item = other ∧ stop = k then some c.states.size else c.find? other k := by
  unfold find?
  rw [columns_grow]
  by_cases hk : stop = k
  · subst hk
    rw [Array.getElem?_eq_getElem hstop]
    simp only [Option.map_some, if_true, Option.bind_some, Std.ExtTreeMap.getElem?_insert,
      Std.compare_eq_iff_eq, and_true]
  · cases c.columns[k]? with
    | none => simp [hk]
    | some column => simp [hk]

/-- Growing has the new state wait for what it expects. -/
theorem expecting_grow (hstop : stop < c.columns.size) (k : Nat) (symbol : Category) :
    (c.grow g item stop d).expecting k symbol =
      if stop = k ∧ g.Expects item symbol ∧ symbol.isEpsilon = false then
        c.expecting k symbol ++ [c.states.size] else c.expecting k symbol := by
  unfold expecting Grammar.Expects
  rw [columns_grow]
  by_cases hk : stop = k
  · subst hk
    rw [Array.getElem?_eq_getElem hstop]
    simp only [Option.map_some, true_and]
    cases g.ahead item.rule item.dot with
    | unknown => simp
    | complete lhs => simp
    | expects other =>
      simp only [Grammar.Ahead.expects.injEq]
      by_cases hother : other = symbol
      · subst hother
        cases hepsilon : other.isEpsilon with
        | true => simp
        | false => simp [Index.ids_push]
      · cases other.isEpsilon with
        | true => simp [hother]
        | false => simp [Index.ids_push, hother]
  · cases c.columns[k]? with
    | none => simp [hk]
    | some column =>
      rw [if_neg fun h => hk h.1]
      simp only [Option.map_some, hk, if_false]
      cases g.ahead item.rule item.dot <;> simp

/-- Growing files a complete state under its left-hand side. -/
theorem reductors_grow (horigin : item.origin < c.columns.size) (k : Nat) (lhs : Category) :
    (c.grow g item stop d).reductors k lhs =
      if item.origin = k ∧ g.Completes item lhs then
        c.reductors k lhs ++ [c.states.size] else c.reductors k lhs := by
  unfold reductors Grammar.Completes
  rw [columns_grow]
  by_cases hk : item.origin = k
  · subst hk
    rw [Array.getElem?_eq_getElem horigin]
    simp only [Option.map_some, true_and]
    cases g.ahead item.rule item.dot with
    | unknown => simp
    | complete other =>
      simp only [Grammar.Ahead.complete.injEq, if_true, Index.ids_push]
    | expects symbol => simp
  · cases c.columns[k]? with
    | none => simp [hk]
    | some column =>
      rw [if_neg fun h => hk h.1]
      simp only [Option.map_some, hk, if_false]
      cases g.ahead item.rule item.dot <;> simp

/-- Growing predicts nothing. -/
theorem isPredicted_grow (k : Nat) (symbol : Category) :
    (c.grow g item stop d).isPredicted k symbol = c.isPredicted k symbol := by
  unfold isPredicted
  rw [columns_grow]
  cases c.columns[k]? <;> rfl

/-- Growing lists the new state at the column it ends at. -/
theorem lists_grow (hstop : stop < c.columns.size) {k id : Nat} :
    (c.grow g item stop d).Lists k id ↔ c.Lists k id ∨ stop = k ∧ id = c.states.size := by
  unfold Lists
  rw [columns_grow]
  by_cases hk : stop = k
  · subst hk
    rw [Array.getElem?_eq_getElem hstop]
    simp
  · cases c.columns[k]? with
    | none => simp [hk]
    | some column => simp [hk]

end Grow

/-! The relations of charts that differ only in what they predict -/

section Repredicted

variable {c c' : Chart} {f : Nat → Column → CategorySet}

/-- The same items are found. -/
theorem find?_repredicted (hcolumns : ∀ j : Nat, c'.columns[j]? =
      c.columns[j]?.map fun column : Column => { column with predicted := f j column })
    (item : Item) (stop : Nat) : c'.find? item stop = c.find? item stop := by
  unfold find?
  rw [hcolumns]
  cases c.columns[stop]? <;> rfl

/-- The same states wait. -/
theorem expecting_repredicted (hcolumns : ∀ j : Nat, c'.columns[j]? =
      c.columns[j]?.map fun column : Column => { column with predicted := f j column })
    (k : Nat) (symbol : Category) : c'.expecting k symbol = c.expecting k symbol := by
  unfold expecting
  rw [hcolumns]
  cases c.columns[k]? <;> rfl

/-- The same completed states are found. -/
theorem reductors_repredicted (hcolumns : ∀ j : Nat, c'.columns[j]? =
      c.columns[j]?.map fun column : Column => { column with predicted := f j column })
    (k : Nat) (lhs : Category) : c'.reductors k lhs = c.reductors k lhs := by
  unfold reductors
  rw [hcolumns]
  cases c.columns[k]? <;> rfl

/-- The same states are listed. -/
theorem lists_repredicted (hcolumns : ∀ j : Nat, c'.columns[j]? =
      c.columns[j]?.map fun column : Column => { column with predicted := f j column })
    {k id : Nat} : c'.Lists k id ↔ c.Lists k id := by
  unfold Lists
  rw [hcolumns]
  cases c.columns[k]? <;> simp

end Repredicted

/-! The relations after predicting -/

section Predict

variable {c : Chart} {k : Nat} {symbol : Category}

/-- A column after predicting. -/
theorem columns_predict (j : Nat) : (c.predict k symbol).columns[j]? =
    c.columns[j]?.map fun column => { column with
      predicted := if k = j then column.predicted.insert symbol else column.predicted } := by
  show (c.columns.modify _ _)[j]? = _
  rw [Array.getElem?_modify]
  by_cases hj : k = j
  · simp [hj]
  · simp [hj]

/-- Predicting a category has it predicted at one column. -/
theorem isPredicted_predict (hk : k < c.columns.size) (j : Nat) (other : Category) :
    (c.predict k symbol).isPredicted j other =
      (decide (k = j ∧ symbol = other) || c.isPredicted j other) := by
  unfold isPredicted
  rw [columns_predict]
  by_cases hj : k = j
  · subst hj
    rw [Array.getElem?_eq_getElem hk]
    simp only [Option.map_some, if_true, true_and, Std.ExtTreeSet.contains_insert]
    congr 1
    rw [Bool.eq_iff_iff, beq_iff_eq, decide_eq_true_iff, Std.compare_eq_iff_eq]
  · cases c.columns[j]? with
    | none => simp [hj]
    | some column => simp [hj]

end Predict

end Chart

end IndexedGrammar
