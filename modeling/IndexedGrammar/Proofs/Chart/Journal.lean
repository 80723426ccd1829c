import IndexedGrammar.Chart.Removal
import IndexedGrammar.Proofs.Chart.Filed

/-!
# Taking changes back

Each change of a chart is noted with a way to take it back. Here it is shown that this way leads back
to the chart as it was, for every kind of change. A state once added stays at the end of the chart
until the journal gives the chart its old size, so changes lead back up to such states; taking back
an earlier change takes no notice of them.
-/

namespace IndexedGrammar.Chart

/-- The chart with more states at the end. -/
def extend (c : Chart) (more : Array State) : Chart :=
  { c with states := c.states ++ more }

/-- Taking the changes back leads from a chart to an earlier one, up to states at the end. -/
def Restores (changes : List Undo) (c earlier : Chart) : Prop :=
  ∃ more, c.undoAll changes = .ok (earlier.extend more)

/-- Extending a chart by nothing leaves it as it is. -/
@[simp] theorem extend_empty (c : Chart) : c.extend #[] = c := by
  simp [extend]

/-- Extending a chart twice extends it by both. -/
theorem extend_extend (c : Chart) (more most : Array State) :
    (c.extend more).extend most = c.extend (more ++ most) := by
  simp [extend]

/-- Changing a column takes no notice of states at the end. -/
theorem editColumn_extend {c d : Chart} {k : Nat} {f : Column → Except Breach Column}
    (more : Array State) (h : c.editColumn k f = .ok d) :
    (c.extend more).editColumn k f = .ok (d.extend more) := by
  unfold editColumn at h ⊢
  have hsame : (c.extend more).columns = c.columns := rfl
  rw [hsame]
  cases hcolumn : c.columns[k]? with
  | none => simp [hcolumn] at h
  | some column =>
    simp only [hcolumn] at h
    cases hf : f column with
    | error breach => simp [hf, Except.map] at h
    | ok changed =>
      simp only [hf, Except.map, Except.ok.injEq] at h
      subst h
      simp only [hf, Except.map]
      rfl

/-- Changing a state takes no notice of states at the end. -/
theorem editState_extend {c d : Chart} {id : Nat} {f : State → State} (more : Array State)
    (h : c.editState id f = .ok d) : (c.extend more).editState id f = .ok (d.extend more) := by
  unfold editState at h ⊢
  cases hstate : c.states[id]? with
  | none => simp [hstate] at h
  | some state =>
    have hid : id < c.states.size := (Array.getElem?_eq_some_iff.mp hstate).1
    have hsame : (c.extend more).states[id]? = some state := by
      rw [extend, Array.getElem?_append_left hid, hstate]
    simp only [hstate, Except.ok.injEq] at h
    subst h
    simp only [hsame]
    congr 1
    simp only [extend, Chart.mk.injEq, and_self, and_true]
    exact Array.setIfInBounds_append_left hid

/-- Taking back a change takes no notice of states at the end. -/
theorem undo_extend {c d : Chart} {change : Undo} (more : Array State)
    (h : c.undo change = .ok d) : (c.extend more).undo change = .ok (d.extend more) := by
  cases change with
  | filedRule rule =>
    simp only [undo, extend] at h ⊢
    cases hpop : popIndex c.byRule rule with
    | error breach => simp [hpop, Except.map] at h
    | ok index =>
      simp only [hpop, Except.map, Except.ok.injEq] at h
      subst h
      rfl
  | derived id => exact editState_extend more h
  | underived id place d => exact editState_extend more h
  | parented id => exact editState_extend more h
  | struck id => exact editState_extend more h
  | _ => exact editColumn_extend more h

/-- Taking back changes takes no notice of states at the end. -/
theorem undoAll_extend {c d : Chart} {changes : List Undo} (more : Array State)
    (h : c.undoAll changes = .ok d) : (c.extend more).undoAll changes = .ok (d.extend more) := by
  induction changes generalizing c with
  | nil =>
    obtain rfl := Except.ok.inj h
    rfl
  | cons change earlier ih =>
    unfold undoAll at h ⊢
    cases hundo : c.undo change with
    | error breach => simp [hundo] at h
    | ok undone =>
      simp only [hundo] at h
      simp only [undo_extend more hundo]
      exact ih h

/-- Taking back changes after later ones. -/
theorem undoAll_append {c d : Chart} {later : List Undo} (h : c.undoAll later = .ok d)
    (earlier : List Undo) : c.undoAll (later ++ earlier) = d.undoAll earlier := by
  induction later generalizing c with
  | nil =>
    obtain rfl := Except.ok.inj h
    rfl
  | cons change rest ih =>
    rw [undoAll] at h
    rw [List.cons_append, undoAll]
    cases hundo : c.undo change with
    | error breach => simp [hundo] at h
    | ok undone =>
      simp only [hundo] at h
      exact ih h

/-- No change leads nowhere else. -/
theorem Restores.refl (c : Chart) : Restores [] c c :=
  ⟨#[], by rw [extend_empty]; rfl⟩

/-- What leads back exactly leads back. -/
theorem restores_of_undoAll {changes : List Undo} {c earlier : Chart}
    (h : c.undoAll changes = .ok earlier) : Restores changes c earlier :=
  ⟨#[], by rw [extend_empty]; exact h⟩

/-- Later changes are taken back before earlier ones. -/
theorem Restores.trans {later changes : List Undo} {c middle earlier : Chart}
    (hlater : Restores later c middle) (hchanges : Restores changes middle earlier) :
    Restores (later ++ changes) c earlier := by
  obtain ⟨more, hmore⟩ := hlater
  obtain ⟨most, hmost⟩ := hchanges
  refine ⟨most ++ more, ?_⟩
  rw [undoAll_append hmore, undoAll_extend more hmost, extend_extend]

/-- Changes noted since a chart lead back to it in the end. -/
theorem Restores.rollBack {changes : List Undo} {c earlier : Chart}
    (h : Restores changes c earlier) : (Journal.mk earlier.states.size changes).rollBack c = .ok earlier := by
  obtain ⟨more, hmore⟩ := h
  simp only [Journal.rollBack, hmore, Except.map, extend]
  congr 1
  cases earlier
  simp

/-! The changes that a run makes -/

/-- A change of a column is taken back by one that leads the column back. -/
theorem editColumn_modify {c : Chart} {k : Nat} {column : Column} {f : Column → Column}
    {back : Column → Except Breach Column} (hcolumn : c.columns[k]? = some column)
    (hback : back (f column) = .ok column) :
    editColumn { c with columns := c.columns.modify k f } k back = .ok c := by
  have hk : k < c.columns.size := (Array.getElem?_eq_some_iff.mp hcolumn).1
  simp only [editColumn, Array.getElem?_modify, if_true, hcolumn, Option.map_some, hback, Except.map]
  congr 1
  cases c with
  | mk states columns byRule layout input =>
    simp only [mk.injEq, and_true, true_and]
    refine Array.ext_getElem? fun j => ?_
    simp only [Array.getElem?_setIfInBounds, Array.size_modify, Array.getElem?_modify]
    by_cases hj : k = j
    · subst hj
      simp only [if_true]
      simpa [hk] using hcolumn.symm
    · simp [hj]

/-- Changing a state of the chart. -/
theorem editState_eq {c : Chart} {id : Nat} {state : State} (hstate : c.states[id]? = some state)
    (f : State → State) : c.editState id f = .ok { c with states := c.states.modify id f } := by
  simp only [editState, hstate]
  congr 2
  refine Array.ext_getElem? fun j => ?_
  rw [Array.getElem?_setIfInBounds, Array.getElem?_modify]
  split
  · next hj =>
    subst hj
    rw [if_pos (Array.getElem?_eq_some_iff.mp hstate).1, hstate, Option.map_some]
  · rfl

/-- Changing a state twice. -/
theorem modify_modify (states : Array State) (id : Nat) (f f' : State → State) :
    (states.modify id f).modify id f' = states.modify id fun state => f' (f state) := by
  refine Array.ext_getElem? fun j => ?_
  simp only [Array.getElem?_modify]
  split
  · rw [Option.map_map]
    rfl
  · rfl

/-- Changing a state into itself. -/
theorem modify_eq_self {states : Array State} {id : Nat} {state : State}
    (hstate : states[id]? = some state) {f : State → State} (hf : f state = state) :
    states.modify id f = states := by
  refine Array.ext_getElem? fun j => ?_
  rw [Array.getElem?_modify]
  split
  · next hj =>
    subst hj
    rw [hstate, Option.map_some, hf]
  · rfl

/-- A change of a state is taken back by one that leads the state back. -/
theorem editState_modify {c : Chart} {id : Nat} {state : State} {f back : State → State}
    (hstate : c.states[id]? = some state) (hback : back (f state) = state) :
    editState { c with states := c.states.modify id f } id back = .ok c := by
  have hchanged : (c.states.modify id f)[id]? = some (f state) := by
    rw [Array.getElem?_modify, if_pos rfl, hstate, Option.map_some]
  rw [editState_eq hchanged, modify_modify, modify_eq_self hstate hback]

/-- Noting a derivation is taken back link by link. -/
theorem undoAll_linkParents {c : Chart} {id : Nat} {d : Derivation}
    (hlinks : ∀ link ∈ d.links, link < c.states.size) :
    (c.linkParents id d).undoAll (undoLinks d) = .ok c := by
  unfold linkParents undoLinks
  generalize d.links = links at hlinks
  induction links generalizing c with
  | nil => rfl
  | cons link rest ih =>
    rw [List.map_cons, List.reverse_cons, List.foldl_cons]
    have hlink : link < c.states.size := hlinks link List.mem_cons_self
    have hrest := ih (c := { c with states := c.states.modify link fun state =>
      { state with parents := state.parents ++ [id] } }) fun other hother => by
        rw [Array.size_modify]
        exact hlinks other (List.mem_cons_of_mem _ hother)
    rw [undoAll_append hrest]
    have hundo : undo { c with states := c.states.modify link fun state =>
        { state with parents := state.parents ++ [id] } } (.parented link) = .ok c :=
      editState_modify (Array.getElem?_eq_getElem hlink) (by simp)
    simp only [undoAll, hundo]

/-- Packing is taken back. -/
theorem restores_pack {c : Chart} {id : Nat} {d : Derivation}
    (hlinks : ∀ link ∈ d.links, link < c.states.size) :
    Restores (c.undoPack id d) (c.pack id d) c := by
  apply restores_of_undoAll
  unfold undoPack pack
  cases hstate : c.states[id]? with
  | none => rfl
  | some state =>
    by_cases hd : d ∈ state.derivations
    · simp only [if_pos hd]
      rfl
    · simp only [if_neg hd]
      rw [undoAll_append (undoAll_linkParents (by simpa using hlinks))]
      have hundo : undo { c with states := c.states.modify id fun state =>
          { state with derivations := state.derivations ++ [d] } } (.derived id) = .ok c :=
        editState_modify hstate (by simp)
      simp only [undoAll, hundo]

/-- Forgetting what was just found under a key leads a lookup back. -/
theorem erase_insert {lookup : Std.ExtTreeMap Item Nat} {item : Item} {id : Nat}
    (h : lookup[item]? = none) : (lookup.insert item id).erase item = lookup := by
  apply Std.ExtTreeMap.ext_getElem?
  intro other
  rw [Std.ExtTreeMap.getElem?_erase]
  by_cases hother : item = other
  · subst hother
    simp [h]
  · simp [Std.ExtTreeMap.getElem?_insert, hother]

/-- Recording a state that is not there is taken back, up to the state. -/
theorem restores_record {c : Chart} (htidy : c.byRule.Tidy) {item : Item} {stop : Nat}
    {d : Derivation} (hnone : c.find? item stop = none) (hstop : stop < c.columns.size)
    (hlinks : ∀ link ∈ d.links, link < c.states.size) :
    Restores (undoRecord item stop d) (c.record item stop d) c := by
  refine ⟨#[⟨item, stop, [d], [], false⟩], ?_⟩
  generalize hstate : State.mk item stop [d] [] false = state
  have hlookup : c.columns[stop].lookup[item]? = none := by
    simpa [find?, Array.getElem?_eq_getElem hstop] using hnone
  have hcolumn : c.columns[stop]? = some c.columns[stop] := Array.getElem?_eq_getElem hstop
  -- the three entries for the indexes, then those for the parents
  have hrule : undo (c.record item stop d) (.filedRule item.rule) =
      .ok { c.record item stop d with byRule := c.byRule } := by
    simp [undo, record, popIndex, htidy.pop?_push, Except.map]
  let filed : Chart :=
    { linkParents { c with states := c.states.push state } c.states.size d with
      columns := c.columns.modify stop fun column =>
        { column with lookup := column.lookup.insert item c.states.size } }
  have hlisted : undo { c.record item stop d with byRule := c.byRule } (.listed stop) =
      .ok filed := by
    simp only [undo, editColumn, record, Array.getElem?_modify, if_true, linkParents, hcolumn,
      Option.map_some, Except.map, Array.pop_push, hstate, filed]
    congr 2
    refine Array.ext_getElem? fun j => ?_
    simp only [Array.getElem?_setIfInBounds, Array.size_modify, Array.getElem?_modify]
    by_cases hj : stop = j
    · subst hj
      simp [hstop]
    · simp [hj]
  have hitem : undo filed (.filedItem stop item) =
      .ok (linkParents { c with states := c.states.push state } c.states.size d) :=
    editColumn_modify (c := linkParents { c with states := c.states.push state } c.states.size d)
      hcolumn (by simp only [erase_insert hlookup])
  have hparents : (linkParents { c with states := c.states.push state } c.states.size d).undoAll
      (undoLinks d) = .ok { c with states := c.states.push state } :=
    undoAll_linkParents fun link hlink => by
      rw [Array.size_push]
      exact Nat.lt_succ_of_lt (hlinks link hlink)
  simp only [undoRecord, undoAll, hrule, hlisted, hitem, hparents]
  simp [extend]

/-- Filing a completed state is taken back. -/
theorem restores_fileReductor {c : Chart} {origin : Nat} {lhs : Category} {id : Nat}
    {column : Column} (hcolumn : c.columns[origin]? = some column) (htidy : column.reductors.Tidy) :
    Restores [.filedReductor origin lhs] (c.fileReductor origin lhs id) c := by
  apply restores_of_undoAll
  have hundo : undo (c.fileReductor origin lhs id) (.filedReductor origin lhs) = .ok c :=
    editColumn_modify hcolumn (by simp [popIndex, htidy.pop?_push, Except.map])
  simp only [undoAll, hundo]

/-- Filing a waiting state is taken back. -/
theorem restores_fileExpecting {c : Chart} {stop : Nat} {symbol : Category} {id : Nat}
    {column : Column} (hcolumn : c.columns[stop]? = some column) (htidy : column.expecting.Tidy) :
    Restores (undoFileExpecting stop symbol) (c.fileExpecting stop symbol id) c := by
  unfold undoFileExpecting fileExpecting
  split
  · exact .refl c
  · apply restores_of_undoAll
    have hundo : undo { c with columns := c.columns.modify stop fun column =>
        { column with expecting := column.expecting.push symbol id } }
        (.filedExpecting stop symbol) = .ok c :=
      editColumn_modify hcolumn (by simp [popIndex, htidy.pop?_push, Except.map])
    simp only [undoAll, hundo]

/-- Predicting a category that is not predicted is taken back. -/
theorem restores_predict {c : Chart} {k : Nat} {symbol : Category} (hk : k < c.columns.size)
    (hnot : c.isPredicted k symbol = false) :
    Restores [.predicted k symbol] (c.predict k symbol) c := by
  apply restores_of_undoAll
  have hcolumn : c.columns[k]? = some c.columns[k] := Array.getElem?_eq_getElem hk
  have hpredicted : c.columns[k].predicted.contains symbol = false := by
    simpa only [isPredicted, hcolumn] using hnot
  have hset : (c.columns[k].predicted.insert symbol).erase symbol = c.columns[k].predicted := by
    apply Std.ExtTreeSet.ext_mem
    intro other
    rw [Std.ExtTreeSet.mem_erase, Std.ExtTreeSet.mem_insert]
    by_cases hother : symbol = other
    · subst hother
      simp [Std.ExtTreeSet.mem_iff_contains, hpredicted]
    · simp [hother]
  have hundo : undo (c.predict k symbol) (.predicted k symbol) = .ok c :=
    editColumn_modify hcolumn (by rw [hset])
  simp only [undoAll, hundo]

/-! The changes that a removal makes -/

/-- Striking a live state is taken back. -/
theorem restores_strike {c : Chart} {id : Nat} {state : State} (hstate : c.states[id]? = some state)
    (hlive : state.removed = false) : Restores [.struck id] (c.strike id) c := by
  apply restores_of_undoAll
  have hundo : undo (c.strike id) (.struck id) = .ok c :=
    editState_modify hstate (by simp [← hlive])
  simp only [undoAll, hundo]

/-- Finding what was just forgotten leads a lookup back. -/
theorem insert_erase {lookup : Std.ExtTreeMap Item Nat} {item : Item} {id : Nat}
    (h : lookup[item]? = some id) : (lookup.erase item).insert item id = lookup := by
  apply Std.ExtTreeMap.ext_getElem?
  intro other
  rw [Std.ExtTreeMap.getElem?_insert]
  by_cases hother : item = other
  · subst hother
    simp [h]
  · simp [Std.ExtTreeMap.getElem?_erase, hother]

/-- Forgetting the state of an item is taken back. -/
theorem restores_unfileItem {c : Chart} {k id : Nat} {item : Item} {column : Column}
    (hcolumn : c.columns[k]? = some column) (hitem : column.lookup[item]? = some id) :
    Restores [.unfiledItem k item id] { c with columns := c.columns.modify k fun column =>
      { column with lookup := column.lookup.erase item } } c := by
  apply restores_of_undoAll
  have hundo : undo { c with columns := c.columns.modify k fun column =>
      { column with lookup := column.lookup.erase item } } (.unfiledItem k item id) = .ok c :=
    editColumn_modify hcolumn (by simp only [insert_erase hitem])
  simp only [undoAll, hundo]

/-- Forgetting a completed state is taken back. -/
theorem restores_unfileReductor {c : Chart} {k id : Nat} {lhs : Category} {column : Column}
    (hcolumn : c.columns[k]? = some column) (htidy : column.reductors.Tidy)
    (hid : id ∈ column.reductors.ids lhs) :
    Restores [.unfiledReductor k lhs ((column.reductors.ids lhs).idxOf id) id]
      { c with columns := c.columns.modify k fun old =>
        { old with reductors := column.reductors.put lhs ((column.reductors.ids lhs).erase id) } }
      c := by
  apply restores_of_undoAll
  have hundo : undo { c with columns := c.columns.modify k fun old =>
        { old with reductors := column.reductors.put lhs ((column.reductors.ids lhs).erase id) } }
      (.unfiledReductor k lhs ((column.reductors.ids lhs).idxOf id) id) = .ok c :=
    editColumn_modify hcolumn (by simp only [htidy.insertAt_erase hid])
  simp only [undoAll, hundo]

/-- Forgetting a waiting state is taken back. -/
theorem restores_unfileExpecting {c : Chart} {k id : Nat} {symbol : Category} {column : Column}
    (hcolumn : c.columns[k]? = some column) (htidy : column.expecting.Tidy)
    (hid : id ∈ column.expecting.ids symbol) :
    Restores [.unfiledExpecting k symbol ((column.expecting.ids symbol).idxOf id) id]
      { c with columns := c.columns.modify k fun old => { old with
        expecting := column.expecting.put symbol ((column.expecting.ids symbol).erase id) } }
      c := by
  apply restores_of_undoAll
  have hundo : undo { c with columns := c.columns.modify k fun old => { old with
        expecting := column.expecting.put symbol ((column.expecting.ids symbol).erase id) } }
      (.unfiledExpecting k symbol ((column.expecting.ids symbol).idxOf id) id) = .ok c :=
    editColumn_modify hcolumn (by simp only [htidy.insertAt_erase hid])
  simp only [undoAll, hundo]

/-- Unpredicting a predicted category is taken back. -/
theorem restores_unpredict {c : Chart} {k : Nat} {symbol : Category} {column : Column}
    (hcolumn : c.columns[k]? = some column) (hpredicted : symbol ∈ column.predicted) :
    Restores [.unpredicted k symbol] { c with columns := c.columns.modify k fun column =>
      { column with predicted := column.predicted.erase symbol } } c := by
  apply restores_of_undoAll
  have hset : (column.predicted.erase symbol).insert symbol = column.predicted := by
    apply Std.ExtTreeSet.ext_mem
    intro other
    rw [Std.ExtTreeSet.mem_insert, Std.ExtTreeSet.mem_erase]
    by_cases hother : symbol = other
    · subst hother
      simp [hpredicted]
    · simp [hother]
  have hundo : undo { c with columns := c.columns.modify k fun column =>
      { column with predicted := column.predicted.erase symbol } } (.unpredicted k symbol) = .ok c :=
    editColumn_modify hcolumn (by simp only [hset])
  simp only [undoAll, hundo]

/-- Inserting at the end of the first part of a list. -/
theorem insertIdx_length_append {α : Type} (front back : List α) (a : α) :
    (front ++ back).insertIdx front.length a = front ++ a :: back := by
  induction front with
  | nil => simp
  | cons first front ih => simp [ih]

/-- Derivations are put back into a state from the first place to the last, behind those already in
place. -/
theorem undoAll_underived {c : Chart} {id through : Nat} {state : State}
    (hstate : c.states[id]? = some state) (front back : List Derivation) :
    undoAll { c with states := c.states.modify id fun state => { state with
        derivations := front ++ back.filter fun d => through ∉ d.links } }
      (((back.zipIdx front.length).filter fun (d, _) => through ∈ d.links).map fun (d, place) =>
        .underived id place d) =
      .ok { c with states := c.states.modify id fun state => { state with
        derivations := front ++ back } } := by
  induction back generalizing front with
  | nil => rfl
  | cons d back ih =>
    have hback := ih (front ++ [d])
    rw [List.length_append, List.length_singleton] at hback
    rw [List.zipIdx_cons]
    -- a derivation through the state is put back in its place, any other one is still there
    by_cases hd : through ∈ d.links
    · rw [List.filter_cons_of_neg (by simpa using hd), List.filter_cons_of_pos (by simpa using hd),
        List.map_cons, undoAll]
      have hundo : undo { c with states := c.states.modify id fun state => { state with
          derivations := front ++ back.filter fun d => through ∉ d.links } }
          (.underived id front.length d) = .ok { c with states := c.states.modify id fun state =>
            { state with
              derivations := (front ++ [d]) ++ back.filter fun d => through ∉ d.links } } := by
        rw [undo, editState_eq (by rw [Array.getElem?_modify, if_pos rfl, hstate, Option.map_some]),
          modify_modify]
        simp only [insertIdx_length_append, List.append_assoc, List.singleton_append]
      simp only [hundo]
      rw [hback, List.append_assoc, List.singleton_append]
    · rw [List.filter_cons_of_pos (by simpa using hd), List.filter_cons_of_neg (by simpa using hd)]
      simp only [List.append_assoc, List.singleton_append] at hback
      exact hback

/-- Taking a state's derivations through another one away is taken back. -/
theorem restores_dropLinks {c : Chart} {id through : Nat} {state : State}
    (hstate : c.states[id]? = some state) :
    Restores (undoDropLinks id through state.derivations) (c.dropLinks id through) c := by
  apply restores_of_undoAll
  have hdrop : c.dropLinks id through = { c with states := c.states.modify id fun old =>
      { old with derivations := [] ++ state.derivations.filter fun d => through ∉ d.links } } := by
    unfold dropLinks
    congr 1
    refine Array.ext_getElem? fun j => ?_
    simp only [Array.getElem?_modify]
    split
    · next hj =>
      subst hj
      simp [hstate]
    · rfl
  rw [hdrop]
  refine (undoAll_underived hstate [] state.derivations).trans ?_
  rw [modify_eq_self hstate]
  simp

end IndexedGrammar.Chart
