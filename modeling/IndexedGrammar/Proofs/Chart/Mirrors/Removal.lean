import IndexedGrammar.Proofs.Chart.Mirrors
import IndexedGrammar.Proofs.Chart.Sweep

/-!
# Removals under new numbers

Two removals on charts that mirror each other take the same states out. A state that was taken out before, and has no
number in the second chart, is passed over in the first one wherever it is still listed: among the parents of a state,
under its rule, and at the column it ends at. As long as no breach is met, what the first removal changes leads back to
where it began.
-/

namespace IndexedGrammar

variable {f : Nat → Option Nat} {g : Grammar}

namespace Removal

/-- Two removals on charts that mirror each other, with the same columns to be reviewed and the same breach. Without a
breach, what the first one changed leads back to an earlier chart. -/
structure Mirrors (f : Nat → Option Nat) (base : Chart) (r r' : Removal) : Prop where
  chart : r.chart.Mirrors f r'.chart
  review : r'.review = r.review
  breach : r'.breach = r.breach
  restores : r.breach = none → r.chart.Restores r.changes base

variable {base : Chart} {r r' earlier : Removal} {id n k : Nat} {s : State}

/-- What leads back to an earlier removal leads back as far as that one did. -/
theorem LeadsBack.restores (h : r.LeadsBack earlier) (hearlier : earlier.chart.Restores earlier.changes base) :
    r.chart.Restores r.changes base := by
  obtain ⟨changes, hchanges, hrestores⟩ := h
  rw [hchanges]
  exact hrestores.trans hearlier

/-- Once a breach was noted there is one. -/
theorem breach_fail_ne (r : Removal) (breach : Breach) : (r.fail breach).breach ≠ none := by
  simp [fail]

namespace Mirrors

/-- A breach is noted in both removals. -/
theorem fail (h : r.Mirrors f base r') (breach : Breach) : (r.fail breach).Mirrors f base (r'.fail breach) where
  chart := h.chart
  review := h.review
  breach := congrArg (·.or (some breach)) h.breach
  restores hnone := absurd hnone (breach_fail_ne r breach)

/-- A column that is changed in the same way in both removals. -/
theorem modifyColumn (h : r.Mirrors f base r') (k : Nat) {F F' : Column → Column} {undo : Undo} (undo' : Undo)
    (hsame : ∀ {column}, r.chart.columns[k]? = some column →
      Chart.renumberColumn f (F column) = F' (Chart.renumberColumn f column))
    (hfinds : ∀ {column}, r.chart.columns[k]? = some column → (F column).Finds f r.chart.states.size)
    (hback : r.breach = none → (r.modifyColumn k F undo).LeadsBack r) :
    (r.modifyColumn k F undo).Mirrors f base (r'.modifyColumn k F' undo') where
  chart := h.chart.modifyColumn k hsame hfinds
  review := h.review
  breach := h.breach
  restores hnone := (hback hnone).restores (h.restores hnone)

/-- The state of an item is forgotten in both removals. -/
theorem unfileItem (h : r.Mirrors f base r') (hn : f id = some n) (s : State) :
    (r.unfileItem id s).Mirrors f base (r'.unfileItem n (Chart.renumberState f s)) := by
  have hsame (column : Column) : Chart.renumberColumn f { column with lookup := column.lookup.erase s.item } =
      { Chart.renumberColumn f column with lookup := (Chart.renumberColumn f column).lookup.erase s.item } := by
    simp only [Chart.renumberColumn, Column.mk.injEq, and_true, true_and]
    refine Std.ExtTreeMap.ext_getElem? fun {other} => ?_
    simp only [Std.ExtTreeMap.getElem?_filterMap, Option.pbind_eq_bind, Std.ExtTreeMap.getElem?_erase]
    split <;> rfl
  have hfinds {column : Column} (hcolumn : r.chart.columns[s.stop]? = some column) :
      Column.Finds f r.chart.states.size { column with lookup := column.lookup.erase s.item } := by
    have hfinds := h.chart.finds hcolumn
    refine ⟨fun {item id} hid => ?_, hfinds.expecting, hfinds.reductors, hfinds.tidy_expecting, hfinds.tidy_reductors⟩
    rw [Std.ExtTreeMap.getElem?_erase] at hid
    split at hid
    · contradiction
    · exact hfinds.lookup hid
  have hfind_iff : r'.chart.find? (Chart.renumberState f s).item (Chart.renumberState f s).stop = some n ↔
      r.chart.find? s.item s.stop = some id := h.chart.find?_eq_iff hn
  by_cases hfind : r.chart.find? s.item s.stop = some id
  · have hback := (unfileItem_spec hfind).back
    simp only [Removal.unfileItem, if_pos hfind] at hback ⊢
    rw [if_pos (hfind_iff.mpr hfind)]
    exact h.modifyColumn s.stop _ (fun {column} _ => hsame column) hfinds fun _ => hback
  · simp only [Removal.unfileItem, if_neg hfind]
    rw [if_neg fun hfind' => hfind (hfind_iff.mp hfind')]
    refine (h.fail .lookupOutOfSync).modifyColumn s.stop _ (fun {column} _ => hsame column) hfinds fun hnone => ?_
    exact absurd hnone (breach_fail_ne r _)

/-- Whether a state is listed in an index of a column, and what is left of the index, is the same in both
removals. -/
theorem erase? (h : r.Mirrors f base r') (hn : f id = some n) (k : Nat) (key : Category)
    (index : Column → Index Category)
    (hindex : ∀ column, index (Chart.renumberColumn f column) = (index column).renumber f) :
    (r'.chart.columns[k]?.bind fun column => (index column).erase? key n) =
      (r.chart.columns[k]?.bind fun column => (index column).erase? key id).map (·.renumber f) := by
  rw [Chart.getElem?_renumberColumns h.chart.columns]
  cases r.chart.columns[k]? with
  | none => rfl
  | some column =>
    rw [Option.map_some, Option.bind_some, Option.bind_some, hindex]
    exact h.chart.numbering.erase?_renumber hn (index column) key

/-- A completed state is forgotten in both removals. -/
theorem unfileReductor (h : r.Mirrors f base r') (hn : f id = some n) (origin : Nat) (lhs : Category) :
    (r.unfileReductor origin lhs id).Mirrors f base (r'.unfileReductor origin lhs n) := by
  have herase' := h.erase? hn origin lhs Column.reductors fun _ => rfl
  cases herase : r.chart.columns[origin]?.bind fun column => column.reductors.erase? lhs id with
  | none =>
    rw [herase, Option.map_none] at herase'
    simp only [Removal.unfileReductor, herase, herase']
    exact h.fail .indexOutOfSync
  | some erased =>
    rw [herase, Option.map_some] at herase'
    obtain ⟨column, hcolumn, hmem⟩ := Option.bind_eq_some_iff.mp herase
    obtain ⟨hid, rfl⟩ := Index.erase?_eq_some_iff.mp hmem
    have hfinds := h.chart.finds hcolumn
    have hback := (unfileReductor_spec hcolumn hfinds.tidy_reductors hid).back
    simp only [Removal.unfileReductor, herase, herase'] at hback ⊢
    refine h.modifyColumn origin _ (fun _ => rfl) (fun {column'} hcolumn' => ?_) fun _ => hback
    obtain rfl := Option.some.inj (hcolumn.symm.trans hcolumn')
    exact ⟨hfinds.lookup, hfinds.expecting, fun {other id'} hid' => hfinds.reductors (Index.of_mem_put_erase hid'),
      hfinds.tidy_expecting, hfinds.tidy_reductors.put _ _⟩

/-- A waiting state is forgotten in both removals. -/
theorem unfileExpecting (h : r.Mirrors f base r') (hn : f id = some n) (stop : Nat) (symbol : Category) :
    (r.unfileExpecting stop symbol id).Mirrors f base (r'.unfileExpecting stop symbol n) := by
  have herase' := h.erase? hn stop symbol Column.expecting fun _ => rfl
  cases herase : r.chart.columns[stop]?.bind fun column => column.expecting.erase? symbol id with
  | none =>
    rw [herase, Option.map_none] at herase'
    simp only [Removal.unfileExpecting, herase, herase']
    exact h.fail .indexOutOfSync
  | some erased =>
    rw [herase, Option.map_some] at herase'
    obtain ⟨column, hcolumn, hmem⟩ := Option.bind_eq_some_iff.mp herase
    obtain ⟨hid, rfl⟩ := Index.erase?_eq_some_iff.mp hmem
    have hfinds := h.chart.finds hcolumn
    have hback := (unfileExpecting_spec hcolumn hfinds.tidy_expecting hid).back
    simp only [Removal.unfileExpecting, herase, herase'] at hback ⊢
    refine h.modifyColumn stop _ (fun _ => rfl) (fun {column'} hcolumn' => ?_) fun _ => hback
    obtain rfl := Option.some.inj (hcolumn.symm.trans hcolumn')
    exact ⟨hfinds.lookup, fun {other id'} hid' => hfinds.expecting (Index.of_mem_put_erase hid'), hfinds.reductors,
      hfinds.tidy_expecting.put _ _, hfinds.tidy_reductors⟩

/-- A state is forgotten wherever it is filed in both removals. -/
theorem unfile (h : r.Mirrors f base r') (hn : f id = some n) (s : State) :
    (r.unfile g id s).Mirrors f base (r'.unfile g n (Chart.renumberState f s)) := by
  have hitem := h.unfileItem hn s
  unfold Removal.unfile
  dsimp only
  split
  · next hahead => simpa only [Chart.renumberState, hahead] using hitem.fail .indexOutOfBounds
  · next lhs hahead => simpa only [Chart.renumberState, hahead] using hitem.unfileReductor hn s.item.origin lhs
  · next symbol hahead =>
    have hexpecting := hitem.unfileExpecting hn s.stop symbol
    simp only [Chart.renumberState, hahead]
    split
    · exact hitem
    · split
      · exact { hexpecting with review := congrArg (·.insert s.stop) hexpecting.review }
      · exact hexpecting

/-- Derivations of a state through another one are taken away in both removals. -/
theorem dropLinks (h : r.Mirrors f base r') {j m : Nat} (hn : f id = some n) (hm : f j = some m)
    (hs : r.chart.states[j]? = some s) : (r.dropLinks j id s.derivations).Mirrors f base
      (r'.dropLinks m n (Chart.renumberState f s).derivations) where
  chart := h.chart.dropLinks hm hn
  review := h.review
  breach := h.breach
  restores hnone := (Chart.restores_dropLinks hs).trans (h.restores hnone)

/-- Parents lose their derivations through a state in both removals, and the same ones are left without any. -/
theorem release (h : r.Mirrors f base r') (hn : f id = some n) (parents : List Nat) :
    (r.release id parents).1.Mirrors f base (r'.release n (parents.filterMap f)).1 ∧
      (r'.release n (parents.filterMap f)).2 = (r.release id parents).2.filterMap f := by
  induction parents using List.reverseRecOn with
  | nil => exact ⟨h, rfl⟩
  | append_singleton parents parent ih =>
    rw [release_concat, List.filterMap_append]
    generalize r.release id parents = out at ih
    cases hm : f parent with
    | none =>
      -- the parent was taken out before, and passed over
      obtain ⟨s, hs, hremoved⟩ := ih.1.chart.dropped hm
      rw [List.filterMap_cons_none hm, List.filterMap_nil, List.append_nil, hs]
      simp only [hremoved, if_true]
      exact ih
    | some m =>
      rw [List.filterMap_cons_some hm, List.filterMap_nil, release_concat]
      generalize r'.release n (parents.filterMap f) = out' at ih
      rw [ih.1.chart.states hm]
      cases hs : out.1.chart.states[parent]? with
      | none => exact ih
      | some s =>
        have hall : ((Chart.renumberState f s).derivations.all fun d => n ∈ d.links) =
            s.derivations.all fun d => id ∈ d.links := by
          rw [Chart.derivations_renumberState, List.all_map]
          refine congrArg (s.derivations.all ·) (funext fun d => ?_)
          exact decide_eq_decide.mpr (ih.1.chart.mem_links_under hn d)
        have hdropped := ih.1.dropLinks hn hm hs
        simp only [Option.map_some, hall]
        by_cases hremoved : s.removed = true
        · rw [if_pos hremoved, if_pos (show (Chart.renumberState f s).removed = true from hremoved)]
          exact ih
        · rw [if_neg hremoved, if_neg (show ¬(Chart.renumberState f s).removed = true from hremoved)]
          split
          · exact ⟨hdropped, by rw [ih.2, List.filterMap_cons_some hm]⟩
          · exact ⟨hdropped, ih.2⟩

/-- A live state is taken out in both removals, and the same states are left without a derivation. -/
theorem takeOut (h : r.Mirrors f base r') (hn : f id = some n) (hs : r.chart.states[id]? = some s)
    (hlive : s.removed = false) :
    (r.takeOut g id s).1.Mirrors f base (r'.takeOut g n (Chart.renumberState f s)).1 ∧
      (r'.takeOut g n (Chart.renumberState f s)).2 = (r.takeOut g id s).2.filterMap f := by
  have hstruck : Removal.Mirrors f base
      { r with chart := r.chart.strike id, changes := .struck id :: r.changes }
      { r' with chart := r'.chart.strike n, changes := .struck n :: r'.changes } :=
    ⟨h.chart.strike hn, h.review, h.breach, fun hnone =>
      (Chart.restores_strike hs hlive).trans (h.restores hnone)⟩
  exact (hstruck.unfile hn s).release hn s.parents

/-- The same states are swept in both removals. -/
theorem sweep (h : r.Mirrors f base r') (pending : List Nat) :
    (r.sweep g pending).Mirrors f base (r'.sweep g (pending.filterMap f)) := by
  fun_induction Removal.sweep g r pending generalizing r' with
  | case1 r =>
    rw [List.filterMap_nil, Removal.sweep]
    exact h
  | case2 r id pending hnone ih =>
    cases hn : f id with
    | none =>
      rw [List.filterMap_cons_none hn]
      exact ih h
    | some n =>
      rw [List.filterMap_cons_some hn, sweep_of_gone fun s hs => ?_]
      · exact ih h
      · rw [h.chart.states hn, hnone] at hs
        contradiction
  | case3 r id pending s hs hremoved ih =>
    cases hn : f id with
    | none =>
      rw [List.filterMap_cons_none hn]
      exact ih h
    | some n =>
      rw [List.filterMap_cons_some hn, sweep_of_gone fun s' hs' => ?_]
      · exact ih h
      · rw [h.chart.states hn, hs] at hs'
        exact Option.some.inj hs' ▸ hremoved
  | case4 r id pending s hs hlive ih =>
    have hlive := Bool.eq_false_iff.mpr hlive
    obtain ⟨n, hn⟩ := h.chart.exists_number hs hlive
    obtain ⟨htaken, horphans⟩ := h.takeOut (g := g) hn hs hlive
    have hs' : r'.chart.states[n]? = some (Chart.renumberState f s) := by rw [h.chart.states hn, hs, Option.map_some]
    -- what is left without a derivation is the same up to numbers, and is swept next
    rw [List.filterMap_cons_some hn, sweep_of_live hs' hlive, horphans, ← List.filterMap_append]
    exact ih htaken

/-- The same states are swept one after another in both removals. -/
theorem sweeps (h : r.Mirrors f base r') (ids : List Nat) :
    (ids.foldl (fun r id => r.sweep g [id]) r).Mirrors f base
      ((ids.filterMap f).foldl (fun r id => r.sweep g [id]) r') := by
  induction ids generalizing r r' with
  | nil => exact h
  | cons id rest ih =>
    have hfirst := h.sweep (g := g) [id]
    cases hn : f id with
    | none =>
      rw [List.filterMap_cons_none hn, List.filterMap_nil, Removal.sweep] at hfirst
      rw [List.filterMap_cons_none hn]
      exact ih hfirst
    | some n =>
      rw [List.filterMap_cons_some hn, List.filterMap_nil] at hfirst
      rw [List.filterMap_cons_some hn]
      exact ih hfirst

end Mirrors

end Removal

/-! Reviews -/

namespace Chart.Mirrors

variable {c d : Chart}

/-- The same categories are asked for. -/
theorem askedAt (h : c.Mirrors f d) (k : Nat) (ids : List Nat) :
    Removal.askedAt g d k (ids.filterMap f) = Removal.askedAt g c k ids := by
  refine h.filterMap_states (F := fun state => do
    let rule ← g.rule? state.item.rule
    let symbol ← rule.rhs[state.item.dot]?
    if !state.removed && (state.item.origin < k || state.item.rule = Grammar.rootId)
      && g.isNonterminal symbol then some symbol else none) (fun _ => rfl) (fun s hremoved => ?_) ids
  simp [hremoved]

/-- The same categories are wanted. -/
theorem wanted (h : c.Mirrors f d) (k : Nat) (ids : List Nat) :
    Removal.wanted g d k (ids.filterMap f) = Removal.wanted g c k ids := by
  -- a step is read off the state alone
  let step (state : State) : Option (Category × Category) := do
    let rule ← g.rule? state.item.rule
    if state.removed || state.item.origin < k || state.item.rule = Grammar.rootId then none
    else rule.rhs[state.item.dot]?.bind fun symbol =>
      if g.isNonterminal symbol then some (rule.lhs, symbol) else none
  have hwanted (c : Chart) (ids : List Nat) : Removal.wanted g c k ids =
      reachable (ids.filterMap fun id => c.states[id]?.bind step)
        (Std.ExtTreeSet.ofList (Removal.askedAt g c k ids)) := by
    refine congrArg (reachable · _) ?_
    rw [Removal.begunAt, List.filterMap_filterMap]
    refine List.filterMap_congr fun id _ => ?_
    cases c.states[id]? with
    | none => rfl
    | some state =>
      simp only [step, Option.bind_eq_bind, Option.bind_some]
      cases g.rule? state.item.rule with
      | none => rfl
      | some rule =>
        simp only [Option.bind_some]
        split
        · rfl
        · simp only [Option.bind_some]
          cases rule.rhs[state.item.dot]? <;> rfl
  rw [hwanted, hwanted, h.askedAt, h.filterMap_states (fun _ => rfl) (fun s hremoved => ?_)]
  simp [step, hremoved]

/-- The same predictions are stale. -/
theorem stale (h : c.Mirrors f d) (k : Nat) : Removal.stale g d k = Removal.stale g c k := by
  unfold Removal.stale
  rw [getElem?_renumberColumns h.columns]
  cases c.columns[k]? with
  | none => rfl
  | some column =>
    simp only [Option.map_some, toList_states_renumberColumn, h.wanted]
    rfl

/-- The same columns have states on rules that the grammar does not have. -/
theorem lost (h : c.Mirrors f d) (k : Nat) : Removal.lost g d k = Removal.lost g c k := by
  unfold Removal.lost
  rw [getElem?_renumberColumns h.columns]
  cases c.columns[k]? with
  | none => rfl
  | some column =>
    simp only [Option.map_some]
    rw [← Array.any_toList, ← Array.any_toList, toList_states_renumberColumn, Bool.eq_iff_iff, List.any_eq_true,
      List.any_eq_true]
    constructor
    · rintro ⟨n, hmem, hlost⟩
      obtain ⟨id, hid, hn⟩ := List.mem_filterMap.mp hmem
      refine ⟨id, hid, ?_⟩
      rw [h.states hn] at hlost
      cases hs : c.states[id]? with
      | none => simp [hs] at hlost
      | some s => simpa [hs, renumberState] using hlost
    · rintro ⟨id, hid, hlost⟩
      cases hs : c.states[id]? with
      | none => simp [hs] at hlost
      | some s =>
        simp only [hs, Bool.and_eq_true, Bool.not_eq_true'] at hlost
        -- a live state keeps a number, so the column lists it still
        obtain ⟨n, hn⟩ := h.exists_number hs hlost.1
        refine ⟨n, List.mem_filterMap.mpr ⟨id, hid, hn⟩, ?_⟩
        rw [h.states hn, hs]
        simpa [renumberState] using hlost

/-- The same states were begun at a column for a category. -/
theorem begunFor (h : c.Mirrors f d) (k : Nat) (ids : List Nat) (category : Category) :
    Removal.begunFor (Removal.begunAt g d k (ids.filterMap f)) category =
      (Removal.begunFor (Removal.begunAt g c k ids) category).filterMap f := by
  -- whether a state was begun is read off the state alone
  let begun (state : State) : Bool := (g.rule? state.item.rule).any fun rule =>
    !(state.removed || state.item.origin < k || state.item.rule = Grammar.rootId) &&
      (rule.lhs = category && state.item.dot = 0)
  have hbegun (c : Chart) (ids : List Nat) : Removal.begunFor (Removal.begunAt g c k ids) category =
      ids.filterMap fun id => c.states[id]?.bind fun s => if begun s then some id else none := by
    rw [Removal.begunFor, Removal.begunAt, List.filterMap_filterMap]
    refine List.filterMap_congr fun id _ => ?_
    cases c.states[id]? with
    | none => rfl
    | some state =>
      cases hrule : g.rule? state.item.rule with
      | none => simp [begun, hrule]
      | some rule =>
        simp only [begun, hrule, Option.bind_eq_bind, Option.bind_some, Option.any_some]
        split
        · next hout => simp [hout]
        · next hin => simp [hin]
  rw [hbegun, hbegun]
  refine h.filterMap_numbers (fun _ => rfl) (fun s hremoved => ?_) ids
  simp only [begun, hremoved, Bool.true_or, Bool.not_true, Bool.false_and]
  cases g.rule? s.item.rule <;> rfl

end Chart.Mirrors

namespace Removal

variable {base : Chart} {r r' : Removal} {k : Nat} {begun begun' : List (Nat × State × Rule)}

namespace Mirrors

/-- A category is no longer predicted, and what was begun for it is swept, in both removals. -/
theorem unpredict (h : r.Mirrors f base r') {category : Category}
    (hbegun : begunFor begun' category = (begunFor begun category).filterMap f)
    (hpredicted : r.chart.isPredicted k category = true) :
    (unpredict g k begun r category).Mirrors f base (unpredict g k begun' r' category) := by
  have hforget : (r.forget k category).Mirrors f base (r'.forget k category) :=
    ⟨h.chart.modifyPredicted k (·.erase category), h.review, h.breach, fun hnone =>
      (leadsBack_forget hpredicted).restores (h.restores hnone)⟩
  rw [unpredict_eq, unpredict_eq, hbegun]
  exact hforget.sweeps _

/-- Categories are no longer predicted one after another in both removals. -/
theorem unpredicts (h : r.Mirrors f base r')
    (hbegun : ∀ category, begunFor begun' category = (begunFor begun category).filterMap f)
    {categories : List Category} (hnodup : categories.Nodup)
    (hpredicted : ∀ category ∈ categories, r.chart.isPredicted k category = true) :
    (categories.foldl (Removal.unpredict g k begun) r).Mirrors f base
      (categories.foldl (Removal.unpredict g k begun') r') := by
  induction categories generalizing r r' with
  | nil => exact h
  | cons category rest ih =>
    obtain ⟨hnot, hrest⟩ := List.nodup_cons.mp hnodup
    refine ih (h.unpredict (hbegun category) (hpredicted category List.mem_cons_self)) hrest fun other hother => ?_
    rw [isPredicted_unpredict, hpredicted other (List.mem_cons_of_mem _ hother)]
    have hne : category ≠ other := fun heq => hnot (heq ▸ hother)
    simp [hne]

/-- A column is reviewed in both removals. -/
theorem reviewColumn (h : r.Mirrors f base r') (k : Nat) :
    (r.reviewColumn g k).Mirrors f base (r'.reviewColumn g k) := by
  have hlost : (if lost g r.chart k then r.fail .indexOutOfBounds else r).Mirrors f base
      (if lost g r'.chart k then r'.fail .indexOutOfBounds else r') := by
    rw [h.chart.lost]
    split
    · exact h.fail _
    · exact h
  unfold Removal.reviewColumn
  dsimp only
  rw [h.chart.stale]
  refine hlost.unpredicts (fun category => ?_) (nodup_stale r.chart k) fun category hcategory => ?_
  · rw [Chart.getElem?_renumberColumns h.chart.columns]
    cases r.chart.columns[k]? with
    | none => rfl
    | some column =>
      simp only [Option.map_some, Chart.toList_states_renumberColumn]
      exact h.chart.begunFor k _ category
  · rw [chart_ite_fail]
    exact isPredicted_of_mem_stale hcategory

/-- Columns are reviewed until none is left in both removals. -/
theorem settle (h : r.Mirrors f base r') : (r.settle g).Mirrors f base (r'.settle g) := by
  fun_induction Removal.settle g r generalizing r' with
  | case1 r hnone =>
    rw [settle_of_none (by rw [h.review, hnone])]
    exact h
  | case2 r k hk ih =>
    rw [settle_of_some (r := r') (h.review ▸ hk)]
    refine ih (Mirrors.reviewColumn ?_ k)
    exact { h with review := congrArg (·.erase k) h.review }

/-- A rule is taken out in both removals. -/
theorem removeRule (h : r.Mirrors f base r') (rule : Nat) :
    (r.removeRule g rule).Mirrors f base (r'.removeRule g rule) := by
  unfold Removal.removeRule
  rw [h.chart.ids_byRule]
  exact (h.sweeps _).settle

end Mirrors

end Removal

end IndexedGrammar
