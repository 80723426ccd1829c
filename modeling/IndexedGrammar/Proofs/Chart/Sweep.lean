import IndexedGrammar.Proofs.Chart.TakeOut

/-!
# What a removal keeps

A removal takes states out and takes predictions away, and nothing else. The chart stays filed, no
state changes its number, nothing new is predicted, no breach is met, and the noted changes lead back to
the chart at the beginning.
-/

namespace IndexedGrammar.Removal

/-- What a removal keeps from beginning to end. -/
structure Orderly (g : Grammar) (r start : Removal) : Prop where
  filed : r.chart.Filed g
  size_columns : r.chart.columns.size = start.chart.columns.size
  layout : r.chart.layout = start.chart.layout
  input : r.chart.input = start.chart.input
  spot? : ∀ id, r.chart.spot? id = start.chart.spot? id
  live : ∀ {id s}, r.chart.Live id s → start.chart.Live id s
  derives : ∀ {id d}, r.chart.Derives id d → start.chart.Derives id d
  isPredicted : ∀ {k symbol}, r.chart.isPredicted k symbol = true → start.chart.isPredicted k symbol = true
  breach : r.breach = start.breach
  back : r.LeadsBack start

variable {g : Grammar} {start r : Removal}

/-- A removal begins orderly on a filed chart. -/
theorem Orderly.refl (h : r.chart.Filed g) : r.Orderly g r :=
  ⟨h, rfl, rfl, rfl, fun _ => rfl, id, id, id, rfl, .refl r⟩

/-- An orderly removal that goes on in order is orderly. -/
theorem Orderly.trans {middle : Removal} (h : r.Orderly g middle) (h' : middle.Orderly g start) :
    r.Orderly g start where
  filed := h.filed
  size_columns := h.size_columns.trans h'.size_columns
  layout := h.layout.trans h'.layout
  input := h.input.trans h'.input
  spot? id := (h.spot? id).trans (h'.spot? id)
  live hs := h'.live (h.live hs)
  derives hd := h'.derives (h.derives hd)
  isPredicted hk := h'.isPredicted (h.isPredicted hk)
  breach := h.breach.trans h'.breach
  back := h.back.trans h'.back

/-- Taking a live state out keeps a removal orderly. -/
theorem TakenOut.orderly {id : Nat} {s : Spot} {out : Removal × List Nat}
    (h : TakenOut g id s r out) : out.1.Orderly g r :=
  ⟨h.filed, h.size_columns, h.layout, h.input, h.spot?, fun hs => (h.live_iff.mp hs).1,
    fun hd => (h.derives_iff.mp hd).1, fun hk => (h.isPredicted _ _).symm.trans hk, h.breach, h.back⟩

/-- A property of removals, up to states about to be taken out, that is kept by taking one of these out, and
by leaving out those that are not live. -/
structure Swept (g : Grammar) (motive : (Nat → Prop) → Removal → Prop) : Prop where
  filed : ∀ {doomed r}, motive doomed r → r.chart.Filed g
  dismiss : ∀ {doomed others : Nat → Prop} {r}, motive doomed r →
    (∀ id s, doomed id → r.chart.Live id s → others id) → (∀ id, others id → doomed id) → motive others r
  takeOut : ∀ {id s pending} {others : Nat → Prop} {r out},
    motive (fun j => j ∈ id :: pending ∨ others j) r → r.chart.Live id s → TakenOut g id s r out →
    motive (fun j => j ∈ out.2 ++ pending ∨ others j) out.1

/-- Sweeping takes the states out that are about to be. -/
theorem Swept.sweep {motive : (Nat → Prop) → Removal → Prop} (hswept : Swept g motive)
    {pending : List Nat} {others : Nat → Prop} (h : motive (fun j => j ∈ pending ∨ others j) r) :
    motive others (r.sweep g pending) := by
  have hnext {id : Nat} {rest : List Nat} {r : Removal}
      (h : motive (fun j => j ∈ id :: rest ∨ others j) r) (hnot : ∀ s, ¬r.chart.Live id s) :
      motive (fun j => j ∈ rest ∨ others j) r := by
    refine hswept.dismiss h (fun j s hj hs => hj.imp_left fun hmem => ?_)
      fun j hj => hj.imp_left (List.mem_cons_of_mem _)
    exact (List.mem_cons.mp hmem).resolve_left fun heq => hnot s (heq ▸ hs)
  -- what is gone already is dismissed, and only a live state is taken out
  fun_induction Removal.sweep g r pending with
  | case1 r =>
    exact hswept.dismiss h (fun j s hj _ => hj.resolve_left List.not_mem_nil) fun _ => .inr
  | case2 r id rest hnone ih =>
    refine ih (hnext h ?_)
    rintro s ⟨state, hstate, -⟩
    rw [hnone] at hstate
    contradiction
  | case3 r id rest state hstate hremoved ih =>
    refine ih (hnext h ?_)
    rintro s ⟨state', hstate', hlive, -⟩
    obtain rfl := Option.some.inj (hstate.symm.trans hstate')
    rw [hremoved] at hlive
    contradiction
  | case4 r id rest state hstate hlive ih =>
    have hremoved := Bool.eq_false_iff.mpr hlive
    exact ih (hswept.takeOut h ⟨state, hstate, hremoved, rfl⟩
      (takeOut_spec (hswept.filed h) hstate hremoved))

/-- Sweeps one after another take the states out that are about to be. -/
theorem Swept.sweeps {motive : (Nat → Prop) → Removal → Prop} (hswept : Swept g motive)
    {ids : List Nat} {others : Nat → Prop} (h : motive (fun j => j ∈ ids ∨ others j) r) :
    motive others (ids.foldl (fun r id => r.sweep g [id]) r) := by
  induction ids generalizing r with
  | nil => exact hswept.dismiss h (fun j s hj _ => hj.resolve_left List.not_mem_nil) fun _ => .inr
  | cons id rest ih =>
    have hfirst : motive (fun j => j ∈ [id] ∨ (j ∈ rest ∨ others j)) r := by
      refine hswept.dismiss h (fun j s hj _ => ?_) fun j hj => ?_
      · rcases hj with hj | hj
        · exact (List.mem_cons.mp hj).imp List.mem_singleton.mpr .inl
        · exact .inr (.inr hj)
      · rcases hj with hj | hj | hj
        · exact .inl (List.mem_cons.mpr (.inl (List.mem_singleton.mp hj)))
        · exact .inl (List.mem_cons_of_mem _ hj)
        · exact .inr hj
    exact ih (hswept.sweep hfirst)

/-- A sweep passes over what was taken out. -/
theorem sweep_of_gone {id : Nat} {pending : List Nat}
    (h : ∀ state, r.chart.states[id]? = some state → state.removed = true) :
    r.sweep g (id :: pending) = r.sweep g pending := by
  rw [sweep]
  split
  · rfl
  · next state hstate => rw [dif_pos (h state hstate)]

/-- A sweep takes a live state out and goes on with the states it leaves without a derivation. -/
theorem sweep_of_live {id : Nat} {pending : List Nat} {state : State} (hstate : r.chart.states[id]? = some state)
    (hlive : state.removed = false) : r.sweep g (id :: pending) =
      (r.takeOut g id state).1.sweep g ((r.takeOut g id state).2 ++ pending) := by
  rw [sweep]
  split
  · next hnone =>
    rw [hstate] at hnone
    contradiction
  · next other hother =>
    obtain rfl := Option.some.inj (hstate.symm.trans hother)
    rw [dif_neg (by simp [hlive])]

/-- What taking a live state out keeps, a sweep keeps. -/
theorem sweep_induction {motive : Removal → Prop}
    (htakeOut : ∀ r id state, motive r → r.chart.states[id]? = some state → state.removed = false →
      motive (r.takeOut g id state).1) (pending : List Nat) (h : motive r) : motive (r.sweep g pending) := by
  fun_induction sweep g r pending with
  | case1 => exact h
  | case2 r id pending _ ih => exact ih h
  | case3 r id pending state _ _ ih => exact ih h
  | case4 r id pending state hstate hlive ih => exact ih (htakeOut r id state h hstate (Bool.eq_false_iff.mpr hlive))

/-- What taking a live state out keeps, sweeps one after another keep. -/
theorem sweeps_induction {motive : Removal → Prop}
    (htakeOut : ∀ r id state, motive r → r.chart.states[id]? = some state → state.removed = false →
      motive (r.takeOut g id state).1) (ids : List Nat) (h : motive r) :
    motive (ids.foldl (fun r id => r.sweep g [id]) r) := by
  induction ids generalizing r with
  | nil => exact h
  | cons id rest ih => exact ih (sweep_induction htakeOut [id] h)

/-- Taking a live state out keeps a removal orderly that goes on in order. -/
theorem takeOut_orderly (out : Removal) (id : Nat) (state : State) (h : out.Orderly g r)
    (hstate : out.chart.states[id]? = some state) (hlive : state.removed = false) :
    (out.takeOut g id state).1.Orderly g r :=
  (takeOut_spec h.filed hstate hlive).orderly.trans h

/-- Sweeps one after another keep a removal orderly. -/
theorem sweeps_orderly (h : r.chart.Filed g) (ids : List Nat) :
    (ids.foldl (fun r id => r.sweep g [id]) r).Orderly g r :=
  sweeps_induction (motive := fun out => out.Orderly g r) takeOut_orderly ids (.refl h)

/-- A change of a column that keeps its predictions leaves every prediction. -/
theorem isPredicted_modifyColumn (r : Removal) (j : Nat) (f : Column → Column) (undo : Undo) (k : Nat)
    (symbol : Category) (h : ∀ column, (f column).predicted = column.predicted) :
    (r.modifyColumn j f undo).chart.isPredicted k symbol = r.chart.isPredicted k symbol := by
  have hcolumn : (r.modifyColumn j f undo).chart.columns[k]? =
      if j = k then r.chart.columns[k]?.map f else r.chart.columns[k]? := Array.getElem?_modify
  rw [Chart.isPredicted, hcolumn, Chart.isPredicted]
  by_cases hk : j = k
  · rw [if_pos hk]
    cases r.chart.columns[k]? with
    | none => rfl
    | some column => simp only [Option.map_some, h]
  · rw [if_neg hk]

/-- Forgetting a state wherever it is filed leaves every prediction. -/
theorem isPredicted_unfile (r : Removal) (id : Nat) (state : State) (k : Nat) (symbol : Category) :
    (r.unfile g id state).chart.isPredicted k symbol = r.chart.isPredicted k symbol := by
  have hitem : (r.unfileItem id state).chart.isPredicted k symbol = r.chart.isPredicted k symbol := by
    unfold unfileItem
    dsimp only
    split <;> exact isPredicted_modifyColumn _ _ _ _ k symbol fun _ => rfl
  have hreductor (r : Removal) (origin : Nat) (lhs : Category) :
      (r.unfileReductor origin lhs id).chart.isPredicted k symbol = r.chart.isPredicted k symbol := by
    unfold unfileReductor
    split
    · rfl
    · exact isPredicted_modifyColumn _ _ _ _ k symbol fun _ => rfl
  have hexpecting (r : Removal) (stop : Nat) (waited : Category) :
      (r.unfileExpecting stop waited id).chart.isPredicted k symbol = r.chart.isPredicted k symbol := by
    unfold unfileExpecting
    split
    · rfl
    · exact isPredicted_modifyColumn _ _ _ _ k symbol fun _ => rfl
  unfold unfile
  dsimp only
  split
  · exact hitem
  · exact (hreductor _ _ _).trans hitem
  · split
    · exact hitem
    · split <;> exact (hexpecting _ _ _).trans hitem

/-- Taking a state out leaves every prediction. -/
theorem isPredicted_takeOut (r : Removal) (id : Nat) (state : State) (k : Nat) (symbol : Category) :
    (r.takeOut g id state).1.chart.isPredicted k symbol = r.chart.isPredicted k symbol := by
  rw [takeOut, Chart.isPredicted, columns_release, ← Chart.isPredicted, isPredicted_unfile]
  rfl

/-- Sweeps one after another leave every prediction. -/
theorem isPredicted_sweeps (r : Removal) (ids : List Nat) (k : Nat) (symbol : Category) :
    (ids.foldl (fun r id => r.sweep g [id]) r).chart.isPredicted k symbol =
      r.chart.isPredicted k symbol :=
  sweeps_induction (motive := fun out => out.chart.isPredicted k symbol = r.chart.isPredicted k symbol)
    (fun out id state h _ _ => (isPredicted_takeOut out id state k symbol).trans h) ids rfl

/-! Predictions -/

/-- The removal after a category is no longer predicted at a column. -/
def forget (r : Removal) (k : Nat) (category : Category) : Removal :=
  r.modifyColumn k (fun column => { column with predicted := column.predicted.erase category })
    (.unpredicted k category)

/-- A column after a category is no longer predicted. -/
theorem columns_forget (k : Nat) (category : Category) (j : Nat) :
    (r.forget k category).chart.columns[j]? = r.chart.columns[j]?.map fun column => { column with
      predicted := if k = j then column.predicted.erase category else column.predicted } := by
  show (r.chart.columns.modify _ _)[j]? = _
  rw [Array.getElem?_modify]
  by_cases hj : k = j
  · simp [hj]
  · simp [hj]

/-- A chart stays filed when a category is no longer predicted. -/
theorem filed_forget (h : r.chart.Filed g) (k : Nat) (category : Category) : (r.forget k category).chart.Filed g :=
  h.repredict (columns_forget k category) Array.size_modify rfl rfl rfl

/-- What is predicted after a category is no longer predicted at a column. -/
theorem isPredicted_forget (k : Nat) (category : Category) (j : Nat) (symbol : Category) :
    (r.forget k category).chart.isPredicted j symbol =
      (r.chart.isPredicted j symbol && !decide (k = j ∧ category = symbol)) := by
  unfold Chart.isPredicted
  rw [columns_forget]
  cases r.chart.columns[j]? with
  | none => rfl
  | some column =>
    simp only [Option.map_some]
    by_cases hj : k = j
    · simp only [hj, if_true, true_and, Std.ExtTreeSet.contains_erase]
      rw [Bool.and_comm]
      congr 1
      by_cases hcategory : category = symbol <;> simp [hcategory]
    · simp [hj]

/-- No longer predicting a predicted category is taken back. -/
theorem leadsBack_forget {k : Nat} {category : Category} (hpredicted : r.chart.isPredicted k category = true) :
    (r.forget k category).LeadsBack r := by
  unfold Chart.isPredicted at hpredicted
  split at hpredicted
  · next column hcolumn =>
    exact ⟨_, rfl, Chart.restores_unpredict hcolumn (Std.ExtTreeSet.mem_iff_contains.mpr hpredicted)⟩
  · contradiction

/-- No longer predicting a predicted category keeps a removal orderly. -/
theorem forget_orderly (h : r.chart.Filed g) {k : Nat} {category : Category}
    (hpredicted : r.chart.isPredicted k category = true) : (r.forget k category).Orderly g r where
  filed := filed_forget h k category
  size_columns := Array.size_modify
  layout := rfl
  input := rfl
  spot? _ := rfl
  live hs := hs
  derives hd := hd
  isPredicted hk := by
    rw [isPredicted_forget, Bool.and_eq_true] at hk
    exact hk.1
  breach := rfl
  back := leadsBack_forget hpredicted

/-- The states begun at a column for a category. -/
def begunFor (begun : List (Nat × State × Rule)) (category : Category) : List Nat :=
  begun.filterMap fun (id, state, rule) =>
    if rule.lhs = category && state.item.dot = 0 then some id else none

/-- Unpredicting a category is no longer predicting it, and sweeping what was begun for it. -/
theorem unpredict_eq (k : Nat) (begun : List (Nat × State × Rule)) (category : Category) :
    unpredict g k begun r category =
      (begunFor begun category).foldl (fun r id => r.sweep g [id]) (r.forget k category) :=
  rfl

/-- Unpredicting a predicted category keeps a removal orderly. -/
theorem unpredict_orderly (h : r.chart.Filed g) {k : Nat} (begun : List (Nat × State × Rule))
    {category : Category} (hpredicted : r.chart.isPredicted k category = true) :
    (unpredict g k begun r category).Orderly g r := by
  have hforget := forget_orderly h hpredicted
  rw [unpredict_eq]
  exact (sweeps_orderly hforget.filed _).trans hforget

/-- What is predicted after a category was unpredicted. -/
theorem isPredicted_unpredict (r : Removal) (k : Nat) (begun : List (Nat × State × Rule)) (category : Category)
    (j : Nat) (symbol : Category) : (unpredict g k begun r category).chart.isPredicted j symbol =
      (r.chart.isPredicted j symbol && !decide (k = j ∧ category = symbol)) := by
  rw [unpredict_eq, isPredicted_sweeps, isPredicted_forget]

/-- Unpredicting several predicted categories keeps a removal orderly. -/
theorem unpredicts_orderly (h : r.chart.Filed g) {k : Nat} (begun : List (Nat × State × Rule))
    {categories : List Category} (hnodup : categories.Nodup)
    (hpredicted : ∀ category ∈ categories, r.chart.isPredicted k category = true) :
    (categories.foldl (unpredict g k begun) r).Orderly g r := by
  induction categories generalizing r with
  | nil => exact .refl h
  | cons category rest ih =>
    obtain ⟨hnot, hrest⟩ := List.nodup_cons.mp hnodup
    have hcategory := hpredicted category List.mem_cons_self
    have hfirst := unpredict_orderly h begun hcategory
    refine (ih hfirst.filed hrest fun other hother => ?_).trans hfirst
    rw [isPredicted_unpredict, hpredicted other (List.mem_cons_of_mem _ hother)]
    have hne : category ≠ other := fun heq => hnot (heq ▸ hother)
    simp [hne]

/-! Reviews -/

/-- What is stale is predicted. -/
theorem isPredicted_of_mem_stale {c : Chart} {k : Nat} {category : Category}
    (h : category ∈ stale g c k) : c.isPredicted k category = true := by
  obtain ⟨column, hcolumn, hmem⟩ := mem_predicted_of_mem_stale g h
  simp only [Chart.isPredicted, hcolumn]
  exact Std.ExtTreeSet.mem_iff_contains.mp hmem

/-- Nothing is stale twice. -/
theorem nodup_stale (c : Chart) (k : Nat) : (stale g c k).Nodup := by
  unfold stale
  split
  · exact List.nodup_nil
  · next column _ =>
    refine List.Pairwise.filter _ ?_
    have hdistinct := Std.ExtTreeSet.distinct_toList (t := column.predicted)
    exact hdistinct.imp fun hne heq => hne (Std.compare_eq_iff_eq.mpr heq)

/-- A filed chart has no state on a rule that the grammar does not have. -/
theorem lost_eq_false {c : Chart} (h : c.Filed g) (k : Nat) : lost g c k = false := by
  unfold lost
  split
  · rfl
  · next column hcolumn =>
    rw [Array.any_eq_false']
    intro id hid
    obtain ⟨s, hs, -⟩ := h.lists_iff.mp ⟨column, hcolumn, hid⟩
    obtain ⟨state, hstate, rfl⟩ := Option.map_eq_some_iff.mp hs
    have hknown := h.known hs
    simp only [hstate, Bool.and_eq_true, not_and, Bool.not_eq_true, Option.isNone_eq_false_iff]
    exact fun _ => hknown

/-- A review of a column keeps a removal orderly. -/
theorem reviewColumn_orderly (h : r.chart.Filed g) (k : Nat) :
    (r.reviewColumn g k).Orderly g r := by
  unfold reviewColumn
  simp only [lost_eq_false h, Bool.false_eq_true, if_false]
  exact unpredicts_orderly h _ (nodup_stale r.chart k) fun _ => isPredicted_of_mem_stale

/-- What is kept by taking a live state out and by no longer predicting a category, a review of a column keeps. -/
theorem reviewColumn_induction {motive : Removal → Prop}
    (htakeOut : ∀ r id state, motive r → r.chart.states[id]? = some state → state.removed = false →
      motive (r.takeOut g id state).1)
    (hforget : ∀ r j category, motive r → motive (r.forget j category)) (hc : r.chart.Filed g) (k : Nat)
    (h : motive r) : motive (r.reviewColumn g k) := by
  have hfold (begun : List (Nat × State × Rule)) (categories : List Category) {r : Removal} (h : motive r) :
      motive (categories.foldl (unpredict g k begun) r) := by
    induction categories generalizing r with
    | nil => exact h
    | cons category rest ih => exact ih (sweeps_induction htakeOut (begunFor begun category) (hforget r k category h))
  unfold reviewColumn
  simp only [lost_eq_false hc, Bool.false_eq_true, if_false]
  exact hfold _ _ h

/-- Where no column is to be reviewed there is nothing to settle. -/
theorem settle_of_none (h : r.review.min? = none) : r.settle g = r := by
  rw [settle]
  split
  · rfl
  · next k hk =>
    rw [h] at hk
    contradiction

/-- Settling goes on after a review of the first column that is to be reviewed. -/
theorem settle_of_some {k : Nat} (h : r.review.min? = some k) :
    r.settle g = (reviewColumn g { r with review := r.review.erase k } k).settle g := by
  rw [settle]
  split
  · next hnone =>
    rw [h] at hnone
    contradiction
  · next other hother =>
    obtain rfl := Option.some.inj (h.symm.trans hother)
    rfl

/-- Settling keeps a removal orderly. -/
theorem settle_orderly (h : r.chart.Filed g) : (r.settle g).Orderly g r := by
  fun_induction settle g r with
  | case1 r _ => exact .refl h
  | case2 r k _ ih =>
    have hleft : ({ r with review := r.review.erase k } : Removal).Orderly g r :=
      ⟨h, rfl, rfl, rfl, fun _ => rfl, id, id, id, rfl, ⟨[], rfl, .refl _⟩⟩
    have hreview := reviewColumn_orderly hleft.filed k
    exact (ih hreview.filed).trans (hreview.trans hleft)

/-- Takes every state on a rule out, with what it leaves without a derivation. -/
def sweepRule (g : Grammar) (rule : Nat) (r : Removal) : Removal :=
  (r.chart.byRule.ids rule).foldl (fun r id => r.sweep g [id]) r

/-- Taking a rule out keeps a removal orderly. -/
theorem removeRule_orderly (h : r.chart.Filed g) (rule : Nat) :
    (r.removeRule g rule).Orderly g r := by
  have hsweeps := sweeps_orderly h (r.chart.byRule.ids rule)
  exact (settle_orderly hsweeps.filed).trans hsweeps

end IndexedGrammar.Removal
