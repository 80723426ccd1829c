import IndexedGrammar.Proofs.Chart.Prompted

/-!
# What holds while a rule is taken out

While a rule is taken out of a chart that sustains itself, the states that are on other rules keep what they call
for, and every state is prompted but for those that are about to be taken out. A state is taken out only if it is on
the rule, if it has no derivation left, or if it was begun for a category that is no longer predicted. So no move of
a dot is lost as long as the states stay that it goes through. A column that needs no review predicts exactly what
its live states ask for.

Every step keeps this, and in the end nothing is left to be taken out or to be reviewed. Then the chart sustains
itself without the rule.
-/

namespace IndexedGrammar

/-- A spot that a derivation goes through is the predecessor or the reductor in its link. -/
theorem Chart.mem_link {c : Chart} {d : Derivation} {id : Nat} {s : Spot} (hid : id ∈ d.links)
    (hs : c.spot? id = some s) :
    (c.link d).predecessor = some s ∨ (c.link d).reductor = some s := by
  obtain ⟨predecessor, reductor⟩ := d
  rw [Derivation.links, List.mem_append, Option.mem_toList, Option.mem_toList] at hid
  rcases hid with rfl | rfl
  · exact .inl hs
  · exact .inr hs

namespace Removal

/-- What holds while a rule that a grammar does not have is taken out: `doomed` are the states about to be taken out,
and `stale` the categories about to be unpredicted. -/
structure Pruned (g : Grammar) (rule : Nat) (stale : Nat → Category → Prop) (doomed : Nat → Prop)
    (r : Removal) : Prop where
  filed : r.chart.Filed g
  wired : r.chart.Wired g (fun _ => True) doomed
  begun : ∀ {id s q}, r.chart.Live id s → s.item.dot = 0 → s.item.rule ≠ Grammar.rootId →
    g.rule? s.item.rule = some q → r.chart.isPredicted s.item.origin q.lhs = true ∨ doomed id
  rule_ne : ∀ {id s}, r.chart.Live id s → s.item.rule ≠ rule ∨ doomed id
  spent : ∀ {id s}, doomed id → r.chart.Live id s → s.item.rule = rule ∨ (∀ d, ¬r.chart.Derives id d) ∨
    s.item.dot = 0 ∧ s.item.rule ≠ Grammar.rootId ∧
      ∀ q, g.rule? s.item.rule = some q → r.chart.isPredicted s.item.origin q.lhs = false
  root : r.chart.HasDerivation ⟨⟨Grammar.rootId, 0, 0⟩, 0⟩ .predicted
  rulesBegun : r.chart.RulesBegun g
  moved : r.chart.Moved g fun id => ∃ s, r.chart.Live id s ∧ s.item.rule ≠ rule
  isPredicted : ∀ {k symbol}, Asked g (fun s => ∃ id, r.chart.Live id s) k symbol →
    r.chart.isPredicted k symbol = true
  asked : ∀ {k symbol}, k ∉ r.review → r.chart.isPredicted k symbol = true →
    Asked g (fun s => ∃ id, r.chart.Live id s) k symbol ∨ stale k symbol

variable {g full : Grammar} {rule : Nat} {stale : Nat → Category → Prop} {doomed others : Nat → Prop} {r : Removal}

/-- Only live states need to be taken out. -/
theorem Pruned.dismiss (h : Pruned g rule stale doomed r)
    (hkeep : ∀ id s, doomed id → r.chart.Live id s → others id) (hless : ∀ id, others id → doomed id) :
    Pruned g rule stale others r :=
  { h with
    wired := h.wired.dismiss hkeep
    begun := fun hs hdot hroot hq => (h.begun hs hdot hroot hq).imp_right fun hdoomed => hkeep _ _ hdoomed hs
    rule_ne := fun hs => (h.rule_ne hs).imp_right fun hdoomed => hkeep _ _ hdoomed hs
    spent := fun hid hs => h.spent (hless _ hid) hs }

/-! Sweeping -/

/-- A removal leaves the spots that a derivation goes through. -/
theorem Orderly.link_eq {start : Removal} (h : r.Orderly g start) (d : Derivation) :
    r.chart.link d = start.chart.link d := by
  unfold Chart.link
  rw [funext h.spot?]

/-- Another spot keeps a way of being found that goes only through states that stay. -/
theorem TakenOut.hasDerivation {id : Nat} {s t : Spot} {l : Link} {out : Removal × List Nat}
    (h : TakenOut g id s r out) (hs : r.chart.Live id s) (ht : r.chart.HasDerivation t l) (hne : t ≠ s)
    (hlink : ∀ u, l.predecessor = some u ∨ l.reductor = some u → u ≠ s) : out.1.chart.HasDerivation t l := by
  obtain ⟨j, d, hj, hd, rfl⟩ := ht
  have hother : j ≠ id := fun heq => hne (hj.unique (heq ▸ hs))
  have hthrough : id ∉ d.links := fun hmem => hlink s (Chart.mem_link hmem hs.spot?) rfl
  exact ⟨j, d, h.live_iff.mpr ⟨hj, hother⟩, h.derives_iff.mpr ⟨hd, hother, hthrough⟩, h.orderly.link_eq d⟩

/-- What is doomed has no derivation any more if it is on another rule, unless its rule was begun for a category that
is no longer predicted. -/
theorem Pruned.ne_of_doomed (h : Pruned g rule stale doomed r) {id : Nat} {s t : Spot} {l : Link} (hid : doomed id)
    (hs : r.chart.Live id s) (ht : r.chart.HasDerivation t l) (hrule : t.item.rule ≠ rule)
    (hbegun : t.item.dot = 0 → t.item.rule ≠ Grammar.rootId →
      ∃ q, g.rule? t.item.rule = some q ∧ r.chart.isPredicted t.item.origin q.lhs = true) : t ≠ s := by
  rintro rfl
  obtain ⟨j, d, hj, hd, -⟩ := ht
  rcases h.spent hid hs with heq | hnone | ⟨hdot, hroot, hnone⟩
  · exact hrule heq
  · exact hnone d (h.filed.unique hj hs ▸ hd)
  · obtain ⟨q, hq, hpredicted⟩ := hbegun hdot hroot
    exact Bool.false_ne_true ((hnone q hq).symm.trans hpredicted)

/-- What is still live after a state was taken out is another spot. -/
theorem TakenOut.ne_of_live {id j : Nat} {s t : Spot} {out : Removal × List Nat} (h : TakenOut g id s r out)
    (hs : r.chart.Live id s) (hc : r.chart.Filed g) (ht : out.1.chart.Live j t) : t ≠ s := by
  rintro rfl
  obtain ⟨hj, hne⟩ := h.live_iff.mp ht
  exact hne (hc.unique hj hs)

/-- Taking out a state that is doomed loses no move of a dot between the states that stay. -/
theorem Pruned.moved_takeOut {id : Nat} {s : Spot} {out : Removal × List Nat} (h : Pruned g rule stale doomed r)
    (hid : doomed id) (hs : r.chart.Live id s) (htaken : TakenOut g id s r out) :
    out.1.chart.Moved g fun j => ∃ t, out.1.chart.Live j t ∧ t.item.rule ≠ rule := by
  have hold {j : Nat} (hj : ∃ t, out.1.chart.Live j t ∧ t.item.rule ≠ rule) :
      ∃ t, r.chart.Live j t ∧ t.item.rule ≠ rule := by
    obtain ⟨t, ht, hrule⟩ := hj
    exact ⟨t, (htaken.live_iff.mp ht).1, hrule⟩
  have hstep {j : Nat} {p : Spot} {stop : Nat} {l : Link} (hj : ∃ t, out.1.chart.Live j t ∧ t.item.rule ≠ rule)
      (hp : out.1.chart.Live j p) (hmoved : r.chart.HasDerivation (p.step stop) l)
      (hlink : ∀ u, l.predecessor = some u ∨ l.reductor = some u → u ≠ s) :
      out.1.chart.HasDerivation (p.step stop) l := by
    obtain ⟨t, ht, hrule⟩ := hj
    obtain rfl := ht.unique hp
    exact htaken.hasDerivation hs hmoved
      (h.ne_of_doomed hid hs hmoved hrule fun hdot => absurd hdot (Nat.succ_ne_zero _)) hlink
  have hne {j : Nat} {t : Spot} (ht : out.1.chart.Live j t) : t ≠ s := htaken.ne_of_live hs h.filed ht
  constructor
  · intro j p symbol hj hp hexpects hsymbol
    refine hstep hj hp (h.moved.skip (hold hj) (htaken.live_iff.mp hp).1 hexpects hsymbol) ?_
    rintro u (hu | hu)
    · exact Option.some.inj hu ▸ hne hp
    · contradiction
  · intro j p symbol hj hp hexpects hsymbol hpos hk hallows
    rw [htaken.size_columns] at hk
    rw [Chart.allows, htaken.input] at hallows
    refine hstep hj hp (h.moved.scan (hold hj) (htaken.live_iff.mp hp).1 hexpects hsymbol hpos hk hallows) ?_
    rintro u (hu | hu)
    · exact Option.some.inj hu ▸ hne hp
    · contradiction
  · intro i j p t symbol hi hj hp ht hexpects hsymbol hcompletes horigin
    refine hstep hi hp (h.moved.complete (hold hi) (hold hj) (htaken.live_iff.mp hp).1 (htaken.live_iff.mp ht).1
      hexpects hsymbol hcompletes horigin) ?_
    rintro u (hu | hu)
    · exact Option.some.inj hu ▸ hne hp
    · exact Option.some.inj hu ▸ hne ht

/-- Taking a state out leaves asked for what was asked for at the columns that are not to be reviewed. -/
theorem TakenOut.asked {id k : Nat} {s : Spot} {symbol : Category} {out : Removal × List Nat}
    (h : TakenOut g id s r out) (hs : r.chart.Live id s) (hk : k ∉ out.1.review)
    (hasked : Asked g (fun t => ∃ j, r.chart.Live j t) k symbol) :
    Asked g (fun t => ∃ j, out.1.chart.Live j t) k symbol := by
  rw [h.review, not_or] at hk
  refine hasked.mono ?_
  rintro t symbol' ⟨j, hj⟩ hstop hexpects hsymbol
  refine ⟨j, h.live_iff.mpr ⟨hj, ?_⟩⟩
  rintro rfl
  obtain rfl := hj.unique hs
  exact hk.2 ⟨hstop.symm, symbol', hexpects, hsymbol⟩

/-- Taking out a state that is doomed dooms the states left without a derivation. -/
theorem Pruned.takeOut (hwithout : full.Without rule g) {id : Nat}
    {s : Spot} {pending : List Nat} {out : Removal × List Nat}
    (h : Pruned g rule stale (fun j => j ∈ id :: pending ∨ others j) r)
    (hs : r.chart.Live id s) (htaken : TakenOut g id s r out) :
    Pruned g rule stale (fun j => j ∈ out.2 ++ pending ∨ others j) out.1 := by
  have hid : id ∈ id :: pending ∨ others id := .inl List.mem_cons_self
  have hdoomed {j : Nat} (hj : j ∈ id :: pending ∨ others j) (hne : j ≠ id) :
      j ∈ out.2 ++ pending ∨ others j :=
    hj.imp_left fun hmem =>
      List.mem_append_right _ ((List.mem_cons.mp hmem).resolve_left hne)
  have hnothing (u : Spot) : Link.predicted.predecessor = some u ∨ Link.predicted.reductor = some u → u ≠ s := by
    rintro (hu | hu) <;> contradiction
  exact {
    filed := htaken.filed
    wired := htaken.wired h.wired
    begun := fun hj hdot hroot hq => by
      obtain ⟨hj', hne⟩ := htaken.live_iff.mp hj
      rw [htaken.isPredicted]
      exact (h.begun hj' hdot hroot hq).imp_right fun hdoom => hdoomed hdoom hne
    rule_ne := fun hj => by
      obtain ⟨hj', hne⟩ := htaken.live_iff.mp hj
      exact (h.rule_ne hj').imp_right fun hdoom => hdoomed hdoom hne
    spent := fun {j t} hj ht => by
      by_cases hnew : j ∈ out.2
      · exact .inr (.inl (htaken.orphaned j hnew))
      · have hold : j ∈ id :: pending ∨ others j := hj.imp_left fun hmem =>
          List.mem_cons_of_mem id ((List.mem_append.mp hmem).resolve_left hnew)
        refine (h.spent hold (htaken.live_iff.mp ht).1).imp_right ?_
        refine Or.imp (fun hnone d hd => hnone d (htaken.derives_iff.mp hd).1) fun hunpredicted => ?_
        obtain ⟨hdot, hroot, hnone⟩ := hunpredicted
        exact ⟨hdot, hroot, fun q hq => (htaken.isPredicted _ _).trans (hnone q hq)⟩
    root := htaken.hasDerivation hs h.root
      (h.ne_of_doomed hid hs h.root hwithout.ne_rootId.symm fun _ hne => absurd rfl hne) hnothing
    rulesBegun := fun {k symbol other q} hpredicted hother => by
      rw [htaken.isPredicted] at hpredicted
      have hbegun := h.rulesBegun hpredicted hother
      obtain ⟨hq, rfl⟩ := hwithout.indexed'.mem_rulesFor.mp hother
      refine htaken.hasDerivation hs hbegun (h.ne_of_doomed hid hs hbegun ?_ fun _ _ => ?_) hnothing
      · exact ((hwithout.hasRule other q).mp hq).2
      · exact ⟨q, hq.rule?, hpredicted⟩
    moved := h.moved_takeOut hid hs htaken
    isPredicted := fun hasked => by
      rw [htaken.isPredicted]
      exact h.isPredicted (hasked.mono fun _ _ ⟨j, hj⟩ _ _ _ => ⟨j, (htaken.live_iff.mp hj).1⟩)
    asked := fun hk hpredicted =>
      (h.asked (fun hold => hk ((htaken.review _).mpr (.inl hold)))
        ((htaken.isPredicted _ _).symm.trans hpredicted)).imp_left (htaken.asked hs hk) }

/-- What is pruned is swept. -/
theorem swept_pruned (hwithout : full.Without rule g)
    (stale : Nat → Category → Prop) : Swept g (Pruned g rule stale) where
  filed h := h.filed
  dismiss h := h.dismiss
  takeOut h hs htaken := h.takeOut hwithout hs htaken

/-! Reviewing -/

/-- A list of the states begun at a column, as far as they are live. -/
structure Begun (g : Grammar) (k : Nat) (begun : List (Nat × State × Rule)) (c : Chart) : Prop where
  complete : ∀ {id s q}, c.Live id s → s.item.dot = 0 → s.item.origin = k →
    s.item.rule ≠ Grammar.rootId → g.rule? s.item.rule = some q → id ∈ begunFor begun q.lhs
  sound : ∀ {id s category}, id ∈ begunFor begun category → c.Live id s →
    s.item.dot = 0 ∧ s.item.origin = k ∧ s.item.rule ≠ Grammar.rootId ∧
      ∃ q, g.rule? s.item.rule = some q ∧ q.lhs = category

/-- The states begun at a column stay listed when states are taken out. -/
theorem Begun.mono {k : Nat} {begun : List (Nat × State × Rule)} {c c' : Chart}
    (h : Begun g k begun c) (hlive : ∀ {id s}, c'.Live id s → c.Live id s) : Begun g k begun c' :=
  ⟨fun hs => h.complete (hlive hs), fun hid hs => h.sound hid (hlive hs)⟩

/-- What is live after a category was unpredicted was live before. -/
theorem live_of_unpredict (h : r.chart.Filed g) {k : Nat} {begun : List (Nat × State × Rule)}
    {category : Category} {id : Nat} {s : Spot}
    (hs : (unpredict g k begun r category).chart.Live id s) : r.chart.Live id s := by
  rw [unpredict_eq] at hs
  exact (sweeps_orderly (filed_forget h k category) _).live hs

/-- A category that no live state asks for is unpredicted, with the states begun for it. -/
theorem Pruned.unpredict (hwithout : full.Without rule g) {k : Nat}
    {begun : List (Nat × State × Rule)} {category : Category} (h : Pruned g rule stale (fun _ => False) r)
    (hbegun : Begun g k begun r.chart) (hunasked : ¬Asked g (fun s => ∃ id, r.chart.Live id s) k category) :
    Pruned g rule (fun j symbol => stale j symbol ∧ ¬(j = k ∧ symbol = category))
      (fun _ => False) (Removal.unpredict g k begun r category) := by
  have hpredicted {j : Nat} {symbol : Category} :
      (r.forget k category).chart.isPredicted j symbol = true ↔
        r.chart.isPredicted j symbol = true ∧ ¬(j = k ∧ symbol = category) := by
    rw [isPredicted_forget, Bool.and_eq_true, Bool.not_eq_true', decide_eq_false_iff_not,
      eq_comm (a := k), eq_comm (a := category)]
  have hwired : (r.forget k category).chart.Wired g (fun _ => True) fun _ => False := h.wired.of_states rfl rfl
  -- once the prediction is forgotten, the states begun for it are doomed until they are swept
  have hforgotten : Pruned g rule (fun j symbol => stale j symbol ∧ ¬(j = k ∧ symbol = category))
      (fun j => j ∈ begunFor begun category ∨ False) (r.forget k category) := {
    filed := filed_forget h.filed k category
    wired := hwired.dismiss fun _ _ hfalse _ => hfalse.elim
    begun := fun {id s q} hs hdot hroot hq => by
      have hold := (h.begun hs hdot hroot hq).resolve_right not_false
      by_cases heq : s.item.origin = k ∧ q.lhs = category
      · obtain ⟨horigin, rfl⟩ := heq
        exact .inr (.inl (hbegun.complete hs hdot horigin hroot hq))
      · exact .inl (hpredicted.mpr ⟨hold, heq⟩)
    rule_ne := fun hs => .inl ((h.rule_ne hs).resolve_right id)
    spent := by
      rintro id s (hid | hfalse) hs
      · obtain ⟨hdot, rfl, hroot, q, hq, rfl⟩ := hbegun.sound hid hs
        refine .inr (.inr ⟨hdot, hroot, fun q' hq' => ?_⟩)
        obtain rfl := Option.some.inj (hq.symm.trans hq')
        exact Bool.eq_false_iff.mpr fun hstill => (hpredicted.mp hstill).2 ⟨rfl, rfl⟩
      · exact hfalse.elim
    root := h.root
    rulesBegun := fun hsymbol => h.rulesBegun (hpredicted.mp hsymbol).1
    moved := { h.moved with
      scan := fun hid hs hexpects hsymbol hpos hk =>
        h.moved.scan hid hs hexpects hsymbol hpos (Array.size_modify ▸ hk) }
    isPredicted := fun hasked => by
      refine hpredicted.mpr ⟨h.isPredicted hasked, ?_⟩
      rintro ⟨rfl, rfl⟩
      exact hunasked hasked
    asked := fun hk hsymbol => by
      obtain ⟨hold, hne⟩ := hpredicted.mp hsymbol
      exact (h.asked hk hold).imp_right fun hstale => ⟨hstale, hne⟩ }
  rw [unpredict_eq]
  exact (swept_pruned hwithout _).sweeps hforgotten

/-- Categories that no live state asks for are unpredicted, one after the other. -/
theorem Pruned.unpredicts (hwithout : full.Without rule g) {k : Nat}
    {begun : List (Nat × State × Rule)} {categories : List Category}
    (h : Pruned g rule (fun j symbol => j = k ∧ symbol ∈ categories) (fun _ => False) r)
    (hbegun : Begun g k begun r.chart)
    (hunasked : ∀ category ∈ categories, ¬Asked g (fun s => ∃ id, r.chart.Live id s) k category) :
    Pruned g rule (fun _ _ => False) (fun _ => False)
      (categories.foldl (Removal.unpredict g k begun) r) := by
  induction categories generalizing r with
  | nil =>
    exact { h with
      asked := fun hk hsymbol => .inl ((h.asked hk hsymbol).resolve_right fun hstale =>
        List.not_mem_nil hstale.2) }
  | cons category rest ih =>
    have hfirst := h.unpredict hwithout hbegun (hunasked category List.mem_cons_self)
    refine ih ?_ (hbegun.mono (live_of_unpredict h.filed)) fun other hother hasked => ?_
    · refine { hfirst with
        asked := fun hk hsymbol => (hfirst.asked hk hsymbol).imp_right ?_ }
      rintro ⟨⟨rfl, hmem⟩, hne⟩
      exact ⟨rfl, (List.mem_cons.mp hmem).resolve_left fun heq => hne ⟨rfl, heq⟩⟩
    · exact hunasked other (List.mem_cons_of_mem _ hother)
        (hasked.mono fun _ _ ⟨j, hj⟩ _ _ _ => ⟨j, live_of_unpredict h.filed hj⟩)

/-- The states that a review lists are those begun at the column. -/
theorem Pruned.begun_begunAt (h : Pruned g rule stale (fun _ => False) r) {k : Nat}
    {column : Column} (hcolumn : r.chart.columns[k]? = some column) :
    Begun g k (begunAt g r.chart k column.states.toList) r.chart where
  complete {id s q} hs hdot horigin hroot hq := by
    obtain ⟨d, hd⟩ := (h.wired.based hs).resolve_right not_false
    have hstop : s.stop = k := ((h.wired.steps hs hd).stop_eq_origin hdot).trans horigin
    have hid := (h.filed.mem_states_iff hcolumn hs).mpr hstop
    obtain ⟨state, hstate, hremoved, rfl⟩ := hs
    have hdot' : state.item.dot = 0 := hdot
    refine List.mem_filterMap.mpr ⟨(id, state, q), ?_, by simp [hdot']⟩
    exact mem_begunAt.mpr ⟨hid, hstate, hq, hremoved, Nat.le_of_eq horigin.symm, hroot⟩
  sound {id s category} hid hs := by
    obtain ⟨⟨id', state, q⟩, hmem, hite⟩ := List.mem_filterMap.mp hid
    dsimp only at hite
    split at hite
    · next hcond =>
      obtain rfl := Option.some.inj hite
      obtain ⟨hlisted, hstate, hq, -, horigin, hroot⟩ := mem_begunAt.mp hmem
      simp only [Bool.and_eq_true, decide_eq_true_iff] at hcond
      have hstop := (h.filed.mem_states_iff hcolumn hs).mp hlisted
      obtain ⟨-, rfl⟩ := hs.state hstate
      have hbounds := (h.filed.bounds hs.spot?).1
      exact ⟨hcond.2, Nat.le_antisymm (hstop ▸ hbounds) horigin, hroot, q, hq, hcond.1⟩
    · contradiction

/-- A review leaves a column that predicts what its live states ask for, as long as it is not to be
reviewed again. -/
theorem Pruned.reviewColumn (hwithout : full.Without rule g)
    (k : Nat) (h : Pruned g rule (fun _ _ => False) (fun _ => False) r) :
    Pruned g rule (fun _ _ => False) (fun _ => False)
      (({ r with review := r.review.erase k } : Removal).reviewColumn g k) := by
  -- the column is off the list, so what is stale there is what nobody asks for
  have hstart : Pruned g rule
      (fun j symbol => j = k ∧ symbol ∈ Removal.stale g r.chart k) (fun _ => False)
      { r with review := r.review.erase k } := { h with
    asked := fun {j symbol} hj hsymbol => by
      by_cases hjk : j = k
      · subst hjk
        by_cases hasked : Asked g (fun s => ∃ id, r.chart.Live id s) j symbol
        · exact .inl hasked
        · exact .inr ⟨rfl, (mem_stale h.filed).mpr ⟨hsymbol, hasked⟩⟩
      · left
        refine (h.asked (fun hmem => hj ?_) hsymbol).resolve_right id
        exact Std.ExtTreeSet.mem_erase.mpr
          ⟨fun heq => hjk (Std.compare_eq_iff_eq.mp heq).symm, hmem⟩ }
  unfold Removal.reviewColumn
  dsimp only
  rw [lost_eq_false h.filed, if_neg Bool.false_ne_true]
  cases hcolumn : r.chart.columns[k]? with
  | none =>
    have hnil : Removal.stale g r.chart k = [] := by
      unfold Removal.stale
      rw [hcolumn]
    simp only [hnil, List.foldl_nil] at hstart ⊢
    exact { hstart with
      asked := fun hk hsymbol => .inl ((hstart.asked hk hsymbol).resolve_right fun hstale =>
        List.not_mem_nil hstale.2) }
  | some column =>
    exact hstart.unpredicts hwithout (h.begun_begunAt hcolumn)
      fun category hcategory => ((mem_stale h.filed).mp hcategory).2

/-- In the end nothing is left to be reviewed. -/
theorem Pruned.settle (hwithout : full.Without rule g)
    (h : Pruned g rule (fun _ _ => False) (fun _ => False) r) :
    Pruned g rule (fun _ _ => False) (fun _ => False) (r.settle g) ∧ ∀ k, k ∉ (r.settle g).review := by
  fun_induction Removal.settle g r with
  | case1 r hmin =>
    refine ⟨h, fun k hk => ?_⟩
    rw [Std.ExtTreeSet.min?_eq_none_iff.mp hmin] at hk
    exact Std.ExtTreeSet.not_mem_empty hk
  | case2 r k _ ih => exact ih (h.reviewColumn hwithout k)

/-! From the beginning to the end -/

variable {g' : Grammar} {c : Chart}

/-- Before a rule is taken out of a chart that sustains itself, the states on it are doomed, and nothing is to be
reviewed. -/
theorem pruned_on (hg : g.Indexed) (hremove : g.remove? rule = some g') (hc : c.Filed g') (h : c.Sustained g) :
    Pruned g' rule (fun _ _ => False) (fun id => id ∈ c.byRule.ids rule ∨ False) (Removal.on c) := by
  have hwithout := Grammar.without_remove hg hremove
  have hexpects {s : Spot} {symbol : Category} : g'.Expects s.item symbol ↔ g.Expects s.item symbol := by
    rw [Grammar.Expects, Chart.ahead_congr (Grammar.rule?_remove hremove s.item.rule), Grammar.Expects]
  have hcompletes {s : Spot} {symbol : Category} : g'.Completes s.item symbol ↔ g.Completes s.item symbol := by
    rw [Grammar.Completes, Chart.ahead_congr (Grammar.rule?_remove hremove s.item.rule), Grammar.Completes]
  have hprompted : c.Prompted g' :=
    h.prompted.regrammar (fun _ s _ => Grammar.rule?_remove hremove s.item.rule) hwithout.partsOfSpeech
  have hlive {id : Nat} (hid : ∃ s, c.Live id s ∧ s.item.rule ≠ rule) : ∃ s, c.Live id s :=
    hid.imp fun _ hs => hs.1
  exact {
    filed := hc
    wired := hprompted.wired.dismiss fun _ _ hfalse _ => hfalse.elim
    begun := fun hs hdot hroot hq => .inl (hprompted.begun hs hdot hroot hq)
    -- the states on the rule are the ones that are about to be swept
    rule_ne := fun {id s} hs => by
      by_cases heq : s.item.rule = rule
      · exact .inr (.inl (hc.mem_byRule.mpr ⟨s, hs.spot?, heq⟩))
      · exact .inl heq
    spent := by
      rintro id s (hid | hfalse) hs
      · obtain ⟨t, ht, heq⟩ := hc.mem_byRule.mp hid
        obtain rfl := Option.some.inj (hs.spot?.symm.trans ht)
        exact .inl heq
      · exact hfalse.elim
    root := h.closed.root
    rulesBegun := fun hpredicted hother => h.closed.rulesBegun hpredicted (hwithout.mem_rulesFor.mp hother).1
    moved := {
      skip := fun hid hs hsymbol => h.closed.served.skip (hlive hid) hs (hexpects.mp hsymbol)
      scan := fun hid hs hsymbol hempty hpos => h.closed.served.scan (hlive hid) hs (hexpects.mp hsymbol) hempty
        (hwithout.isPartOfSpeech _ ▸ hpos)
      complete := fun hi hj hs ht hsymbol hnonterminal hlhs => h.closed.served.complete (hlive hi) (hlive hj) hs ht
        (hexpects.mp hsymbol) (hwithout.isNonterminal _ ▸ hnonterminal) (hcompletes.mp hlhs) }
    isPredicted := fun {k symbol} hasked => by
      obtain ⟨s, ⟨id, hs⟩, rfl, hsymbol, hnonterminal⟩ := hasked.expects
      exact h.closed.served.predicted ⟨s, hs⟩ hs (hexpects.mp hsymbol) (hwithout.isNonterminal _ ▸ hnonterminal)
    asked := fun _ hpredicted => .inl (hprompted.asked hpredicted) }

/-- What is pruned sustains itself once nothing is left to be taken out or reviewed. -/
theorem Pruned.sustained (h : Pruned g rule (fun _ _ => False) (fun _ => False) r) (hreview : ∀ k, k ∉ r.review) :
    r.chart.Sustained g := by
  have hprompted : r.chart.Prompted g := {
    wired := h.wired
    begun := fun hs hdot hroot hq => (h.begun hs hdot hroot hq).resolve_right not_false
    asked := fun hpredicted => (h.asked (hreview _) hpredicted).resolve_right not_false }
  have hrule {id : Nat} (hid : ∃ s, r.chart.Live id s) : ∃ s, r.chart.Live id s ∧ s.item.rule ≠ rule :=
    hid.imp fun _ hs => ⟨hs, (h.rule_ne hs).resolve_right not_false⟩
  refine ⟨⟨h.root, h.rulesBegun, ⟨?_, ?_⟩⟩, hprompted⟩
  · exact {
      skip := fun hid => h.moved.skip (hrule hid)
      scan := fun hid => h.moved.scan (hrule hid)
      complete := fun hi hj => h.moved.complete (hrule hi) (hrule hj) }
  · exact fun _ hs hexpects hsymbol => h.isPredicted (hprompted.asked_of_expects h.filed hs hexpects hsymbol)

/-- Taking a rule out of a chart that sustains itself leaves one that sustains itself without the rule, and has no
state on it. -/
theorem removeRule_sustained (hg : g.Indexed) (hremove : g.remove? rule = some g') (hc : c.Filed g')
    (h : c.Sustained g) : ((Removal.on c).removeRule g' rule).chart.Sustained g' ∧
      ∀ {id s}, ((Removal.on c).removeRule g' rule).chart.Live id s → s.item.rule ≠ rule := by
  have hwithout := Grammar.without_remove hg hremove
  have hswept := (swept_pruned hwithout fun _ _ => False).sweeps (pruned_on hg hremove hc h)
  obtain ⟨hpruned, hreview⟩ := hswept.settle hwithout
  exact ⟨hpruned.sustained hreview, fun hs => (hpruned.rule_ne hs).resolve_right not_false⟩

end Removal

end IndexedGrammar
