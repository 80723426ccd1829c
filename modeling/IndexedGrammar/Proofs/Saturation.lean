import IndexedGrammar.Saturation
import IndexedGrammar.Total
import Mathlib.Logic.Relation

/-!
# Saturated sets

A pass that adds targets ends with a set that it leaves as it is, and the bound is never what ends it:
every pass but the last adds a target that was not there. So the set is closed under the pass, and
everything in it was there from the beginning or was added by a step of a pass.

Following edges to saturation leads to exactly what is connected to the set.

A search that takes up one thing at a time ends because less is outstanding each time.
-/

namespace IndexedGrammar

variable {α ι : Type} [Ord α] [Std.TransOrd α]

/-- A set within another one is not larger. -/
theorem size_le_of_subset [Std.LawfulEqOrd α] {s t : Std.ExtTreeSet α} (h : ∀ a ∈ s, a ∈ t) : s.size ≤ t.size := by
  have hunion : s ∪ t = t := Std.ExtTreeSet.ext_mem fun a => by
    rw [Std.ExtTreeSet.mem_union_iff]
    exact or_iff_right_of_imp (h a)
  exact hunion ▸ Std.ExtTreeSet.size_left_le_size_union

/-- A new member makes a set larger; a member that is there changes nothing. -/
theorem insert_eq_or_size_lt [Std.LawfulEqOrd α] (s : Std.ExtTreeSet α) (a : α) :
    s.insert a = s ∨ s.size < (s.insert a).size := by
  by_cases ha : a ∈ s
  · left
    refine Std.ExtTreeSet.ext_mem fun b => ?_
    rw [Std.ExtTreeSet.mem_insert, Std.compare_eq_iff_eq]
    exact or_iff_right_of_imp fun heq => heq ▸ ha
  · right
    rw [Std.ExtTreeSet.size_insert, if_neg fun h => ha (Std.ExtTreeSet.mem_iff_contains.mpr h)]
    exact Nat.lt_succ_self _

/-- A pass over items, each of which adds its target if the set so far calls for it. -/
def addTargets (calls : Std.ExtTreeSet α → ι → Bool) (target : ι → α) (items : List ι)
    (found : Std.ExtTreeSet α) : Std.ExtTreeSet α :=
  items.foldl (fun found item => if calls found item then found.insert (target item) else found)
    found

section Pass

variable {calls : Std.ExtTreeSet α → ι → Bool} {target : ι → α} {items : List ι}
  {found : Std.ExtTreeSet α}

/-- What a step keeps, a pass keeps. -/
theorem addTargets_induction {motive : Std.ExtTreeSet α → Prop} (hfound : motive found)
    (hstep : ∀ s item, item ∈ items → calls s item = true → motive s → motive (s.insert (target item))) :
    motive (addTargets calls target items found) := by
  unfold addTargets
  induction items generalizing found with
  | nil => exact hfound
  | cons item rest ih =>
    refine ih ?_ fun s other hother => hstep s other (List.mem_cons_of_mem _ hother)
    dsimp only
    split
    · next hcalls => exact hstep found item List.mem_cons_self hcalls hfound
    · exact hfound

/-- A pass keeps what is there. -/
theorem mem_addTargets {a : α} (ha : a ∈ found) : a ∈ addTargets calls target items found :=
  addTargets_induction (motive := fun s => a ∈ s) ha fun _ _ _ _ =>
    Std.ExtTreeSet.mem_insert.mpr ∘ .inr

/-- A pass leaves the set as it is, or makes it larger. -/
theorem addTargets_eq_or_size_lt [Std.LawfulEqOrd α] (calls : Std.ExtTreeSet α → ι → Bool)
    (target : ι → α) (items : List ι) (found : Std.ExtTreeSet α) :
    addTargets calls target items found = found ∨
      found.size < (addTargets calls target items found).size := by
  refine addTargets_induction (motive := fun s => s = found ∨ found.size < s.size) (.inl rfl) ?_
  rintro s item - - (rfl | hlt)
  · exact insert_eq_or_size_lt s (target item)
  · exact .inr (Nat.lt_of_lt_of_le hlt Std.ExtTreeSet.size_le_size_insert)

/-- A pass adds the target of every item that the set calls for, if more calls for more. -/
theorem target_mem_addTargets (hmono : ∀ s t item, (∀ a ∈ s, a ∈ t) → calls s item = true →
    calls t item = true) {item : ι} (hitem : item ∈ items) (hcalls : calls found item = true) :
    target item ∈ addTargets calls target items found := by
  induction items generalizing found with
  | nil => exact absurd hitem List.not_mem_nil
  | cons first rest ih =>
    have hrest : addTargets calls target (first :: rest) found = addTargets calls target rest
        (if calls found first then found.insert (target first) else found) := rfl
    rw [hrest]
    rcases List.mem_cons.mp hitem with rfl | hitem
    · rw [if_pos hcalls]
      exact mem_addTargets Std.ExtTreeSet.mem_insert_self
    · refine ih hitem (hmono found _ item (fun a ha => ?_) hcalls)
      split
      · exact Std.ExtTreeSet.mem_insert.mpr (.inr ha)
      · exact ha

end Pass

omit [Std.TransOrd α] in
/-- What a pass keeps, saturation keeps. -/
theorem saturate_induction {pass : Std.ExtTreeSet α → Std.ExtTreeSet α}
    {motive : Std.ExtTreeSet α → Prop} (hpass : ∀ s, motive s → motive (pass s)) (bound : Nat)
    {found : Std.ExtTreeSet α} (hfound : motive found) : motive (saturate pass bound found) := by
  induction bound generalizing found with
  | zero => exact hfound
  | succ bound ih =>
    unfold saturate
    dsimp only
    split
    · exact hfound
    · exact ih (hpass found hfound)

/-- A saturated set has what was there from the beginning. -/
theorem mem_saturate {calls : Std.ExtTreeSet α → ι → Bool} {target : ι → α} {items : List ι}
    {found : Std.ExtTreeSet α} {bound : Nat} {a : α}
    (ha : a ∈ found) :
    a ∈ saturate (addTargets calls target items) bound found :=
  saturate_induction (motive := fun s => a ∈ s) (fun _ => mem_addTargets) bound ha

omit [Std.TransOrd α] in
/-- Saturation ends with a set that the pass leaves as it is, if the bound allows for all that can be
added. -/
theorem pass_saturate {pass : Std.ExtTreeSet α → Std.ExtTreeSet α}
    (within : Std.ExtTreeSet α → Prop) (most : Nat) (hwithin : ∀ s, within s → within (pass s))
    (hgrows : ∀ s, pass s = s ∨ s.size < (pass s).size) (hmost : ∀ s, within s → s.size ≤ most)
    {bound : Nat} {found : Std.ExtTreeSet α} (hfound : within found)
    (hbound : most < found.size + bound) :
    pass (saturate pass bound found) = saturate pass bound found := by
  induction bound generalizing found with
  | zero => exact absurd (hmost found hfound) (Nat.not_le_of_lt hbound)
  | succ bound ih =>
    unfold saturate
    dsimp only
    split
    · next hsize => exact (hgrows found).resolve_right fun hlt => Nat.ne_of_gt hlt hsize
    · next hsize =>
      refine ih (hwithin found hfound) ?_
      have hlt := (hgrows found).resolve_left fun heq => hsize (by rw [heq])
      omega

section Saturated

variable [Std.LawfulEqOrd α] [DecidableEq α] {calls : Std.ExtTreeSet α → ι → Bool} {target : ι → α} {items : List ι}
  {found : Std.ExtTreeSet α}

/-- A saturated set has the target of every item that it calls for. -/
theorem target_mem_saturate (hmono : ∀ s t item, (∀ a ∈ s, a ∈ t) → calls s item = true →
    calls t item = true) {item : ι} (hitem : item ∈ items)
    (hcalls : calls (saturate (addTargets calls target items) (items.length + 1) found) item = true) :
    target item ∈ saturate (addTargets calls target items) (items.length + 1) found := by
  have hfixed : addTargets calls target items
      (saturate (addTargets calls target items) (items.length + 1) found) =
      saturate (addTargets calls target items) (items.length + 1) found := by
    -- a round that changes the set adds a target, of which there are no more than items
    refine pass_saturate (fun s => ∀ a ∈ s, a ∈ found ∪ .ofList (items.map target))
      (found.size + items.length) ?_ (addTargets_eq_or_size_lt calls target items) ?_ ?_
      (Nat.lt_succ_self _)
    · intro s hs
      refine addTargets_induction
        (motive := fun s => ∀ a ∈ s, a ∈ found ∪ .ofList (items.map target)) hs ?_
      intro s item hitem _ hs a ha
      rcases Std.ExtTreeSet.mem_insert.mp ha with heq | ha
      · rw [Std.compare_eq_iff_eq] at heq
        rw [Std.ExtTreeSet.mem_union_iff, Std.ExtTreeSet.mem_ofList, List.contains_iff_mem]
        exact .inr (List.mem_map.mpr ⟨item, hitem, heq⟩)
      · exact hs a ha
    · intro s hs
      refine Nat.le_trans (size_le_of_subset hs) ?_
      refine Nat.le_trans Std.ExtTreeSet.size_union_le_size_add_size ?_
      refine Nat.add_le_add_left (Nat.le_trans Std.ExtTreeSet.size_ofList_le ?_) _
      exact Nat.le_of_eq (List.length_map target)
    · exact fun a ha => Std.ExtTreeSet.mem_union_iff.mpr (.inl ha)
  rw [← hfixed]
  exact target_mem_addTargets hmono hitem hcalls

end Saturated

/-- What can be reached along edges is connected to the set, and all that is connected to it. -/
theorem mem_reachable [Std.LawfulEqOrd α] [DecidableEq α] {edges : List (α × α)} {found : Std.ExtTreeSet α} {a : α} :
    a ∈ reachable edges found ↔
      ∃ b ∈ found, Relation.ReflTransGen (fun x y => (x, y) ∈ edges) b a := by
  have heq : reachable edges found = saturate
      (addTargets (fun found edge => found.contains edge.1) Prod.snd edges) (edges.length + 1)
      found := rfl
  rw [heq]
  constructor
  · refine saturate_induction (motive := fun s => ∀ a ∈ s,
      ∃ b ∈ found, Relation.ReflTransGen (fun x y => (x, y) ∈ edges) b a) (fun s hs => ?_) _
      (fun a ha => ⟨a, ha, .refl⟩) a
    refine addTargets_induction (motive := fun s => ∀ a ∈ s,
      ∃ b ∈ found, Relation.ReflTransGen (fun x y => (x, y) ∈ edges) b a) hs ?_
    rintro s ⟨source, target⟩ hedge hsource hs a ha
    rcases Std.ExtTreeSet.mem_insert.mp ha with heq | ha
    · obtain rfl := Std.compare_eq_iff_eq.mp heq
      obtain ⟨b, hb, hpath⟩ := hs source (Std.ExtTreeSet.mem_iff_contains.mpr hsource)
      exact ⟨b, hb, hpath.tail hedge⟩
    · exact hs a ha
  · rintro ⟨b, hb, hpath⟩
    induction hpath with
    | refl => exact mem_saturate hb
    | @tail source target _ hedge ih =>
      refine target_mem_saturate (fun s t edge hst hs => ?_) hedge (Std.ExtTreeSet.mem_iff_contains.mp ih)
      exact Std.ExtTreeSet.mem_iff_contains.mp (hst _ (Std.ExtTreeSet.mem_iff_contains.mpr hs))

/-! What is outstanding -/

/-- What some items weigh together, but for those that a set has already. -/
def outstanding (key : ι → α) (weight : ι → Nat) (found : Std.ExtTreeSet α) (items : List ι) : Nat :=
  total (fun item => if found.contains (key item) then 0 else weight item) items

section Outstanding

variable {key : ι → α} {weight : ι → Nat} {found : Std.ExtTreeSet α} {items : List ι}

/-- No more is outstanding from a larger set. -/
theorem outstanding_insert_le (a : α) :
    outstanding key weight (found.insert a) items ≤ outstanding key weight found items := by
  induction items with
  | nil => exact Nat.le_refl 0
  | cons item items ih =>
    refine Nat.add_le_add ?_ ih
    dsimp only
    rw [Std.ExtTreeSet.contains_insert]
    cases found.contains (key item) <;> cases compare a (key item) == .eq <;> simp

/-- An item that a set gets is not outstanding any more. -/
theorem outstanding_insert {item : ι} (hitem : item ∈ items) (hnew : found.contains (key item) = false) :
    outstanding key weight (found.insert (key item)) items + weight item ≤ outstanding key weight found items := by
  induction items with
  | nil => exact absurd hitem List.not_mem_nil
  | cons first items ih =>
    rcases List.mem_cons.mp hitem with rfl | hitem
    · have hrest : outstanding key weight (found.insert (key item)) items ≤ outstanding key weight found items :=
        outstanding_insert_le _
      simp only [outstanding, total, Std.ExtTreeSet.contains_insert_self, hnew, if_true, Bool.false_eq_true,
        if_false] at hrest ⊢
      omega
    · have hrest := ih hitem
      have hfirst : outstanding key weight (found.insert (key item)) [first] ≤ outstanding key weight found [first] :=
        outstanding_insert_le _
      simp only [outstanding, total] at hfirst hrest ⊢
      omega

end Outstanding

end IndexedGrammar
