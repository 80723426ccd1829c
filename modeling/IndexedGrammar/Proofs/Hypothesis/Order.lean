import IndexedGrammar.Hypothesis
import IndexedGrammar.Proofs.RuleSpace.Mentioned
import Mathlib.Data.Set.Function

/-!
# The canonical order of nonterminals

The canonical order lists the nonterminals that some rules mention, each of them once. A renaming that is
injective on them takes it to the canonical order of other rules, if it takes the right-hand sides of each
category, and the mentioned nonterminals that are not reached, to those of the other rules.
-/

namespace IndexedGrammar.Hypothesis

variable {space : RuleSpace} {names : String → String} {rules rules' : List Rule}
  {known new queue old : List Category} {x : Category}

/-! Collecting categories -/

/-- Collecting adds the new categories. -/
theorem mem_addMissing : x ∈ addMissing known new ↔ x ∈ known ∨ x ∈ new := by
  induction new generalizing known with
  | nil => simp [addMissing]
  | cons y rest ih =>
    rw [addMissing, List.foldl_cons]
    refine ih.trans ?_
    split_ifs with hy
    · rw [List.mem_cons]
      refine ⟨Or.imp_right .inr, fun hx => ?_⟩
      rcases hx with hx | rfl | hx
      · exact .inl hx
      · exact .inl hy
      · exact .inr hx
    · rw [List.mem_append, List.mem_singleton, List.mem_cons, or_assoc]

/-- Collecting repeats no category. -/
theorem nodup_addMissing (hknown : known.Nodup) : (addMissing known new).Nodup := by
  induction new generalizing known with
  | nil => exact hknown
  | cons y rest ih =>
    rw [addMissing, List.foldl_cons]
    refine ih ?_
    split_ifs with hy
    · exact hknown
    · exact List.concat_eq_append ▸ hknown.concat hy

/-- Categories that are known already can be left out. -/
theorem addMissing_filter {keep : Category → Bool} (hdropped : ∀ y ∈ new, keep y = false → y ∈ known) :
    addMissing known (new.filter keep) = addMissing known new := by
  induction new generalizing known with
  | nil => rfl
  | cons y rest ih =>
    have hrest : ∀ z ∈ rest, keep z = false → z ∈ addMissing known [y] := fun z hz hkeep =>
      mem_addMissing.mpr (.inl (hdropped z (List.mem_cons_of_mem _ hz) hkeep))
    have hstep (list : List Category) : addMissing known (y :: list) =
        addMissing (addMissing known [y]) list := rfl
    cases hy : keep y with
    | true => rw [List.filter_cons_of_pos hy, hstep, hstep rest, ih hrest]
    | false =>
      have hknown : addMissing known [y] = known := if_pos (hdropped y List.mem_cons_self hy)
      rw [List.filter_cons_of_neg (by rw [hy]; exact Bool.false_ne_true), hstep, hknown,
        ih (hknown ▸ hrest)]

/-- An injective renaming goes through collecting. -/
theorem addMissing_map {f : Category → Category} (hf : Set.InjOn f {x | x ∈ known ∨ x ∈ new}) :
    addMissing (known.map f) (new.map f) = (addMissing known new).map f := by
  induction new generalizing known with
  | nil => rfl
  | cons y rest ih =>
    have hmem : f y ∈ known.map f ↔ y ∈ known := by
      refine ⟨fun hy => ?_, List.mem_map_of_mem⟩
      obtain ⟨z, hz, heq⟩ := List.mem_map.mp hy
      exact hf (.inl hz) (.inr List.mem_cons_self) heq ▸ hz
    have hone : addMissing (known.map f) [f y] = (addMissing known [y]).map f := by
      simp only [addMissing, List.foldl_cons, List.foldl_nil, hmem]
      split_ifs
      · rfl
      · rw [List.map_append, List.map_singleton]
    have hinj : Set.InjOn f {x | x ∈ addMissing known [y] ∨ x ∈ rest} := by
      refine hf.mono fun z hz => ?_
      rcases hz with hz | hz
      · exact (mem_addMissing.mp hz).imp_right fun hz =>
          List.mem_cons.mpr (.inl (List.mem_singleton.mp hz))
      · exact .inr (List.mem_cons_of_mem _ hz)
    have hrest := ih hinj
    rwa [← hone] at hrest

/-! Reaching categories -/

/-- What the right-hand sides of a category mention. -/
def children (space : RuleSpace) (rules : List Rule) (lhs : Category) : List Category :=
  (rules.filter fun r => r.lhs.name = lhs.name).flatMap fun r => space.mentionedBy r.rhs

/-- One step takes a category from the queue and adds what its right-hand sides mention. -/
theorem reach_cons (steps : Nat) (lhs : Category) :
    reach space rules (steps + 1) known (lhs :: queue) =
      reach space rules steps (addMissing known (children space rules lhs))
        (queue ++ (addMissing known (children space rules lhs)).drop known.length) :=
  rfl

/-- What is reached was known or is mentioned on a right-hand side. -/
theorem mem_of_mem_reach {steps : Nat} (hx : x ∈ reach space rules steps known queue) :
    x ∈ known ∨ ∃ lhs, x ∈ children space rules lhs := by
  induction steps generalizing known queue with
  | zero => exact .inl hx
  | succ steps ih =>
    cases queue with
    | nil => exact .inl hx
    | cons lhs queue =>
      rw [reach_cons] at hx
      rcases ih hx with hx | hx
      · exact (mem_addMissing.mp hx).imp_right fun hx => ⟨lhs, hx⟩
      · exact .inr hx

/-- No category is reached twice. -/
theorem nodup_reach (steps : Nat) (hknown : known.Nodup) :
    (reach space rules steps known queue).Nodup := by
  induction steps generalizing known queue with
  | zero => exact hknown
  | succ steps ih =>
    cases queue with
    | nil => exact hknown
    | cons lhs queue =>
      rw [reach_cons]
      exact ih (nodup_addMissing hknown)

/-- A renaming goes through reaching, if it is injective on some categories that are closed under
children and takes their children to those of the other rules. -/
theorem reach_map {f : Category → Category} {within : Set Category} (hf : Set.InjOn f within)
    (hclosed : ∀ c ∈ within, ∀ x ∈ children space rules c, x ∈ within)
    (hchildren : ∀ c ∈ within, children space rules' (f c) = (children space rules c).map f)
    (steps : Nat) (hknown : ∀ x ∈ known, x ∈ within) (hqueue : ∀ x ∈ queue, x ∈ within) :
    reach space rules' steps (known.map f) (queue.map f) =
      (reach space rules steps known queue).map f := by
  induction steps generalizing known queue with
  | zero => rfl
  | succ steps ih =>
    cases queue with
    | nil => rfl
    | cons lhs queue =>
      obtain ⟨hlhs, hqueue⟩ := List.forall_mem_cons.mp hqueue
      have hmore : ∀ x ∈ addMissing known (children space rules lhs), x ∈ within := fun x hx =>
        (mem_addMissing.mp hx).elim (hknown x) (hclosed lhs hlhs x)
      have hmap : addMissing (known.map f) (children space rules' (f lhs)) =
          (addMissing known (children space rules lhs)).map f := by
        rw [hchildren lhs hlhs]
        exact addMissing_map (hf.mono fun x hx => hmore x (mem_addMissing.mpr hx))
      rw [List.map_cons, reach_cons, reach_cons, hmap, List.length_map, ← List.map_drop,
        ← List.map_append]
      exact ih hmore
        (List.forall_mem_append.mpr ⟨hqueue, fun x hx => hmore x (List.mem_of_mem_drop hx)⟩)

/-! The canonical order -/

/-- The nonterminals that some rules mention, in order. -/
def mentions (space : RuleSpace) (rules : List Rule) : List Category :=
  rules.flatMap space.mentions

/-- The nonterminals that are reached from the start category, in order. -/
def reached (space : RuleSpace) (rules : List Rule) : List Category :=
  reach space rules (space.nonterminals.length + 1) [] [space.start]

/-- The nonterminals that are not reached come behind those that are. -/
theorem order_eq : order space rules = addMissing (reached space rules) (mentions space rules) :=
  rfl

/-- Children are mentioned. -/
theorem mentions_of_children {lhs : Category} (hx : x ∈ children space rules lhs) :
    x ∈ mentions space rules := by
  obtain ⟨r, hr, hx⟩ := List.mem_flatMap.mp hx
  obtain ⟨c, hc, hx⟩ := List.mem_flatMap.mp hx
  exact List.mem_flatMap.mpr ⟨r, (List.mem_filter.mp hr).1,
    List.mem_flatMap.mpr ⟨c, List.mem_cons_of_mem _ hc, hx⟩⟩

/-- The canonical order has the mentioned nonterminals. -/
theorem mem_order : x ∈ order space rules ↔ x ∈ mentions space rules := by
  rw [order_eq, mem_addMissing, or_iff_right_iff_imp]
  intro hx
  obtain ⟨lhs, hx⟩ := (mem_of_mem_reach hx).resolve_left List.not_mem_nil
  exact mentions_of_children hx

/-- The canonical order repeats no nonterminal. -/
theorem nodup_order : (order space rules).Nodup :=
  nodup_addMissing (nodup_reach _ List.nodup_nil)

/-- The start category and the nonterminals that some rules mention. -/
def vocabulary (space : RuleSpace) (rules : List Rule) : Set Category :=
  {c | c = space.start ∨ c ∈ mentions space rules}

/-- A renaming goes through the canonical order, if it is injective on the vocabulary and takes the children
of each category, and the mentioned nonterminals that are not reached, to those of the other rules. -/
theorem order_map {f : Category → Category} (hf : Set.InjOn f (vocabulary space rules))
    (hstart : f space.start = space.start)
    (hchildren : ∀ c ∈ vocabulary space rules,
      children space rules' (f c) = (children space rules c).map f)
    (hstray : (mentions space rules').filter (· ∉ (reached space rules).map f) =
      ((mentions space rules).filter (· ∉ reached space rules)).map f) :
    order space rules' = (order space rules).map f := by
  have hreached : reached space rules' = (reached space rules).map f := by
    have hmap := reach_map hf (fun _ _ _ hx => .inr (mentions_of_children hx)) hchildren
      (space.nonterminals.length + 1) (List.forall_mem_nil _)
      (List.forall_mem_singleton.mpr (.inl rfl))
    rwa [List.map_singleton, hstart] at hmap
  have hdrop (known new : List Category) :
      addMissing known (new.filter (· ∉ known)) = addMissing known new :=
    addMissing_filter fun y _ hy => by simpa using hy
  rw [order_eq, order_eq, hreached, ← hdrop, hstray, ← hdrop (reached space rules)]
  refine addMissing_map (hf.mono fun x hx => .inr ?_)
  rcases hx with hx | hx
  · exact mem_order.mp (mem_addMissing.mpr (.inl hx))
  · exact (List.mem_filter.mp hx).1

/-! Renaming into canonical order -/

/-- The first category that is renamed is compared first. -/
theorem renameInOrder_cons (y : Category) (name : String) :
    renameInOrder (x :: old) (y :: new) name =
      if x.name = name then y.name else renameInOrder old new name := by
  simp only [renameInOrder, List.zip_cons_cons, List.find?_cons]
  split_ifs with hname <;> simp [hname]

/-- A name that is not renamed stays. -/
theorem renameInOrder_of_ne {name : String} (hname : ∀ x ∈ old, x.name ≠ name) :
    renameInOrder old new name = name := by
  induction old generalizing new with
  | nil => rfl
  | cons x rest ih =>
    obtain ⟨hx, hrest⟩ := List.forall_mem_cons.mp hname
    cases new with
    | nil => rfl
    | cons y new => rw [renameInOrder_cons, if_neg hx, ih hrest]

/-- A renamed category gets the name at its place. -/
theorem exists_renameInOrder (hx : x ∈ old) (hlength : old.length ≤ new.length) :
    ∃ (i : Nat) (y z : Category), old[i]? = some y ∧ y.name = x.name ∧ new[i]? = some z ∧
      renameInOrder old new x.name = z.name := by
  induction old generalizing new with
  | nil => exact absurd hx List.not_mem_nil
  | cons y rest ih =>
    cases new with
    | nil => exact absurd hlength (by simp)
    | cons z new =>
      rw [renameInOrder_cons]
      split_ifs with hname
      · exact ⟨0, y, z, rfl, hname, rfl, rfl⟩
      · have hrest : x ∈ rest := (List.mem_cons.mp hx).resolve_left fun heq => hname (heq ▸ rfl)
        obtain ⟨i, hi⟩ := ih hrest (Nat.le_of_succ_le_succ hlength)
        exact ⟨i + 1, hi⟩

/-- A name stays or becomes the name of a new category. -/
theorem renameInOrder_eq_or (name : String) :
    renameInOrder old new name = name ∨ ∃ z ∈ new, renameInOrder old new name = z.name := by
  induction old generalizing new with
  | nil => exact .inl rfl
  | cons x rest ih =>
    cases new with
    | nil => exact .inl rfl
    | cons z new =>
      rw [renameInOrder_cons]
      split_ifs
      · exact .inr ⟨z, List.mem_cons_self, rfl⟩
      · exact ih.imp_right fun ⟨y, hy, heq⟩ => ⟨y, List.mem_cons_of_mem _ hy, heq⟩

/-- Renaming the old categories beforehand changes nothing, if it keeps their names apart. -/
theorem renameInOrder_map (hapart : ∀ y ∈ old, names y.name = names x.name → y.name = x.name)
    (hx : x ∈ old) (hlength : old.length ≤ new.length) :
    renameInOrder (old.map (·.renamed names)) new (names x.name) = renameInOrder old new x.name := by
  induction old generalizing new with
  | nil => exact absurd hx List.not_mem_nil
  | cons y rest ih =>
    cases new with
    | nil => exact absurd hlength (by simp)
    | cons z new =>
      obtain ⟨hy, hrest⟩ := List.forall_mem_cons.mp hapart
      have hname : (y.renamed names).name = names x.name ↔ y.name = x.name :=
        ⟨hy, congrArg names⟩
      rw [List.map_cons, renameInOrder_cons, renameInOrder_cons]
      simp only [hname]
      split_ifs with heq
      · rfl
      · have hmem : x ∈ rest := (List.mem_cons.mp hx).resolve_left fun h => heq (h ▸ rfl)
        exact ih hrest hmem (Nat.le_of_succ_le_succ hlength)

/-! Canonical names -/

/-- The renaming of the mentioned nonterminals into canonical order. -/
def canonicalNames (space : RuleSpace) (rules : List Rule) : String → String :=
  renameInOrder (order space rules) space.nonterminals

section Canonical

variable (hspace : space.Regular)
include hspace

/-- What rules mention are nonterminals. -/
theorem mentions_subset : mentions space rules ⊆ space.nonterminals := by
  intro x hx
  obtain ⟨r, hr, hx⟩ := List.mem_flatMap.mp hx
  exact hspace.mem_nonterminals_of_mentions hx

/-- A category of the vocabulary is its name. -/
theorem bare_of_mem_vocabulary (hx : x ∈ vocabulary space rules) : x = .bare x.name := by
  rcases hx with rfl | hx
  · exact hspace.start
  · exact hspace.bare_of_mem (mentions_subset hspace hx)

/-- There are names for all mentioned nonterminals. -/
theorem length_order_le : (order space rules).length ≤ space.nonterminals.length :=
  nodup_order.length_le_of_subset fun _ hx => mentions_subset hspace (mem_order.mp hx)

/-- The renaming into canonical order takes nonterminals to nonterminals. -/
theorem renames_canonicalNames : space.Renames (canonicalNames space rules) where
  nonterminal x hx := by
    have hname : canonicalNames space rules x.name = x.name ∨
        ∃ z ∈ space.nonterminals, canonicalNames space rules x.name = z.name :=
      renameInOrder_eq_or x.name
    rw [hspace.renamed_of_mem hx]
    rcases hname with heq | ⟨z, hz, heq⟩
    · rw [heq, ← hspace.bare_of_mem hx]
      exact hx
    · rw [heq, ← hspace.bare_of_mem hz]
      exact hz
  other name hname := by
    refine renameInOrder_of_ne fun x hx heq => hname ?_
    have hmem := mentions_subset hspace (mem_order.mp hx)
    rw [← heq, ← hspace.bare_of_mem hmem]
    exact hmem

/-- A mentioned nonterminal gets the name of the nonterminal at its place in the order. -/
theorem exists_canonicalNames (hx : x ∈ mentions space rules) :
    ∃ (i : Nat) (z : Category), (order space rules)[i]? = some x ∧
      space.nonterminals[i]? = some z ∧ canonicalNames space rules x.name = z.name := by
  obtain ⟨i, y, z, hy, hname, hz, heq⟩ :=
    exists_renameInOrder (mem_order.mpr hx) (length_order_le hspace)
  have hmem : y ∈ mentions space rules := mem_order.mp (List.mem_of_getElem? hy)
  have hyx : y = x :=
    hspace.eq_of_name_eq (mentions_subset hspace hmem) (mentions_subset hspace hx) hname
  exact ⟨i, z, hyx ▸ hy, hz, heq⟩

/-- The renaming into canonical order keeps the start category and the mentioned nonterminals apart. -/
theorem injOn_canonicalNames :
    Set.InjOn (·.renamed (canonicalNames space rules)) (vocabulary space rules) := by
  have hstart : canonicalNames space rules space.start.name = space.start.name :=
    (renames_canonicalNames hspace).other _ fun hmem => hspace.start_not_mem (hspace.start ▸ hmem)
  have hapart (y : Category) (hy : y ∈ mentions space rules) :
      canonicalNames space rules y.name ≠ space.start.name := by
    obtain ⟨i, z, -, hz, heq⟩ := exists_canonicalNames hspace hy
    have hmem : z ∈ space.nonterminals := List.mem_of_getElem? hz
    rw [heq]
    intro hname
    rw [hspace.bare_of_mem hmem, hname, ← hspace.start] at hmem
    exact hspace.start_not_mem hmem
  intro x hx y hy heq
  have hnames : canonicalNames space rules x.name = canonicalNames space rules y.name :=
    congrArg Category.name heq
  -- the start keeps its name, which no canonical name is, and the others get places of their own
  rcases hx with rfl | hx <;> rcases hy with rfl | hy
  · rfl
  · exact absurd (hnames.symm.trans hstart) (hapart y hy)
  · exact absurd (hnames.trans hstart) (hapart x hx)
  · obtain ⟨i, z, hxi, hzi, hxz⟩ := exists_canonicalNames hspace hx
    obtain ⟨j, w, hyj, hwj, hyw⟩ := exists_canonicalNames hspace hy
    have hzw : z = w := hspace.eq_of_name_eq (List.mem_of_getElem? hzi) (List.mem_of_getElem? hwj)
      (hxz.symm.trans (hnames.trans hyw))
    have hij : i = j := (List.getElem?_inj (List.getElem?_eq_some_iff.mp hzi).1 hspace.nodup).mp
      (hzi.trans (hzw ▸ hwj.symm))
    exact Option.some.inj (hxi.symm.trans (hij ▸ hyj))

end Canonical

end IndexedGrammar.Hypothesis
