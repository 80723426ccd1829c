import IndexedGrammar.Grammar.UnitCycle
import Mathlib.Algebra.Order.BigOperators.Group.List
import Mathlib.Algebra.Order.Group.Nat
import Mathlib.Logic.Relation

/-!
# The search for unit cycles

While the search follows a path, the categories on it are open, each leads to the next one, and every other step
from it leads to a category that is done or is still to be tried. A category that is done leads only to others
that were done before it, so these can be ranked. So the search stops at a step that closes a cycle, or it ranks
every category from which steps lead, and then there is no cycle.
-/

namespace IndexedGrammar

namespace UnitGraph

variable {graph : UnitGraph} {marks : Marks} {a b c : Category}

/-- A search is done with a category. -/
def Done (marks : Marks) (c : Category) : Prop :=
  marks[c]? = some .done

/-- A unit step leads from one category to another. -/
def Leads (graph : UnitGraph) (a b : Category) : Prop :=
  b ∈ graph.targets a

/-- The categories that are done lead only to others, which come lower in a ranking. -/
def RanksDone (graph : UnitGraph) (marks : Marks) : Prop :=
  ∃ rank : Category → Nat, ∀ a b, Done marks a → graph.Leads a b → Done marks b ∧ rank b < rank a

/-- A path that was followed up to a category, or one that is still being searched, the end first: each category
leads to the next one and to those still to be tried, and its other steps lead to categories that are done. -/
inductive Follows (graph : UnitGraph) (done : Category → Prop) :
    Option Category → List (Category × List Category) → Prop
  | nil (next : Option Category) : Follows graph done next []
  | cons {next : Option Category} {c : Category} {untried : List Category}
      {path : List (Category × List Category)} :
      (∀ b, b ∈ untried ∨ b ∈ next → graph.Leads c b) →
      (∀ b, graph.Leads c b → b ∈ untried ∨ b ∈ next ∨ done b) →
      Follows graph done (some c) path → Follows graph done next ((c, untried) :: path)

/-- What holds while a path is searched. -/
structure Searching (graph : UnitGraph) (marks : Marks) (path : List (Category × List Category)) : Prop where
  ranks : graph.RanksDone marks
  follows : graph.Follows (Done marks) none path
  opened_iff : ∀ c, marks[c]? = some .opened ↔ c ∈ path.map Prod.fst
  nodup : (path.map Prod.fst).Nodup

/-- What holds between paths: every category that was met is done. -/
structure Searched (graph : UnitGraph) (marks : Marks) : Prop where
  ranks : graph.RanksDone marks
  isDone : ∀ c ∈ marks, Done marks c

/-! Marks -/

/-- The mark of a category after one was marked. -/
theorem getElem?_mark (marks : Marks) (c : Category) (mark : Mark) (b : Category) :
    (marks.insert c mark)[b]? = if b = c then some mark else marks[b]? := by
  simp only [Std.ExtTreeMap.getElem?_insert, Std.compare_eq_iff_eq, eq_comm (a := c)]

/-- Being done with a category that was not done keeps the ranking. -/
theorem RanksDone.finish (h : graph.RanksDone marks) (hc : ¬Done marks c)
    (htargets : ∀ b, graph.Leads c b → Done marks b) : graph.RanksDone (marks.insert c .done) := by
  obtain ⟨rank, hrank⟩ := h
  have hdone {b : Category} : Done (marks.insert c .done) b ↔ b = c ∨ Done marks b := by
    unfold Done
    rw [getElem?_mark]
    split <;> simp_all
  have hlow {b : Category} (hb : graph.Leads c b) : rank b ≤ ((graph.targets c).map rank).sum :=
    List.le_sum_of_mem (List.mem_map_of_mem hb)
  -- what is done does not lead to this category, so its rank can be set above those of its targets
  refine ⟨fun b => if b = c then ((graph.targets c).map rank).sum + 1 else rank b, fun a b ha hab => ?_⟩
  rcases hdone.mp ha with rfl | ha
  · have hb := htargets b hab
    have hne : b ≠ a := fun heq => hc (heq ▸ hb)
    refine ⟨hdone.mpr (.inr hb), ?_⟩
    beta_reduce
    rw [if_neg hne, if_pos rfl]
    exact Nat.lt_succ_of_le (hlow hab)
  · obtain ⟨hb, hlt⟩ := hrank a b ha hab
    refine ⟨hdone.mpr (.inr hb), ?_⟩
    beta_reduce
    rwa [if_neg fun heq : b = c => hc (heq ▸ hb), if_neg fun heq : a = c => hc (heq ▸ ha)]

/-- Opening a category that was not met changes nothing of what is done. -/
theorem isDone_open (hc : marks[c]? = none) : Done (marks.insert c .opened) b ↔ Done marks b := by
  unfold Done
  rw [getElem?_mark]
  split
  · next heq =>
    subst heq
    simp [hc]
  · exact Iff.rfl

/-- Opening a category that was not met keeps the ranking. -/
theorem RanksDone.open (h : graph.RanksDone marks) (hc : marks[c]? = none) :
    graph.RanksDone (marks.insert c .opened) := by
  obtain ⟨rank, hrank⟩ := h
  refine ⟨rank, fun a b ha hab => ?_⟩
  obtain ⟨hb, hlt⟩ := hrank a b ((isDone_open hc).mp ha) hab
  exact ⟨(isDone_open hc).mpr hb, hlt⟩

/-! Paths -/

variable {done done' : Category → Prop} {next : Option Category} {path : List (Category × List Category)}
  {untried : List Category}

/-- A path with more that is done. -/
theorem Follows.mono (h : graph.Follows done next path) (hdone : ∀ b, done b → done' b) :
    graph.Follows done' next path := by
  induction h with
  | nil next => exact .nil next
  | cons hleads htried _ ih => exact .cons hleads (fun b hb => (htried b hb).imp_right (.imp_right (hdone b))) ih

/-- A path is searched on from its end when what it leads to is done. -/
theorem Follows.finish (h : graph.Follows done (some c) path) (hc : done c) : graph.Follows done none path := by
  cases h with
  | nil => exact .nil none
  | cons hleads htried hpath =>
    refine .cons (fun b hb => hleads b (hb.imp_right fun hnone => absurd hnone (Option.not_mem_none b)))
      (fun b hb => ?_) hpath
    rcases htried b hb with huntried | hnext | hdone
    · exact .inl huntried
    · exact .inr (.inr (Option.mem_some.mp hnext ▸ hc))
    · exact .inr (.inr hdone)

/-- The categories on a path lead to its end. -/
theorem Follows.leadsTo (h : graph.Follows done (some c) path) (ha : a ∈ path.map Prod.fst) :
    Relation.TransGen graph.Leads a c := by
  induction path generalizing c with
  | nil => exact absurd ha List.not_mem_nil
  | cons frame path ih =>
    cases h with
    | cons hleads _ hpath =>
      have hlast := hleads c (.inr rfl)
      rcases List.mem_cons.mp ha with rfl | ha
      · exact .single hlast
      · exact (ih hpath ha).tail hlast

/-! The search -/

/-- A search that is done with the end of its path goes on from the category before it. -/
theorem Searching.finish (h : Searching graph marks ((c, []) :: path)) :
    Searching graph (marks.insert c .done) path := by
  have hopened : marks[c]? = some .opened := (h.opened_iff c).mpr List.mem_cons_self
  have hnotDone : ¬Done marks c := fun hdone => by simp [Done, hopened] at hdone
  obtain ⟨hfresh, hnodup⟩ := List.nodup_cons.mp h.nodup
  cases h.follows with
  | cons hleads htried hpath =>
    have htargets (b : Category) (hb : graph.Leads c b) : Done marks b := by
      simpa using htried b hb
    refine ⟨h.ranks.finish hnotDone htargets, (hpath.mono fun b hb => ?_).finish ?_, fun b => ?_, hnodup⟩
    · unfold Done at hb ⊢
      rw [getElem?_mark]
      split
      · rfl
      · exact hb
    · exact (getElem?_mark ..).trans (if_pos rfl)
    · rw [getElem?_mark]
      split
      · next heq => exact iff_of_false (by simp) (heq ▸ hfresh)
      · next hne => rw [h.opened_iff b, List.map_cons, List.mem_cons, or_iff_right hne]

/-- A step to a category that is done was tried. -/
theorem Searching.skip (h : Searching graph marks ((c, b :: untried) :: path)) (hb : Done marks b) :
    Searching graph marks ((c, untried) :: path) := by
  refine ⟨h.ranks, ?_, h.opened_iff, h.nodup⟩
  cases h.follows with
  | cons hleads htried hpath =>
    refine .cons (fun d hd => hleads d (hd.imp_left (List.mem_cons_of_mem b))) (fun d hd => ?_) hpath
    rcases htried d hd with huntried | hother
    · rcases List.mem_cons.mp huntried with rfl | huntried
      · exact .inr (.inr hb)
      · exact .inl huntried
    · exact .inr hother

/-- A step to a category that was not met is followed. -/
theorem Searching.descend (h : Searching graph marks ((c, b :: untried) :: path)) (hb : marks[b]? = none) :
    Searching graph (marks.insert b .opened) ((b, graph.targets b) :: (c, untried) :: path) := by
  have hfresh : b ∉ ((c, untried) :: path).map Prod.fst := fun hmem => by
    simpa [hb] using (h.opened_iff b).mpr hmem
  refine ⟨h.ranks.open hb, ?_, fun d => ?_, List.nodup_cons.mpr ⟨hfresh, h.nodup⟩⟩
  · cases h.follows with
    | cons hleads htried hpath =>
      have hdone (d : Category) : Done marks d → Done (marks.insert b .opened) d := (isDone_open hb).mpr
      refine .cons (fun d hd => hd.resolve_right (Option.not_mem_none d)) (fun d hd => .inl hd) (.cons (fun d hd => ?_) (fun d hd => ?_)
        (hpath.mono hdone))
      · refine hleads d (.inl ?_)
        rcases hd with hd | hd
        · exact List.mem_cons_of_mem b hd
        · exact Option.mem_some.mp hd ▸ List.mem_cons_self
      · rcases htried d hd with huntried | hnone | hd
        · rcases List.mem_cons.mp huntried with rfl | huntried
          · exact .inr (.inl rfl)
          · exact .inl huntried
        · exact absurd hnone (Option.not_mem_none d)
        · exact .inr (.inr (hdone d hd))
  · rw [getElem?_mark, List.map_cons, List.mem_cons]
    split
    · next heq => exact iff_of_true rfl (.inl heq)
    · next hne => rw [h.opened_iff d, or_iff_right hne]; rfl

/-- A step to an open category closes a cycle. -/
theorem Searching.closes (h : Searching graph marks ((c, b :: untried) :: path)) (hb : marks[b]? = some .opened) :
    ∃ a, Relation.TransGen graph.Leads a a := by
  cases h.follows with
  | cons hleads htried hpath =>
    have hlast := hleads b (.inl List.mem_cons_self)
    rcases List.mem_cons.mp ((h.opened_iff b).mp hb) with heq | hmem
    · exact ⟨b, .single (heq ▸ hlast)⟩
    · exact ⟨b, (hpath.leadsTo hmem).tail hlast⟩

/-- A search of a path ends with everything done that was met, or with a cycle. -/
theorem Searching.search (h : Searching graph marks path) :
    (∃ marks', graph.search marks path = some marks' ∧ graph.Searched marks' ∧ ∀ c ∈ marks, c ∈ marks') ∨
      graph.search marks path = none ∧ ∃ a, Relation.TransGen graph.Leads a a := by
  fun_induction UnitGraph.search graph marks path with
  | case1 marks =>
    refine .inl ⟨marks, rfl, ⟨h.ranks, fun c hc => ?_⟩, fun _ => id⟩
    obtain ⟨mark, hmark⟩ := Std.ExtTreeMap.mem_iff_isSome_getElem?.mp hc |> Option.isSome_iff_exists.mp
    cases mark with
    | opened => exact absurd ((h.opened_iff c).mp hmark) List.not_mem_nil
    | done => exact hmark
  | case2 marks c path ih =>
    refine (ih h.finish).imp_left ?_
    rintro ⟨marks', hsearch, hsearched, hmet⟩
    exact ⟨marks', hsearch, hsearched, fun b hb => hmet b (Std.ExtTreeMap.mem_insert.mpr (.inr hb))⟩
  | case3 marks c target rest path hopened => exact .inr ⟨rfl, h.closes hopened⟩
  | case4 marks c target rest path hdone ih => exact ih (h.skip hdone)
  | case5 marks c target rest path hnone ih =>
    refine (ih (h.descend hnone)).imp_left ?_
    rintro ⟨marks', hsearch, hsearched, hmet⟩
    exact ⟨marks', hsearch, hsearched, fun b hb => hmet b (Std.ExtTreeMap.mem_insert.mpr (.inr hb))⟩

/-- A search from a category ends with it done, or with a cycle. -/
theorem Searched.visit (h : graph.Searched marks) (c : Category) :
    (∃ marks', graph.visit marks c = some marks' ∧ graph.Searched marks' ∧ c ∈ marks' ∧ ∀ b ∈ marks, b ∈ marks') ∨
      graph.visit marks c = none ∧ ∃ a, Relation.TransGen graph.Leads a a := by
  unfold UnitGraph.visit
  split
  · next hmet => exact .inl ⟨marks, rfl, h, Std.ExtTreeMap.contains_iff_mem.mp hmet, fun _ => id⟩
  · next hunmet =>
    have hnone : marks[c]? = none :=
      Std.ExtTreeMap.getElem?_eq_none fun hmem => hunmet (Std.ExtTreeMap.contains_iff_mem.mpr hmem)
    have hsearching : Searching graph (marks.insert c .opened) [(c, graph.targets c)] := by
      refine ⟨h.ranks.open hnone, .cons (fun b hb => hb.resolve_right (Option.not_mem_none b))
        (fun b hb => .inl hb) (.nil _), fun b => ?_, List.pairwise_singleton _ c⟩
      rw [getElem?_mark, List.map_singleton, List.mem_singleton]
      split
      · next heq => exact iff_of_true rfl heq
      · next hne =>
        refine iff_of_false (fun hopened => ?_) hne
        have hdone := h.isDone b (Std.ExtTreeMap.mem_iff_isSome_getElem?.mpr (by rw [hopened]; rfl))
        simp [Done, hopened] at hdone
    refine hsearching.search.imp_left ?_
    rintro ⟨marks', hsearch, hsearched, hmet⟩
    exact ⟨marks', hsearch, hsearched, hmet c Std.ExtTreeMap.mem_insert_self,
      fun b hb => hmet b (Std.ExtTreeMap.mem_insert.mpr (.inr hb))⟩

/-- Searches from categories end with all of them done, or with a cycle. -/
theorem Searched.visits (h : graph.Searched marks) (roots : List Category) :
    (∃ marks', roots.foldlM graph.visit marks = some marks' ∧ graph.Searched marks' ∧
        (∀ c ∈ roots, c ∈ marks') ∧ ∀ b ∈ marks, b ∈ marks') ∨
      roots.foldlM graph.visit marks = none ∧ ∃ a, Relation.TransGen graph.Leads a a := by
  induction roots generalizing marks with
  | nil => exact .inl ⟨marks, rfl, h, fun c hc => absurd hc List.not_mem_nil, fun _ => id⟩
  | cons root roots ih =>
    rw [List.foldlM_cons]
    rcases h.visit root with ⟨met, hvisit, hmet, hroot, hkept⟩ | ⟨hvisit, hcycle⟩
    · rw [hvisit]
      refine (ih hmet).imp_left ?_
      rintro ⟨marks', hvisits, hsearched, hroots, hall⟩
      exact ⟨marks', hvisits, hsearched, List.forall_mem_cons.mpr ⟨hall root hroot, hroots⟩,
        fun b hb => hall b (hkept b hb)⟩
    · rw [hvisit]
      exact .inr ⟨rfl, hcycle⟩

/-- Nothing was met at first. -/
theorem searched_empty (graph : UnitGraph) : graph.Searched ∅ :=
  ⟨⟨fun _ => 0, fun a b ha _ => by simp [Done] at ha⟩,
    fun c hc => absurd hc Std.ExtTreeMap.not_mem_empty⟩

/-- If no cycle is found, all steps lead to lower ranks. -/
theorem exists_rank_of_hasCycle (h : graph.hasCycle = false) :
    ∃ rank : Category → Nat, ∀ a b, graph.Leads a b → rank b < rank a := by
  rcases graph.searched_empty.visits graph.keys with ⟨marks, -, hsearched, hkeys, -⟩ | ⟨hnone, -⟩
  · obtain ⟨rank, hrank⟩ := hsearched.ranks
    refine ⟨rank, fun a b hab => (hrank a b (hsearched.isDone a (hkeys a ?_)) hab).2⟩
    refine Std.ExtTreeMap.mem_keys.mpr (Classical.byContradiction fun hnot => ?_)
    rw [Leads, targets, Std.ExtTreeMap.getD_eq_fallback hnot] at hab
    exact List.not_mem_nil hab
  · rw [hasCycle, hnone] at h
    contradiction

/-- A cycle is found exactly if some category leads to itself. -/
theorem hasCycle_iff : graph.hasCycle = true ↔ ∃ a, Relation.TransGen graph.Leads a a := by
  refine ⟨fun h => ?_, fun ⟨a, ha⟩ => ?_⟩
  · rcases graph.searched_empty.visits graph.keys with ⟨marks, hvisits, -⟩ | ⟨-, hcycle⟩
    · rw [hasCycle, hvisits] at h
      contradiction
    · exact hcycle
  · by_contra hnone
    obtain ⟨rank, hrank⟩ := exists_rank_of_hasCycle (Bool.not_eq_true _ ▸ hnone)
    have hlower {b : Category} (hab : Relation.TransGen graph.Leads a b) : rank b < rank a := by
      induction hab with
      | single hstep => exact hrank _ _ hstep
      | tail _ hstep ih => exact (hrank _ _ hstep).trans ih
    exact Nat.lt_irrefl _ (hlower ha)

end UnitGraph

end IndexedGrammar
