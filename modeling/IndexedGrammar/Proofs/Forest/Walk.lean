import IndexedGrammar.Forest.Usage
import IndexedGrammar.Proofs.Forest.Shape

/-!
# Walking a forest

The ways of making up the nodes that can be reached from the roots can be collected on a walk with a stack of nodes
to be met: a node that was not met before gives its ways, and the children in them go on the stack. Since every node
of a forest is a root or below one, the walk meets each of them once, so it collects the ways that are stored.
-/

namespace IndexedGrammar.Forest

variable {g : Grammar} {f : Forest} {met : Std.ExtTreeSet Nat} {stack : List Nat} {id child : Nat}

/-- The ways of making up a node; none if there is no such node. -/
def waysAt (f : Forest) (id : Nat) : List Packed :=
  (f.node? id).elim [] Node.alternatives

/-- The children of a node, in all ways of making it up. -/
def childrenAt (f : Forest) (id : Nat) : List Nat :=
  (f.waysAt id).flatMap Packed.children

/-- Going through a list place by place. -/
theorem flatMap_range {α β : Type} (step : α → List β) (as : List α) :
    (List.range as.length).flatMap (fun n => (as[n]?).elim [] step) = as.flatMap step := by
  induction as with
  | nil => rfl
  | cons a as ih =>
    rw [List.length_cons, List.range_succ_eq_map, List.flatMap_cons, List.flatMap_map, List.flatMap_cons, ← ih]
    rfl

/-- Children are among the parts of ways. -/
theorem mem_childrenAt : child ∈ f.childrenAt id ↔ f.HasChild id child := by
  unfold childrenAt waysAt HasChild
  cases f.node? id <;> simp

/-- How many children the nodes that were not met have. -/
def unmetChildren (f : Forest) (met : Std.ExtTreeSet Nat) : Nat :=
  outstanding (fun n => n) (fun n => (f.childrenAt n).length) met (List.range f.size)

/-- A node that is met for the first time leaves fewer by its children. -/
theorem unmetChildren_insert (f : Forest) (hid : met.contains id = false) :
    f.unmetChildren (met.insert id) + (f.childrenAt id).length ≤ f.unmetChildren met := by
  by_cases hlt : id < f.size
  · exact outstanding_insert (List.mem_range.mpr hlt) hid
  · have hnone : f.node? id = none := Array.getElem?_eq_none (Nat.not_lt.mp hlt)
    have hchildren : f.childrenAt id = [] := by rw [childrenAt, waysAt, hnone, Option.elim_none, List.flatMap_nil]
    rw [hchildren]
    exact outstanding_insert_le id

/-- The nodes that are met for the first time on a walk that goes on with a stack of nodes. -/
def walk (f : Forest) (met : Std.ExtTreeSet Nat) : List Nat → List Nat
  | [] => []
  | id :: stack =>
    if met.contains id then walk f met stack
    else id :: walk f (met.insert id) ((f.childrenAt id).reverse ++ stack)
termination_by stack => f.unmetChildren met + stack.length
decreasing_by
  · exact Nat.lt_succ_self _
  · have := f.unmetChildren_insert (Bool.eq_false_iff.mpr ‹_›)
    simp
    omega

/-- The ways of making up the nodes that a walk from the roots meets. -/
def reachedWays (f : Forest) : List Packed :=
  (f.walk ∅ f.roots.reverse).flatMap f.waysAt

/-- What a walk meets for the first time was not met before, and is met once. -/
theorem nodup_walk (f : Forest) (met : Std.ExtTreeSet Nat) (stack : List Nat) :
    (f.walk met stack).Nodup ∧ ∀ id ∈ f.walk met stack, id ∉ met := by
  fun_induction walk f met stack with
  | case1 met => exact ⟨List.nodup_nil, fun _ h => absurd h List.not_mem_nil⟩
  | case2 met id stack _ ih => exact ih
  | case3 met id stack hid ih =>
    obtain ⟨hnodup, hnew⟩ := ih
    refine ⟨List.nodup_cons.mpr ⟨fun hmem => hnew id hmem Std.ExtTreeSet.mem_insert_self, hnodup⟩, ?_⟩
    refine List.forall_mem_cons.mpr ⟨fun hmem => hid (Std.ExtTreeSet.mem_iff_contains.mp hmem), ?_⟩
    exact fun other hother hmem => hnew other hother (Std.ExtTreeSet.mem_insert.mpr (.inr hmem))

/-- The children of the nodes that were met were met, too, or are on the stack. -/
def Stacked (f : Forest) (met : Std.ExtTreeSet Nat) (stack : List Nat) : Prop :=
  ∀ id ∈ met, ∀ child, f.HasChild id child → child ∈ met ∨ child ∈ stack

/-- A way down from a node that was met to one that was not goes through the stack. -/
theorem Stacked.exists_top (h : f.Stacked met stack) {lower : Nat} (hid : id ∈ met) (hlower : lower ∉ met)
    (hbelow : Relation.ReflTransGen f.HasChild id lower) :
    ∃ top ∈ stack, Relation.ReflTransGen f.HasChild top lower := by
  induction hbelow using Relation.ReflTransGen.head_induction_on with
  | refl => exact absurd hid hlower
  | head hchild hbelow ih =>
    rcases h _ hid _ hchild with hmet | hstack
    · exact ih hmet
    · exact ⟨_, hstack, hbelow⟩

/-- A node on the stack that was met before can be dropped. -/
theorem Stacked.drop (h : f.Stacked met (id :: stack)) (hid : id ∈ met) : f.Stacked met stack := by
  intro other hother child hchild
  rcases h other hother child hchild with hmet | hstack
  · exact .inl hmet
  · rcases List.mem_cons.mp hstack with rfl | hstack
    · exact .inl hid
    · exact .inr hstack

/-- A node is met, and its children go on the stack. -/
theorem Stacked.meet (h : f.Stacked met (id :: stack)) :
    f.Stacked (met.insert id) ((f.childrenAt id).reverse ++ stack) := by
  intro other hother child hchild
  rw [List.mem_append, List.mem_reverse, mem_childrenAt, Std.ExtTreeSet.mem_insert, Std.compare_eq_iff_eq]
  rcases Std.ExtTreeSet.mem_insert.mp hother with heq | hother
  · obtain rfl := Std.compare_eq_iff_eq.mp heq
    exact .inr (.inl hchild)
  · rcases h other hother child hchild with hmet | hstack
    · exact .inl (.inr hmet)
    · rcases List.mem_cons.mp hstack with rfl | hstack
      · exact .inl (.inl rfl)
      · exact .inr (.inr hstack)

/-- A walk meets what is below its stack, unless it was met before. -/
theorem Stacked.mem_walk (h : f.Stacked met stack) {lower : Nat} (hlower : lower ∉ met) :
    lower ∈ f.walk met stack ↔ ∃ top ∈ stack, Relation.ReflTransGen f.HasChild top lower := by
  fun_induction walk f met stack with
  | case1 met => simp
  | case2 met id stack hid ih =>
    have hid := Std.ExtTreeSet.mem_iff_contains.mpr hid
    rw [ih (h.drop hid) hlower]
    constructor
    · rintro ⟨top, htop, hbelow⟩
      exact ⟨top, List.mem_cons_of_mem _ htop, hbelow⟩
    · rintro ⟨top, htop, hbelow⟩
      rcases List.mem_cons.mp htop with rfl | htop
      · exact (h.drop hid).exists_top hid hlower hbelow
      · exact ⟨top, htop, hbelow⟩
  | case3 met id stack _ ih =>
    by_cases heq : lower = id
    · subst heq
      exact ⟨fun _ => ⟨lower, List.mem_cons_self, .refl⟩, fun _ => List.mem_cons_self⟩
    have hnew : lower ∉ met.insert id := by
      rw [Std.ExtTreeSet.mem_insert, Std.compare_eq_iff_eq]
      exact not_or.mpr ⟨fun hid => heq hid.symm, hlower⟩
    rw [List.mem_cons, or_iff_right heq, ih h.meet hnew]
    constructor
    · rintro ⟨top, htop, hbelow⟩
      rcases List.mem_append.mp htop with hchild | htop
      · exact ⟨id, List.mem_cons_self, .head (mem_childrenAt.mp (List.mem_reverse.mp hchild)) hbelow⟩
      · exact ⟨top, List.mem_cons_of_mem _ htop, hbelow⟩
    · rintro ⟨top, htop, hbelow⟩
      rcases List.mem_cons.mp htop with rfl | htop
      · obtain rfl | ⟨child, hchild, hbelow⟩ := hbelow.cases_head
        · exact absurd rfl heq
        · exact ⟨child, List.mem_append_left _ (List.mem_reverse.mpr (mem_childrenAt.mpr hchild)), hbelow⟩
      · exact ⟨top, List.mem_append_right _ htop, hbelow⟩

/-- A forest whose roots and children are nodes, and each of whose nodes is a root or below one. -/
structure Rooted (f : Forest) : Prop where
  root_lt_size : ∀ root ∈ f.roots, root < f.size
  child_lt_size : ∀ {id child}, f.HasChild id child → child < f.size
  below : ∀ id < f.size, ∃ root ∈ f.roots, Relation.ReflTransGen f.HasChild root id

/-- The forest of a grounded chart is rooted. -/
theorem rooted_ofChart {c : Chart} (hc : c.Grounded g) : (ofChart c g).Rooted where
  root_lt_size id hid := by
    obtain ⟨site, hsite, rfl⟩ := List.mem_map.mp hid
    exact siteNumber_lt_size hc.toTraced (hc.explores_discover.2 site hsite)
  child_lt_size hchild := by
    obtain ⟨site, hsite, -, -, rule, origin, parts, hway, part, hpart, rfl⟩ := hchild.exists_way hc.toTraced
    exact siteNumber_lt_size hc.toTraced (hsite.parts hc.toTraced hway hpart)
  below id hid := by
    obtain ⟨node, hnode⟩ : ∃ node, (ofChart c g).node? id = some node := ⟨_, Array.getElem?_eq_getElem hid⟩
    obtain ⟨site, hsite, rfl, -⟩ := exists_site_of_node? hc.toTraced hnode
    exact below_root hc hsite

namespace Rooted

variable (h : f.Rooted)
include h

/-- A walk from the roots meets each node once. -/
theorem walk_perm : (f.walk ∅ f.roots.reverse).Perm (List.range f.size) := by
  have hstacked : f.Stacked ∅ f.roots.reverse := fun id hid => absurd hid Std.ExtTreeSet.not_mem_empty
  refine (List.perm_ext_iff_of_nodup (f.nodup_walk ∅ _).1 List.nodup_range).mpr fun id => ?_
  rw [hstacked.mem_walk Std.ExtTreeSet.not_mem_empty, List.mem_range]
  simp only [List.mem_reverse]
  constructor
  · rintro ⟨root, hroot, hbelow⟩
    obtain rfl | ⟨parent, -, hchild⟩ := hbelow.cases_tail
    · exact h.root_lt_size _ hroot
    · exact h.child_lt_size hchild
  · exact h.below id

/-- A walk from the roots collects the ways that are stored. -/
theorem reachedWays_perm : f.reachedWays.Perm f.packed := by
  have hstored : (List.range f.size).flatMap f.waysAt = f.packed := by
    have hwaysAt : f.waysAt = fun n => (f.nodes.toList[n]?).elim [] Node.alternatives := by
      funext n
      rw [waysAt, node?, Array.getElem?_toList]
    rw [hwaysAt, packed, size, ← Array.length_toList]
    exact flatMap_range _ _
  exact hstored ▸ h.walk_perm.flatMap_right _

/-- The uses of rules that are counted on a walk from the roots are those of all nodes. -/
theorem ruleUsage_eq : f.ruleUsage = f.reachedWays.foldl (fun usage packed => usage.add packed.rule 1) ∅ :=
  h.reachedWays_perm.symm.foldl_eq' (fun _ _ _ _ usage => Usage.add_right_comm usage _ _ 1 1) ∅

/-- The uses of schema rules that are counted on a walk from the roots are those of all nodes. -/
theorem schemaUsage_eq : f.schemaUsage = f.reachedWays.foldl (fun usage packed =>
    match packed.origin with
    | some origin => usage.add origin 1
    | none => usage) ∅ := by
  refine h.reachedWays_perm.symm.foldl_eq' (fun a _ b _ usage => ?_) ∅
  cases a.origin with
  | none => rfl
  | some origin =>
    cases b.origin with
    | none => rfl
    | some other => exact Usage.add_right_comm usage _ _ 1 1

end Rooted

end IndexedGrammar.Forest
