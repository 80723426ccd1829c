import IndexedGrammar.Proofs.Forest.Tally

/-!
# Counting up to a height, node by node

Trees up to a height can also be counted from a node down, where the counts of nodes at heights that were needed are
kept. A node that is not a branch is one tree at any height, and a branch is none at height 0; a product that has
become 0 is not multiplied any further. This gives the same numbers as counting for all nodes at once, one height
after the other.
-/

namespace IndexedGrammar.Forest

/-- By the node, then by the height. -/
def compareAtHeight : Nat × Nat → Nat × Nat → Ordering :=
  compareLex (compareOn Prod.fst) (compareOn Prod.snd)

instance : Std.TransCmp compareAtHeight :=
  inferInstanceAs (Std.TransCmp (compareLex (compareOn Prod.fst) (compareOn Prod.snd)))

instance : Std.LawfulEqCmp compareAtHeight where
  eq_of_compare {a b} h := by
    have h : compareLex (compareOn Prod.fst) (compareOn Prod.snd) a b = .eq := h
    rw [compareLex_eq_eq] at h
    obtain ⟨hnode, hheight⟩ := h
    simp only [compareOn] at hnode hheight
    exact Prod.ext (Std.LawfulEqOrd.eq_of_compare hnode) (Std.LawfulEqOrd.eq_of_compare hheight)

/-- The counts kept so far, for nodes at heights. -/
abbrev Kept := Std.ExtTreeMap (Nat × Nat) Nat compareAtHeight

/-- Multiplies the counts of several nodes, unless the product has become 0. -/
def multiply (count : Nat → Kept → Nat × Kept) (children : List Nat) (start : Nat × Kept) : Nat × Kept :=
  children.foldl (fun sofar child =>
    if sofar.1 = 0 then (0, sofar.2)
    else (cappedMul sofar.1 (count child sofar.2).1, (count child sofar.2).2)) start

/-- Counts the trees at a node no taller than a height. -/
def countAt (f : Forest) : Nat → Nat → Kept → Nat × Kept
  | height, id, kept =>
    match f.node? id with
    | none => (0, kept)
    | some ⟨_, .branch alternatives⟩ =>
      match height with
      | 0 => (0, kept)
      | below + 1 =>
        match kept[(id, below + 1)]? with
        | some n => (n, kept)
        | none =>
          let (n, kept) := Tally.fold (fun packed kept => multiply (countAt f below) packed.children (1, kept))
            cappedAdd alternatives (0, kept)
          (n, kept.insert (id, below + 1) n)
    | some _ => (1, kept)

variable {f : Forest} {height id : Nat} {kept : Kept}

/-! Counts for all nodes at once -/

/-- What is counted at once for a node that there is not. -/
theorem countsWithin_none (hnode : f.node? id = none) : (f.countsWithin height).getD id 0 = 0 := by
  have hsize : f.nodes.size ≤ id := Array.getElem?_eq_none_iff.mp hnode
  rw [countsWithin, growCounts_eq, Array.getD_eq_getD_getElem?]
  cases height with
  | zero => rw [Function.iterate_zero_apply, flatCounts, Array.getElem?_map, Array.getElem?_eq_none hsize]; rfl
  | succ height =>
    rw [Function.iterate_succ_apply', tallerCounts, Array.getElem?_map, Array.getElem?_eq_none hsize]
    rfl

/-- A node that is no branch is one tree at any height. -/
theorem countsWithin_flat {node : Node} (hnode : f.node? id = some node)
    (hkind : ∀ alternatives, node.kind ≠ .branch alternatives) : (f.countsWithin height).getD id 0 = 1 := by
  have hnode : f.nodes[id]? = some node := hnode
  rw [countsWithin, growCounts_eq, Array.getD_eq_getD_getElem?]
  cases height with
  | zero =>
    rw [Function.iterate_zero_apply, flatCounts, Array.getElem?_map, hnode]
    cases hkind' : node.kind with
    | branch alternatives => exact absurd hkind' (hkind alternatives)
    | _ => simp [hkind']
  | succ height =>
    rw [Function.iterate_succ_apply', tallerCounts, Array.getElem?_map, hnode]
    cases hkind' : node.kind with
    | branch alternatives => exact absurd hkind' (hkind alternatives)
    | _ => simp [hkind']

/-- A branch is no tree of height 0. -/
theorem countsWithin_branch_zero {site : Site} {alternatives : List Packed}
    (hnode : f.node? id = some ⟨site, .branch alternatives⟩) : (f.countsWithin 0).getD id 0 = 0 := by
  have hnode : f.nodes[id]? = _ := hnode
  rw [countsWithin, growCounts_eq, Array.getD_eq_getD_getElem?, Function.iterate_zero_apply, flatCounts,
    Array.getElem?_map, hnode]
  rfl

/-- The trees at a branch are counted from those one level lower at the children. -/
theorem countsWithin_branch_succ {site : Site} {alternatives : List Packed}
    (hnode : f.node? id = some ⟨site, .branch alternatives⟩) : (f.countsWithin (height + 1)).getD id 0 =
      cappedSum (alternatives.map fun packed =>
        cappedProduct (packed.children.map fun child => (f.countsWithin height).getD child 0)) := by
  have hnode : f.nodes[id]? = _ := hnode
  rw [countsWithin, countsWithin, growCounts_eq, growCounts_eq, Array.getD_eq_getD_getElem?,
    Function.iterate_succ_apply', tallerCounts, Array.getElem?_map, hnode]
  rfl

/-! Counts from a node down -/

/-- If counting each of several nodes gives a number and something keeps holding, the numbers are multiplied. -/
theorem multiply_gives {holds : Kept → Prop} {count : Nat → Kept → Nat × Kept} {value : Nat → Nat}
    (h : ∀ id kept, holds kept → Tally.Gives holds (value id) (count id kept)) {children : List Nat} {n : Nat}
    (hkept : holds kept) :
    Tally.Gives holds ((children.map value).foldl cappedMul n) (multiply count children (n, kept)) := by
  induction children generalizing n kept with
  | nil => exact ⟨rfl, hkept⟩
  | cons child children ih =>
    rw [List.map_cons, List.foldl_cons, multiply, List.foldl_cons]
    split
    · next hzero =>
      obtain rfl : n = 0 := hzero
      have hzero : cappedMul 0 (value child) = 0 := by simp [cappedMul, capped]
      rw [hzero]
      exact ih hkept
    · have hfirst := h child kept hkept
      rw [← hfirst.value]
      exact ih hfirst.tally

/-- What is kept are the counts for all nodes at once. -/
def Kept.Right (f : Forest) (kept : Kept) : Prop :=
  ∀ id height n, kept[(id, height)]? = some n → n = (f.countsWithin height).getD id 0

/-- Keeping a count that is right. -/
theorem Kept.Right.insert (h : kept.Right f) (id height : Nat) :
    Kept.Right f (kept.insert (id, height) ((f.countsWithin height).getD id 0)) := by
  intro other height' n hn
  rw [Std.ExtTreeMap.getElem?_insert] at hn
  split at hn
  · next heq =>
    obtain ⟨rfl, rfl⟩ := Prod.mk.inj (Std.LawfulEqCmp.eq_of_compare heq)
    exact (Option.some.inj hn).symm
  · exact h other height' n hn

section Equations

variable {site : Site} {alternatives : List Packed}

/-- A count that was kept is not made again. -/
theorem countAt_kept {n : Nat} (hnode : f.node? id = some ⟨site, .branch alternatives⟩)
    (hkept : kept[(id, height + 1)]? = some n) : f.countAt (height + 1) id kept = (n, kept) := by
  rw [countAt.eq_def]
  simp only [hnode, hkept]

/-- A branch is counted by adding over the ways and multiplying over the children, and the count is kept. -/
theorem countAt_branch (hnode : f.node? id = some ⟨site, .branch alternatives⟩)
    (hkept : kept[(id, height + 1)]? = none) : f.countAt (height + 1) id kept =
      let counted := Tally.fold (fun packed kept => multiply (f.countAt height) packed.children (1, kept))
        cappedAdd alternatives (0, kept)
      (counted.1, counted.2.insert (id, height + 1) counted.1) := by
  rw [countAt.eq_def]
  simp only [hnode, hkept]

/-- A branch is not counted at height 0. -/
theorem countAt_branch_zero (hnode : f.node? id = some ⟨site, .branch alternatives⟩) :
    f.countAt 0 id kept = (0, kept) := by
  rw [countAt.eq_def]
  simp only [hnode]

/-- A node that is no branch is not counted from others. -/
theorem countAt_flat {node : Node} (hnode : f.node? id = some node)
    (hkind : ∀ alternatives, node.kind ≠ .branch alternatives) : f.countAt height id kept = (1, kept) := by
  obtain ⟨site, kind⟩ := node
  rw [countAt.eq_def]
  cases kind with
  | branch alternatives => exact absurd rfl (hkind alternatives)
  | _ => simp only [hnode]

/-- There is nothing to count where there is no node. -/
theorem countAt_none (hnode : f.node? id = none) : f.countAt height id kept = (0, kept) := by
  rw [countAt.eq_def]
  simp only [hnode]

end Equations

/-- What is no branch is counted alike from a node down and for all nodes at once. -/
theorem countAt_gives_other (hkept : kept.Right f)
    (hother : ∀ site alternatives, f.node? id ≠ some ⟨site, .branch alternatives⟩) :
    Tally.Gives (Kept.Right f) ((f.countsWithin height).getD id 0) (f.countAt height id kept) := by
  cases hnode : f.node? id with
  | none => exact countAt_none hnode ▸ ⟨(countsWithin_none hnode).symm, hkept⟩
  | some node =>
    have hkind (alternatives : List Packed) : node.kind ≠ .branch alternatives := fun hkind =>
      hother node.site alternatives (hkind ▸ hnode)
    exact countAt_flat hnode hkind ▸ ⟨(countsWithin_flat hnode hkind).symm, hkept⟩

/-- Counting from a node down gives the number that is counted for all nodes at once. -/
theorem countAt_gives (f : Forest) (height id : Nat) (hkept : kept.Right f) :
    Tally.Gives (Kept.Right f) ((f.countsWithin height).getD id 0) (f.countAt height id kept) := by
  induction height generalizing id kept with
  | zero =>
    by_cases hbranch : ∃ site alternatives, f.node? id = some ⟨site, .branch alternatives⟩
    · obtain ⟨site, alternatives, hnode⟩ := hbranch
      exact countAt_branch_zero hnode ▸ ⟨(countsWithin_branch_zero hnode).symm, hkept⟩
    · exact countAt_gives_other hkept fun site alternatives hnode => hbranch ⟨site, alternatives, hnode⟩
  | succ height ih =>
    by_cases hbranch : ∃ site alternatives, f.node? id = some ⟨site, .branch alternatives⟩
    · obtain ⟨site, alternatives, hnode⟩ := hbranch
      cases hknown : kept[(id, height + 1)]? with
      | some n => exact countAt_kept hnode hknown ▸ ⟨hkept id (height + 1) n hknown, hkept⟩
      | none =>
        -- the ways are added up, and for each way the counts of its children are multiplied
        have hcounted : Tally.Gives (Kept.Right f) ((f.countsWithin (height + 1)).getD id 0)
            (Tally.fold (fun packed kept => multiply (f.countAt height) packed.children (1, kept)) cappedAdd
              alternatives (0, kept)) := by
          rw [countsWithin_branch_succ hnode]
          exact Tally.fold_gives (fun packed _ kept hkept => multiply_gives (fun id kept => ih id) hkept) hkept
        have hinsert := hcounted.tally.insert id (height + 1)
        rw [← hcounted.value] at hinsert
        exact countAt_branch hnode hknown ▸ ⟨hcounted.value, hinsert⟩
    · exact countAt_gives_other hkept fun site alternatives hnode => hbranch ⟨site, alternatives, hnode⟩

/-- Nothing kept is right. -/
theorem Kept.right_empty : Kept.Right f ∅ := fun _ _ _ h => by simp at h

/-- The trees of whole sentences up to a height are counted from the roots down, with one store of counts. -/
theorem treeCountWithin_eq_fold (f : Forest) (height : Nat) :
    f.treeCountWithin height = (Tally.fold (f.countAt height) cappedAdd f.roots (0, ∅)).1 :=
  (Tally.fold_gives (fun root _ _ hkept => f.countAt_gives height root hkept) Kept.right_empty).value.symm

/-- Adds the trees at a root to those of the same length, with the counts that were kept. -/
def addRoot (f : Forest) (height : Nat) (sofar : Counts × Kept) (root : Nat) : Counts × Kept :=
  let (n, kept) := f.countAt height root sofar.2
  match f.node? root with
  | none => (sofar.1, kept)
  | some node => (if 0 < n then sofar.1.add (node.site.stop - node.site.start) n else sofar.1, kept)

/-- Trees of whole sentences are counted by length from the roots down, with one store of counts. -/
theorem countsByLength_eq_foldl (f : Forest) (height : Nat) :
    f.countsByLength height = (f.roots.foldl (f.addRoot height) (∅, ∅)).1 := by
  have hstep (counts : Counts) {kept : Kept} (hkept : kept.Right f) (root : Nat) :
      (f.addRoot height (counts, kept) root).1 = (match f.node? root with
        | none => counts
        | some node =>
          let n := (f.countsWithin height).getD root 0
          if 0 < n then counts.add (node.site.stop - node.site.start) n else counts) ∧
      (f.addRoot height (counts, kept) root).2.Right f := by
    obtain ⟨hvalue, hright⟩ := f.countAt_gives height root hkept
    unfold addRoot
    rw [← hvalue]
    cases f.node? root with
    | none => exact ⟨rfl, hright⟩
    | some node => exact ⟨rfl, hright⟩
  have hfold (counts : Counts) {kept : Kept} (hkept : kept.Right f) (roots : List Nat) :
      (roots.foldl (f.addRoot height) (counts, kept)).1 = roots.foldl (fun counts root =>
        match f.node? root with
        | none => counts
        | some node =>
          let n := (f.countsWithin height).getD root 0
          if 0 < n then counts.add (node.site.stop - node.site.start) n else counts) counts := by
    induction roots generalizing counts kept with
    | nil => rfl
    | cons root roots ih =>
      obtain ⟨hcounts, hright⟩ := hstep counts hkept root
      rw [List.foldl_cons, List.foldl_cons, ← hcounts]
      exact ih _ hright
  exact (hfold ∅ Kept.right_empty f.roots).symm

end IndexedGrammar.Forest
