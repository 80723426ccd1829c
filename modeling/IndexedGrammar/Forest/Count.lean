import IndexedGrammar.Counts
import IndexedGrammar.Forest.Basic

/-!
# Counting the trees of a forest

The trees at a node are counted from those at its parts: ways of making it up add, and parts
multiply. Counts of trees up to a height are worked out for all nodes at once, one height after the
other, until they no longer change. A count of all trees meets every node once; a node that is met
again below itself counts for nothing there.
-/

namespace IndexedGrammar.Forest

/-- For every node, how many trees one level taller there are, given how many there are. -/
def tallerCounts (f : Forest) (counts : Array Nat) : Array Nat :=
  f.nodes.map fun node =>
    match node.kind with
    | .branch alternatives => cappedSum (alternatives.map fun packed =>
        cappedProduct (packed.children.map fun child => counts.getD child 0))
    | _ => 1

/-- For every node, how many trees of height 0 there are. -/
def flatCounts (f : Forest) : Array Nat :=
  f.nodes.map fun node =>
    match node.kind with
    | .branch _ => 0
    | _ => 1

/-- Counts at greater heights, until they no longer change. -/
def growCounts (f : Forest) : Nat → Array Nat → Array Nat
  | 0, counts => counts
  | depth + 1, counts =>
    let taller := f.tallerCounts counts
    if taller = counts then counts else growCounts f depth taller

/-- For every node, how many trees no taller than a height there are. -/
def countsWithin (f : Forest) (depth : Nat) : Array Nat :=
  f.growCounts depth f.flatCounts

/-- How many trees of whole sentences are no taller than a height. -/
def treeCountWithin (f : Forest) (depth : Nat) : Nat :=
  let counts := f.countsWithin depth
  cappedSum (f.roots.map fun root => counts.getD root 0)

/-- How many trees no taller than a height there are, by the length of the sentence. -/
def countsByLength (f : Forest) (depth : Nat) : Counts :=
  let counts := f.countsWithin depth
  f.roots.foldl (fun byLength root =>
    match f.node? root with
    | none => byLength
    | some node =>
      let n := counts.getD root 0
      if 0 < n then byLength.add (node.site.stop - node.site.start) n else byLength) ∅

/-- The counts known so far, and the nodes that are being counted. -/
structure Tally where
  known : Std.ExtTreeMap Nat Nat
  pending : Std.ExtTreeSet Nat

/-- Counts the trees at a node. Nodes being counted are all different, so the number of nodes
bounds the depth. -/
def tallyNode (f : Forest) : Nat → Nat → Tally → Nat × Tally
  | 0, _, tally => (0, tally)
  | depth + 1, id, tally =>
    match tally.known[id]? with
    | some n => (n, tally)
    | none =>
      if tally.pending.contains id then (0, tally)
      else
        let tally := { tally with pending := tally.pending.insert id }
        let (n, tally) := match f.node? id with
          | some ⟨_, .branch alternatives⟩ =>
            alternatives.foldl (fun (sum, tally) (packed : Packed) =>
              let (product, tally) := packed.children.foldl (fun (product, tally) child =>
                let (n, tally) := tallyNode f depth child tally
                (cappedMul product n, tally)) (1, tally)
              (cappedAdd sum product, tally)) (0, tally)
          | _ => (1, tally)
        (n, ⟨tally.known.insert id n, tally.pending.erase id⟩)

/-- How many trees of whole sentences there are. -/
def treeCount (f : Forest) : Nat :=
  (f.roots.foldl (fun (sum, tally) root =>
    let (n, tally) := f.tallyNode (f.size + 1) root tally
    (cappedAdd sum n, tally)) (0, (⟨∅, ∅⟩ : Tally))).1

end IndexedGrammar.Forest
