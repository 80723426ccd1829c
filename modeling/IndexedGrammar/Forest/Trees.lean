import IndexedGrammar.Choices
import IndexedGrammar.Forest.Basic
import IndexedGrammar.Tree

/-!
# The trees of a forest

A tree takes one way of making up every node. Empty parts do not show, and no tree goes through a
node below itself.
-/

namespace IndexedGrammar.Forest

/-- The trees at a node that do not go through the nodes above it. These are all different, so the
number of nodes bounds the depth. -/
def treesAt (f : Forest) : Nat → List Nat → Nat → List (Tree Category String)
  | 0, _, _ => []
  | depth + 1, above, id =>
    match f.node? id with
    | none => []
    | some node =>
      let span : Span := ⟨node.site.start, node.site.stop⟩
      match node.kind with
      | .empty => []
      | .leaf word => [.leaf (word.getD node.site.category.text) span]
      | .branch alternatives =>
        if id ∈ above then []
        else alternatives.flatMap fun packed =>
          let parts := (packed.children.filter fun child => !f.isEmptyNode child).map
            (treesAt f depth (id :: above))
          if parts.isEmpty then [.branch node.site.category span []]
          else (combinations parts).map (.branch node.site.category span)

/-- The trees of whole sentences. -/
def trees (f : Forest) : List (Tree Category String) :=
  f.roots.flatMap (f.treesAt (f.size + 1) [])

end IndexedGrammar.Forest
