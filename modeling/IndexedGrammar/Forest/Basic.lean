import IndexedGrammar.Forest.Site
import IndexedGrammar.Total

/-!
# Packed forests

A packed forest has one node for each site that takes part in a sentence, with every way of making
it up. However many trees share a node, it is stored once. Nodes are numbered in the order in which
a depth-first walk from the roots meets their sites.
-/

namespace IndexedGrammar

/-- One way of making up a node: the rule, the schema rule behind it, and one node for each
right-hand category. -/
structure Packed where
  rule : Nat
  origin : Option Nat
  children : List Nat
deriving DecidableEq

/-- What a node is made of. -/
inductive NodeKind where
  /-- A part of speech; the word is known in the forest of a sentence. -/
  | leaf (word : Option String)
  /-- Nothing. -/
  | empty
  /-- A nonterminal, with every way of making it up. -/
  | branch (alternatives : List Packed)
deriving DecidableEq

/-- A site that takes part in a sentence. -/
structure Node where
  site : Site
  kind : NodeKind
deriving DecidableEq

namespace Node

/-- The ways of making up a node. -/
def alternatives (node : Node) : List Packed :=
  match node.kind with
  | .branch alternatives => alternatives
  | _ => []

/-- Whether the node is a part of speech. -/
def isLeaf (node : Node) : Bool :=
  match node.kind with
  | .leaf _ => true
  | _ => false

/-- The word at a leaf. -/
def word? (node : Node) : Option String :=
  match node.kind with
  | .leaf word => word
  | _ => none

/-- Whether two nodes are for the same site, in whatever forests they are. -/
def sameSite (a b : Node) : Bool :=
  a.site = b.site

end Node

/-- Sites in the order in which they were met. -/
structure Discovery where
  sites : Array Site
  /-- The place of each site in that order. -/
  numbers : Std.ExtTreeMap Site Nat

namespace Discovery

/-- The discovery of no site. -/
def empty : Discovery := ⟨#[], ∅⟩

/-- Meets a site and, unless it was met before, everything below it. A chain of sites met for the
first time is no longer than there are sites, which bounds the depth. -/
def visit (below : Site → List Site) : Nat → Discovery → Site → Discovery
  | 0, found, _ => found
  | depth + 1, found, site =>
    if found.numbers.contains site then found
    else
      let found := ⟨found.sites.push site, found.numbers.insert site found.sites.size⟩
      (below site).foldl (visit below depth) found

end Discovery

/-- Nodes with the roots of whole sentences. -/
structure Forest where
  nodes : Array Node
  /-- The number of each node's site. -/
  numbers : Std.ExtTreeMap Site Nat
  roots : List Nat

namespace Forest

/-- How many derivations a chart holds, which bounds the number of sites that are met. -/
def derivationCount (c : Chart) : Nat :=
  total (fun state => state.derivations.length) c.states.toList

/-- The sites that take part in a sentence, in the order of the walk. -/
def discover (c : Chart) (g : Grammar) : Discovery :=
  let roots := c.rootSites g
  let depth := derivationCount c + roots.length + 1
  roots.foldl (Discovery.visit (c.sitesBelow g) depth) .empty

/-- What a site is made of, given the numbers of sites. -/
def kindOf (c : Chart) (g : Grammar) (number : Site → Nat) (site : Site) : NodeKind :=
  if site.category.isEpsilon then .empty
  else if g.isPartOfSpeech site.category then .leaf (c.word? site.start)
  else .branch ((c.waysOf g site).map fun (rule, origin, parts) =>
    ⟨rule, origin, parts.map number⟩)

/-- The forest of a chart. A chart without a sentence gives the forest without nodes. -/
def ofChart (c : Chart) (g : Grammar) : Forest :=
  let found := discover c g
  let number := fun site => found.numbers.getD site 0
  ⟨found.sites.map fun site => ⟨site, kindOf c g number site⟩, found.numbers,
    (c.rootSites g).map number⟩

/-- The forest of a chart whose states may be on rules that the grammar does not have. -/
def read (c : Chart) (g : Grammar) : Except Breach Forest :=
  if g.rootRule?.isNone then .error .indexOutOfBounds
  else
    let forest := ofChart c g
    if forest.nodes.any fun node => c.isUnreadable g node.site then .error .indexOutOfBounds
    else .ok forest

/-- A node by its number. -/
def node? (f : Forest) (id : Nat) : Option Node :=
  f.nodes[id]?

/-- The node of a category between two columns. -/
def find? (f : Forest) (category : Category) (start stop : Nat) : Option Nat :=
  f.numbers[(⟨category, start, stop⟩ : Site)]?

/-- The number of nodes. -/
def size (f : Forest) : Nat :=
  f.nodes.size

/-- Whether no sentence was found. -/
def isEmpty (f : Forest) : Bool :=
  f.roots.isEmpty

/-- Whether a node is for the empty category. -/
def isEmptyNode (f : Forest) (id : Nat) : Bool :=
  match f.node? id with
  | some node => node.kind = .empty
  | none => false

/-- The order in which nodes are shown: by stretch, then by category. -/
def displayOrder : Node → Node → Ordering :=
  compareLex (compareOn fun node => node.site.start)
    (compareLex (compareOn fun node => node.site.stop) (compareOn fun node => node.site.category))

/-- A site with its category first. -/
def siteText (site : Site) : String :=
  site.category.text ++ "[" ++ toString site.start ++ ".." ++ toString site.stop ++ "]"

/-- One way of making up a node, on a line of its own. -/
def packedText (f : Forest) (packed : Packed) : String :=
  "  r" ++ toString packed.rule ++ " =>" ++
    String.join (packed.children.filterMap fun child =>
      (f.node? child).map fun node => " " ++ siteText node.site) ++ "\n"

/-- The nodes in the order of their stretches, each followed by the ways of making it up. -/
def text (f : Forest) : String :=
  let ordered := f.nodes.toList.zipIdx.mergeSort fun a b => (displayOrder a.1 b.1).isLE
  String.join (ordered.map fun (node, id) =>
    toString node.site.start ++ ".." ++ toString node.site.stop ++ ": " ++
      node.site.category.text ++ (if id ∈ f.roots then " (root)" else "") ++ "\n" ++
      String.join (node.alternatives.map f.packedText))

end Forest

end IndexedGrammar
