/-
  SvgComponent.Markup.Tree — a document read as a tree: what hangs below a node, with the nodes' numbers.

  `Document.tree` is where links become data; everything that walks a document downwards is recursion on the
  tree. `tree_eq` is its one equation: a node, its content, and the trees of its children in order.
-/

import SvgComponent.Markup.Document

namespace SvgComponent.Markup

inductive Tree where
  | node (id : Nat) (content : Content) (children : List Tree)

namespace Tree

def id : Tree → Nat
  | node i _ _ => i

def content : Tree → Content
  | node _ c _ => c

def children : Tree → List Tree
  | node _ _ ts => ts

def element? (t : Tree) : Option Element := t.content.element?

mutual

/-- The tree and all trees below, each before what is below it. -/
def subtrees : Tree → List Tree
  | node i c ts => node i c ts :: subtreesOf ts

def subtreesOf : List Tree → List Tree
  | [] => []
  | t :: ts => subtrees t ++ subtreesOf ts

end

/-- The numbers of the node and all below, in document order. -/
def ids (t : Tree) : List Nat := t.subtrees.map id

/-- The subtrees that are elements, in document order. -/
def elements (t : Tree) : List Tree := t.subtrees.filter (·.content.isElement)

/-- All text and CDATA, joined. -/
def textContent (t : Tree) : String := String.join (t.subtrees.map (·.content.characters))

end Tree

namespace Document

def tree (d : Document) (i : Nat) : Tree :=
  .node i (d.content i) ((d.children i).attach.map fun c => d.tree c.1)
termination_by d.size - i
decreasing_by
  have := d.linked.lt_of_mem_children c.2
  have := d.linked.mem_children_lt_size c.2
  omega

theorem tree_eq (d : Document) (i : Nat) : d.tree i = .node i (d.content i) ((d.children i).map d.tree) := by
  rw [tree, List.attach_map_val (l := d.children i) (f := d.tree)]

def root (d : Document) : Tree := d.tree 0

def rootElement? (d : Document) : Option Element := d.element? 0

/-- The node and all below, in document order. -/
def descendants (d : Document) (i : Nat) : List Nat := (d.tree i).ids

/-- The attached elements, in document order. -/
def elementIds (d : Document) : List Nat := d.root.elements.map Tree.id

def textContent (d : Document) (i : Nat) : String := (d.tree i).textContent

end Document

end SvgComponent.Markup
