import TreeNotation.Forest.Basic

/-!
# Trees

The part of a forest below one node, unfolded into a tree whose nodes carry their numbers and
labels.

- `Forest.subtree?` unfolds a node; it gives nothing for a node that is not in the forest.

A forest keeps every node below at most one other, so no way down is longer than the number of
nodes, and that number bounds the depth to which a node is unfolded.
-/

namespace TreeNotation

/-- A node with its number, its label and the trees below it. -/
inductive Tree (α : Type) where
  | node (id : NodeId) (label : α) (children : List (Tree α))
  deriving Repr

namespace Tree

variable {α : Type}

/-- The number of the topmost node. -/
def id : Tree α → NodeId
  | .node id _ _ => id

/-- The label of the topmost node. -/
def label : Tree α → α
  | .node _ label _ => label

/-- The trees below the topmost node. -/
def children : Tree α → List (Tree α)
  | .node _ _ children => children

end Tree

namespace Forest

variable {α : Type}

/-- The tree below the node with number `id`, unfolded to at most `depth` levels; nothing if a
node is missing or a level is left over. -/
def unfold (f : Forest α) : Nat → NodeId → Option (Tree α)
  | 0, _ => none
  | depth + 1, id => do
    let node ← f.node? id
    let children ← node.children.mapM (f.unfold depth)
    return .node id node.label children

/-- The tree below the node with number `id`. -/
def subtree? (f : Forest α) (id : NodeId) : Option (Tree α) := f.unfold f.size id

end Forest

end TreeNotation
