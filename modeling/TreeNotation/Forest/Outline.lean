import TreeNotation.Forest.Basic

/-!
# Outlines

The listing of a forest for the eye: one line per node below a root, in document order, indented
by its depth.

- `Forest.walk` goes through the nodes with the stack of the nodes still to be listed;
- `Forest.outline` writes a line for each.
-/

namespace TreeNotation

namespace Forest

variable {α : Type}

/-- The nodes on and below the stack with their depths, topmost first and each before the nodes
below it, at most `steps` of them. -/
def walk (f : Forest α) : Nat → List (NodeId × Nat) → List (NodeId × Nat)
  | 0, _ => []
  | _ + 1, [] => []
  | steps + 1, (id, depth) :: stack =>
    (id, depth) :: f.walk steps ((f.children id).map (fun child => (child, depth + 1)) ++ stack)

/-- The nodes below the roots with their depths, in document order. Every node is listed at most
once, so there are no more of them than nodes in the forest. -/
def listing (f : Forest α) : List (NodeId × Nat) :=
  f.walk f.size (f.rootIds.map fun id => (id, 0))

/-- The description of the node with number `id`, empty if there is no such node. -/
def describe (f : Forest α) (text : α → String) (id : NodeId) : String :=
  (f.label? id).elim "" text

/-- One line of an outline: two spaces per level, the number of the node and its description. -/
def outlineLine (f : Forest α) (text : α → String) (entry : NodeId × Nat) : String :=
  String.ofList (List.replicate (2 * entry.2) ' ') ++ "[" ++ entry.1.repr ++ "] " ++
    f.describe text entry.1 ++ "\n"

/-- The forest as an indented list, a line for each node below a root. -/
def outline (f : Forest α) (text : α → String) : String :=
  String.join (f.listing.map (f.outlineLine text))

end Forest

end TreeNotation
