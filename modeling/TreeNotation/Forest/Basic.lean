import TreeNotation.Attempt

/-!
# Forests of Numbered Nodes

A forest is grown one node at a time. A node keeps the number it was created with for good; it
may be registered as a root, attached below another node, and moved below a third.

- `Forest.push`, `Forest.pushRoot` create a node;
- `Forest.registration` registers a node without a parent as a root;
- `Forest.attachment` makes a node the last child of another, unless it lies above that one.

Registering and attaching are attempts, which write the forest step by step; `Forest.markRoot` and
`Forest.attach` are what they come to for a caller who passes the forest on.
-/

namespace TreeNotation

/-- A node with its place in the forest. -/
structure Node (α : Type) where
  /-- What the node holds. -/
  label : α
  /-- The node it is attached to. -/
  parent : Option NodeId
  /-- The nodes attached to it, in document order. -/
  children : List NodeId
  /-- Which node of the forest it was to be created, counted from one. -/
  sequence : Nat
  deriving Repr, DecidableEq

namespace Node

variable {α : Type}

/-- The node without `child` among its children. -/
def dropChild (child : NodeId) (node : Node α) : Node α :=
  { node with children := node.children.filter fun id => id ≠ child }

/-- The node with `child` as its last child, unless it is one of its children already. -/
def addChild (child : NodeId) (node : Node α) : Node α :=
  if child ∈ node.children then node else { node with children := node.children ++ [child] }

end Node

/-- Numbered nodes, some of them registered as roots. -/
structure Forest (α : Type) where
  /-- The nodes by number. -/
  nodes : Array (Node α)
  /-- The registered roots in order of registration. -/
  roots : List NodeId
  /-- How many nodes have been created. -/
  created : Nat
  deriving Repr, DecidableEq

namespace Forest

variable {α : Type}

/-- The forest without nodes. -/
def empty : Forest α := ⟨#[], [], 0⟩

instance : Inhabited (Forest α) := ⟨empty⟩

/-! ## Reading a forest -/

/-- Number of nodes. -/
def size (f : Forest α) : Nat := f.nodes.size

/-- The node with number `id`. -/
def node? (f : Forest α) (id : NodeId) : Option (Node α) := f.nodes[id]?

/-- The node with number `id`, or the complaint that there is none. -/
def require (f : Forest α) (id : NodeId) : Except Error (Node α) :=
  match f.node? id with
  | some node => .ok node
  | none => .error (.structural id .absent)

/-- The label of the node with number `id`. -/
def label? (f : Forest α) (id : NodeId) : Option α := (f.node? id).map Node.label

/-- The node that the node with number `id` is attached to. -/
def parent? (f : Forest α) (id : NodeId) : Option NodeId := (f.node? id).bind Node.parent

/-- The nodes attached to the node with number `id`, none if there is no such node. -/
def children (f : Forest α) (id : NodeId) : List NodeId :=
  (f.node? id).elim [] Node.children

/-- The creation count of the node with number `id`. -/
def sequence (f : Forest α) (id : NodeId) : Nat := (f.node? id).elim 0 Node.sequence

/-- The registered roots in order of creation. -/
def rootIds (f : Forest α) : List NodeId :=
  f.roots.mergeSort fun a b => decide (f.sequence a ≤ f.sequence b)

/-- Whether `ancestor` is met on the way from `id` along the parents, within `steps` nodes. -/
def meets (f : Forest α) (ancestor : NodeId) : Nat → NodeId → Bool
  | 0, _ => false
  | steps + 1, id =>
    if id = ancestor then true
    else match f.parent? id with
      | some parent => f.meets ancestor steps parent
      | none => false

/-- Whether `ancestor` is the node `id` or lies above it. A way along the parents that repeats no
node visits at most all of them, and one more step may lead out of the forest. -/
def isAncestorOrSelf (f : Forest α) (ancestor id : NodeId) : Bool :=
  f.meets ancestor (f.size + 1) id

/-! ## Growing a forest -/

/-- Creates a node and answers with its number. -/
def push (f : Forest α) (label : α) : NodeId × Forest α :=
  (f.size,
    { f with
      nodes := f.nodes.push ⟨label, none, [], f.created + 1⟩
      created := f.created + 1 })

/-- Creates a node, registers it as a root and answers with its number. -/
def pushRoot (f : Forest α) (label : α) : NodeId × Forest α :=
  let (id, f) := f.push label
  (id, { f with roots := f.roots ++ [id] })

/-- Changes the node with number `id`, if there is one. -/
def modify (f : Forest α) (id : NodeId) (change : Node α → Node α) : Forest α :=
  { f with nodes := f.nodes.modify id change }

/-- Looks the node with number `id` up in the forest as it is. -/
def lookUp (id : NodeId) : Attempt (Forest α) (Node α) := do
  liftExcept ((← get).require id)

/-- Registers a node without a parent as a root; a root stays registered where it is. -/
def registration (id : NodeId) : Attempt (Forest α) Unit := do
  let node ← lookUp id
  if node.parent.isSome then throw (.structural id .parentedRoot)
  modifyThe (Forest α) fun f =>
    if id ∈ f.roots then f else { f with roots := f.roots ++ [id] }

/-- Attaches `child` as the last child of `parent`, answering with the parent it was taken from,
if it had another one. It is no root any more. A node that is already a child of `parent` keeps
its place. Refused if a node is missing, or if `child` is `parent` or lies above it. -/
def attachment (child parent : NodeId) : Attempt (Forest α) (Option NodeId) := do
  let _ ← lookUp parent
  let node ← lookUp child
  if (← get).isAncestorOrSelf child parent then throw (.structural child (.cycle parent))
  modifyThe (Forest α) fun f => { f with roots := f.roots.filter fun id => id ≠ child }
  -- The parent that the node leaves, none if it stays where it is.
  let left := node.parent.filter fun old => old ≠ parent
  if let some old := left then
    modifyThe (Forest α) fun f => f.modify old (Node.dropChild child)
  modifyThe (Forest α) fun f => f.modify child fun node => { node with parent := some parent }
  modifyThe (Forest α) fun f => f.modify parent (Node.addChild child)
  return left

/-- The forest in which a node has been registered as a root. -/
def markRoot (f : Forest α) (id : NodeId) : Except Error (Forest α) :=
  ((registration id).outcome f).map Prod.snd

/-- The forest in which `child` has been attached below `parent`, with the parent it has left. -/
def attach (f : Forest α) (child parent : NodeId) : Except Error (Option NodeId × Forest α) :=
  (attachment child parent).outcome f

end Forest

end TreeNotation
