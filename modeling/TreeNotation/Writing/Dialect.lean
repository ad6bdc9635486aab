import TreeNotation.Forest.Tree
import TreeNotation.Token.Ledger
import TreeNotation.Writing.Layout

/-!
# Dialects

Every format of documents is written in a dialect of one notation: the text of a node, the text of
its first child directly after it if that is plain text, and the group of its other children after
the descend operator. A dialect says which nodes are left out, which count as plain text, how a
single node is written, and which nodes with a group are put in parentheses.

- `Dialect.render` writes a tree;
- `Dialect.build` writes the tree below a node of a forest;
- `Dialect.convert` writes a whole forest, and `Dialect.convertWith` from the first name on.
-/

namespace TreeNotation.Writing

open Token (Rendering)

/-- How the nodes of one format are written. `α` are the labels of its nodes and `κ` the keys of
the texts in whose place names are written. -/
structure Dialect (α κ : Type) where
  layout : Layout
  /-- Whether a node is left out together with everything below it. -/
  skips : α → Bool
  /-- Whether a node that comes first below another is written directly after that one's text. -/
  inlines : α → Bool
  /-- The text of a node by itself. -/
  own : NodeId → α → Rendering κ String
  /-- Whether a node with a group of children is put in parentheses. -/
  encloses : NodeId → Bool

namespace Dialect

variable {α κ : Type}

/-- A node together with what is written directly after it and the group below it. -/
def assemble (d : Dialect α κ) (id : NodeId) (level : Nat) (own lead group : String) : String :=
  let body := own ++ lead ++ group
  d.layout.margin level ++
    if !group.isEmpty && d.encloses id then "(" ++ body ++ ")" else body

mutual

/-- A tree at a level; the empty text if its topmost node is left out. -/
def render (d : Dialect α κ) (level : Nat) : Tree α → Rendering κ String
  | .node id label children =>
    if d.skips label then pure ""
    else do
      let own ← d.own id label
      let (lead, parts) ← d.renderBelow (level + 1) children
      return d.assemble id level own lead (d.layout.group parts)

/-- The trees below a node at a level: the text written directly after the node, and the others one
by one. A first child that is plain text is written without the trees below it. -/
def renderBelow (d : Dialect α κ) (level : Nat) : List (Tree α) → Rendering κ (String × List String)
  | [] => pure ("", [])
  | first :: rest =>
    if d.inlines first.label then do
      -- Neither a margin nor parentheses: the text belongs to the node above.
      let lead ← d.own first.id first.label
      let parts ← d.renderEach level rest
      return (lead, parts)
    else do
      let part ← d.render level first
      let parts ← d.renderEach level rest
      return ("", part :: parts)

/-- Trees of one level one by one. -/
def renderEach (d : Dialect α κ) (level : Nat) : List (Tree α) → Rendering κ (List String)
  | [] => pure []
  | first :: rest => do
    let part ← d.render level first
    let parts ← d.renderEach level rest
    return part :: parts

end

/-- The tree below the node with number `id`, at a level. -/
def build (d : Dialect α κ) (f : Forest α) (id : NodeId) (level : Nat) : Rendering κ String :=
  match f.subtree? id with
  | some tree => d.render level tree
  | none => throw (.structural id .absent)

/-- The trees of a forest side by side, in document order. -/
def convert (d : Dialect α κ) (f : Forest α) : Rendering κ String := do
  let parts ← f.rootIds.mapM fun id => d.build f id 0
  return d.layout.join parts

end Dialect

/-- A notation together with the tables of the names in it. -/
structure Conversion (μ : Type) where
  /-- The notation. -/
  text : String
  /-- The texts under the names that stand in for them. -/
  tables : μ

/-- The trees of a forest, written with the names of a supply. -/
def Dialect.convertWith {α κ μ : Type} (d : Dialect α κ) (tables : Token.Ledger κ → μ)
    (a : Token.Supply) (f : Forest α) : Except Error (Conversion μ) :=
  match d.convert f (Token.Ledger.ofSupply a) with
  | .ok text ledger => .ok ⟨text, tables ledger⟩
  | .error e _ => .error e

end TreeNotation.Writing
