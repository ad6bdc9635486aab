/-!
# Layouts

The notation of a forest is written on one line, or over several lines with one node on each.

- `Layout.margin` is what stands before a node, `Layout.sibling` between two nodes of one level,
  `Layout.descend` between a node and the nodes below it;
- `Layout.join` and `Layout.group` put rendered nodes together and leave out the empty ones.
-/

namespace TreeNotation.Writing

/-- Where line breaks and indentation go. -/
inductive Layout where
  /-- Everything on one line. -/
  | line
  /-- A line for each node, indented by `width` spaces per level. -/
  | indented (width : Nat)
  deriving Repr, DecidableEq

namespace Layout

/-- The operator between two nodes of one level. -/
def sibling : Layout → String
  | .line => "+"
  | .indented _ => "+\n"

/-- The operator between a node and the nodes below it. -/
def descend : Layout → String
  | .line => ">"
  | .indented _ => ">\n"

/-- The spaces before a node at a level. -/
def margin : Layout → Nat → String
  | .line, _ => ""
  | .indented width, level => String.ofList (List.replicate (width * level) ' ')

/-- Rendered nodes of one level side by side. A node that renders as nothing leaves no trace. -/
def join (layout : Layout) (parts : List String) : String :=
  layout.sibling.intercalate (parts.filter fun part => !part.isEmpty)

/-- The rendered nodes below a node after the operator that leads down to them; nothing if all of
them render as nothing. -/
def group (layout : Layout) (parts : List String) : String :=
  if parts.all String.isEmpty then "" else layout.descend ++ layout.join parts

end Layout

end TreeNotation.Writing
