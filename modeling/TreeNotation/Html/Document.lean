import TreeNotation.Forest.Basic
import TreeNotation.Text.Lowercase
import TreeNotation.Writing.Attribute

/-!
# HTML Documents

Forests of elements and texts. Beside its place in the forest a node knows the siblings next to it
and how many elements are attached to it.

- `Document.addElement`, `Document.addRootElement`, `Document.addText` create nodes;
- `Document.attachment` attaches a node and brings the sibling links and element counts up to date,
  and `Document.attach` is what that comes to;
- `Document.siblingCount` is the number of elements beside a node.
-/

namespace TreeNotation.Html

open Writing (Attributes)

/-- What a node is. -/
inductive Content where
  /-- An element with its tag in lower case. -/
  | element (tag : String) (attributes : Attributes)
  /-- A text without blanks at its ends. -/
  | text (payload : String)

namespace Content

/-- Whether a node is a text. -/
def isText : Content → Bool
  | .text _ => true
  | .element .. => false

/-- The tag of an element; a text answers with a word of its own. -/
def tag : Content → String
  | .text _ => "#text"
  | .element tag _ => tag

/-- The attributes of a node. -/
def attributes : Content → Attributes
  | .text _ => OrderedMap.empty
  | .element _ attributes => attributes

/-- The text of a node that is one. -/
def text? : Content → Option String
  | .text payload => some payload
  | .element .. => none

/-- A node for the eye. -/
def describe : Content → String
  | .text payload => "\"" ++ payload ++ "\""
  | .element tag attributes => Writing.describeElement tag attributes

end Content

/-- What a node of the forest holds. -/
structure Entry where
  content : Content
  /-- The child before it below the same parent. -/
  previous : Option NodeId
  /-- The child after it below the same parent. -/
  next : Option NodeId
  /-- How many of its children are elements. -/
  elementChildren : Nat

namespace Entry

/-- A node that is not attached to anything. -/
def ofContent (content : Content) : Entry := ⟨content, none, none, 0⟩

/-- Whether there is another child beside the node. -/
def hasSiblings (entry : Entry) : Bool := entry.previous.isSome || entry.next.isSome

end Entry

/-- The nodes of HTML documents. -/
abbrev Document := Forest Entry

/-- The nodes of a list with their neighbours; `previous` comes before the list. -/
def neighbours (previous : Option NodeId) :
    List NodeId → List (NodeId × Option NodeId × Option NodeId)
  | [] => []
  | id :: rest => (id, previous, rest.head?) :: neighbours (some id) rest

namespace Document

/-! ## Creating nodes -/

/-- The content of an element with the given tag. -/
def elementContent (tag : String) (attributes : Attributes) : Content :=
  .element (Text.lower tag) attributes

/-- Creates an element. -/
def addElement (doc : Document) (tag : String) (attributes : Attributes) : NodeId × Document :=
  doc.push (.ofContent (elementContent tag attributes))

/-- Creates an element and registers it as a root. -/
def addRootElement (doc : Document) (tag : String) (attributes : Attributes) : NodeId × Document :=
  doc.pushRoot (.ofContent (elementContent tag attributes))

/-- Creates a text. -/
def addText (doc : Document) (text : String) : NodeId × Document :=
  doc.push (.ofContent (.text (Text.trim text)))

/-! ## Siblings -/

/-- Changes what the node with number `id` holds. -/
def modifyEntry (doc : Document) (id : NodeId) (change : Entry → Entry) : Document :=
  doc.modify id fun node => { node with label := change node.label }

/-- Whether there is an element with number `id`. -/
def isElement (doc : Document) (id : NodeId) : Bool :=
  (doc.label? id).any fun entry => !entry.content.isText

/-- Sets the links of one child to its neighbours. -/
def link (doc : Document) (place : NodeId × Option NodeId × Option NodeId) : Document :=
  doc.modifyEntry place.1 fun entry =>
    { entry with previous := place.2.1, next := place.2.2 }

/-- Brings the sibling links of the children of `parent` and its element count up to date. -/
def relink (doc : Document) (parent : NodeId) : Document :=
  let children := doc.children parent
  let linked := (neighbours none children).foldl link doc
  linked.modifyEntry parent fun entry =>
    { entry with elementChildren := children.countP doc.isElement }

/-- Attaches `child` as the last child of `parent`, as in any forest, and brings the sibling links
and element counts up to date. -/
def attachment (child parent : NodeId) : Attempt Document Unit := do
  if let some old := ← Forest.attachment child parent then
    modify fun doc => relink doc old
  modify fun doc => relink doc parent

/-- The document in which `child` has been attached below `parent`. -/
def attach (doc : Document) (child parent : NodeId) : Except Error Document :=
  ((attachment child parent).outcome doc).map Prod.snd

/-- The number of elements beside the node with number `id`, zero if it has no parent. -/
def siblingCount (doc : Document) (id : NodeId) : Nat :=
  match doc.label? id, (doc.parent? id).bind doc.label? with
  | some entry, some parent =>
    -- An element is among the elements that its parent counts.
    parent.elementChildren - if entry.content.isText then 0 else 1
  | _, _ => 0

end Document

end TreeNotation.Html
