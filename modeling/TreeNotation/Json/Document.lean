import TreeNotation.Forest.Basic
import TreeNotation.Json.Value

/-!
# JSON Documents

Forests of objects, arrays, properties and leaves. A property stands below its object with its
value as its only child; an item of an array knows its position.

- `Document.add` creates a node;
- `Document.attach` attaches a node;
- `Document.ofValue` is the forest of a value.
-/

namespace TreeNotation.Json

/-- What a leaf is declared to be. -/
inductive LeafType where
  | string
  | number
  | boolean
  | null
  deriving Repr, DecidableEq

/-- What a node is. -/
inductive Content where
  | object
  | array
  | property (key : String)
  | leaf (type : LeafType) (payload : String)
  deriving Repr, DecidableEq

/-- A node for the eye. -/
def Content.describe : Content → String
  | .object => "\x7b\x7d"
  | .array => "[]"
  | .property key => "\"" ++ key ++ "\": ..."
  | .leaf .string payload => "\"" ++ payload ++ "\""
  | .leaf _ payload => payload

/-- What a node of the forest holds. -/
structure Entry where
  content : Content
  /-- The position of an item in its array. -/
  index : Option Nat
  deriving Repr, DecidableEq

/-- The nodes of JSON documents. -/
abbrev Document := Forest Entry

namespace Document

/-! ## Creating nodes -/

/-- Creates a node without a position. -/
def add (doc : Document) (content : Content) : NodeId × Document := doc.push ⟨content, none⟩

/-- The document in which `child` has been attached below `parent`, as in any forest. -/
def attach (doc : Document) (child parent : NodeId) : Except Error Document :=
  (Forest.attach doc child parent).map Prod.snd

/-- Creates a node and attaches it to its parent, if it is to have one. -/
def place (doc : Document) (parent : Option NodeId) (entry : Entry) :
    Except Error (NodeId × Document) :=
  let (id, doc) := doc.push entry
  match parent with
  | some parent => return (id, ← attach doc id parent)
  | none => return (id, doc)

/-! ## The forest of a value -/

/-- The node of a value by itself. -/
def contentOf : Value → Content
  | .null => .leaf .null "null"
  | .bool value => .leaf .boolean (if value then "true" else "false")
  | .number number => .leaf .number number.text
  | .string value => .leaf .string value
  | .array _ => .array
  | .object _ => .object

mutual

/-- Places a value below `parent`, at position `index` if it is an item of an array. -/
def placeValue (doc : Document) (parent : Option NodeId) (index : Option Nat) :
    Value → Except Error Document
  | .array items => do
    let (id, doc) ← place doc parent ⟨.array, index⟩
    placeItems doc id 0 items
  | .object members => do
    let (id, doc) ← place doc parent ⟨.object, index⟩
    placeMembers doc id members
  | value => do
    let (_, doc) ← place doc parent ⟨contentOf value, index⟩
    return doc

/-- Places the items of an array, the first of them at position `index`. -/
def placeItems (doc : Document) (parent : NodeId) (index : Nat) : List Value → Except Error Document
  | [] => return doc
  | item :: items => do
    let doc ← placeValue doc (some parent) (some index) item
    placeItems doc parent (index + 1) items

/-- Places the members of an object. -/
def placeMembers (doc : Document) (parent : NodeId) : List (String × Value) → Except Error Document
  | [] => return doc
  | (key, value) :: members => do
    let (id, doc) ← place doc (some parent) ⟨.property key, none⟩
    let doc ← placeValue doc (some id) none value
    placeMembers doc parent members

end

/-- The forest of a value, with the node of the value as its root. -/
def ofValue (value : Value) : Except Error Document := do
  let doc ← placeValue Forest.empty none none value
  Forest.markRoot doc 0

end Document

end TreeNotation.Json
