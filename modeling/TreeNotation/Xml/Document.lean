import TreeNotation.Forest.Basic
import TreeNotation.Text.Lowercase
import TreeNotation.Writing.Attribute

/-!
# XML Documents

Forests of elements, texts, character data, comments and processing instructions.

- `Content` is what a node is, and `Content.qualifiedName` the full name of an element;
- `Document.addElement` and its companions create nodes;
- `Document.attach` attaches a node.
-/

namespace TreeNotation.Xml

open Writing (Attributes)

/-- What a node is. -/
inductive Content where
  /-- An element with its namespace prefix, if it has one, and its local name, both in lower
  case. -/
  | element (space : Option String) (name : String) (attributes : Attributes)
  /-- A text without blanks at its ends. -/
  | text (payload : String)
  /-- Character data without blanks at its ends. -/
  | cdata (payload : String)
  /-- A comment without blanks at its ends. -/
  | comment (payload : String)
  /-- A processing instruction with its target and its data. -/
  | instruction (target data : String)

namespace Content

/-- Whether a node is an element. -/
def isElement : Content → Bool
  | .element .. => true
  | _ => false

/-- Whether a node is a text. -/
def isText : Content → Bool
  | .text _ => true
  | _ => false

/-- Whether a node is character data. -/
def isCData : Content → Bool
  | .cdata _ => true
  | _ => false

/-- Whether a node is a comment. -/
def isComment : Content → Bool
  | .comment _ => true
  | _ => false

/-- The local name of an element, the target of a processing instruction, and for the other nodes
a word that says what they are. -/
def tag : Content → String
  | .element _ name _ => name
  | .text _ => "#text"
  | .cdata _ => "#cdata"
  | .comment _ => "#comment"
  | .instruction target _ => target

/-- The namespace prefix of an element that has one. -/
def space? : Content → Option String
  | .element space _ _ => space
  | _ => none

/-- The attributes of a node. -/
def attributes : Content → Attributes
  | .element _ _ attributes => attributes
  | _ => OrderedMap.empty

/-- The payload of a node that is no element. -/
def payload? : Content → Option String
  | .element .. => none
  | .text payload => some payload
  | .cdata payload => some payload
  | .comment payload => some payload
  | .instruction _ data => some data

/-- The tag of a node after its prefix and a colon, if it has a prefix. -/
def qualifiedName (content : Content) : String :=
  match content.space? with
  | some space => space ++ ":" ++ content.tag
  | none => content.tag

/-- A node for the eye. -/
def describe : Content → String
  | .text payload => "\"" ++ payload ++ "\""
  | .cdata payload => "<![CDATA[" ++ payload ++ "]]>"
  | .comment payload => "<!-- " ++ payload ++ " -->"
  | .instruction target data => "<?" ++ target ++ " " ++ data ++ "?>"
  | .element space name attributes =>
    Writing.describeElement (qualifiedName (.element space name attributes)) attributes

end Content

/-- The nodes of XML documents. -/
abbrev Document := Forest Content

/-- The prefix and the local name in a qualified name: what comes before the first colon and what
comes after it. -/
def splitName (name : String) : Option String × String :=
  match name.toList.span fun c => c ≠ ':' with
  | (before, _ :: after) => (some (String.ofList before), String.ofList after)
  | (before, []) => (none, String.ofList before)

namespace Document

/-! ## Creating nodes -/

/-- The content of an element with the given qualified name. -/
def elementContent (name : String) (attributes : Attributes) : Content :=
  let (space, localName) := splitName name
  .element (space.map Text.lower) (Text.lower localName) attributes

/-- Creates an element from its qualified name. -/
def addElement (doc : Document) (name : String) (attributes : Attributes) : NodeId × Document :=
  doc.push (elementContent name attributes)

/-- Creates an element from its qualified name and registers it as a root. -/
def addRootElement (doc : Document) (name : String) (attributes : Attributes) : NodeId × Document :=
  doc.pushRoot (elementContent name attributes)

/-- Creates a text. -/
def addText (doc : Document) (payload : String) : NodeId × Document :=
  doc.push (.text (Text.trim payload))

/-- Creates character data. -/
def addCData (doc : Document) (payload : String) : NodeId × Document :=
  doc.push (.cdata (Text.trim payload))

/-- Creates a comment. -/
def addComment (doc : Document) (payload : String) : NodeId × Document :=
  doc.push (.comment (Text.trim payload))

/-- Creates a processing instruction. -/
def addInstruction (doc : Document) (target data : String) : NodeId × Document :=
  doc.push (.instruction target (Text.trim data))

/-- The document in which `child` has been attached below `parent`, as in any forest. -/
def attach (doc : Document) (child parent : NodeId) : Except Error Document :=
  (Forest.attach doc child parent).map Prod.snd

end Document

end TreeNotation.Xml
