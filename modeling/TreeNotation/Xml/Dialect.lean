import TreeNotation.Config.Basic
import TreeNotation.Text.Escape
import TreeNotation.Writing.Dialect
import TreeNotation.Xml.Document

/-!
# The XML Dialect

An element is written as its name, with a backslash before the colon after its prefix, its
identifier, its class names and its other attributes; texts, character data and comments are
written in braces. A processing instruction cannot be written. No parentheses are used.

- `own` writes a node by itself;
- `dialect` is the dialect of a configuration;
- `convert` writes a document.
-/

namespace TreeNotation.Xml

open Writing Token

/-! ## Replaced texts -/

/-- A text that a name may stand in for. -/
inductive Slot where
  /-- A namespace prefix. -/
  | space (space : String)
  /-- The value of the attribute `name`; the same value of another attribute is another text. -/
  | value (name value : String)
  deriving Repr, DecidableEq

namespace Slot

/-- The namespace prefix that a slot is for. -/
def space? : Slot → Option String
  | .space text => some text
  | _ => none

/-- The attribute that a slot is for, its name and its value. -/
def attribute? : Slot → Option (String × String)
  | .value name text => some (name, text)
  | _ => none

end Slot

/-- The texts under the names that stand in for them; an attribute value comes with the name of its
attribute. -/
structure Tables where
  spaces : OrderedMap String String
  attributes : OrderedMap String (String × String)

/-- The tables of what a ledger has recorded. -/
def tables (ledger : Ledger Slot) : Tables where
  spaces := ledger.dictionary Slot.space?
  attributes := ledger.dictionary Slot.attribute?

/-- The values of one attribute under the names that stand in for them. -/
def Tables.valuesOf (tables : Tables) (name : String) : OrderedMap String String :=
  (tables.attributes.filter fun _ entry => entry.1 = name).mapValues fun _ entry => entry.2

/-! ## Single nodes -/

/-- Whether a node is left out. -/
def skips (options : XmlOptions) : Content → Bool
  | .comment _ => options.skipComments
  | .element space name attributes =>
    options.skipTags &&
      (options.tagsToSkip.contains (Content.qualifiedName (.element space name attributes)) ||
        options.tagsToSkip.contains name)
  | _ => false

/-- The name of an element, with a name in the place of its prefix if prefixes are simplified. -/
def writeName (options : XmlOptions) (space : Option String) (name : String) :
    Rendering Slot String :=
  match space with
  | none => pure name
  | some space =>
    if options.simplifyNamespaces then do
      let token ← Ledger.request (.space space) space
      return token ++ "\\:" ++ name
    else pure (space ++ "\\:" ++ name)

/-- An attribute with a name in the place of its value if that is a long one. -/
def replaceValue (options : XmlOptions) (a : String × String) : Rendering Slot (String × String) :=
  if options.attributeLengthThreshold < a.2.length then do
    let token ← Ledger.request (.value a.1 a.2) a.2
    return (a.1, token)
  else pure a

/-- The attributes of an element with names in the place of long values if those are simplified. -/
def replaceValues (options : XmlOptions) (attributes : Attributes) : Rendering Slot Attributes :=
  if options.simplifyLongAttributes then do
    let replaced ← attributes.entries.mapM (replaceValue options)
    return OrderedMap.ofList replaced
  else pure attributes

/-- A node by itself. -/
def own (options : XmlOptions) (id : NodeId) : Content → Rendering Slot String
  | .text payload => pure (braced "" (Text.escapeText payload))
  | .cdata payload =>
    pure (braced (if options.preserveCData then "cdata" else "") (Text.escapeText payload))
  | .comment payload => pure (braced "comment" (Text.escapeText payload))
  | .instruction target _ => throw (.structural id (.unwritable target))
  | .element space name attributes => do
    let name ← writeName options space name
    let shown ← replaceValues options attributes
    return name ++ idPart shown ++ classPart (classNames shown) ++ attributeList (listed shown)

/-! ## Whole documents -/

/-- The dialect of a configuration. -/
def dialect (config : Config) : Dialect Content Slot where
  layout := config.layout
  skips := skips config.xml
  inlines := Content.isText
  own := own config.xml
  encloses _ := false

/-- The notation of a document, with the names of a supply. -/
def convert (config : Config) (supply : Supply) (doc : Document) :
    Except Error (Conversion Tables) :=
  (dialect config).convertWith tables supply doc

end TreeNotation.Xml
