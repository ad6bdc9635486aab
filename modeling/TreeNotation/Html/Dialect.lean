import TreeNotation.Html.Document
import TreeNotation.Html.Priority
import TreeNotation.Text.Escape
import TreeNotation.Writing.Dialect

/-!
# The HTML Dialect

An element is written as its tag, its identifier, its class names and its other attributes; a text
is written in braces. An element with a group of children is put in parentheses if other elements
are written beside it, so that what follows it is read as its sibling.

- `own` writes a node by itself;
- `dialect` is the dialect of a configuration over a document;
- `convert` writes a document.
-/

namespace TreeNotation.Html

open Writing Token

/-! ## Replaced texts -/

/-- A text that a name may stand in for. -/
inductive Slot where
  /-- A class list, its names separated by single spaces. -/
  | classes (list : String)
  /-- The target of a link. -/
  | link (target : String)
  /-- The source of an image. -/
  | image (source : String)
  deriving Repr, DecidableEq

namespace Slot

/-- The class list that a slot is for. -/
def classList? : Slot → Option String
  | .classes list => some list
  | _ => none

/-- The target of a link that a slot is for. -/
def target? : Slot → Option String
  | .link target => some target
  | _ => none

/-- The source of an image that a slot is for. -/
def source? : Slot → Option String
  | .image source => some source
  | _ => none

end Slot

/-- The texts under the names that stand in for them. -/
structure Tables where
  classes : OrderedMap String String
  links : OrderedMap String String
  images : OrderedMap String String

/-- The tables of what a ledger has recorded. -/
def tables (ledger : Ledger Slot) : Tables where
  classes := ledger.dictionary Slot.classList?
  links := ledger.dictionary Slot.target?
  images := ledger.dictionary Slot.source?

/-! ## Single nodes -/

/-- Whether a node is left out. -/
def skips (options : HtmlOptions) : Content → Bool
  | .text _ => false
  | .element tag _ => options.skipTags && options.tagsToSkip.contains tag

/-- Whether a link leads to elsewhere. -/
def isAbsolute (target : String) : Bool := "http".toList.isPrefixOf target.toList

/-- Whether a name stands in for the target of a link. -/
def simplifiesLink (options : HtmlOptions) (target : String) : Bool :=
  if isAbsolute target then options.simplifyAbsoluteLinks else options.simplifyRelativeLinks

/-- The class names of an element, or the name that stands in for all of them. -/
def writeClasses (options : HtmlOptions) (attributes : Attributes) : Rendering Slot String :=
  match classNames attributes with
  | [] => pure ""
  | names =>
    if options.simplifyClasses then do
      let list := " ".intercalate names
      let token ← Ledger.request (.classes list) list
      return "." ++ token
    else pure (classPart names)

/-- The attributes of an element with a name in the place of the target it links to. -/
def replaceLink (options : HtmlOptions) (tag : String) (attributes : Attributes) :
    Rendering Slot Attributes :=
  match nonempty? attributes "href" with
  | some target =>
    if tag = "a" && simplifiesLink options target then do
      let token ← Ledger.request (.link target) target
      return attributes.insert "href" token
    else pure attributes
  | none => pure attributes

/-- The attributes of an element with a name in the place of the image it shows. -/
def replaceImage (options : HtmlOptions) (tag : String) (attributes : Attributes) :
    Rendering Slot Attributes :=
  match nonempty? attributes "src" with
  | some source =>
    if tag = "img" && options.simplifyImages then do
      let token ← Ledger.request (.image source) source
      return attributes.insert "src" token
    else pure attributes
  | none => pure attributes

/-- The attributes that are written in brackets. -/
def bracketed (options : HtmlOptions) (attributes : Attributes) : List (String × String) :=
  (listed attributes).filter fun a => !(options.skipEmptyAttributes && a.2.isEmpty)

/-- The attributes of an element that count. -/
def counted (options : HtmlOptions) (attributes : Attributes) : Attributes :=
  if options.prioritizeAttributes then options.tiers.select attributes else attributes

/-- A node by itself. -/
def own (options : HtmlOptions) : Content → Rendering Slot String
  | .text payload => pure (braced "" (Text.escapeText payload))
  | .element tag attributes => do
    let kept := counted options attributes
    -- The order of the requests decides which text gets which name.
    let classes ← writeClasses options kept
    let linked ← replaceLink options tag kept
    let shown ← replaceImage options tag linked
    return tag ++ idPart kept ++ classes ++ attributeList (bracketed options shown)

/-! ## Whole documents -/

/-- Whether an element with number `id` is written. -/
def isWritten (options : HtmlOptions) (doc : Document) (id : NodeId) : Bool :=
  (doc.label? id).any fun entry => !entry.content.isText && !skips options entry.content

/-- How many elements are written beside the node with number `id`. -/
def writtenSiblings (options : HtmlOptions) (doc : Document) (id : NodeId) : Nat :=
  if options.skipTags then
    match doc.parent? id with
    | some parent =>
      (doc.children parent).countP fun other => other ≠ id && isWritten options doc other
    | none => 0
  else doc.siblingCount id

/-- The dialect of a configuration for a document. -/
def dialect (config : Config) (doc : Document) : Dialect Entry Slot where
  layout := config.layout
  skips entry := skips config.html entry.content
  inlines entry := entry.content.isText
  own _ entry := own config.html entry.content
  encloses id := decide (0 < writtenSiblings config.html doc id)

/-- The notation of a document, with the names of a supply. -/
def convert (config : Config) (supply : Supply) (doc : Document) :
    Except Error (Conversion Tables) :=
  (dialect config doc).convertWith tables supply doc

end TreeNotation.Html
