import TreeNotation.Html.Dialect
import TreeNotation.XPath.Predicate

/-!
# Restoring Paths

A path that was written against the notation of a document holds names in the place of attribute
values. Restoring it puts the values back, so that it addresses the document itself.

- `restoreChars` restores the predicates on one attribute;
- `Restorer.restore` does so with the shapes of predicate it has at hand, and makes them if it has
  not;
- `restoreHtml` restores all that an HTML conversion has replaced.
-/

namespace TreeNotation.XPath

/-! ## One attribute -/

/-- Whether the predicates of a step are to be restored: on every step, or on those for one element
only. -/
def NodeTest.concerns (test : NodeTest) (tag : Option String) : Bool :=
  match tag with
  | some tag => Text.sameIgnoringAsciiCase (String.ofList test.name) tag
  | none => true

/-- A step with its predicates restored. -/
def restoreStep (matcher : AttributeMatcher) (tag : Option String)
    (lookup : List Char → Option (List Char)) (step : Step) : List Char :=
  let test := NodeTest.ofStep step.text
  let predicates :=
    if test.concerns tag then matcher.substituteChars lookup test.predicates else test.predicates
  step.separator ++ test.head ++ predicates

/-- A path with the predicates of its steps restored. -/
def restoreChars (matcher : AttributeMatcher) (tag : Option String)
    (lookup : List Char → Option (List Char)) (path : List Char) : List Char :=
  (split path).flatMap (restoreStep matcher tag lookup)

/-! ## Restorers -/

/-- The shapes of predicate at hand. -/
structure Restorer where
  /-- For how many attributes shapes are kept. -/
  capacity : Nat
  /-- Shapes by attribute in lower case, those used last first. -/
  kept : List (String × AttributeMatcher)
  deriving Repr, DecidableEq

namespace Restorer

/-- A restorer that keeps the shapes for a number of attributes, for one at least. -/
def ofCapacity (capacity : Nat) : Restorer := ⟨max 1 capacity, []⟩

/-- A restorer of the usual capacity. -/
def standard : Restorer := ofCapacity 16

instance : Inhabited Restorer := ⟨standard⟩

/-- For how many attributes shapes are at hand. -/
def size (r : Restorer) : Nat := r.kept.length

/-- An attribute with its ASCII letters in lower case. -/
def key (name : String) : String := String.ofList (name.toList.map Char.toLower)

/-- The shapes for an attribute, which become those used last. If there is no room for new ones,
those are dropped that have not been used for longest. -/
def matcher (r : Restorer) (name : String) : AttributeMatcher × Restorer :=
  match r.kept.find? fun entry => entry.1 = key name with
  | some entry =>
    (entry.2, { r with kept := entry :: r.kept.filter fun other => other.1 ≠ key name })
  | none =>
    -- Those used longest ago stand at the end.
    let made := AttributeMatcher.ofAttribute name
    (made, { r with kept := ((key name, made) :: r.kept).take r.capacity })

/-- Puts the values of a map in the place of their keys in the predicates on one attribute, on the
steps for one element or on all of them. -/
def restore (r : Restorer) (path : String) (tag : Option String) (name : String)
    (map : OrderedMap String String) : String × Restorer :=
  if map.isEmpty then (path, r)
  else
    let (matcher, r) := r.matcher name
    (String.ofList (restoreChars matcher tag (AttributeMatcher.lookup map) path.toList), r)

end Restorer

/-! ## The attributes of HTML documents -/

/-- Puts class lists back, on the steps for any element. -/
def restoreClasses (r : Restorer) (path : String) (classes : OrderedMap String String) :
    String × Restorer :=
  r.restore path none "class" classes

/-- Puts the targets of links back, on the steps for links. -/
def restoreLinks (r : Restorer) (path : String) (links : OrderedMap String String) :
    String × Restorer :=
  r.restore path (some "a") "href" links

/-- Puts the sources of images back, on the steps for images. -/
def restoreImages (r : Restorer) (path : String) (images : OrderedMap String String) :
    String × Restorer :=
  r.restore path (some "img") "src" images

/-- Puts back all that an HTML conversion has replaced: class lists, then the targets of links, then
the sources of images. -/
def restoreHtml (path : String) (tables : Html.Tables) : String :=
  let (path, r) := restoreClasses .standard path tables.classes
  let (path, r) := restoreLinks r path tables.links
  (restoreImages r path tables.images).1

end TreeNotation.XPath
