import TreeNotation.Ordered.Map
import TreeNotation.Text.Blank

/-!
# Attributes

How the attributes of an element are written: an identifier after a number sign, class names after
dots, and the others as a list in brackets.

- `attributeText` writes one name and value, `attributeList` a list of them;
- `idPart` and `classPart` write the two attributes with a notation of their own;
- `listed` is what is left for the brackets.
-/

namespace TreeNotation.Writing

/-- Attributes by name, in document order. -/
abbrev Attributes := OrderedMap String String

/-! ## Bracketed lists -/

/-- An attribute in brackets: the name alone if the value is empty, and the value in double quotes
if it holds a space. -/
def attributeText (name value : String) : String :=
  if ' ' ∈ value.toList then name ++ "=\"" ++ value ++ "\""
  else if value.isEmpty then name
  else name ++ "=" ++ value

/-- Attributes in brackets, one space between two of them; nothing if there are none. -/
def attributeList (attributes : List (String × String)) : String :=
  match attributes with
  | [] => ""
  | _ => "[" ++ " ".intercalate (attributes.map fun a => attributeText a.1 a.2) ++ "]"

/-- A payload in braces after the word that says what it is. -/
def braced (word payload : String) : String := word ++ "\x7b" ++ payload ++ "\x7d"

/-! ## Parts of an element -/

/-- The attribute `name` unless it is missing or empty. -/
def nonempty? (attributes : Attributes) (name : String) : Option String :=
  (attributes.get? name).filter fun value => !value.isEmpty

/-- The identifier of an element after a number sign, nothing if it is missing or empty. -/
def idPart (attributes : Attributes) : String :=
  match nonempty? attributes "id" with
  | some id => "#" ++ id
  | none => ""

/-- The class names of an element. -/
def classNames (attributes : Attributes) : List String :=
  match attributes.get? "class" with
  | some list => Text.words list
  | none => []

/-- Class names, each after a dot. -/
def classPart (names : List String) : String :=
  match names with
  | [] => ""
  | _ => "." ++ ".".intercalate names

/-- The attributes that are written in brackets: all but the identifier and the class names. -/
def listed (attributes : Attributes) : List (String × String) :=
  attributes.entries.filter fun a => a.1 ≠ "id" && a.1 ≠ "class"

/-! ## Descriptions -/

/-- An element for the eye: its name and, in brackets, all its attributes with quoted values. -/
def describeElement (name : String) (attributes : Attributes) : String :=
  match attributes.entries with
  | [] => name
  | entries =>
    name ++ "[" ++ " ".intercalate (entries.map fun a => a.1 ++ "=\"" ++ a.2 ++ "\"") ++ "]"

end TreeNotation.Writing
