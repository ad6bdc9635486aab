import TreeNotation.Config.Basic
import TreeNotation.Json.Document
import TreeNotation.Text.Escape
import TreeNotation.Writing.Attribute
import TreeNotation.Writing.Dialect

/-!
# The JSON Dialect

Objects and arrays are written as words, properties with their keys in brackets, and leaves in
braces after the word for their type. Nothing is left out, and no parentheses are used.

- `own` writes a node by itself;
- `dialect` is the dialect of a configuration;
- `convert` writes a document.
-/

namespace TreeNotation.Json

open Writing Token

/-! ## Replaced texts -/

/-- A text that a name may stand in for. -/
inductive Slot where
  /-- The key of a property. -/
  | key (key : String)
  /-- A long string. -/
  | value (value : String)
  deriving Repr, DecidableEq

namespace Slot

/-- The key of a property that a slot is for. -/
def key? : Slot → Option String
  | .key text => some text
  | _ => none

/-- The long string that a slot is for. -/
def value? : Slot → Option String
  | .value text => some text
  | _ => none

end Slot

/-- The texts under the names that stand in for them. -/
structure Tables where
  keys : OrderedMap String String
  values : OrderedMap String String

/-- The tables of what a ledger has recorded. -/
def tables (ledger : Ledger Slot) : Tables where
  keys := ledger.dictionary Slot.key?
  values := ledger.dictionary Slot.value?

/-! ## Single nodes -/

/-- A key, or the name that stands in for it. -/
def writeKey (options : JsonOptions) (key : String) : Rendering Slot String :=
  if options.simplifyKeys then Ledger.request (.key key) key else pure key

/-- A string, or the name that stands in for it if it is a long one. -/
def writeString (options : JsonOptions) (value : String) : Rendering Slot String :=
  if options.simplifyLongStrings && decide (options.stringLengthThreshold < value.length) then
    Ledger.request (.value value) value
  else pure value

/-- A node by itself. -/
def own (options : JsonOptions) : Content → Rendering Slot String
  | .object => pure "obj"
  | .array => pure "arr"
  | .property key => do
    let key ← writeKey options key
    return "prop[" ++ key ++ "]"
  | .leaf .string payload => do
    let value ← writeString options payload
    return braced "str" (Text.escapeString value)
  | .leaf .number payload => pure (braced "num" payload)
  | .leaf .boolean payload => pure (braced "bool" payload)
  | .leaf .null _ => pure "null"

/-! ## Whole documents -/

/-- The dialect of a configuration. -/
def dialect (config : Config) : Dialect Entry Slot where
  layout := config.layout
  skips _ := false
  inlines _ := false
  own _ entry := own config.json entry.content
  encloses _ := false

/-- The notation of a document, with the names of a supply. -/
def convert (config : Config) (supply : Supply) (doc : Document) :
    Except Error (Conversion Tables) :=
  (dialect config).convertWith tables supply doc

end TreeNotation.Json
