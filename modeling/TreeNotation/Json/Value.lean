import TreeNotation.Json.Number
import TreeNotation.Ordered.Map

/-!
# JSON Values

The values that JSON texts describe. Objects keep their members in the order of the text, and a
number is known by its canonical text. A repeated member stands where its key comes first and has
the value that comes last.

- `Value.ofRaw?` is the value of a text that has been read;
- `Value.parse?` reads a text.
-/

namespace TreeNotation.Json

/-- A JSON value. -/
inductive Value where
  | null
  | bool (value : Bool)
  | number (number : Number)
  | string (value : String)
  | array (items : List Value)
  | object (members : List (String × Value))
  deriving Repr

namespace Value

mutual

/-- The value of what has been read, nothing if a string has an unpaired surrogate or a number is
too great. -/
def ofRaw? : Raw → Option Value
  | .null => some .null
  | .bool value => some (.bool value)
  | .number numeral => numeral.number?.map .number
  | .string units => (text? units).map .string
  | .array items => (ofItems? items).map .array
  | .object members => (ofMembers? members).map fun members =>
    .object (OrderedMap.ofList members).entries

/-- The values of the items of an array. -/
def ofItems? : List Raw → Option (List Value)
  | [] => some []
  | item :: items => do
    let value ← ofRaw? item
    let values ← ofItems? items
    return value :: values

/-- The keys and values of the members of an object, repeated ones included. -/
def ofMembers? : List (List CodeUnit × Raw) → Option (List (String × Value))
  | [] => some []
  | (key, raw) :: members => do
    let key ← text? key
    let value ← ofRaw? raw
    let members ← ofMembers? members
    return (key, value) :: members

end

/-- The value that a text describes. -/
def parse? (text : String) : Option Value := (Raw.parse? text).bind ofRaw?

end Value

end TreeNotation.Json
