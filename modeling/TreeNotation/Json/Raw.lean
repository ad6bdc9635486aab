/-!
# JSON Texts

JSON as it is written: numbers digit by digit, strings with every escape resolved by itself, and
objects with all their members, repeated ones included.

- `Raw.parse?` reads a text, and refuses whatever is not exactly one value between blanks;
- `decode?` joins the escapes of a string into characters, and refuses a surrogate without its
  partner.

Reading refuses unescaped control characters, but lets unpaired surrogates pass: only where the
characters of a string matter do they have to be decoded.
-/

namespace TreeNotation.Json

/-! ## Strings -/

/-- One character or escape of a string. -/
inductive CodeUnit where
  | scalar (c : Char)
  /-- One half of an escaped character, between `0xD800` and `0xDFFF`. -/
  | surrogate (n : Nat)
  deriving Repr, DecidableEq

/-- The characters of a string, unless it has a surrogate without its partner. -/
def decode? : List CodeUnit → Option (List Char)
  | [] => some []
  | .scalar c :: rest => (decode? rest).map (c :: ·)
  | .surrogate high :: .surrogate low :: rest =>
    if high < 0xDC00 ∧ 0xDC00 ≤ low then
      (decode? rest).map (Char.ofNat (0x10000 + (high - 0xD800) * 0x400 + (low - 0xDC00)) :: ·)
    else none
  | .surrogate _ :: _ => none

/-- The text of a string, unless it has a surrogate without its partner. -/
def text? (units : List CodeUnit) : Option String := (decode? units).map String.ofList

/-- The number that a hexadecimal digit stands for. -/
def hexDigit? (c : Char) : Option Nat :=
  if '0' ≤ c ∧ c ≤ '9' then some (c.toNat - '0'.toNat)
  else if 'a' ≤ c ∧ c ≤ 'f' then some (c.toNat - 'a'.toNat + 10)
  else if 'A' ≤ c ∧ c ≤ 'F' then some (c.toNat - 'A'.toNat + 10)
  else none

/-- What an escape of four hexadecimal digits stands for. -/
def hexUnit? (a b c d : Char) : Option CodeUnit := do
  let n := (← hexDigit? a) * 0x1000 + (← hexDigit? b) * 0x100 + (← hexDigit? c) * 0x10 +
    (← hexDigit? d)
  return if 0xD800 ≤ n ∧ n ≤ 0xDFFF then .surrogate n else .scalar (Char.ofNat n)

/-- What an escape of one letter stands for. -/
def letterUnit? (c : Char) : Option CodeUnit :=
  match c with
  | '"' => some (.scalar '"')
  | '\\' => some (.scalar '\\')
  | '/' => some (.scalar '/')
  | 'b' => some (.scalar '\x08')
  | 'f' => some (.scalar '\x0c')
  | 'n' => some (.scalar '\n')
  | 'r' => some (.scalar '\r')
  | 't' => some (.scalar '\t')
  | _ => none

/-- Reads a string after its opening quote. -/
def readString : List Char → Option (List CodeUnit × List Char)
  | [] => none
  | '"' :: rest => some ([], rest)
  | '\\' :: 'u' :: a :: b :: c :: d :: rest => do
    let unit ← hexUnit? a b c d
    let (units, rest) ← readString rest
    return (unit :: units, rest)
  | '\\' :: c :: rest => do
    let unit ← letterUnit? c
    let (units, rest) ← readString rest
    return (unit :: units, rest)
  | c :: rest =>
    -- Control characters have to be escaped.
    if c.toNat < 0x20 then none
    else do
      let (units, rest) ← readString rest
      return (.scalar c :: units, rest)

/-! ## Numbers -/

/-- A number digit by digit. -/
structure Numeral where
  negative : Bool
  /-- The digits before the point. -/
  whole : List Nat
  /-- The digits after the point, if there is one. -/
  fraction : Option (List Nat)
  /-- Whether the exponent is negative, and its digits, if there is one. -/
  exponent : Option (Bool × List Nat)
  deriving Repr, DecidableEq

/-- Reads the digits at the start of a text. -/
def readDigits (cs : List Char) : List Nat × List Char :=
  let (digits, rest) := cs.span Char.isDigit
  (digits.map fun c => c.toNat - '0'.toNat, rest)

/-- Reads the digits at the start of a text, of which there has to be one. -/
def readSomeDigits (cs : List Char) : Option (List Nat × List Char) :=
  match readDigits cs with
  | ([], _) => none
  | found => some found

/-- Reads the digits before the point, which start with a zero only if that is all. -/
def readWhole : List Char → Option (List Nat × List Char)
  | '0' :: rest => some ([0], rest)
  | cs => readSomeDigits cs

/-- Reads a point and the digits after it, if there is a point. -/
def readFraction : List Char → Option (Option (List Nat) × List Char)
  | '.' :: rest => do
    let (digits, rest) ← readSomeDigits rest
    return (some digits, rest)
  | cs => some (none, cs)

/-- Reads the exponent, if there is one. -/
def readExponent : List Char → Option (Option (Bool × List Nat) × List Char)
  | c :: rest =>
    if c = 'e' ∨ c = 'E' then do
      let (negative, rest) := match rest with
        | '-' :: rest => (true, rest)
        | '+' :: rest => (false, rest)
        | rest => (false, rest)
      let (digits, rest) ← readSomeDigits rest
      return (some (negative, digits), rest)
    else some (none, c :: rest)
  | [] => some (none, [])

/-- Reads a number. -/
def readNumeral (cs : List Char) : Option (Numeral × List Char) := do
  let (negative, cs) := match cs with
    | '-' :: rest => (true, rest)
    | cs => (false, cs)
  let (whole, cs) ← readWhole cs
  let (fraction, cs) ← readFraction cs
  let (exponent, cs) ← readExponent cs
  return (⟨negative, whole, fraction, exponent⟩, cs)

/-! ## Values -/

/-- A JSON value as it is written. -/
inductive Raw where
  | null
  | bool (value : Bool)
  | number (numeral : Numeral)
  | string (units : List CodeUnit)
  | array (items : List Raw)
  | object (members : List (List CodeUnit × Raw))
  deriving Repr

/-- The text without the blanks at its start, of which JSON has four. -/
def skipBlanks (cs : List Char) : List Char :=
  cs.dropWhile fun c => c == ' ' || c == '\t' || c == '\n' || c == '\r'

mutual

/-- Reads a value, going at most `steps` values deep or along. -/
def readValue : Nat → List Char → Option (Raw × List Char)
  | 0, _ => none
  | steps + 1, cs =>
    match skipBlanks cs with
    | 'n' :: 'u' :: 'l' :: 'l' :: rest => some (.null, rest)
    | 't' :: 'r' :: 'u' :: 'e' :: rest => some (.bool true, rest)
    | 'f' :: 'a' :: 'l' :: 's' :: 'e' :: rest => some (.bool false, rest)
    | '"' :: rest => do
      let (units, rest) ← readString rest
      return (.string units, rest)
    | '[' :: rest =>
      match skipBlanks rest with
      | ']' :: rest => some (.array [], rest)
      | rest => do
        let (items, rest) ← readItems steps rest
        return (.array items, rest)
    | '{' :: rest =>
      match skipBlanks rest with
      | '}' :: rest => some (.object [], rest)
      | rest => do
        let (members, rest) ← readMembers steps rest
        return (.object members, rest)
    | rest => do
      let (numeral, rest) ← readNumeral rest
      return (.number numeral, rest)

/-- Reads the items of an array up to its closing bracket. -/
def readItems : Nat → List Char → Option (List Raw × List Char)
  | 0, _ => none
  | steps + 1, cs => do
    let (item, rest) ← readValue steps cs
    match skipBlanks rest with
    | ',' :: rest =>
      let (items, rest) ← readItems steps rest
      return (item :: items, rest)
    | ']' :: rest => return ([item], rest)
    | _ => none

/-- Reads the members of an object up to its closing brace. -/
def readMembers : Nat → List Char → Option (List (List CodeUnit × Raw) × List Char)
  | 0, _ => none
  | steps + 1, cs => do
    match skipBlanks cs with
    | '"' :: rest =>
      let (key, rest) ← readString rest
      match skipBlanks rest with
      | ':' :: rest =>
        let (value, rest) ← readValue steps rest
        match skipBlanks rest with
        | ',' :: rest =>
          let (members, rest) ← readMembers steps rest
          return ((key, value) :: members, rest)
        | '}' :: rest => return ([(key, value)], rest)
        | _ => none
      | _ => none
    | _ => none

end

/-- The value that a text describes. Every value has a character of its own, so a text with `n`
characters holds no more than `n` of them. -/
def Raw.parse? (text : String) : Option Raw := do
  let cs := text.toList
  let (value, rest) ← readValue (cs.length + 1) cs
  match skipBlanks rest with
  | [] => return value
  | _ => none

end TreeNotation.Json
