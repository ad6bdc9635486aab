import TreeNotation.Json.Dialect
import TreeNotation.Proofs.Token.Assignment

/-!
# Requests of JSON Nodes

A JSON node asks for a name in the place of its key or of its long string, and does nothing else to
the books.

- **Any books**: `closed_own`; what is true of the requests for the texts that the options select
  is true of a node, such as that they keep something (`keeps_own_of_selects`);
- **Requests**: `slot?` reads off a node what it asks for, and `asks_own` says that it does.
-/

namespace TreeNotation.Json

open Token (Ledger Asks Closed Keeps Rendering asks_inPlace asks_map asks_pure closed_keeps inPlace)

/-- The text in whose place a name is written. -/
def Slot.literal : Slot → String
  | .key text => text
  | .value text => text

theorem Slot.key?_eq_some_iff {slot : Slot} {text : String} :
    slot.key? = some text ↔ slot = .key text := by
  cases slot <;> simp [key?]

theorem Slot.value?_eq_some_iff {slot : Slot} {text : String} :
    slot.value? = some text ↔ slot = .value text := by
  cases slot <;> simp [value?]

/-! ## Section 1: What a node keeps -/

/-- Whether a name stands in for a text: for all keys or for none, and for strings by their
length. -/
def selects (options : JsonOptions) : Slot → Bool
  | .key _ => options.simplifyKeys
  | .value value =>
    options.simplifyLongStrings && decide (options.stringLengthThreshold < value.length)

section Keeping

variable {C : ∀ {β : Type}, Rendering Slot β → Prop} {P : Ledger Slot → Prop}
  {options : JsonOptions}

theorem closed_writeKey (hC : Closed C)
    (h : ∀ slot, selects options slot = true → C (Ledger.request slot slot.literal))
    (key : String) : C (writeKey options key) := by
  unfold writeKey
  split
  case isTrue hkeys => exact h (.key key) hkeys
  case isFalse => exact hC.pure key

theorem closed_writeString (hC : Closed C)
    (h : ∀ slot, selects options slot = true → C (Ledger.request slot slot.literal))
    (value : String) : C (writeString options value) := by
  unfold writeString
  split
  case isTrue hlong => exact h (.value value) hlong
  case isFalse => exact hC.pure value

/-- What is true of the requests for the texts that are selected is true of a node. -/
theorem closed_own (hC : Closed C)
    (h : ∀ slot, selects options slot = true → C (Ledger.request slot slot.literal))
    (content : Content) : C (own options content) := by
  cases content with
  | object => exact hC.pure _
  | array => exact hC.pure _
  | property key => exact hC.bind (closed_writeKey hC h key) fun key => hC.pure _
  | leaf type payload =>
    cases type with
    | string => exact hC.bind (closed_writeString hC h payload) fun value => hC.pure _
    | number => exact hC.pure _
    | boolean => exact hC.pure _
    | null => exact hC.pure _

/-- A node keeps what the requests for the texts that are selected keep. -/
theorem keeps_own_of_selects
    (h : ∀ slot, selects options slot = true → Keeps P (Ledger.request slot slot.literal))
    (content : Content) : Keeps P (own options content) :=
  closed_own (closed_keeps P) h content

/-- A node keeps what every request keeps. -/
theorem keeps_own (h : ∀ slot : Slot, Keeps P (Ledger.request slot slot.literal))
    (options : JsonOptions) (content : Content) : Keeps P (own options content) :=
  keeps_own_of_selects (fun slot _ => h slot) content

end Keeping

/-! ## Section 2: What a node asks for -/

/-- What a name stands for in the place of a key, if one does. -/
def keySlot? (options : JsonOptions) (key : String) : Option Slot :=
  if options.simplifyKeys then some (.key key) else none

/-- What a name stands for in the place of a string, if one does. -/
def stringSlot? (options : JsonOptions) (value : String) : Option Slot :=
  if options.simplifyLongStrings && decide (options.stringLengthThreshold < value.length) then
    some (.value value)
  else none

/-- What a node asks for: the key of a property, a long string of a leaf. -/
def slot? (options : JsonOptions) : Content → Option Slot
  | .property key => keySlot? options key
  | .leaf .string payload => stringSlot? options payload
  | _ => none

/-- What a node asks for, one text at most. -/
def requests (options : JsonOptions) (content : Content) : List Slot :=
  (slot? options content).toList

theorem writeKey_eq (options : JsonOptions) (key : String) :
    writeKey options key = inPlace Slot.literal key id (keySlot? options key) := by
  unfold writeKey keySlot?
  split
  case isTrue => exact (bind_pure _).symm
  case isFalse => rfl

theorem writeString_eq (options : JsonOptions) (value : String) :
    writeString options value = inPlace Slot.literal value id (stringSlot? options value) := by
  unfold writeString stringSlot?
  split
  case isTrue => exact (bind_pure _).symm
  case isFalse => rfl

/-- A node asks for its own text. -/
theorem asks_own (options : JsonOptions) (content : Content) :
    Asks Slot.literal (own options content) (requests options content) := by
  cases content with
  | object => exact asks_pure _
  | array => exact asks_pure _
  | property key =>
    simp only [own, writeKey_eq]
    exact asks_map (asks_inPlace _ _ _)
  | leaf type payload =>
    cases type with
    | string =>
      simp only [own, writeString_eq]
      exact asks_map (asks_inPlace _ _ _)
    | number => exact asks_pure _
    | boolean => exact asks_pure _
    | null => exact asks_pure _

end TreeNotation.Json
