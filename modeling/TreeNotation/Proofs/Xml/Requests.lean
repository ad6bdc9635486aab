import TreeNotation.Proofs.Token.Assignment
import TreeNotation.Xml.Dialect

/-!
# Requests of XML Nodes

An XML node asks for names in the place of its namespace prefix and of its long attribute values,
and does nothing else to the books.

- **Any books**: `closed_own`; what is true of the requests for the texts that the options select
  is true of a node, such as that they keep something (`keeps_own_of_selects`);
- **Requests**: `requests` reads off a node what it asks for, and `asks_own` says that it does,
  unless it is a processing instruction; `demands` says of those too what they do;
- **Tables**: `Tables.get?_valuesOf`, the values of one attribute under their names.
-/

namespace TreeNotation.Xml

open Writing (Attributes)
open Token (Ledger Asks Closed Demands Keeps Rendering asks_bind asks_inPlace asks_map asks_mapM
  asks_pure closed_keeps demands_map_ok_iff demands_throw inPlace)

/-- The text in whose place a name is written. -/
def Slot.literal : Slot → String
  | .space text => text
  | .value _ text => text

theorem Slot.space?_eq_some_iff {slot : Slot} {text : String} :
    slot.space? = some text ↔ slot = .space text := by
  cases slot <;> simp [space?]

theorem Slot.attribute?_eq_some_iff {slot : Slot} {pair : String × String} :
    slot.attribute? = some pair ↔ slot = .value pair.1 pair.2 := by
  obtain ⟨name, text⟩ := pair
  cases slot <;> simp [attribute?]

/-! ## Section 1: What a node keeps -/

/-- Whether a name stands in for a text: for all prefixes or for none, and for attribute values by
their length. -/
def selects (options : XmlOptions) : Slot → Bool
  | .space _ => options.simplifyNamespaces
  | .value _ value =>
    options.simplifyLongAttributes && decide (options.attributeLengthThreshold < value.length)

section Keeping

variable {C : ∀ {β : Type}, Rendering Slot β → Prop} {P : Ledger Slot → Prop}
  {options : XmlOptions}

theorem closed_writeName (hC : Closed C)
    (h : ∀ slot, selects options slot = true → C (Ledger.request slot slot.literal))
    (space : Option String) (name : String) : C (writeName options space name) := by
  unfold writeName
  split
  case h_1 => exact hC.pure name
  case h_2 space =>
    split
    case isTrue hspace => exact hC.bind (h (.space space) hspace) fun token => hC.pure _
    case isFalse => exact hC.pure _

theorem closed_replaceValues (hC : Closed C)
    (h : ∀ slot, selects options slot = true → C (Ledger.request slot slot.literal))
    (attributes : Attributes) : C (replaceValues options attributes) := by
  unfold replaceValues
  split
  case isTrue hvalues =>
    -- Values are replaced one after the other, and each is one request at most.
    refine hC.bind (hC.mapM fun a _ => ?_) fun replaced => hC.pure _
    unfold replaceValue
    split
    case isTrue hlong =>
      have hselects : selects options (.value a.1 a.2) = true := by simp [selects, hvalues, hlong]
      exact hC.bind (h (.value a.1 a.2) hselects) fun token => hC.pure _
    case isFalse => exact hC.pure a
  case isFalse => exact hC.pure attributes

/-- What is true of the requests for the texts that are selected is true of a node. -/
theorem closed_own (hC : Closed C)
    (h : ∀ slot, selects options slot = true → C (Ledger.request slot slot.literal))
    (id : NodeId) (content : Content) : C (own options id content) := by
  cases content with
  | element space name attributes =>
    apply hC.bind (closed_writeName hC h space name)
    intro name
    exact hC.bind (closed_replaceValues hC h attributes) fun shown => hC.pure _
  | text payload => exact hC.pure _
  | cdata payload => exact hC.pure _
  | comment payload => exact hC.pure _
  | instruction target data => exact hC.throw _

theorem keeps_replaceValues
    (h : ∀ slot, selects options slot = true → Keeps P (Ledger.request slot slot.literal))
    (attributes : Attributes) : Keeps P (replaceValues options attributes) :=
  closed_replaceValues (closed_keeps P) h attributes

/-- A node keeps what the requests for the texts that are selected keep. -/
theorem keeps_own_of_selects
    (h : ∀ slot, selects options slot = true → Keeps P (Ledger.request slot slot.literal))
    (id : NodeId) (content : Content) : Keeps P (own options id content) :=
  closed_own (closed_keeps P) h id content

/-- A node keeps what every request keeps. -/
theorem keeps_own (h : ∀ slot : Slot, Keeps P (Ledger.request slot slot.literal))
    (options : XmlOptions) (id : NodeId) (content : Content) :
    Keeps P (own options id content) :=
  keeps_own_of_selects (fun slot _ => h slot) id content

end Keeping

/-! ## Section 2: What a node asks for -/

/-- What a name stands for in the place of a prefix, if one does. -/
def spaceSlot? (options : XmlOptions) (space : String) : Option Slot :=
  if options.simplifyNamespaces then some (.space space) else none

/-- What a name stands for in the place of the value of an attribute, if one does. -/
def valueSlot? (options : XmlOptions) (name value : String) : Option Slot :=
  if options.simplifyLongAttributes && decide (options.attributeLengthThreshold < value.length) then
    some (.value name value)
  else none

/-- What a node asks for: its prefix, then its long attribute values in their order. -/
def requests (options : XmlOptions) : Content → List Slot
  | .element space _ attributes =>
    (space.bind (spaceSlot? options)).toList ++
      attributes.entries.filterMap fun a => valueSlot? options a.1 a.2
  | _ => []

/-- The local name of an element after its prefix. -/
def nameText (space : Option String) (name : String) : String :=
  match space with
  | none => name
  | some space => space ++ "\\:" ++ name

theorem writeName_eq (options : XmlOptions) (space : Option String) (name : String) :
    writeName options space name =
      inPlace Slot.literal (nameText space name) (fun token => nameText (some token) name)
        (space.bind (spaceSlot? options)) := by
  unfold writeName
  cases space with
  | none => rfl
  | some space =>
    simp only [Option.bind_some, spaceSlot?]
    cases options.simplifyNamespaces <;> rfl

theorem replaceValue_eq {options : XmlOptions} (h : options.simplifyLongAttributes = true)
    (a : String × String) :
    replaceValue options a =
      inPlace Slot.literal a (fun token => (a.1, token)) (valueSlot? options a.1 a.2) := by
  unfold replaceValue
  by_cases hlong : options.attributeLengthThreshold < a.2.length <;>
    simp [valueSlot?, h, hlong, inPlace, Slot.literal]

theorem asks_replaceValues (options : XmlOptions) (attributes : Attributes) :
    Asks Slot.literal (replaceValues options attributes)
      (attributes.entries.filterMap fun a => valueSlot? options a.1 a.2) := by
  unfold replaceValues
  split
  case isTrue hlong =>
    have hone : ∀ a : String × String,
        Asks Slot.literal (replaceValue options a) (valueSlot? options a.1 a.2).toList := by
      intro a
      rw [replaceValue_eq hlong]
      exact asks_inPlace _ _ _
    rw [List.filterMap_eq_flatMap_toList]
    exact asks_map (asks_mapM hone attributes.entries)
  case isFalse hshort =>
    have hnone : (attributes.entries.filterMap fun a => valueSlot? options a.1 a.2) = [] := by
      simp [valueSlot?, hshort]
    rw [hnone]
    exact asks_pure attributes

/-- Whether a node is a processing instruction. -/
def Content.isInstruction : Content → Bool
  | .instruction .. => true
  | _ => false

/-- A node asks for its own texts, one after the other, unless it cannot be written. -/
theorem asks_own (options : XmlOptions) (id : NodeId) {content : Content}
    (hwritable : content.isInstruction = false) :
    Asks Slot.literal (own options id content) (requests options content) := by
  cases content with
  | element space name attributes =>
    simp only [own, writeName_eq]
    apply asks_bind (asks_inPlace _ _ _)
    intro _ name _ _
    exact asks_map (asks_replaceValues options attributes)
  | text payload => exact asks_pure _
  | cdata payload => exact asks_pure _
  | comment payload => exact asks_pure _
  | instruction target data => cases hwritable

/-- What a node demands: the names that it asks for, or a failure that names it if it cannot be
written. -/
def demands (options : XmlOptions) (node : NodeId × Content) : List (Except Error Slot) :=
  match node.2 with
  | .instruction target _ => [.error (.structural node.1 (.unwritable target))]
  | content => (requests options content).map .ok

theorem demands_of_not_isInstruction {options : XmlOptions} {node : NodeId × Content}
    (h : node.2.isInstruction = false) :
    demands options node = (requests options node.2).map .ok := by
  obtain ⟨id, content⟩ := node
  cases content with
  | instruction target data => cases h
  | element space name attributes => rfl
  | text payload => rfl
  | cdata payload => rfl
  | comment payload => rfl

theorem demands_own (options : XmlOptions) (node : NodeId × Content) :
    Demands Slot.literal (own options node.1 node.2) (demands options node) := by
  cases hinstruction : node.2.isInstruction with
  | false =>
    rw [demands_of_not_isInstruction hinstruction, demands_map_ok_iff]
    exact asks_own options node.1 hinstruction
  | true =>
    obtain ⟨id, content⟩ := node
    cases content with
    | instruction target data => exact demands_throw _
    | element space name attributes => cases hinstruction
    | text payload => cases hinstruction
    | cdata payload => cases hinstruction
    | comment payload => cases hinstruction

/-! ## Section 3: The values of one attribute -/

/-- The table of one attribute has the values of that attribute under their names. -/
theorem Tables.get?_valuesOf {tables : Tables} {name token value : String} :
    (tables.valuesOf name).get? token = some value ↔
      tables.attributes.get? token = some (name, value) := by
  rw [valuesOf, OrderedMap.get?_mapValues, Option.map_eq_some_iff, OrderedMap.get?_eq_some_iff]
  have hfilter : ∀ pair : String × String,
      (tables.attributes.filter fun _ entry => entry.1 = name).get? token = some pair ↔
        (token, pair) ∈ tables.attributes.entries ∧ pair.1 = name := by
    intro pair
    rw [OrderedMap.get?_eq_some_iff, OrderedMap.filter]
    simp
  constructor
  · intro h
    obtain ⟨pair, hpair, rfl⟩ := h
    obtain ⟨hentry, rfl⟩ := (hfilter pair).mp hpair
    exact hentry
  · intro h
    exact ⟨(name, value), (hfilter _).mpr ⟨h, rfl⟩, rfl⟩

end TreeNotation.Xml
