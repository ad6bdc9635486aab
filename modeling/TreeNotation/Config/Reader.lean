import TreeNotation.Config.Check
import TreeNotation.Json.Number

/-!
# Configurations from Texts

Reading a configuration from a JSON text. What the text does not mention has its default value.
Members that are no options are passed over. Options may also be given without their names, as an
array in the order of the fields.

- `Config.parse?` reads a configuration;
- `Config.read` reads and checks one.
-/

namespace TreeNotation

open Json

/-! ## Values of options -/

/-- The value of an option that is on or off. -/
def flag? : Raw → Option Bool
  | .bool value => some value
  | _ => none

/-- The value of an option that is a number. -/
def natural? : Raw → Option Nat
  | .number numeral => numeral.natural?
  | _ => none

/-- The value of an option that is a text. -/
def option? : Raw → Option String
  | .string units => text? units
  | _ => none

/-- The value of an option that is a set of texts. -/
def texts? : Raw → Option (OrderedSet String)
  | .array items => (items.mapM option?).map OrderedSet.ofList
  | _ => none

/-! ## Groups of options -/

/-- An option of a group: its name and how its value is put into the group. -/
structure OptionField (α : Type) where
  name : String
  set? : α → Raw → Option α

/-- The option `name` whose value is read by `value?` and put into a group by `set`. -/
def OptionField.of {α β : Type} (name : String) (value? : Raw → Option β) (set : α → β → α) :
    OptionField α :=
  ⟨name, fun group raw => (value? raw).map (set group)⟩

/-- Options given in the order of the fields. Trailing ones may be missing; more than there are
fields are refused. -/
def readInOrder? {α : Type} (group : α) : List (OptionField α) → List Raw → Option α
  | _, [] => some group
  | [], _ :: _ => none
  | field :: fields, raw :: raws => do readInOrder? (← field.set? group raw) fields raws

/-- Options given by name. Names that no field has are passed over. -/
def readByName? {α : Type} (fields : List (OptionField α)) (group : α) :
    List (String × Raw) → Option α
  | [] => some group
  | (name, raw) :: members =>
    match fields.find? fun field => field.name = name with
    | some field => do readByName? fields (← field.set? group raw) members
    | none => readByName? fields group members

/-- The members of an object under their names. -/
def named? (members : List (List CodeUnit × Raw)) : Option (List (String × Raw)) :=
  members.mapM fun member => (text? member.1).map fun name => (name, member.2)

/-- A group of options. An option may not be given twice. -/
def readGroup? {α : Type} (fields : List (OptionField α)) (defaults : α) : Raw → Option α
  | .array items => readInOrder? defaults fields items
  | .object members => do
    let members ← named? members
    -- Names that are no options may come as often as they like.
    let given := (members.map Prod.fst).filter fun name => fields.any fun field => field.name = name
    if given.Nodup then readByName? fields defaults members else none
  | _ => none

/-! ## The options -/

/-- The fields of the attribute tiers. -/
def AttributeTiers.fields : List (OptionField AttributeTiers) :=
  [.of "primaryAttrs" texts? fun tiers v => { tiers with primary := v },
    .of "secondaryAttrs" texts? fun tiers v => { tiers with secondary := v },
    .of "ignoreAttrs" texts? fun tiers v => { tiers with ignored := v }]

/-- The fields of the options for HTML documents. -/
def HtmlOptions.fields : List (OptionField HtmlOptions) :=
  [.of "simplifyClasses" flag? fun html v => { html with simplifyClasses := v },
    .of "simplifyImages" flag? fun html v => { html with simplifyImages := v },
    .of "simplifyAbsoluteLinks" flag? fun html v => { html with simplifyAbsoluteLinks := v },
    .of "simplifyRelativeLinks" flag? fun html v => { html with simplifyRelativeLinks := v },
    .of "skipTags" flag? fun html v => { html with skipTags := v },
    .of "skipEmptyAttributes" flag? fun html v => { html with skipEmptyAttributes := v },
    .of "prioritizeAttributes" flag? fun html v => { html with prioritizeAttributes := v },
    .of "tagsToSkip" texts? fun html v => { html with tagsToSkip := v },
    .of "attributesPriority" (readGroup? AttributeTiers.fields {}) fun html v =>
      { html with tiers := v }]

/-- The fields of the options for JSON documents. -/
def JsonOptions.fields : List (OptionField JsonOptions) :=
  [.of "simplifyKeys" flag? fun json v => { json with simplifyKeys := v },
    .of "simplifyLongStrings" flag? fun json v => { json with simplifyLongStrings := v },
    .of "stringLengthThreshold" natural? fun json v => { json with stringLengthThreshold := v },
    .of "compactArrays" flag? fun json v => { json with compactArrays := v },
    .of "compactObjects" flag? fun json v => { json with compactObjects := v }]

/-- The fields of the options for XML documents. -/
def XmlOptions.fields : List (OptionField XmlOptions) :=
  [.of "simplifyNamespaces" flag? fun xml v => { xml with simplifyNamespaces := v },
    .of "simplifyLongAttributes" flag? fun xml v => { xml with simplifyLongAttributes := v },
    .of "attributeLengthThreshold" natural? fun xml v =>
      { xml with attributeLengthThreshold := v },
    .of "skipComments" flag? fun xml v => { xml with skipComments := v },
    .of "skipTags" flag? fun xml v => { xml with skipTags := v },
    .of "preserveCData" flag? fun xml v => { xml with preserveCData := v },
    .of "tagsToSkip" texts? fun xml v => { xml with tagsToSkip := v }]

namespace Config

/-- The fields of a configuration. -/
def fields : List (OptionField Config) :=
  [.of "debug" flag? fun config v => { config with debug := v },
    .of "indent" flag? fun config v => { config with indent := v },
    .of "indentSize" natural? fun config v => { config with indentSize := v },
    .of "html" (readGroup? HtmlOptions.fields {}) fun config v => { config with html := v },
    .of "json" (readGroup? JsonOptions.fields {}) fun config v => { config with json := v },
    .of "xml" (readGroup? XmlOptions.fields {}) fun config v => { config with xml := v }]

/-- The configuration of what has been read. -/
def ofRaw? (raw : Raw) : Option Config := readGroup? fields {} raw

/-- The configuration that a text describes. -/
def parse? (text : String) : Option Config := (Raw.parse? text).bind ofRaw?

/-- The configuration that a text describes, or the complaint that it describes none. -/
def decode (text : String) : Except Error Config :=
  match parse? text with
  | some config => .ok config
  | none => .error (.configuration .unreadable)

/-- The checked configuration that a text describes. -/
def read (text : String) : Except Error Config := do (← decode text).check

end Config

end TreeNotation
