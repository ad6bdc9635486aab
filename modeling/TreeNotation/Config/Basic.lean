import TreeNotation.Ordered.Set
import TreeNotation.Writing.Layout

/-!
# Configurations

What a conversion is told: how the notation is laid out, what is left out of each format, and which
texts are replaced by names.

- `Config` with its default values, which leave nothing out and replace nothing;
- `Config.compactHtml`, `Config.compactJson`, `Config.compactXml`, the terse settings;
- `Config.layout`, the layout that a configuration asks for.
-/

namespace TreeNotation

/-! ## Options by format -/

/-- Which attributes of an element matter more. -/
structure AttributeTiers where
  /-- Kept if the element has any of them. -/
  primary : OrderedSet String :=
    .ofList ["id", "class", "href", "role", "aria-label", "title"]
  /-- Kept if the element has no primary one. -/
  secondary : OrderedSet String :=
    .ofList ["name", "type", "value", "placeholder", "alt", "for"]
  /-- Never kept. -/
  ignored : OrderedSet String :=
    .ofList ["style", "target", "rel", "loading", "srcset", "sizes", "width", "height"]

/-- Options for HTML documents. -/
structure HtmlOptions where
  /-- Class lists are replaced by names. -/
  simplifyClasses : Bool := false
  /-- Sources of images are replaced by names. -/
  simplifyImages : Bool := false
  /-- Targets of links to elsewhere are replaced by names. -/
  simplifyAbsoluteLinks : Bool := false
  /-- Targets of links within the site are replaced by names. -/
  simplifyRelativeLinks : Bool := false
  /-- The elements of `tagsToSkip` are left out. -/
  skipTags : Bool := false
  /-- Attributes with an empty value are left out. -/
  skipEmptyAttributes : Bool := false
  /-- Only the attributes of the highest tier are written. -/
  prioritizeAttributes : Bool := false
  /-- Tags of the elements to leave out. -/
  tagsToSkip : OrderedSet String :=
    .ofList ["script", "style", "noscript", "head", "meta", "link", "title", "base", "svg"]
  /-- The tiers of attributes. -/
  tiers : AttributeTiers := {}

/-- Options for JSON documents. -/
structure JsonOptions where
  /-- Keys are replaced by names. -/
  simplifyKeys : Bool := false
  /-- Strings of more than `stringLengthThreshold` characters are replaced by names. -/
  simplifyLongStrings : Bool := false
  /-- The length up to which a string is written out. -/
  stringLengthThreshold : Nat := 20
  /-- Part of every configuration; the notation of arrays is the same either way. -/
  compactArrays : Bool := false
  /-- Part of every configuration; the notation of objects is the same either way. -/
  compactObjects : Bool := false

/-- Options for XML documents. -/
structure XmlOptions where
  /-- Namespace prefixes are replaced by names. -/
  simplifyNamespaces : Bool := false
  /-- Attribute values of more than `attributeLengthThreshold` characters are replaced by names. -/
  simplifyLongAttributes : Bool := false
  /-- The length up to which an attribute value is written out. -/
  attributeLengthThreshold : Nat := 20
  /-- Comments are left out. -/
  skipComments : Bool := false
  /-- The elements of `tagsToSkip` are left out. -/
  skipTags : Bool := false
  /-- Character data is marked as such; otherwise it is written like plain text. -/
  preserveCData : Bool := true
  /-- Names of the elements to leave out, with or without their prefix. -/
  tagsToSkip : OrderedSet String := .ofList ["xsl:stylesheet", "xsl:template", "xs:schema"]

/-! ## Configurations -/

/-- What a conversion is told. -/
structure Config where
  /-- Part of every configuration; the notation is the same either way. -/
  debug : Bool := false
  /-- The notation is spread over several lines. -/
  indent : Bool := false
  /-- Spaces per level as asked for; see `Config.indentWidth`. -/
  indentSize : Nat := 2
  html : HtmlOptions := {}
  json : JsonOptions := {}
  xml : XmlOptions := {}

namespace Config

instance : Inhabited Config := ⟨{}⟩

/-- Spaces per level: the size asked for, brought into the range from 1 to 8. -/
def indentWidth (config : Config) : Nat := min 8 (max 1 config.indentSize)

/-- The layout that a configuration asks for. -/
def layout (config : Config) : Writing.Layout :=
  if config.indent then .indented config.indentWidth else .line

/-- Terse HTML: skipped tags, prioritized attributes, and names for class lists, image sources and
links to elsewhere. -/
def compactHtml : Config :=
  { html := { skipTags := true
              prioritizeAttributes := true
              simplifyClasses := true
              simplifyImages := true
              simplifyAbsoluteLinks := true } }

/-- Terse JSON: names for keys and long strings. -/
def compactJson : Config :=
  { json := { simplifyKeys := true
              simplifyLongStrings := true
              compactArrays := true
              compactObjects := true } }

/-- Terse XML: no comments, and names for namespace prefixes and long attribute values. -/
def compactXml : Config :=
  { xml := { simplifyNamespaces := true
             simplifyLongAttributes := true
             skipComments := true } }

/-! ## The range of widths -/

theorem one_le_indentWidth (config : Config) : 1 ≤ config.indentWidth := by
  simp only [indentWidth]; omega

theorem indentWidth_le_eight (config : Config) : config.indentWidth ≤ 8 := by
  simp only [indentWidth]; omega

theorem indentWidth_of_mem {config : Config} (h : 1 ≤ config.indentSize)
    (h' : config.indentSize ≤ 8) : config.indentWidth = config.indentSize := by
  simp only [indentWidth]; omega

end Config

end TreeNotation
