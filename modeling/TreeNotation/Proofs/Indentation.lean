import TreeNotation.Proofs.Characters
import TreeNotation.Proofs.Conversion
import TreeNotation.Proofs.Json.Reading
import TreeNotation.Proofs.Json.Requests

/-!
# Indentation

A document is written on one line or over several lines. If no tag is empty or holds a blank, no name
or value of an attribute, no key and no payload of a leaf that is no string breaks, and no namespace
prefix that is written as it is breaks or begins with a space, then the two notations differ in layout
only.

- **Pieces**: what the parts of a node are written with, none of which breaks;
- **Formats**: `Html.gives_own` and its companions, one for each format;
- **Documents**: `Document.StaysOnLine`, `Document.PrefixesStayOnLine` and `convert_indented`, with
  `prefix_disturbs_layout` for what prefixes do otherwise.
-/

namespace TreeNotation

open Token (Gives Ledger Supply gives_bind gives_pure gives_request gives_throw vocabulary)
open Writing (Attributes Conversion Unbroken braced unbreak)

/-! ## Section 1: Pieces of a line -/

namespace Text

theorem forall_not_isBlank_of_any {cs : List Char} (h : cs.any isBlank = false) :
    ∀ c ∈ cs, isBlank c = false :=
  fun c hc => Bool.eq_false_iff.mpr (List.any_eq_false.mp h c hc)

theorem not_break_of_forall_not_isBlank {cs : List Char} (h : ∀ c ∈ cs, isBlank c = false) :
    '\n' ∉ cs :=
  fun hmem => absurd (h _ hmem) (by decide)

theorem not_break_of_mem_vocabulary {name : String} (h : name ∈ vocabulary) :
    '\n' ∉ name.toList :=
  not_break_of_forall_not_isBlank (isBlank_of_mem_vocabulary h)

theorem not_break_escapeText (payload : String) : '\n' ∉ (escapeText payload).toList := by
  intro h
  rw [toList_escapeText] at h
  exact absurd (collapse_forall_eq_space _ _ h (by decide)) (by decide)

/-- A text without blanks does not break, and it does not begin with a space. -/
theorem unbroken_of_forall_not_isBlank {cs : List Char} (hne : cs ≠ [])
    (h : ∀ c ∈ cs, isBlank c = false) : Unbroken cs where
  ne_nil := hne
  head?_ne hhead := absurd (h _ (List.mem_of_mem_head? hhead)) (by decide)
  not_break := not_break_of_forall_not_isBlank h

/-- Beside the texts of a node, nothing is written that breaks. -/
theorem allows_ne_break : Allows (· ≠ '\n') where
  letter c hc := by
    rintro rfl
    cases hc
  mark := by simp

end Text

namespace Writing

/-- No name and no value of an attribute breaks. -/
def StaysOnLine (attributes : Attributes) : Prop :=
  ∀ a ∈ attributes.entries, '\n' ∉ a.1.toList ∧ '\n' ∉ a.2.toList

theorem StaysOnLine.within {attributes : Attributes} (h : StaysOnLine attributes) :
    Within (· ≠ '\n') attributes :=
  fun a ha => ⟨fun _ hc hbreak => (h a ha).1 (hbreak ▸ hc),
    fun _ hc hbreak => (h a ha).2 (hbreak ▸ hc)⟩

/-- Behind a text that does not break there may be more that does not break. -/
theorem Unbroken.append_within {front rest : String} (h : Unbroken front.toList)
    (hrest : Text.Within (· ≠ '\n') rest) : Unbroken (front ++ rest).toList := by
  rw [String.toList_append]
  exact h.append fun hmem => hrest _ hmem rfl

/-- A payload in braces does not break if it does not and the word before it is plain. -/
theorem unbroken_braced {word payload : String} (hword : word.toList.any Text.isBlank = false)
    (hpayload : '\n' ∉ payload.toList) : Unbroken (braced word payload).toList := by
  have hbrace : ∀ c ∈ word.toList ++ ['\x7b'], Text.isBlank c = false := by
    intro c hc
    rcases List.mem_append.mp hc with hc | hc
    · exact Text.forall_not_isBlank_of_any hword c hc
    · rw [List.mem_singleton.mp hc]
      rfl
  have hfront := Text.unbroken_of_forall_not_isBlank (by simp) hbrace
  have hrest : '\n' ∉ payload.toList ++ ['\x7d'] := by simp [hpayload]
  simpa [braced] using hfront.append hrest

end Writing

/-! ## Section 2: HTML -/

namespace Html

variable {options : HtmlOptions}

/-- The node is written on one line: its tag is not empty and holds no blank, and its attributes do
not break. A text is always written on one line. -/
def Content.StaysOnLine : Content → Prop
  | .text _ => True
  | .element tag attributes => tag ≠ "" ∧ (∀ c ∈ tag.toList, Text.isBlank c = false) ∧
      Writing.StaysOnLine attributes

theorem gives_own {content : Content} (h : content.StaysOnLine) :
    Gives (Ledger.Sound vocabulary Slot.literal) (fun text => Unbroken text.toList)
      (own options content) := by
  cases content with
  | text payload =>
    exact gives_pure (Writing.unbroken_braced (by simp) (Text.not_break_escapeText payload))
  | element tag attributes =>
    obtain ⟨hne, hblank, hattributes⟩ := h
    have htag : Unbroken tag.toList :=
      Text.unbroken_of_forall_not_isBlank (by simpa using hne) hblank
    refine (gives_element Text.allows_ne_break tag hattributes.within).imp ?_
    rintro _ ⟨rest, rfl, hrest⟩
    exact Writing.Unbroken.append_within htag hrest

end Html

/-! ## Section 3: XML -/

namespace Xml

variable {options : XmlOptions}

/-- The node is written on one line behind its prefix: its tag is not empty and holds no blank, and
its attributes do not break. All other nodes are written on one line. -/
def Content.StaysOnLine : Content → Prop
  | .element _ name attributes => name ≠ "" ∧ (∀ c ∈ name.toList, Text.isBlank c = false) ∧
      Writing.StaysOnLine attributes
  | _ => True

theorem Content.staysOnLine_bare (space : Option String) {name : String} (hne : name ≠ "")
    (hblank : name.toList.any Text.isBlank = false) :
    (Content.element space name OrderedMap.empty).StaysOnLine :=
  ⟨hne, Text.forall_not_isBlank_of_any hblank, fun _ ha => absurd ha List.not_mem_nil⟩

/-- The prefix of the node, if it has one, does not break and does not begin with a space. -/
def Content.PrefixStaysOnLine (content : Content) : Prop :=
  ∀ space, content.space? = some space → '\n' ∉ space.toList ∧ space.toList.head? ≠ some ' '

theorem unbroken_nameText {space name : String} (hbreak : '\n' ∉ space.toList)
    (hhead : space.toList.head? ≠ some ' ') (hname : ∀ c ∈ name.toList, Text.isBlank c = false) :
    Unbroken (nameText (some space) name).toList where
  ne_nil := by simp [nameText]
  head?_ne := by
    simp only [nameText, String.toList_append]
    -- An empty prefix leaves the backslash at the beginning.
    cases hspace : space.toList with
    | nil => simp
    | cons c cs =>
      rw [hspace] at hhead
      exact hhead
  not_break := by
    simp [nameText, hbreak, Text.not_break_of_forall_not_isBlank hname]

/-- A name of the vocabulary may stand in for any prefix. -/
theorem unbroken_nameText_of_mem_vocabulary {token name : String} (htoken : token ∈ vocabulary)
    (hname : ∀ c ∈ name.toList, Text.isBlank c = false) :
    Unbroken (nameText (some token) name).toList :=
  unbroken_nameText (Text.not_break_of_mem_vocabulary htoken)
    (fun hhead => absurd (Text.isBlank_of_mem_vocabulary htoken ' ' (List.mem_of_mem_head? hhead))
      (by decide)) hname

theorem gives_own (id : NodeId) {content : Content} (h : content.StaysOnLine)
    (hspaces : options.simplifyNamespaces = false → content.PrefixStaysOnLine) :
    Gives (Ledger.Sound vocabulary Slot.literal) (fun text => Unbroken text.toList)
      (own options id content) := by
  cases content with
  | text payload =>
    exact gives_pure (Writing.unbroken_braced (by simp) (Text.not_break_escapeText payload))
  | cdata payload =>
    refine gives_pure (Writing.unbroken_braced ?_ (Text.not_break_escapeText payload))
    split <;> decide
  | comment payload =>
    exact gives_pure (Writing.unbroken_braced (by decide) (Text.not_break_escapeText payload))
  | instruction target data => exact gives_throw _
  | element space name attributes =>
    obtain ⟨hne, hblank, hattributes⟩ := h
    have hname : space.bind (spaceSlot? options) = none → Unbroken (nameText space name).toList := by
      intro hplain
      cases space with
      | none => exact Text.unbroken_of_forall_not_isBlank (by simpa [nameText] using hne) hblank
      | some space =>
        -- The prefix is written as it is, so it counts how it begins and whether it breaks.
        have hoff : options.simplifyNamespaces = false := by simpa [spaceSlot?] using hplain
        obtain ⟨hbreak, hhead⟩ := hspaces hoff space rfl
        exact unbroken_nameText hbreak hhead hblank
    refine (gives_element (Q := fun front => Unbroken front.toList) Text.allows_ne_break hname
      (fun token htoken _ => unbroken_nameText_of_mem_vocabulary htoken hblank)
      hattributes.within id).imp ?_
    rintro _ ⟨front, rest, rfl, hfront, hrest⟩
    exact Writing.Unbroken.append_within hfront hrest

end Xml

/-! ## Section 4: JSON -/

namespace Json

variable {options : JsonOptions}

theorem Content.OneLine.unbroken {content : Content} (h : content.OneLine) :
    Unbroken content.spell.toList :=
  have hline := isLine_spell h
  ⟨hline.ne_nil, hline.head?_ne, hline.not_break⟩

/-- A node is written as it is or as a node with a name in the place of its key or payload. -/
theorem gives_own {content : Content} (h : content.OneLine) :
    Gives (Ledger.Sound vocabulary Slot.literal) (fun text => Unbroken text.toList)
      (own options content) := by
  cases content with
  | object => exact gives_pure h.unbroken
  | array => exact gives_pure h.unbroken
  | property key =>
    apply gives_bind (Q := fun shown : String => '\n' ∉ shown.toList)
    · unfold writeKey
      split
      · exact (gives_request _).imp fun token => Text.not_break_of_mem_vocabulary
      · exact gives_pure h
    · intro shown hshown
      have hline : (Content.property shown).OneLine := hshown
      exact gives_pure hline.unbroken
  | leaf type payload =>
    cases type with
    | string =>
      apply gives_bind (Q := fun _ : String => True)
      · unfold writeString
        split
        · exact (gives_request _).imp fun _ _ => trivial
        · exact gives_pure trivial
      · intro shown _
        have hline : (Content.leaf .string shown).OneLine := trivial
        exact gives_pure hline.unbroken
    | number => exact gives_pure h.unbroken
    | boolean => exact gives_pure h.unbroken
    | null => exact gives_pure h.unbroken

end Json

/-! ## Section 5: Documents -/

/-- Two conversions, one over several lines and one on one line, that differ in layout only.
`isLineAt` says which texts are lines of a node at a depth, and `places` are the nodes with lines of
their own in document order. -/
structure LaidOut {μ : Type} (isLineAt : NodeId × Nat → String → Prop) (places : List (NodeId × Nat))
    (indented plain : Except Error (Conversion μ)) : Prop where
  /-- Both have the same tables or fail in the same way, and without its breaks and the spaces that
  follow them the one text is the other. -/
  unbreak_eq : indented.map (fun result => ⟨unbreak result.text, result.tables⟩) = plain
  /-- The text consists of one line for each of the nodes. -/
  exists_lines : ∀ result, indented = .ok result →
    ∃ lines, result.text = "\n".intercalate lines ∧ List.Forall₂ isLineAt places lines

/-- It does not matter what the tables are packed into. -/
theorem LaidOut.wrap {μ : Type} {isLineAt : NodeId × Nat → String → Prop}
    {places : List (NodeId × Nat)} {indented plain : Except Error (Conversion μ)}
    (h : LaidOut isLineAt places indented plain) (pack : μ → Tables) :
    LaidOut isLineAt places (do let result ← indented; return ⟨result.text, pack result.tables⟩)
      (do let result ← plain; return ⟨result.text, pack result.tables⟩) := by
  obtain ⟨rfl, hlines⟩ := h
  cases indented with
  | error e => exact ⟨rfl, fun result hresult => by cases hresult⟩
  | ok inner =>
    refine ⟨rfl, fun result hresult => ?_⟩
    cases hresult
    exact hlines inner rfl

/-- Without its breaks and the spaces that follow them the text of the one is that of the other. -/
theorem LaidOut.unbreak_text {μ : Type} {isLineAt : NodeId × Nat → String → Prop}
    {places : List (NodeId × Nat)} {indented plain : Except Error (Conversion μ)}
    (h : LaidOut isLineAt places indented plain) :
    (indented.map Conversion.text).map unbreak = plain.map Conversion.text := by
  rw [← h.unbreak_eq]
  cases indented <;> rfl

theorem map_text_wrap {μ : Type} (conversion : Except Error (Conversion μ)) (pack : μ → Tables) :
    (do let result ← conversion
        return (⟨result.text, pack result.tables⟩ : Conversion Tables)).map Conversion.text =
      conversion.map Conversion.text := by
  cases conversion <;> rfl

/-- A dialect that writes no node with a break writes a forest in two layouts alike. -/
theorem Writing.Dialect.laidOut {α κ μ : Type} {d : Dialect α κ} {f : Forest α}
    {P : Ledger κ → Prop} {a : Supply} (hf : f.WellFormed) (hP : P (Ledger.ofSupply a))
    (hown : ∀ id label, f.label? id = some label →
      Gives P (fun text => Unbroken text.toList) (d.own id label))
    (tables : Ledger κ → μ) (width : Nat) :
    LaidOut (d.IsLineAt f width) (d.linedEach 0 f.trees)
      ((d.withLayout (.indented width)).convertWith tables a f)
      ((d.withLayout .line).convertWith tables a f) where
  unbreak_eq := convertWith_unbreak hP hown hf tables width
  exists_lines _ h := lines_of_convertWith hP hown hf h

namespace Document

/-- No tag is empty or holds a blank, and no name or value of an attribute, no key and no payload of
a leaf that is no string breaks. -/
def StaysOnLine : Document → Prop
  | .html doc => ∀ id entry, doc.label? id = some entry → entry.content.StaysOnLine
  | .json doc => ∀ id entry, doc.label? id = some entry → entry.content.OneLine
  | .xml doc => ∀ id content, doc.label? id = some content → content.StaysOnLine

/-- No namespace prefix that is written as it is breaks or begins with a space. -/
def PrefixesStayOnLine (config : Config) : Document → Prop
  | .xml doc => config.xml.simplifyNamespaces = false →
    ∀ id content, doc.label? id = some content → content.PrefixStaysOnLine
  | _ => True

/-- The nodes that have lines of their own with their depths, in document order: those that are
written, but for texts directly after the node above them. -/
def lined (config : Config) : Document → List (NodeId × Nat)
  | .html doc => (Html.dialect config doc).linedEach 0 doc.trees
  | .json doc => (Json.dialect config).linedEach 0 doc.trees
  | .xml doc => (Xml.dialect config).linedEach 0 doc.trees

/-- The line is of the node at a place: the depth is that of the node, and behind as many spaces as it
asks for there is no further one but the text of the node, or an opening parenthesis before it. -/
def IsLineAt (config : Config) : Document → NodeId × Nat → String → Prop
  | .html doc => (Html.dialect config doc).IsLineAt doc config.indentWidth
  | .json doc => (Json.dialect config).IsLineAt doc config.indentWidth
  | .xml doc => (Xml.dialect config).IsLineAt doc config.indentWidth

/-- Over several lines a document is converted as on one line: with the same tables or the same
failure, and with the same text but for the breaks and the margins of its lines. There is a line for
each node that is written, texts directly after the node above them aside, and its margin goes with
the depth of the node. -/
theorem convert_indented {doc : Document} (hdoc : doc.Reachable) (hline : doc.StaysOnLine)
    (config : Config) (hprefixes : doc.PrefixesStayOnLine config) :
    LaidOut (doc.IsLineAt config) (doc.lined config) (doc.convert { config with indent := true })
      (doc.convert { config with indent := false }) := by
  cases doc with
  | html doc =>
    have hlaid := (Html.dialect config doc).laidOut hdoc.wellFormed
      (Ledger.Sound.ofVocabulary vocabulary Html.Slot.literal)
      (fun id entry hentry => Html.gives_own (hline id entry hentry)) Html.tables config.indentWidth
    exact hlaid.wrap .html
  | json doc =>
    have hlaid := (Json.dialect config).laidOut hdoc.wellFormed
      (Ledger.Sound.ofVocabulary vocabulary Json.Slot.literal)
      (fun id entry hentry => Json.gives_own (hline id entry hentry)) Json.tables config.indentWidth
    exact hlaid.wrap .json
  | xml doc =>
    have hlaid := (Xml.dialect config).laidOut hdoc.wellFormed
      (Ledger.Sound.ofVocabulary vocabulary Xml.Slot.literal)
      (fun id content hcontent => Xml.gives_own id (hline id content hcontent)
        fun hoff => hprefixes hoff id content hcontent) Xml.tables config.indentWidth
    exact hlaid.wrap .xml

/-- A paragraph with a text and a bold part in it, in parentheses beside another element. The text
has no line of its own. -/
theorem paragraph_indented :
    let doc : Html.Document := List.foldl Html.Document.perform Forest.empty
      [.addRootElement "div" OrderedMap.empty, .addElement "p" (.ofList [("class", "big")]),
        .addText "hi", .addElement "b" OrderedMap.empty, .addElement "i" OrderedMap.empty,
        .attach 1 0, .attach 2 1, .attach 3 1, .attach 4 0]
    ((html doc).Reachable ∧ (html doc).StaysOnLine ∧ (html doc).PrefixesStayOnLine {}) ∧
      ((html doc).lined {} = [(0, 0), (1, 1), (3, 2), (4, 1)] ∧
        ((html doc).convert { indent := true }).map Conversion.text =
          .ok "div>\n  (p.big{hi}>\n    b)+\n  i") ∧
      LaidOut ((html doc).IsLineAt {}) ((html doc).lined {}) ((html doc).convert { indent := true })
        ((html doc).convert {}) := by
  intro doc
  have hdoc : (html doc).Reachable := ⟨Forest.empty, _, rfl, rfl⟩
  have hline : (html doc).StaysOnLine := by
    have hwords : ∀ tag ∈ ["div", "p", "b", "i"],
        tag ≠ "" ∧ ∀ c ∈ tag.toList, Text.isBlank c = false := by
      have hplain : ∀ tag ∈ ["div", "p", "b", "i"],
          tag ≠ "" ∧ tag.toList.any Text.isBlank = false := by
        decide
      exact fun tag htag => (hplain tag htag).imp_right Text.forall_not_isBlank_of_any
    intro id entry hentry
    match id with
    | 0 =>
      cases hentry
      exact ⟨(hwords "div" (by simp)).1, (hwords "div" (by simp)).2, fun a ha => by cases ha⟩
    | 1 =>
      cases hentry
      refine ⟨(hwords "p" (by simp)).1, (hwords "p" (by simp)).2, fun a ha => ?_⟩
      obtain rfl := List.mem_singleton.mp ha
      decide
    | 2 =>
      cases hentry
      trivial
    | 3 =>
      cases hentry
      exact ⟨(hwords "b" (by simp)).1, (hwords "b" (by simp)).2, fun a ha => by cases ha⟩
    | 4 =>
      cases hentry
      exact ⟨(hwords "i" (by simp)).1, (hwords "i" (by simp)).2, fun a ha => by cases ha⟩
    | id + 5 => cases hentry
  have hroots : doc.rootIds = [0] := Forest.rootIds_of_roots rfl
  have hlined : (html doc).lined {} = [(0, 0), (1, 1), (3, 2), (4, 1)] := by
    have htrees : doc.trees = [0].filterMap doc.subtree? := by rw [← hroots]; rfl
    show (Html.dialect {} doc).linedEach 0 doc.trees = _
    rw [htrees]
    rfl
  have htext : (Html.convert { indent := true } .standard doc).map Conversion.text =
      .ok "div>\n  (p.big{hi}>\n    b)+\n  i" := by
    unfold Html.convert Writing.Dialect.convertWith Writing.Dialect.convert
    rw [hroots]
    rfl
  refine ⟨⟨hdoc, hline, trivial⟩, ⟨hlined, ?_⟩, convert_indented hdoc hline {} trivial⟩
  exact (map_text_wrap _ .html).trans htext

/-- Both conditions on prefixes are needed. A prefix that breaks on one line breaks over several lines
as well, and a prefix that begins with a space makes the margin of its line too wide. -/
theorem prefix_disturbs_layout :
    let broken : Xml.Document := List.foldl Xml.Document.perform Forest.empty
      [.addRootElement "a\nb:c" OrderedMap.empty]
    let spaced : Xml.Document := List.foldl Xml.Document.perform Forest.empty
      [.addRootElement "r" OrderedMap.empty, .addElement " p:c" OrderedMap.empty, .attach 1 0]
    let text (doc : Xml.Document) (config : Config) := ((xml doc).convert config).map Conversion.text
    (((xml broken).Reachable ∧ (xml broken).StaysOnLine) ∧
      text broken { indent := true } = .ok "a\nb\\:c" ∧ text broken {} = .ok "a\nb\\:c" ∧
      ¬ LaidOut ((xml broken).IsLineAt {}) ((xml broken).lined {})
        ((xml broken).convert { indent := true }) ((xml broken).convert {})) ∧
    ((xml spaced).Reachable ∧ (xml spaced).StaysOnLine) ∧
      text spaced { indent := true } = .ok "r>\n   p\\:c" ∧ text spaced {} = .ok "r> p\\:c" ∧
      ¬ LaidOut ((xml spaced).IsLineAt {}) ((xml spaced).lined {})
        ((xml spaced).convert { indent := true }) ((xml spaced).convert {}) := by
  intro broken spaced text
  have hbroken : broken.rootIds = [0] := Forest.rootIds_of_roots rfl
  have hspaced : spaced.rootIds = [0] := Forest.rootIds_of_roots rfl
  have hbrokenText : ∀ indent, text broken { indent := indent } = .ok "a\nb\\:c" := by
    intro indent
    refine (map_text_wrap _ .xml).trans ?_
    unfold Xml.convert Writing.Dialect.convertWith Writing.Dialect.convert
    rw [hbroken]
    cases indent <;> rfl
  have hspacedText : ∀ indent, text spaced { indent := indent } =
      .ok (bif indent then "r>\n   p\\:c" else "r> p\\:c") := by
    intro indent
    refine (map_text_wrap _ .xml).trans ?_
    unfold Xml.convert Writing.Dialect.convertWith Writing.Dialect.convert
    rw [hspaced]
    cases indent <;> rfl
  refine ⟨⟨⟨⟨Forest.empty, _, rfl, rfl⟩, ?_⟩, hbrokenText true, hbrokenText false, fun hlaid => ?_⟩,
    ⟨⟨Forest.empty, _, rfl, rfl⟩, ?_⟩, hspacedText true, hspacedText false, fun hlaid => ?_⟩
  · intro id content hcontent
    match id with
    | 0 =>
      cases hcontent
      exact Xml.Content.staysOnLine_bare _ (by decide) (by decide)
    | id + 1 => cases hcontent
  · have hunbreak : (text broken { indent := true }).map unbreak = text broken {} :=
      hlaid.unbreak_text
    rw [hbrokenText true, hbrokenText false] at hunbreak
    exact absurd (Except.ok.inj hunbreak) (by decide)
  · intro id content hcontent
    match id with
    | 0 =>
      cases hcontent
      exact Xml.Content.staysOnLine_bare _ (by decide) (by decide)
    | 1 =>
      cases hcontent
      exact Xml.Content.staysOnLine_bare _ (by decide) (by decide)
    | id + 2 => cases hcontent
  · have hunbreak : (text spaced { indent := true }).map unbreak = text spaced {} :=
      hlaid.unbreak_text
    rw [hspacedText true, hspacedText false] at hunbreak
    exact absurd (Except.ok.inj hunbreak) (by decide)

end Document

end TreeNotation
