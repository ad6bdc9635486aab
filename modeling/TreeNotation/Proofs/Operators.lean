import TreeNotation.Proofs.Characters
import TreeNotation.Proofs.Conversion
import TreeNotation.Proofs.Json.Requests
import TreeNotation.Proofs.Writing.Operators

/-!
# No Stray Operators

On one line, operators and parentheses stand where the structure of a document puts them and nowhere
else, whatever is left out and whatever names stand in for, as long as the texts of the document
hold no such signs themselves.

- **Formats**: `Html.gives_signless` and its companions; a node without signs is written without;
- **Documents**: `Document.Signless` and `convert_orderly`.
-/

namespace TreeNotation

open Token (Gives Ledger gives_bind gives_inPlace gives_pure gives_throw vocabulary)
open Writing (Conversion Orderly Signless braced isOperator)

/-! ## Section 1: Texts without signs -/

/-- The text holds none of the signs that stand between nodes. -/
abbrev Text.Plain (text : String) : Prop := Text.Within (fun c => isOperator c = false) text

/-- Beside the texts of a node, no sign is written that could stand between nodes. -/
theorem Text.allows_plain : Allows fun c => isOperator c = false where
  letter c hc := by
    by_contra hsign
    simp only [isOperator, Bool.not_eq_false, Bool.or_eq_true, beq_iff_eq] at hsign
    rcases hsign with ((rfl | rfl) | rfl) | rfl <;> cases hc
  mark := by simp [isOperator]

theorem Text.plain_of_any {word : String} (h : word.toList.any isOperator = false) :
    Text.Plain word :=
  fun c hc => Bool.eq_false_iff.mpr (List.any_eq_false.mp h c hc)

theorem Text.plain_of_mem_vocabulary {name : String} (h : name ∈ vocabulary) : Text.Plain name :=
  within_of_mem_vocabulary allows_plain h

theorem Writing.signless_braced {word payload : String} (hword : Text.Plain word)
    (hpayload : Text.Plain payload) : Signless (braced word payload) where
  ne_empty := by simp [braced]
  plain := within_braced Text.allows_plain hword hpayload

theorem Writing.Signless.append {front rest : String} (h : Signless front)
    (hrest : Text.Plain rest) : Signless (front ++ rest) where
  ne_empty := by simp [h.ne_empty]
  plain := Text.Within.append h.plain hrest

/-! ## Section 2: Formats -/

/-- The tag is not empty, and neither it nor the attributes hold signs; nor does a text. -/
def Html.Content.Signless : Html.Content → Prop
  | .element tag attributes =>
    Writing.Signless tag ∧ Writing.Within (fun c => isOperator c = false) attributes
  | .text payload => Text.Plain payload

theorem Html.gives_signless {options : HtmlOptions} {content : Html.Content}
    (h : content.Signless) :
    Gives (Ledger.Sound vocabulary Slot.literal) Signless (own options content) := by
  cases content with
  | text payload =>
    exact gives_pure (Writing.signless_braced Text.within_empty
      (Text.within_escapeText Text.allows_plain h))
  | element tag attributes =>
    refine (gives_element Text.allows_plain tag h.2).imp ?_
    rintro _ ⟨rest, rfl, hrest⟩
    exact h.1.append hrest

/-- No key and no payload of a leaf holds signs. -/
def Json.Content.Signless : Json.Content → Prop
  | .property key => Text.Plain key
  | .leaf _ payload => Text.Plain payload
  | _ => True

theorem Json.gives_signless {options : JsonOptions} {content : Json.Content}
    (h : content.Signless) :
    Gives (Ledger.Sound vocabulary Slot.literal) Signless (own options content) := by
  cases content with
  | object => exact gives_pure ⟨by decide, Text.plain_of_any (by decide)⟩
  | array => exact gives_pure ⟨by decide, Text.plain_of_any (by decide)⟩
  | property key =>
    have hkey : Text.Plain key := h
    rw [own, writeKey_eq]
    apply gives_bind (gives_inPlace (fun _ => hkey) fun _ => Text.plain_of_mem_vocabulary)
    intro shown hshown
    have hopening : Text.Plain "prop[" := Text.plain_of_any (by decide)
    have hclosing : Text.Plain "]" := Text.plain_of_any (by decide)
    exact gives_pure ⟨by simp, (hopening.append hshown).append hclosing⟩
  | leaf type payload =>
    have hpayload : Text.Plain payload := h
    cases type with
    | string =>
      rw [own, writeString_eq]
      apply gives_bind (gives_inPlace (fun _ => hpayload) fun _ => Text.plain_of_mem_vocabulary)
      intro shown hshown
      exact gives_pure (Writing.signless_braced (Text.plain_of_any (by decide))
        (Text.within_escapeString Text.allows_plain hshown))
    | number => exact gives_pure (Writing.signless_braced (Text.plain_of_any (by decide)) hpayload)
    | boolean => exact gives_pure (Writing.signless_braced (Text.plain_of_any (by decide)) hpayload)
    | null => exact gives_pure ⟨by decide, Text.plain_of_any (by decide)⟩

/-- The local name is not empty, and neither it nor the prefix nor the attributes hold signs; nor
does any text. A processing instruction is not written. -/
def Xml.Content.Signless : Xml.Content → Prop
  | .element space name attributes =>
    Writing.Signless name ∧ (∀ prior ∈ space, Text.Plain prior) ∧
      Writing.Within (fun c => isOperator c = false) attributes
  | .text payload | .cdata payload | .comment payload => Text.Plain payload
  | .instruction .. => True

theorem Xml.signless_nameText {space name : String} (hspace : Text.Plain space)
    (hname : Signless name) : Signless (nameText (some space) name) where
  ne_empty := by simp [nameText]
  plain := by
    have hcolon : Text.Plain "\\:" := Text.plain_of_any (by decide)
    exact (hspace.append hcolon).append hname.plain

theorem Xml.gives_signless {options : XmlOptions} (id : NodeId) {content : Xml.Content}
    (h : content.Signless) :
    Gives (Ledger.Sound vocabulary Slot.literal) Signless (own options id content) := by
  have hescape : ∀ {payload : String}, Text.Plain payload → Text.Plain (Text.escapeText payload) :=
    Text.within_escapeText Text.allows_plain
  cases content with
  | text payload => exact gives_pure (Writing.signless_braced Text.within_empty (hescape h))
  | cdata payload =>
    refine gives_pure (Writing.signless_braced ?_ (hescape h))
    split
    · exact Text.plain_of_any (by decide)
    · exact Text.within_empty
  | comment payload =>
    exact gives_pure (Writing.signless_braced (Text.plain_of_any (by decide)) (hescape h))
  | instruction target data => exact gives_throw _
  | element space name attributes =>
    obtain ⟨hname, hspace, hattributes⟩ := h
    have hfront : Signless (nameText space name) := by
      cases space with
      | none => exact hname
      | some prior => exact signless_nameText (hspace prior rfl) hname
    refine (gives_element Text.allows_plain (fun _ => hfront) ?_ hattributes id).imp ?_
    · exact fun token htoken _ => signless_nameText (Text.plain_of_mem_vocabulary htoken) hname
    · rintro _ ⟨front, rest, rfl, hfront, hrest⟩
      exact hfront.append hrest

/-! ## Section 3: Documents -/

namespace Document

/-- No tag is empty, and no tag, no prefix, no attribute and no text holds one of the signs that
stand between nodes. -/
def Signless : Document → Prop
  | .html doc => ∀ id entry, doc.label? id = some entry → entry.content.Signless
  | .json doc => ∀ id entry, doc.label? id = some entry → entry.content.Signless
  | .xml doc => ∀ id content, doc.label? id = some content → content.Signless

/-- On one line, a document whose texts hold no signs is written without stray operators, whatever
the configuration leaves out and whatever names stand in for. -/
theorem convert_orderly {doc : Document} (hdoc : doc.Reachable) (hsigns : doc.Signless)
    {config : Config} (hline : config.indent = false) {result : Conversion Tables}
    (hresult : doc.convert config = .ok result) : Orderly result.text := by
  have hlayout : config.layout = .line := by simp [Config.layout, hline]
  cases doc with
  | html doc =>
    obtain ⟨inner, hinner, rfl⟩ := except_bind_eq_ok_iff.mp hresult
    have hsound := Ledger.Sound.ofVocabulary vocabulary Html.Slot.literal
    show Orderly inner.text
    exact Writing.Dialect.orderly_of_convertWith (d := Html.dialect config doc) hdoc.wellFormed
      hlayout hsound (fun id entry hentry => Html.gives_signless (hsigns id entry hentry)) hinner
  | json doc =>
    obtain ⟨inner, hinner, rfl⟩ := except_bind_eq_ok_iff.mp hresult
    have hsound := Ledger.Sound.ofVocabulary vocabulary Json.Slot.literal
    show Orderly inner.text
    exact Writing.Dialect.orderly_of_convertWith (d := Json.dialect config) hdoc.wellFormed
      hlayout hsound (fun id entry hentry => Json.gives_signless (hsigns id entry hentry)) hinner
  | xml doc =>
    obtain ⟨inner, hinner, rfl⟩ := except_bind_eq_ok_iff.mp hresult
    have hsound := Ledger.Sound.ofVocabulary vocabulary Xml.Slot.literal
    show Orderly inner.text
    exact Writing.Dialect.orderly_of_convertWith (d := Xml.dialect config) hdoc.wellFormed
      hlayout hsound
      (fun id content hcontent => Xml.gives_signless id (hsigns id content hcontent)) hinner

/-- A paragraph with a text and a bold part in it, in parentheses beside another element. The script
before it is left out. -/
theorem paragraph_beside_script_orderly :
    let doc : Html.Document := List.foldl Html.Document.perform Forest.empty
      [.addRootElement "div" OrderedMap.empty, .addElement "script" OrderedMap.empty,
        .addElement "p" (.ofList [("class", "big")]), .addText "hi",
        .addElement "b" OrderedMap.empty, .addElement "i" OrderedMap.empty,
        .attach 1 0, .attach 2 0, .attach 3 2, .attach 4 2, .attach 5 0]
    let config : Config := { html := { skipTags := true } }
    ((html doc).Reachable ∧ (html doc).Signless ∧ config.indent = false) ∧
      ∃ result, (html doc).convert config = .ok result ∧ result.text = "div>(p.big{hi}>b)+i" ∧
        Orderly result.text := by
  intro doc config
  have hdoc : (html doc).Reachable := ⟨Forest.empty, _, rfl, rfl⟩
  have hsigns : (html doc).Signless := by
    have hword : ∀ word ∈ ["div", "script", "p", "b", "i", "class", "big", "hi"],
        Writing.Signless word := by
      have hplain : ∀ word ∈ ["div", "script", "p", "b", "i", "class", "big", "hi"],
          word ≠ "" ∧ word.toList.any isOperator = false := by
        decide
      exact fun word hmem => ⟨(hplain word hmem).1, Text.plain_of_any (hplain word hmem).2⟩
    intro id entry hentry
    match id with
    | 0 =>
      cases hentry
      exact ⟨hword "div" (by simp), fun a ha => by cases ha⟩
    | 1 =>
      cases hentry
      exact ⟨hword "script" (by simp), fun a ha => by cases ha⟩
    | 2 =>
      cases hentry
      refine ⟨hword "p" (by simp), fun a ha => ?_⟩
      obtain rfl := List.mem_singleton.mp ha
      exact ⟨(hword "class" (by simp)).plain, (hword "big" (by simp)).plain⟩
    | 3 =>
      cases hentry
      exact (hword "hi" (by simp)).plain
    | 4 =>
      cases hentry
      exact ⟨hword "b" (by simp), fun a ha => by cases ha⟩
    | 5 =>
      cases hentry
      exact ⟨hword "i" (by simp), fun a ha => by cases ha⟩
    | id + 6 => cases hentry
  have hroots : doc.rootIds = [0] := Forest.rootIds_of_roots rfl
  have htext : (Html.convert config .standard doc).map Conversion.text =
      .ok "div>(p.big{hi}>b)+i" := by
    unfold Html.convert Writing.Dialect.convertWith Writing.Dialect.convert
    rw [hroots]
    rfl
  refine ⟨⟨hdoc, hsigns, rfl⟩, ?_⟩
  obtain ⟨inner, hinner, hparagraph⟩ := except_map_eq_ok_iff.mp htext
  have hresult : (html doc).convert config = .ok ⟨inner.text, .html inner.tables⟩ :=
    except_bind_eq_ok_iff.mpr ⟨inner, hinner, rfl⟩
  exact ⟨_, hresult, hparagraph, convert_orderly hdoc hsigns rfl hresult⟩

end Document

end TreeNotation
