import TreeNotation.Proofs.Naming

/-!
# Texts That Are Written Out

A name stands in for some texts of a document, and other texts of the same kind are written out. If
such a text happens to be a name of the vocabulary, the notation may have it in both roles: only the
text in whose place a name is written is kept apart from the name.

- **Candidates**: `candidates` lists the texts of a node that a name may stand in for, and
  `mem_requests_of_selects` says that the selected ones are asked for;
- **Books**: `exists_ledger_of_convertWith`, what the books of a conversion hold;
- **Formats**: `raw_text_eq_name_only_if`; class lists and images that are written out are no names,
  and other texts are names only if the vocabulary has them.
-/

namespace TreeNotation

open Token (Keeps Ledger Supply keeps_bind)
open Token.Ledger (HoldsOnly Sound holdsOnly_ofSupply keeps_holdsOnly_request keeps_sound_request)
open Writing (Conversion Dialect classNames)

/-! ## Section 1: Texts that a name may stand in for -/

/-- A node of the forest that is written has the text `key`, and does not ask for a name in its
place. `candidates` are the texts of a node, and `requests` those that it asks for. -/
def Writing.Dialect.WritesOut {α κ : Type} (d : Dialect α κ) (f : Forest α)
    (candidates requests : α → List κ) (key : κ) : Prop :=
  ∃ node ∈ d.visited f, key ∈ candidates node.2 ∧ key ∉ requests node.2

/-- A node that asks for nothing has all its texts written out. -/
theorem Writing.Dialect.writesOut_of_requests_eq_nil {α κ : Type} {d : Dialect α κ} {f : Forest α}
    {candidates requests : α → List κ} {key : κ} {node : NodeId × α} (hnode : node ∈ d.visited f)
    (hkey : key ∈ candidates node.2) (hrequests : requests node.2 = []) :
    d.WritesOut f candidates requests key :=
  ⟨node, hnode, hkey, hrequests ▸ List.not_mem_nil⟩

namespace Html

/-- The texts of a node that a name may stand in for: its class list, the target of a link and the
source of an image, as far as these attributes count. -/
def candidates (options : HtmlOptions) : Content → List Slot
  | .text _ => []
  | .element tag attributes =>
    let kept := counted options attributes
    let list := match classNames kept with
      | [] => []
      | names => [.classes (" ".intercalate names)]
    let target := if tag = "a" then (kept.get? "href").toList.map Slot.link else []
    let source := if tag = "img" then (kept.get? "src").toList.map Slot.image else []
    list ++ target ++ source

/-- A text of a node that is selected is asked for. -/
theorem mem_requests_of_selects {options : HtmlOptions} {content : Content} {slot : Slot}
    (hslot : slot ∈ candidates options content) (hselects : selects options slot = true) :
    slot ∈ requests options content := by
  cases content with
  | text payload => cases hslot
  | element tag attributes =>
    rw [requests, List.mem_filterMap]
    simp only [candidates, List.mem_append] at hslot
    rcases hslot with (hlist | htarget) | hsource
    · refine ⟨"class", by simp, ?_⟩
      unfold classNames at hlist
      unfold slotOf
      cases hget : (counted options attributes).get? "class" with
      | none =>
        rw [hget] at hlist
        cases hlist
      | some list =>
        rw [hget] at hlist
        simp only [Option.bind_some, slot?]
        cases hwords : Text.words list with
        | nil =>
          simp only [hwords] at hlist
          cases hlist
        | cons first rest =>
          simp only [hwords, List.mem_singleton] at hlist
          subst hlist
          simp only [selects] at hselects
          simp [hselects]
    · refine ⟨"href", by simp, ?_⟩
      split at htarget
      case isTrue htag =>
        obtain ⟨target, hget, rfl⟩ := List.mem_map.mp htarget
        simp only [selects, Bool.and_eq_true] at hselects
        simp [slotOf, Option.mem_toList.mp hget, slot?, htag, hselects.1, hselects.2]
      case isFalse => cases htarget
    · refine ⟨"src", by simp, ?_⟩
      split at hsource
      case isTrue htag =>
        obtain ⟨source, hget, rfl⟩ := List.mem_map.mp hsource
        simp only [selects, Bool.and_eq_true] at hselects
        simp [slotOf, Option.mem_toList.mp hget, slot?, htag, hselects.1, hselects.2]
      case isFalse => cases hsource

/-- A node of the document that is written has the text, and no name stands in for it. -/
def WritesOut (config : Config) (doc : Document) : Slot → Prop :=
  (dialect config doc).WritesOut doc (fun entry => candidates config.html entry.content)
    (fun entry => requests config.html entry.content)

theorem not_selects_of_writesOut {config : Config} {doc : Document} {slot : Slot}
    (h : WritesOut config doc slot) : selects config.html slot = false := by
  obtain ⟨node, -, hslot, hnot⟩ := h
  rw [Bool.eq_false_iff]
  exact fun hselects => hnot (mem_requests_of_selects hslot hselects)

end Html

namespace Xml

/-- The texts of a node that a name may stand in for: its prefix and its attribute values. -/
def candidates : Content → List Slot
  | .element space _ attributes =>
    space.toList.map Slot.space ++ attributes.entries.map fun a => .value a.1 a.2
  | _ => []

/-- A text of a node that is selected is asked for. -/
theorem mem_requests_of_selects {options : XmlOptions} {content : Content} {slot : Slot}
    (hslot : slot ∈ candidates content) (hselects : selects options slot = true) :
    slot ∈ requests options content := by
  cases content with
  | element space name attributes =>
    rw [candidates, List.mem_append] at hslot
    rw [requests, List.mem_append]
    rcases hslot with hspace | hvalue
    · obtain ⟨text, htext, rfl⟩ := List.mem_map.mp hspace
      rw [Option.mem_toList.mp htext]
      simp only [selects] at hselects
      exact .inl (by simp [spaceSlot?, hselects])
    · obtain ⟨a, ha, rfl⟩ := List.mem_map.mp hvalue
      rw [selects] at hselects
      exact .inr (List.mem_filterMap.mpr ⟨a, ha, by rw [valueSlot?, if_pos hselects]⟩)
  | _ => cases hslot

/-- A node of the document that is written has the text, and no name stands in for it. -/
def WritesOut (config : Config) (doc : Document) : Slot → Prop :=
  (dialect config).WritesOut doc candidates
    (requests config.xml)

theorem not_selects_of_writesOut {config : Config} {doc : Document} {slot : Slot}
    (h : WritesOut config doc slot) : selects config.xml slot = false := by
  obtain ⟨node, -, hslot, hnot⟩ := h
  rw [Bool.eq_false_iff]
  exact fun hselects => hnot (mem_requests_of_selects hslot hselects)

end Xml

namespace Json

/-- The text of a node that a name may stand in for: the key of a property, the string of a leaf. -/
def candidates : Content → List Slot
  | .property key => [.key key]
  | .leaf .string payload => [.value payload]
  | _ => []

/-- A text of a node that is selected is asked for. -/
theorem mem_requests_of_selects {options : JsonOptions} {content : Content} {slot : Slot}
    (hslot : slot ∈ candidates content) (hselects : selects options slot = true) :
    slot ∈ requests options content := by
  cases content with
  | object => cases hslot
  | array => cases hslot
  | property key =>
    obtain rfl := List.mem_singleton.mp hslot
    simp only [selects] at hselects
    simp [requests, slot?, keySlot?, hselects]
  | leaf type payload =>
    cases type with
    | string =>
      obtain rfl := List.mem_singleton.mp hslot
      rw [selects] at hselects
      simp only [requests, slot?, stringSlot?, hselects, if_true, Option.toList_some,
        List.mem_singleton]
    | number => cases hslot
    | boolean => cases hslot
    | null => cases hslot

/-- A node of the document that is written has the text, and no name stands in for it. -/
def WritesOut (config : Config) (doc : Document) : Slot → Prop :=
  (dialect config).WritesOut doc (fun entry => candidates entry.content)
    (fun entry => requests config.json entry.content)

theorem not_selects_of_writesOut {config : Config} {doc : Document} {slot : Slot}
    (h : WritesOut config doc slot) : selects config.json slot = false := by
  obtain ⟨node, -, hslot, hnot⟩ := h
  rw [Bool.eq_false_iff]
  exact fun hselects => hnot (mem_requests_of_selects hslot hselects)

end Json

/-! ## Section 2: What the books of a conversion hold -/

section Books

variable {α κ μ ν : Type} {names : List String} {literal : κ → String} {p : κ → Bool}

/-- The books of a conversion are sound, and hold names for no texts but those that are selected. -/
theorem exists_ledger_of_convertWith [DecidableEq κ] {d : Dialect α κ} {f : Forest α}
    {tables : Ledger κ → μ}
    (hown : ∀ P : Ledger κ → Prop,
      (∀ key, p key = true → Keeps P (Ledger.request key (literal key))) →
        ∀ id label, Keeps P (d.own id label))
    {result : Conversion μ} (h : d.convertWith tables (.ofVocabulary names) f = .ok result) :
    ∃ ledger : Ledger κ, result.tables = tables ledger ∧ ledger.Sound names literal ∧
      ledger.HoldsOnly p := by
  obtain ⟨text, after, hrun, rfl⟩ := Dialect.convertWith_eq_ok_iff.mp h
  refine ⟨after, rfl, ?_, ?_⟩
  · exact Dialect.sound_of_convert (hown _ fun key _ => keeps_sound_request key) hrun
  · have hkept := Dialect.keeps_convert (f := f)
      (hown (HoldsOnly p) fun key hkey => keeps_holdsOnly_request hkey (literal key)) _
      (holdsOnly_ofSupply p (.ofVocabulary names))
    unfold Attempt.after at hkept
    rwa [hrun] at hkept

variable {ledger : Ledger κ} {category : κ → Option ν} {kind : ν → κ} {token : String}
  (hs : ledger.Sound names literal) (hp : ledger.HoldsOnly p)
  (hkind : ∀ {key original}, category key = some original ↔ key = kind original)

include hs hp hkind

/-- A name in a table is one of the vocabulary, and stands in for a text that is selected. -/
theorem selected_of_get? {original : ν}
    (h : (ledger.dictionary category).get? token = some original) :
    token ∈ names ∧ p (kind original) = true := by
  obtain ⟨key, hkey, hcategory⟩ :=
    hs.mem_dictionary_iff.mp (OrderedMap.get?_eq_some_iff.mp h)
  obtain rfl := hkind.mp hcategory
  exact ⟨hs.mem_names _ hkey, hp _ hkey⟩

theorem selected_of_mem_keys (h : token ∈ (ledger.dictionary category).keys) :
    token ∈ names ∧ ∃ original, p (kind original) = true := by
  obtain ⟨⟨_, original⟩, hentry, rfl⟩ := List.mem_map.mp h
  obtain ⟨hnames, hselects⟩ :=
    selected_of_get? hs hp hkind (OrderedMap.get?_eq_some_iff.mpr hentry)
  exact ⟨hnames, original, hselects⟩

/-- Where the texts of a kind are all selected or none of them is, the table is empty if one is
not selected. -/
theorem not_mem_keys_of_alike {text : ν} (halike : ∀ original, p (kind original) = p (kind text))
    (hnot : p (kind text) = false) : token ∉ (ledger.dictionary category).keys := by
  intro hmem
  obtain ⟨-, original, hselects⟩ := selected_of_mem_keys hs hp hkind hmem
  rw [halike, hnot] at hselects
  cases hselects

end Books

/-! ## Section 3: The three formats -/

namespace Html

variable {options : HtmlOptions}

/-- Only an image without a source is written out beside images with names. -/
theorem eq_empty_of_image {source original : String}
    (hnot : selects options (.image source) = false)
    (hselects : selects options (.image original) = true) : source = "" := by
  simp only [selects, Bool.and_eq_true] at hselects
  simpa [selects, hselects.2] using hnot

/-- Links of one kind that have a target are all replaced, or none of them is. -/
theorem empty_or_elsewhere_of_link {target original : String}
    (hnot : selects options (.link target) = false)
    (hselects : selects options (.link original) = true) :
    target = "" ∨ isAbsolute target ≠ isAbsolute original := by
  by_cases hempty : target = ""
  · exact .inl hempty
  · refine .inr fun hkind => ?_
    have hsame : simplifiesLink options target = simplifiesLink options original := by
      rw [simplifiesLink, simplifiesLink, hkind]
    simp only [selects, Bool.and_eq_true] at hselects
    rw [selects, hsame, hselects.2, String.isEmpty_eq_false_iff.mpr hempty] at hnot
    cases hnot

end Html

/-- Where only texts beyond a length are selected, one that is not is a short one, and one that is
selected is a long one. -/
theorem short_and_long {on : Bool} {threshold length length' : Nat}
    (hnot : (on && decide (threshold < length)) = false)
    (hselects : (on && decide (threshold < length')) = true) :
    length ≤ threshold ∧ threshold < length' := by
  obtain ⟨hon, hlong⟩ := Bool.and_eq_true_iff.mp hselects
  rw [hon, Bool.true_and, decide_eq_false_iff_not, Nat.not_lt] at hnot
  exact ⟨hnot, of_decide_eq_true hlong⟩

/-- Whatever a conversion writes out, a class list, a prefix or a key is no name of its table, and an
image is none unless it has no source. The target of a link, a string and the value of an attribute
may be a name of their table, but only if the vocabulary has it and it stands in for a text that is
treated otherwise: a link that leads elsewhere for one within the site or the other way round, a
longer string, a longer value of the same attribute. -/
theorem raw_text_eq_name_only_if (config : Config) (names : List String) :
    (∀ (doc : Html.Document) (result : Conversion Html.Tables),
      Html.convert config (.ofVocabulary names) doc = .ok result →
      (∀ list, Html.WritesOut config doc (.classes list) → list ∉ result.tables.classes.keys) ∧
      (∀ source, Html.WritesOut config doc (.image source) → source ∈ result.tables.images.keys →
        source = "" ∧ source ∈ names) ∧
      ∀ target original, Html.WritesOut config doc (.link target) →
        result.tables.links.get? target = some original →
        target ∈ names ∧ (target = "" ∨ Html.isAbsolute target ≠ Html.isAbsolute original)) ∧
    (∀ (doc : Xml.Document) (result : Conversion Xml.Tables),
      Xml.convert config (.ofVocabulary names) doc = .ok result →
      (∀ space, Xml.WritesOut config doc (.space space) → space ∉ result.tables.spaces.keys) ∧
      ∀ name value original, Xml.WritesOut config doc (.value name value) →
        (result.tables.valuesOf name).get? value = some original →
        value ∈ names ∧ value.length ≤ config.xml.attributeLengthThreshold ∧
          config.xml.attributeLengthThreshold < original.length) ∧
    (∀ (doc : Json.Document) (result : Conversion Json.Tables),
      Json.convert config (.ofVocabulary names) doc = .ok result →
      (∀ key, Json.WritesOut config doc (.key key) → key ∉ result.tables.keys.keys) ∧
      ∀ value original, Json.WritesOut config doc (.value value) →
        result.tables.values.get? value = some original →
        value ∈ names ∧ value.length ≤ config.json.stringLengthThreshold ∧
          config.json.stringLengthThreshold < original.length) := by
  refine ⟨?_, ?_, ?_⟩
  · intro doc result h
    obtain ⟨ledger, htables, hs, hp⟩ := exists_ledger_of_convertWith
      (fun _ hrequest _ entry => Html.keeps_own_of_selects hrequest entry.content) h
    rw [htables]
    refine ⟨?_, ?_, ?_⟩
    · intro list hraw
      exact not_mem_keys_of_alike hs hp Html.Slot.classList?_eq_some_iff (fun _ => rfl)
        (Html.not_selects_of_writesOut hraw)
    · intro source hraw hmem
      obtain ⟨hnames, original, hselects⟩ :=
        selected_of_mem_keys hs hp Html.Slot.source?_eq_some_iff hmem
      exact ⟨Html.eq_empty_of_image (Html.not_selects_of_writesOut hraw) hselects, hnames⟩
    · intro target original hraw hget
      obtain ⟨hnames, hselects⟩ := selected_of_get? hs hp Html.Slot.target?_eq_some_iff hget
      exact ⟨hnames, Html.empty_or_elsewhere_of_link (Html.not_selects_of_writesOut hraw) hselects⟩
  · intro doc result h
    obtain ⟨ledger, htables, hs, hp⟩ := exists_ledger_of_convertWith
      (fun _ hrequest id content => Xml.keeps_own_of_selects hrequest id content) h
    rw [htables]
    constructor
    · intro space hraw
      exact not_mem_keys_of_alike hs hp Xml.Slot.space?_eq_some_iff (fun _ => rfl)
        (Xml.not_selects_of_writesOut hraw)
    · intro name value original hraw hget
      obtain ⟨hnames, hselects⟩ := selected_of_get? hs hp Xml.Slot.attribute?_eq_some_iff
        (Xml.Tables.get?_valuesOf.mp hget)
      exact ⟨hnames, short_and_long (Xml.not_selects_of_writesOut hraw) hselects⟩
  · intro doc result h
    obtain ⟨ledger, htables, hs, hp⟩ := exists_ledger_of_convertWith
      (fun _ hrequest _ entry => Json.keeps_own_of_selects hrequest entry.content) h
    rw [htables]
    constructor
    · intro key hraw
      exact not_mem_keys_of_alike hs hp Json.Slot.key?_eq_some_iff (fun _ => rfl)
        (Json.not_selects_of_writesOut hraw)
    · intro value original hraw hget
      obtain ⟨hnames, hselects⟩ := selected_of_get? hs hp Json.Slot.value?_eq_some_iff hget
      exact ⟨hnames, short_and_long (Json.not_selects_of_writesOut hraw) hselects⟩

/-- A short string that is the only name there is, beside a long one. -/
theorem raw_string_eq_only_name :
    let config : Config := { json := { simplifyLongStrings := true } }
    let doc : Json.Document := List.foldl Json.Document.perform Forest.empty
      [.add .array, .markRoot 0, .add (.leaf .string "Ann"), .attach 1 0,
        .add (.leaf .string "a text of more than twenty characters"), .attach 2 0]
    ∃ result, Json.convert config (.ofVocabulary ["Ann"]) doc = .ok result ∧
      Json.WritesOut config doc (.value "Ann") ∧
      result.tables.values.get? "Ann" = some "a text of more than twenty characters" ∧
      "Ann" ∈ ["Ann"] ∧ "Ann".length ≤ 20 ∧
        20 < "a text of more than twenty characters".length := by
  intro config doc
  have hroots : doc.rootIds = [0] := Forest.rootIds_of_roots rfl
  have hresult : ∃ result, Json.convert config (.ofVocabulary ["Ann"]) doc = .ok result ∧
      result.tables.values.get? "Ann" = some "a text of more than twenty characters" := by
    unfold Json.convert Dialect.convertWith Dialect.convert
    rw [hroots]
    exact ⟨_, rfl, rfl⟩
  have hraw : Json.WritesOut config doc (.value "Ann") := by
    have hvisited : (1, ⟨.leaf .string "Ann", none⟩) ∈ (Json.dialect config).visited doc := by
      unfold Dialect.visited Forest.trees
      rw [hroots]
      exact .tail _ (.head _)
    have hrequests : Json.requests config.json (.leaf .string "Ann") = [] := rfl
    exact Dialect.writesOut_of_requests_eq_nil hvisited (.head _) hrequests
  obtain ⟨result, hconvert, hget⟩ := hresult
  exact ⟨result, hconvert, hraw, hget,
    ((raw_text_eq_name_only_if config ["Ann"]).2.2 doc result hconvert).2 "Ann" _ hraw hget⟩

/-- Texts that are the first name of the standard vocabulary, each beside a text of its kind in
whose place that name is written: a link within the site, a short value of an attribute and a short
string. -/
theorem raw_texts_eq_first_name :
    let html : Html.Document := List.foldl Html.Document.perform Forest.empty
      [.addRootElement "p" .empty, .addElement "a" (.ofList [("href", "James")]), .attach 1 0,
        .addElement "a" (.ofList [("href", "http:")]), .attach 2 0]
    let xml : Xml.Document := List.foldl Xml.Document.perform Forest.empty
      [.addRootElement "p" .empty, .addElement "a" (.ofList [("b", "James")]), .attach 1 0,
        .addElement "a" (.ofList [("b", "a value of more than twenty characters")]), .attach 2 0]
    let json : Json.Document := List.foldl Json.Document.perform Forest.empty
      [.add .array, .markRoot 0, .add (.leaf .string "James"), .attach 1 0,
        .add (.leaf .string "a text of more than twenty characters"), .attach 2 0]
    let absolute : Config := { html := { simplifyAbsoluteLinks := true } }
    let values : Config := { xml := { simplifyLongAttributes := true } }
    let strings : Config := { json := { simplifyLongStrings := true } }
    (∃ result, Html.convert absolute .standard html = .ok result ∧
      Html.WritesOut absolute html (.link "James") ∧ "James" ∈ result.tables.links.keys) ∧
    (∃ result, Xml.convert values .standard xml = .ok result ∧
      Xml.WritesOut values xml (.value "b" "James") ∧
        "James" ∈ (result.tables.valuesOf "b").keys) ∧
    ∃ result, Json.convert strings .standard json = .ok result ∧
      Json.WritesOut strings json (.value "James") ∧ "James" ∈ result.tables.values.keys := by
  intro html xml json absolute values strings
  obtain ⟨rest, nodup, hstandard⟩ := Token.Supply.standard_eq_cons
  have hhtml : html.rootIds = [0] := Forest.rootIds_of_roots rfl
  have hxml : xml.rootIds = [0] := Forest.rootIds_of_roots rfl
  have hjson : json.rootIds = [0] := Forest.rootIds_of_roots rfl
  refine ⟨?_, ?_, ?_⟩
  · have hvisited : (1, ⟨.element "a" (.ofList [("href", "James")]), none, some 2, 0⟩) ∈
        (Html.dialect absolute html).visited html := by
      unfold Dialect.visited Forest.trees
      rw [hhtml]
      exact .tail _ (.head _)
    have hrequests : Html.requests absolute.html
        (.element "a" (.ofList [("href", "James")])) = [] := rfl
    have hrun : ∃ text after, (Html.dialect absolute html).convert html
        (Ledger.ofSupply .standard) = .ok text after ∧
          (Html.tables after).links.keys = ["James"] := by
      unfold Dialect.convert
      rw [hhtml, hstandard]
      exact ⟨_, _, rfl, rfl⟩
    obtain ⟨text, after, hrun, hkeys⟩ := hrun
    refine ⟨_, Dialect.convertWith_eq_ok_iff.mpr ⟨text, after, hrun, rfl⟩,
      Dialect.writesOut_of_requests_eq_nil hvisited (.head _) hrequests, ?_⟩
    rw [hkeys]
    exact .head _
  · have hvisited : (1, .element none "a" (.ofList [("b", "James")])) ∈
        (Xml.dialect values).visited xml := by
      unfold Dialect.visited Forest.trees
      rw [hxml]
      exact .tail _ (.head _)
    have hrequests : Xml.requests values.xml
        (.element none "a" (.ofList [("b", "James")])) = [] := rfl
    have hrun : ∃ text after, (Xml.dialect values).convert xml
        (Ledger.ofSupply .standard) = .ok text after ∧
          ((Xml.tables after).valuesOf "b").keys = ["James"] := by
      unfold Dialect.convert
      rw [hxml, hstandard]
      exact ⟨_, _, rfl, rfl⟩
    obtain ⟨text, after, hrun, hkeys⟩ := hrun
    refine ⟨_, Dialect.convertWith_eq_ok_iff.mpr ⟨text, after, hrun, rfl⟩,
      Dialect.writesOut_of_requests_eq_nil hvisited (.head _) hrequests, ?_⟩
    rw [hkeys]
    exact .head _
  · have hvisited : (1, ⟨.leaf .string "James", none⟩) ∈ (Json.dialect strings).visited json := by
      unfold Dialect.visited Forest.trees
      rw [hjson]
      exact .tail _ (.head _)
    have hrequests : Json.requests strings.json (.leaf .string "James") = [] := rfl
    have hrun : ∃ text after, (Json.dialect strings).convert json
        (Ledger.ofSupply .standard) = .ok text after ∧
          (Json.tables after).values.keys = ["James"] := by
      unfold Dialect.convert
      rw [hjson, hstandard]
      exact ⟨_, _, rfl, rfl⟩
    obtain ⟨text, after, hrun, hkeys⟩ := hrun
    refine ⟨_, Dialect.convertWith_eq_ok_iff.mpr ⟨text, after, hrun, rfl⟩,
      Dialect.writesOut_of_requests_eq_nil hvisited (.head _) hrequests, ?_⟩
    rw [hkeys]
    exact .head _

end TreeNotation
