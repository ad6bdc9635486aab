import TreeNotation.Proofs.Conversion
import TreeNotation.Proofs.Html.Named
import TreeNotation.Proofs.Json.Named
import TreeNotation.Proofs.Naming
import TreeNotation.Proofs.Tables
import TreeNotation.Proofs.Text.Words
import TreeNotation.Proofs.Writing.Replay
import TreeNotation.Proofs.Xml.Named

/-!
# Names Are Nothing but Labels

A conversion with names does what a conversion without any does for the document in which the names
already stand in the place of the texts.

- **Tables**: `keyOf?` finds the name of a text in a table, and `Faithful.keyOf?_eq` says that it is
  the one in the books;
- **Formats**: `Html.convert_named` and its companions;
- **Documents**: `Document.convert_relabelled`.
-/

namespace TreeNotation

open Token (Grows Ledger Keeps Supply bind_eq_ok_iff grows_request)
open Token.Ledger (Faithful Sound keeps_sound_request)
open Writing (Conversion)
open Writing.Dialect (ReplaysNodes convertWith_eq_ok_iff convertWith_relabelVisited)

/-! ## Section 1: Names in tables -/

/-- The first key under which a value is stored. -/
def OrderedMap.keyOf? {κ ν : Type} [DecidableEq ν] (m : OrderedMap κ ν) (value : ν) : Option κ :=
  (m.entries.find? fun e => e.2 = value).map Prod.fst

/-- A faithful table tells the name that an original has in the books. -/
theorem Token.Ledger.Faithful.keyOf?_eq {ν : Type} [DecidableEq ν] {names : List String}
    {literal : ν → String} {forward : ν → Option String} {table : OrderedMap String ν}
    (h : Faithful names literal forward table) (original : ν) :
    table.keyOf? original = forward original := by
  unfold OrderedMap.keyOf?
  cases hfind : table.entries.find? fun e => e.2 = original with
  | some entry =>
    have hmem := List.mem_of_find?_eq_some hfind
    have horiginal : entry.2 = original := by simpa using List.find?_some hfind
    symm
    apply (h.get?_iff entry.1 original).mp
    rw [OrderedMap.get?_eq_some_iff, ← horiginal]
    exact hmem
  | none =>
    rw [List.find?_eq_none] at hfind
    cases hforward : forward original with
    | none => rfl
    | some token =>
      have hget := (h.get?_iff token original).mpr hforward
      exact absurd (decide_eq_true rfl) (hfind _ (OrderedMap.get?_eq_some_iff.mp hget))

/-- The name of a slot in the tables of HTML. -/
def Html.Tables.nameOf? (tables : Html.Tables) : Html.Slot → Option String
  | .classes list => tables.classes.keyOf? list
  | .link target => tables.links.keyOf? target
  | .image source => tables.images.keyOf? source

/-- The name of a slot in the tables of XML. -/
def Xml.Tables.nameOf? (tables : Xml.Tables) : Xml.Slot → Option String
  | .space space => tables.spaces.keyOf? space
  | .value name value => tables.attributes.keyOf? (name, value)

/-- The name of a slot in the tables of JSON. -/
def Json.Tables.nameOf? (tables : Json.Tables) : Json.Slot → Option String
  | .key key => tables.keys.keyOf? key
  | .value value => tables.values.keyOf? value

variable {names : List String}

theorem Html.nameOf?_tables {ledger : Ledger Html.Slot}
    (hs : ledger.Sound names Html.Slot.literal) :
    (Html.tables ledger).nameOf? = ledger.table.get? := by
  funext slot
  cases slot with
  | classes list =>
    exact (hs.faithful .classes fun _ _ => Html.Slot.classList?_eq_some_iff).keyOf?_eq list
  | link target =>
    exact (hs.faithful .link fun _ _ => Html.Slot.target?_eq_some_iff).keyOf?_eq target
  | image source =>
    exact (hs.faithful .image fun _ _ => Html.Slot.source?_eq_some_iff).keyOf?_eq source

theorem Xml.nameOf?_tables {ledger : Ledger Xml.Slot} (hs : ledger.Sound names Xml.Slot.literal) :
    (Xml.tables ledger).nameOf? = ledger.table.get? := by
  funext slot
  cases slot with
  | space space =>
    exact (hs.faithful .space fun _ _ => Xml.Slot.space?_eq_some_iff).keyOf?_eq space
  | value name value =>
    exact (hs.faithful (fun pair : String × String => .value pair.1 pair.2) fun _ _ =>
      Xml.Slot.attribute?_eq_some_iff).keyOf?_eq (name, value)

theorem Json.nameOf?_tables {ledger : Ledger Json.Slot}
    (hs : ledger.Sound names Json.Slot.literal) :
    (Json.tables ledger).nameOf? = ledger.table.get? := by
  funext slot
  cases slot with
  | key key => exact (hs.faithful .key fun _ _ => Json.Slot.key?_eq_some_iff).keyOf?_eq key
  | value value =>
    exact (hs.faithful .value fun _ _ => Json.Slot.value?_eq_some_iff).keyOf?_eq value

/-! ## Section 2: HTML -/

/-- The configuration without any replacement by names. -/
def Config.spelledOut (config : Config) : Config :=
  { config with
    html := config.html.spelledOut
    json := config.json.spelledOut
    xml := config.xml.spelledOut }

variable {config : Config}

/-- The document with names from tables in the place of the texts of the nodes that are written. -/
def Html.Document.named (config : Config) (tables : Html.Tables) (doc : Html.Document) :
    Html.Document :=
  (Html.dialect config doc).relabelVisited
    (fun entry => { entry with content := entry.content.named config.html tables.nameOf? }) doc

/-- An element with names in the place of its texts stands where the element itself stands. -/
theorem Html.replaysNodes {doc : Html.Document} {final : Ledger Html.Slot}
    (hwords : ∀ slot token, final.table.get? slot = some token → Text.words token = [token]) :
    ReplaysNodes final (Html.dialect config doc)
      (Html.dialect config.spelledOut
        ((Html.dialect config doc).relabelVisited (fun entry =>
          { entry with content := entry.content.named config.html final.table.get? }) doc))
      (fun entry => { entry with content := entry.content.named config.html final.table.get? }) where
  layout_eq := rfl
  shown _ := Html.skips_of_inlines
  grows _ entry _ :=
    Html.keeps_own (fun slot => grows_request slot slot.literal _) config.html entry.content
  skips_eq entry := Html.skips_spelledOut config.html entry.content
  skips_change entry h := (Html.skips_named config.html _ entry.content).trans h
  inlines_eq _ := rfl
  inlines_change entry := Html.isText_named config.html _ entry.content
  encloses_eq id := by
    -- Names stand in attributes, and no count of elements looks at those.
    have hsiblings := Html.writtenSiblings_relabelAt
      (show config.html.spelledOut.skipTags = config.html.skipTags from rfl)
      (g := (Html.dialect config doc).changeVisited doc fun entry =>
        { entry with content := entry.content.named config.html final.table.get? }) ?_ ?_ ?_ doc id
    · exact congrArg (fun count => decide (0 < count)) hsiblings
    · intro id entry
      unfold Writing.Dialect.changeVisited
      split
      case isTrue => exact Html.isText_named config.html _ entry.content
      case isFalse => rfl
    · intro id entry
      unfold Writing.Dialect.changeVisited
      split
      case isTrue => exact Html.skips_named config.html _ entry.content
      case isFalse => exact Html.skips_spelledOut config.html entry.content
    · intro id entry
      unfold Writing.Dialect.changeVisited
      split <;> rfl
  replays_own _ entry := Html.replays_own config.html hwords entry.content

theorem Html.convert_named {doc : Html.Document} (hdoc : doc.Reachable)
    {result : Conversion Html.Tables} (h : Html.convert config .standard doc = .ok result) :
    Html.convert config.spelledOut .standard (doc.named config result.tables) =
      .ok ⟨result.text, Html.tables (Ledger.ofSupply .standard)⟩ := by
  obtain ⟨text, after, hrun, rfl⟩ := convertWith_eq_ok_iff.mp h
  have hs : after.Sound Token.vocabulary Html.Slot.literal :=
    Writing.Dialect.sound_of_convert
      (fun _ entry => Html.keeps_own keeps_sound_request config.html entry.content) hrun
  have hwords : ∀ slot token, after.table.get? slot = some token → Text.words token = [token] :=
    fun _ _ hget => Text.words_of_mem_vocabulary (hs.mem_of_get? hget)
  unfold Html.Document.named
  rw [Html.nameOf?_tables hs]
  exact convertWith_relabelVisited hdoc.wellFormed (Html.replaysNodes hwords) hrun (.refl after)
    Html.tables .standard

/-! ## Section 3: XML and JSON -/

/-- The document with names from tables in the place of the texts of the nodes that are written. -/
def Xml.Document.named (config : Config) (tables : Xml.Tables) (doc : Xml.Document) :
    Xml.Document :=
  (Xml.dialect config).relabelVisited (Xml.Content.named config.xml tables.nameOf?) doc

/-- The document with names from tables in the place of the texts of its nodes. -/
def Json.Document.named (config : Config) (tables : Json.Tables) (doc : Json.Document) :
    Json.Document :=
  (Json.dialect config).relabelVisited
    (fun entry => { entry with content := entry.content.named config.json tables.nameOf? }) doc

theorem Xml.replaysNodes {final : Ledger Xml.Slot}
    (hfree : ∀ slot token, final.table.get? slot = some token →
      ∀ entry ∈ config.xml.tagsToSkip, ¬ (token ++ ":").toList <+: entry.toList) :
    ReplaysNodes final (Xml.dialect config) (Xml.dialect config.spelledOut)
      (Xml.Content.named config.xml final.table.get?) where
  layout_eq := rfl
  shown _ := Xml.skips_of_inlines
  grows id content _ :=
    Xml.keeps_own (fun slot => grows_request slot slot.literal _) config.xml id content
  skips_eq content := Xml.skips_spelledOut config.xml content
  skips_change content h :=
    (Xml.skips_spelledOut config.xml _).trans (Xml.skips_named hfree h)
  inlines_eq _ := rfl
  inlines_change content := by cases content <;> rfl
  encloses_eq _ := rfl
  replays_own id content := Xml.replays_own config.xml id content

theorem Xml.convert_named {doc : Xml.Document} (hdoc : doc.Reachable)
    (hfree : ∀ name ∈ Token.vocabulary, ∀ entry ∈ config.xml.tagsToSkip,
      ¬ (name ++ ":").toList <+: entry.toList)
    {result : Conversion Xml.Tables} (h : Xml.convert config .standard doc = .ok result) :
    Xml.convert config.spelledOut .standard (doc.named config result.tables) =
      .ok ⟨result.text, Xml.tables (Ledger.ofSupply .standard)⟩ := by
  obtain ⟨text, after, hrun, rfl⟩ := convertWith_eq_ok_iff.mp h
  have hs : after.Sound Token.vocabulary Xml.Slot.literal :=
    Writing.Dialect.sound_of_convert
      (fun id content => Xml.keeps_own keeps_sound_request config.xml id content) hrun
  unfold Xml.Document.named
  rw [Xml.nameOf?_tables hs]
  apply convertWith_relabelVisited hdoc.wellFormed (Xml.replaysNodes ?_) hrun (.refl after)
  intro slot token hget
  exact hfree token (hs.mem_of_get? hget)

theorem Json.replaysNodes {final : Ledger Json.Slot} :
    ReplaysNodes final (Json.dialect config) (Json.dialect config.spelledOut)
      (fun entry => { entry with content := entry.content.named config.json final.table.get? }) where
  layout_eq := rfl
  shown _ h := by cases h
  grows _ entry _ :=
    Json.keeps_own (fun slot => grows_request slot slot.literal _) config.json entry.content
  skips_eq _ := rfl
  skips_change _ h := h
  inlines_eq _ := rfl
  inlines_change _ := rfl
  encloses_eq _ := rfl
  replays_own _ entry := Json.replays_own config.json entry.content

theorem Json.convert_named {doc : Json.Document} (hdoc : doc.Reachable)
    {result : Conversion Json.Tables} (h : Json.convert config .standard doc = .ok result) :
    Json.convert config.spelledOut .standard (doc.named config result.tables) =
      .ok ⟨result.text, Json.tables (Ledger.ofSupply .standard)⟩ := by
  obtain ⟨text, after, hrun, rfl⟩ := convertWith_eq_ok_iff.mp h
  have hs : after.Sound Token.vocabulary Json.Slot.literal :=
    Writing.Dialect.sound_of_convert
      (fun _ entry => Json.keeps_own keeps_sound_request config.json entry.content) hrun
  unfold Json.Document.named
  rw [Json.nameOf?_tables hs]
  exact convertWith_relabelVisited hdoc.wellFormed Json.replaysNodes hrun (.refl after)
    Json.tables .standard

/-! ## Section 4: Documents of any format -/

/-- Tables without names. -/
def Tables.empty : Format → Tables
  | .html => .html ⟨.empty, .empty, .empty⟩
  | .json => .json ⟨.empty, .empty⟩
  | .xml => .xml ⟨.empty, .empty⟩

namespace Document

/-- The document with names from the tables of its format in the place of texts. -/
def named (config : Config) : Tables → Document → Document
  | .html tables, .html doc => .html (doc.named config tables)
  | .json tables, .json doc => .json (doc.named config tables)
  | .xml tables, .xml doc => .xml (doc.named config tables)
  | _, doc => doc

/-- A conversion that succeeds comes to the same as writing, without any names to give, the document
in which the names of its tables stand in the place of the texts of the nodes that are written: to
the same notation, with empty tables. For XML, no tag to be left out may begin with a name as its
prefix. -/
theorem convert_relabelled {P : Document} (hP : P.Reachable) (config : Config)
    (hfree : P.format = .xml → ∀ name ∈ Token.vocabulary, ∀ entry ∈ config.xml.tagsToSkip,
      ¬ (name ++ ":").toList <+: entry.toList)
    {result : Conversion Tables} (h : P.convert config = .ok result) :
    (P.named config result.tables).convert config.spelledOut =
      .ok ⟨result.text, Tables.empty P.format⟩ := by
  -- One case for each format; in each of them the conversion has succeeded.
  cases P with
  | html doc =>
    obtain ⟨inner, hinner, rfl⟩ := except_bind_eq_ok_iff.mp h
    exact except_bind_eq_ok_iff.mpr ⟨_, Html.convert_named hP hinner, rfl⟩
  | json doc =>
    obtain ⟨inner, hinner, rfl⟩ := except_bind_eq_ok_iff.mp h
    exact except_bind_eq_ok_iff.mpr ⟨_, Json.convert_named hP hinner, rfl⟩
  | xml doc =>
    obtain ⟨inner, hinner, rfl⟩ := except_bind_eq_ok_iff.mp h
    exact except_bind_eq_ok_iff.mpr ⟨_, Xml.convert_named hP (hfree rfl) hinner, rfl⟩

/-- A paragraph whose classes are called James, and a paragraph of the class James. -/
theorem convert_relabelled_paragraph :
    let config : Config := { html := { simplifyClasses := true } }
    let P : Html.Document := List.foldl Html.Document.perform Forest.empty
      [.addRootElement "p" (.ofList [("class", "big red")])]
    (Document.html P).Reachable ∧
      ∃ result, (Document.html P).convert config = .ok result ∧ result.text = "p.James" ∧
        ((Document.html P).named config result.tables).convert config.spelledOut =
          .ok ⟨result.text, Tables.empty .html⟩ := by
  intro config P
  have hP : (Document.html P).Reachable := ⟨Forest.empty, _, rfl, rfl⟩
  have hroots : P.rootIds = [0] := Forest.rootIds_of_roots rfl
  have hrun : ∃ after, (Html.dialect config P).convert P (Ledger.ofSupply .standard) =
      .ok "p.James" after := by
    obtain ⟨rest, hnodup, hstandard⟩ := Supply.ofVocabulary_cons "James" Token.vocabulary.tail
    unfold Writing.Dialect.convert
    have hsupply : Supply.standard = _ := hstandard
    rw [hroots, hsupply]
    exact ⟨_, rfl⟩
  obtain ⟨after, hrun⟩ := hrun
  have hresult : (Document.html P).convert config =
      .ok ⟨"p.James", .html (Html.tables after)⟩ := by
    have hinner : Html.convert config .standard P = .ok ⟨"p.James", Html.tables after⟩ :=
      convertWith_eq_ok_iff.mpr ⟨"p.James", after, hrun, rfl⟩
    exact except_bind_eq_ok_iff.mpr ⟨_, hinner, rfl⟩
  refine ⟨hP, _, hresult, rfl, ?_⟩
  apply convert_relabelled hP config ?_ hresult
  intro hformat
  cases hformat

end Document

end TreeNotation
