import TreeNotation.Proofs.Conversion
import TreeNotation.Proofs.Html.Requests
import TreeNotation.Proofs.Json.Requests
import TreeNotation.Proofs.Writing.Builds
import TreeNotation.Proofs.Writing.Requests
import TreeNotation.Proofs.Xml.Requests

/-!
# Names in Document Order

Whatever way a converter takes through a document, its tables list the names that go to the texts of
the nodes in document order: the first text gets the first name, a text that comes again gets none.

- **Any dialect**: `map_lists_convertWith`, from what the nodes ask for to the tables;
- **Formats**: `tables_name_requests_in_document_order`.
-/

namespace TreeNotation

open Token (Asks Keeps Ledger Supply assign books closed_keeps listing
  map_entries_of_asks)
open Token.Ledger (Sound keeps_sound_request)

namespace Writing.Dialect

variable {α κ μ ν : Type} {d : Dialect α κ} {f : Forest α}

/-! ## Section 1: From requests to tables -/

/-- A forest keeps what its nodes keep. -/
theorem keeps_convert {P : Ledger κ → Prop} (hown : ∀ id label, Keeps P (d.own id label)) :
    Keeps P (d.convert f) :=
  closed_convert (closed_keeps P) hown f

/-- The books of a conversion with the names of a vocabulary are sound. -/
theorem sound_of_convert {names : List String} {literal : κ → String}
    (hown : ∀ id label, Keeps (Sound names literal) (d.own id label)) {text : String}
    {after : Ledger κ}
    (h : d.convert f (Ledger.ofSupply (.ofVocabulary names)) = .ok text after) :
    after.Sound names literal := by
  have hsound := keeps_convert (f := f) hown _ (Sound.ofVocabulary names literal)
  unfold Attempt.after at hsound
  rwa [h] at hsound

/-- If a forest asks for some keys, its tables are read off the assignment of these keys, and its
conversion fails if and as the assignment does. -/
theorem map_lists_convertWith [DecidableEq κ] {names : List String} {literal : κ → String}
    {tables : Ledger κ → μ} {lists : μ → ν} {listings : List (κ × String) → ν} {keys : List κ}
    (hown : ∀ id label, Keeps (Sound names literal) (d.own id label))
    (hlists : ∀ ledger : Ledger κ, ledger.Sound names literal →
      lists (tables ledger) = listings ledger.table.tokens.entries)
    (hasks : Asks literal (d.convert f) keys) :
    (d.convertWith tables (.ofVocabulary names) f).map (fun result => lists result.tables) =
      (assign names literal keys).map listings := by
  rw [← map_entries_of_asks hasks names]
  unfold convertWith books
  cases hrun : d.convert f (Ledger.ofSupply (.ofVocabulary names)) with
  | error e after => rfl
  | ok text after =>
    -- The books are sound, so what is listed is what has been entered.
    exact congrArg Except.ok (hlists after (sound_of_convert hown hrun))

end Writing.Dialect

/-! ## Section 2: Tables as lists -/

/-- The entries of the tables of class lists, of links and of images. -/
def Html.Tables.lists (tables : Html.Tables) :
    List (String × String) × List (String × String) × List (String × String) :=
  (tables.classes.entries, tables.links.entries, tables.images.entries)

/-- The class lists, links and images in a book of names. -/
def Html.listings (book : List (Html.Slot × String)) :
    List (String × String) × List (String × String) × List (String × String) :=
  (listing Html.Slot.classList? book, listing Html.Slot.target? book,
    listing Html.Slot.source? book)

/-- The entries of the tables of prefixes and of attribute values. -/
def Xml.Tables.lists (tables : Xml.Tables) :
    List (String × String) × List (String × String × String) :=
  (tables.spaces.entries, tables.attributes.entries)

/-- The prefixes and attribute values in a book of names. -/
def Xml.listings (book : List (Xml.Slot × String)) :
    List (String × String) × List (String × String × String) :=
  (listing Xml.Slot.space? book, listing Xml.Slot.attribute? book)

/-- The entries of the tables of keys and of strings. -/
def Json.Tables.lists (tables : Json.Tables) : List (String × String) × List (String × String) :=
  (tables.keys.entries, tables.values.entries)

/-- The keys and strings in a book of names. -/
def Json.listings (book : List (Json.Slot × String)) :
    List (String × String) × List (String × String) :=
  (listing Json.Slot.key? book, listing Json.Slot.value? book)

/-! ## Section 3: The three formats -/

variable {config : Config} {names : List String}

/-- Whatever there is below its texts, an HTML document is given names for the texts of the nodes that
are written. -/
theorem Html.map_lists_writtenEach {doc : Html.Document} (hdoc : doc.Reachable) :
    (Html.convert config (.ofVocabulary names) doc).map (fun result => result.tables.lists) =
      (assign names Html.Slot.literal (Writing.Dialect.requestsOf
        (fun entry => Html.requests config.html entry.content)
        ((Html.dialect config doc).writtenEach doc.trees))).map Html.listings := by
  apply Writing.Dialect.map_lists_convertWith
  · intro id entry
    exact Html.keeps_own keeps_sound_request config.html entry.content
  · intro ledger hs
    simp only [Html.tables, Html.Tables.lists, Html.listings, listing, hs.entries_dictionary]
  · apply Writing.Dialect.asks_writtenEach hdoc.wellFormed
    intro node _
    exact Html.asks_own config.html node.2.content

theorem Html.map_lists_convert {doc : Html.Document} (hdoc : doc.Reachable)
    (htexts : Forest.BareAt (fun entry => entry.content.isText) doc) :
    (Html.convert config (.ofVocabulary names) doc).map (fun result => result.tables.lists) =
      (assign names Html.Slot.literal (Writing.Dialect.requestsOf
        (fun entry => Html.requests config.html entry.content)
        ((Html.dialect config doc).visited doc))).map Html.listings := by
  have hwritten := Writing.Dialect.writtenEach_trees (d := Html.dialect config doc) htexts
    fun _ => Html.skips_of_inlines
  rw [← hwritten]
  exact Html.map_lists_writtenEach hdoc

theorem Json.map_lists_convert {doc : Json.Document} (hdoc : doc.Reachable) :
    (Json.convert config (.ofVocabulary names) doc).map (fun result => result.tables.lists) =
      (assign names Json.Slot.literal (Writing.Dialect.requestsOf
        (fun entry => Json.requests config.json entry.content)
        ((Json.dialect config).visited doc))).map Json.listings := by
  apply Writing.Dialect.map_lists_convertWith
  · intro id entry
    exact Json.keeps_own keeps_sound_request config.json entry.content
  · intro ledger hs
    simp only [Json.tables, Json.Tables.lists, Json.listings, listing, hs.entries_dictionary]
  · apply Writing.Dialect.asks_convert hdoc.wellFormed
    · intro id entry _ hentry
      cases hentry
    · intro entry hentry
      cases hentry
    · intro node _
      exact Json.asks_own config.json node.2.content

/-- Without processing instructions, an XML document is written as the other formats are. -/
theorem Xml.map_lists_convert {doc : Xml.Document} (hdoc : doc.Reachable)
    (htexts : Forest.BareAt Xml.Content.isText doc)
    (hwritable : ∀ node ∈ (Xml.dialect config).visited doc, node.2.isInstruction = false) :
    (Xml.convert config (.ofVocabulary names) doc).map (fun result => result.tables.lists) =
      (assign names Xml.Slot.literal (Writing.Dialect.requestsOf (Xml.requests config.xml)
        ((Xml.dialect config).visited doc))).map Xml.listings := by
  apply Writing.Dialect.map_lists_convertWith
  · intro id content
    exact Xml.keeps_own keeps_sound_request config.xml id content
  · intro ledger hs
    simp only [Xml.tables, Xml.Tables.lists, Xml.listings, listing, hs.entries_dictionary]
  · apply Writing.Dialect.asks_convert hdoc.wellFormed htexts fun _ => Xml.skips_of_inlines
    intro node hnode
    exact Xml.asks_own config.xml node.1 (hwritable node hnode)

theorem Xml.map_lists_of_convert {doc : Xml.Document} (hdoc : doc.Reachable)
    (htexts : Forest.BareAt Xml.Content.isText doc) {result : Writing.Conversion Xml.Tables}
    (h : Xml.convert config (.ofVocabulary names) doc = .ok result) :
    (assign names Xml.Slot.literal (Writing.Dialect.requestsOf (Xml.requests config.xml)
      ((Xml.dialect config).visited doc))).map Xml.listings = .ok result.tables.lists := by
  rw [← Xml.map_lists_convert hdoc htexts, h]
  · rfl
  · -- A processing instruction on the way would have made the conversion fail.
    intro node hnode
    obtain ⟨text, after, hrun, -⟩ := Writing.Dialect.convertWith_eq_ok_iff.mp h
    obtain ⟨before, own, later, hown⟩ :=
      Writing.Dialect.own_ok_of_convert hdoc.wellFormed htexts (fun _ => Xml.skips_of_inlines)
        hrun node hnode
    cases hcontent : node.2 with
    | instruction target data =>
      rw [hcontent] at hown
      cases hown
    | element space name attributes => rfl
    | text payload => rfl
    | cdata payload => rfl
    | comment payload => rfl

/-- The tables of a conversion are those of the run that goes through the nodes that are written in
document order and gives the first name that is left and is unlike the text to each text that has
none: in HTML the class list, the target and the source of an element, in XML its prefix and its
long attribute values, in JSON a key or a long string. For HTML and JSON, the conversion fails
exactly when that run does, and in the same way. -/
theorem tables_name_requests_in_document_order (config : Config) (names : List String) :
    (∀ doc : Html.Document, doc.Reachable →
      Forest.BareAt (fun entry => entry.content.isText) doc →
      (Html.convert config (.ofVocabulary names) doc).map (fun result => result.tables.lists) =
        (assign names Html.Slot.literal (Writing.Dialect.requestsOf
          (fun entry => Html.requests config.html entry.content)
          ((Html.dialect config doc).visited doc))).map Html.listings) ∧
    (∀ doc : Xml.Document, doc.Reachable → Forest.BareAt Xml.Content.isText doc →
      ∀ result, Xml.convert config (.ofVocabulary names) doc = .ok result →
      (assign names Xml.Slot.literal (Writing.Dialect.requestsOf (Xml.requests config.xml)
        ((Xml.dialect config).visited doc))).map Xml.listings = .ok result.tables.lists) ∧
    (∀ doc : Json.Document, doc.Reachable →
      (Json.convert config (.ofVocabulary names) doc).map (fun result => result.tables.lists) =
        (assign names Json.Slot.literal (Writing.Dialect.requestsOf
          (fun entry => Json.requests config.json entry.content)
          ((Json.dialect config).visited doc))).map Json.listings) :=
  ⟨fun _ => Html.map_lists_convert, fun _ hdoc htexts _ => Xml.map_lists_of_convert hdoc htexts,
    fun _ => Json.map_lists_convert⟩

/-- A paragraph with two classes and, in it, a link. -/
theorem names_of_paragraph_with_link :
    let config : Config := { html := { simplifyClasses := true, simplifyRelativeLinks := true } }
    let doc : Html.Document := List.foldl Html.Document.perform Forest.empty
      [.addRootElement "p" (.ofList [("class", "big red")]),
        .addElement "a" (.ofList [("href", "/home")]), .addText "home", .attach 1 0, .attach 2 1]
    doc.Reachable ∧ Forest.BareAt (fun entry => entry.content.isText) doc ∧
      (Html.convert config (.ofVocabulary ["Ann", "Ben"]) doc).map
        (fun result => result.tables.lists) =
          .ok ([("Ann", "big red")], [("Ben", "/home")], []) := by
  intro config doc
  have hdoc : doc.Reachable := ⟨Forest.empty, _, rfl, rfl⟩
  have htexts : Forest.BareAt (fun entry : Html.Entry => entry.content.isText) doc := by
    intro id entry hentry _
    match id with
    | 0 | 1 => cases hentry; contradiction
    | 2 => rfl
    | id + 3 => cases hentry
  refine ⟨hdoc, htexts, ?_⟩
  have hroots : doc.rootIds = [0] := Forest.rootIds_of_roots rfl
  have hvisited : (Html.dialect config doc).visited doc =
      Tree.visitedEach (Html.dialect config doc).skips ([0].filterMap doc.subtree?) := by
    rw [← hroots]; rfl
  rw [(tables_name_requests_in_document_order config ["Ann", "Ben"]).1 doc hdoc htexts, hvisited]
  rfl

end TreeNotation
