import TreeNotation.Proofs.Naming
import TreeNotation.Proofs.Text.Words
import TreeNotation.Proofs.XPath.Comparison

/-!
# From Documents to Paths and Back

A path that was written against the notation of a document is restored so that it addresses the
document itself: a comparison with a name becomes the same comparison with the text that the name
stands in for.

- **Names**: `unquoted_of_mem_entries`, the names of the tables hold no quotes; `Xml.IsName`, the
  names that XML allows for attributes;
- **Passes**: `restoreHtml_classes` and its companions; of the three attributes of an HTML table each
  is restored in its own pass and left alone in the others;
- **Round trip**: `restore_round_trip`, for HTML and for XML.
-/

namespace TreeNotation

open Token (Ledger Supply)
open Token.Ledger (Sound keeps_sound_request)
open Writing (Conversion Dialect)
open XPath (Apart Comparison Inert NodeTest Restorer isQuote restoreHtml trace)

/-- A text without quotes. -/
def Unquoted (text : String) : Prop := ∀ c ∈ text.toList, isQuote c = false

/-! ## Section 1: Names -/

theorem unquoted_of_mem_vocabulary {name : String} (h : name ∈ Token.vocabulary) :
    Unquoted name := by
  intro c hc
  rw [Bool.eq_false_iff]
  intro hquote
  have halpha := (Text.ne_nil_and_isAlpha_of_mem_vocabulary h).2 c hc
  simp only [isQuote, Bool.or_eq_true, beq_iff_eq] at hquote
  rcases hquote with rfl | rfl <;> cases halpha

/-- An entry in a table of sound books: what its name stands in for, and that the name holds no
quotes. -/
theorem unquoted_of_mem_entries {κ ν : Type} {literal : κ → String} {ledger : Ledger κ}
    (hs : ledger.Sound Token.vocabulary literal) {category : κ → Option ν} {token : String}
    {original : ν} (h : (token, original) ∈ (ledger.dictionary category).entries) :
    (ledger.dictionary category).get? token = some original ∧ Unquoted token := by
  obtain ⟨key, hkey, -⟩ := hs.mem_dictionary_iff.mp h
  exact ⟨OrderedMap.get?_eq_some_iff.mpr h, unquoted_of_mem_vocabulary (hs.mem_names _ hkey)⟩

namespace Xml

/-- First and last code points of the runs of characters that a name may begin with. -/
def nameStartRanges : List (Nat × Nat) :=
  [(0x3A, 0x3A), (0x41, 0x5A), (0x5F, 0x5F), (0x61, 0x7A), (0xC0, 0xD6), (0xD8, 0xF6),
    (0xF8, 0x2FF), (0x370, 0x37D), (0x37F, 0x1FFF), (0x200C, 0x200D), (0x2070, 0x218F),
    (0x2C00, 0x2FEF), (0x3001, 0xD7FF), (0xF900, 0xFDCF), (0xFDF0, 0xFFFD), (0x10000, 0xEFFFF)]

/-- First and last code points of the runs of characters that a name may hold. -/
def nameRanges : List (Nat × Nat) :=
  nameStartRanges ++
    [(0x2D, 0x2E), (0x30, 0x39), (0xB7, 0xB7), (0x300, 0x36F), (0x203F, 0x2040)]

/-- Whether a text is a name as XML defines it. -/
def IsName (name : String) : Prop :=
  (∃ c ∈ name.toList.head?, Text.inRanges nameStartRanges c.toNat = true) ∧
    ∀ c ∈ name.toList, Text.inRanges nameRanges c.toNat = true

theorem IsName.ne_mark {name : String} (h : IsName name) {mark : Char}
    (hmark : Text.inRanges nameRanges mark.toNat = false) : mark ∉ name.toList := by
  intro hmem
  rw [h.2 mark hmem] at hmark
  cases hmark

theorem IsName.inert {name : String} (h : IsName name) : Inert name.toList := by
  intro c hc
  have hne : ∀ mark : Char, Text.inRanges nameRanges mark.toNat = false → c ≠ mark := by
    rintro mark hmark rfl
    exact h.ne_mark hmark hc
  refine ⟨?_, hne '/' (by decide), hne '[' (by decide), hne ']' (by decide)⟩
  simp [isQuote, hne '"' (by decide), hne '\'' (by decide)]

end Xml

/-! ## Section 2: The passes over a path -/

section Passes

variable {c : Comparison} {tables : Html.Tables}

/-- The attributes that an HTML conversion replaces. -/
def Html.replacedAttributes : List String := ["class", "href", "src"]

theorem Html.replacedAttributes_plain :
    ∀ name ∈ replacedAttributes, Inert name.toList ∧ ')' ∉ name.toList := by
  decide

theorem Html.replacedAttributes_apart :
    ∀ name ∈ replacedAttributes, ∀ other ∈ replacedAttributes, name ≠ other →
      Apart (trace ('@' :: name.toList)) (trace ('@' :: other.toList)) := by
  decide

/-- A pass for one attribute leaves the comparisons of the other ones alone. -/
theorem restore_other_attribute {name other : String} (hname : name ∈ Html.replacedAttributes)
    (hother : other ∈ Html.replacedAttributes) (hne : name ≠ other) (hc : c.WellFormed)
    (hon : c.On name) {r : Restorer} (hr : r.Faithful) (tag : Option String)
    (map : OrderedMap String String) {content : String} (hcontent : Unquoted content) :
    (r.restore (c.path content) tag other map).1 = c.path content := by
  obtain ⟨hinert, hmark⟩ := Html.replacedAttributes_plain name hname
  obtain ⟨hinert', hmark'⟩ := Html.replacedAttributes_plain other hother
  exact Comparison.restore_path_of_apart hr hinert hmark hinert' hmark'
    (Html.replacedAttributes_apart name hname other hother hne) hc hon map hcontent

/-- The pass for an attribute puts the original in the place of its name. -/
theorem restore_own_attribute {name : String} (hname : name ∈ Html.replacedAttributes)
    (hc : c.WellFormed) (hon : c.On name) {tag : Option String}
    (hconcerned : (NodeTest.ofStep c.tag).concerns tag = true) {r : Restorer} (hr : r.Faithful)
    {map : OrderedMap String String} {token original : String}
    (hentry : map.get? token = some original) (htoken : Unquoted token)
    (horiginal : Unquoted original) :
    (r.restore (c.path token) tag name map).1 = c.path original := by
  obtain ⟨hinert, hmark⟩ := Html.replacedAttributes_plain name hname
  exact Comparison.restore_path hr hinert hmark hc hon hconcerned hentry htoken horiginal

/-- What the three passes do to a path, one after the other. -/
theorem restoreHtml_of_passes {path₀ path₁ path₂ path₃ : String}
    (hclasses : ∀ r : Restorer, r.Faithful →
      (r.restore path₀ none "class" tables.classes).1 = path₁)
    (hlinks : ∀ r : Restorer, r.Faithful →
      (r.restore path₁ (some "a") "href" tables.links).1 = path₂)
    (himages : ∀ r : Restorer, r.Faithful →
      (r.restore path₂ (some "img") "src" tables.images).1 = path₃) :
    restoreHtml path₀ tables = path₃ := by
  have hr : Restorer.standard.Faithful := Restorer.faithful_ofCapacity 16
  have hr' := hr.after_restore path₀ none "class" tables.classes
  have hr'' := hr'.after_restore path₁ (some "a") "href" tables.links
  simp only [restoreHtml, XPath.restoreClasses, XPath.restoreLinks, XPath.restoreImages,
    hclasses _ hr, hlinks _ hr', himages _ hr'']

end Passes

/-! ## Section 3: Round trip -/

/-- Whatever a successful conversion with the standard vocabulary has replaced, restoring a path that
compares with the name gives the path that compares with the original, and changes nothing else: for
each of the ten shapes of predicate on the attribute, with either quote, on steps for any element,
for links or for images; the original may look like a predicate, a step or a name, as long as it
holds no quote. -/
theorem restore_round_trip (config : Config) :
    (∀ (doc : Html.Document) (result : Conversion Html.Tables),
      Html.convert config .standard doc = .ok result →
      ∀ (c : Comparison) (token original : String), c.WellFormed → Unquoted original →
        (c.On "class" → (token, original) ∈ result.tables.classes.entries →
          restoreHtml (c.path token) result.tables = c.path original) ∧
        (c.On "href" → c.tag = "a".toList → (token, original) ∈ result.tables.links.entries →
          restoreHtml (c.path token) result.tables = c.path original) ∧
        (c.On "src" → c.tag = "img".toList → (token, original) ∈ result.tables.images.entries →
          restoreHtml (c.path token) result.tables = c.path original)) ∧
    (∀ (doc : Xml.Document) (result : Conversion Xml.Tables),
      Xml.convert config .standard doc = .ok result →
      ∀ (c : Comparison) (token name value : String), c.WellFormed → Unquoted value →
        Xml.IsName name → c.On name →
        (token, (name, value)) ∈ result.tables.attributes.entries →
        ∀ r : Restorer, r.Reachable →
          (r.restore (c.path token) none name (result.tables.valuesOf name)).1 =
            c.path value) := by
  constructor
  · intro doc result h c token original hc horiginal
    obtain ⟨text, ledger, hrun, rfl⟩ := Dialect.convertWith_eq_ok_iff.mp h
    have hs : ledger.Sound Token.vocabulary Html.Slot.literal :=
      Dialect.sound_of_convert
        (fun _ entry => Html.keeps_own keeps_sound_request config.html entry.content) hrun
    refine ⟨?_, ?_, ?_⟩
    · intro hon hentry
      obtain ⟨hget, htoken⟩ := unquoted_of_mem_entries hs hentry
      apply restoreHtml_of_passes
      · exact fun r hr =>
          restore_own_attribute (by decide) hc hon rfl hr hget htoken horiginal
      · exact fun r hr =>
          restore_other_attribute (by decide) (by decide) (by decide) hc hon hr _ _ horiginal
      · exact fun r hr =>
          restore_other_attribute (by decide) (by decide) (by decide) hc hon hr _ _ horiginal
    · intro hon htag hentry
      obtain ⟨hget, htoken⟩ := unquoted_of_mem_entries hs hentry
      have hconcerned : (NodeTest.ofStep c.tag).concerns (some "a") = true := by rw [htag]; rfl
      apply restoreHtml_of_passes
      · exact fun r hr =>
          restore_other_attribute (by decide) (by decide) (by decide) hc hon hr _ _ htoken
      · exact fun r hr =>
          restore_own_attribute (by decide) hc hon hconcerned hr hget htoken horiginal
      · exact fun r hr =>
          restore_other_attribute (by decide) (by decide) (by decide) hc hon hr _ _ horiginal
    · intro hon htag hentry
      obtain ⟨hget, htoken⟩ := unquoted_of_mem_entries hs hentry
      have hconcerned : (NodeTest.ofStep c.tag).concerns (some "img") = true := by rw [htag]; rfl
      apply restoreHtml_of_passes
      · exact fun r hr =>
          restore_other_attribute (by decide) (by decide) (by decide) hc hon hr _ _ htoken
      · exact fun r hr =>
          restore_other_attribute (by decide) (by decide) (by decide) hc hon hr _ _ htoken
      · exact fun r hr =>
          restore_own_attribute (by decide) hc hon hconcerned hr hget htoken horiginal
  · intro doc result h c token name value hc hvalue hname hon hentry r hr
    obtain ⟨text, ledger, hrun, rfl⟩ := Dialect.convertWith_eq_ok_iff.mp h
    have hs : ledger.Sound Token.vocabulary Xml.Slot.literal :=
      Dialect.sound_of_convert
        (fun id content => Xml.keeps_own keeps_sound_request config.xml id content) hrun
    obtain ⟨hget, htoken⟩ := unquoted_of_mem_entries hs hentry
    exact Comparison.restore_path hr.faithful hname.inert (hname.ne_mark (by decide)) hc hon rfl
      (Xml.Tables.get?_valuesOf.mpr hget) htoken hvalue

/-- A class list that looks like steps with a predicate on the class, and a long value that looks
like the rest of its own predicate. -/
theorem restores_texts_like_paths :
    let classes : Config := { html := { simplifyClasses := true } }
    let values : Config := { xml := { simplifyLongAttributes := true } }
    let html : Html.Document := List.foldl Html.Document.perform Forest.empty
      [.addRootElement "p" (.ofList [("class", "a/b[@class=James]")])]
    let xml : Xml.Document := List.foldl Xml.Document.perform Forest.empty
      [.addRootElement "p" (.ofList [("b", "James] or contains(@b, James)")])]
    (∃ result, Html.convert classes .standard html = .ok result ∧
      restoreHtml "//body[1]/p[contains( @Class, \"James\")]/i" result.tables =
        "//body[1]/p[contains( @Class, \"a/b[@class=James]\")]/i") ∧
    ∃ result, Xml.convert values .standard xml = .ok result ∧
      (Restorer.standard.restore "p[@b='James']" none "b" (result.tables.valuesOf "b")).1 =
        "p[@b='James] or contains(@b, James)']" := by
  intro classes values html xml
  obtain ⟨rest, nodup, hstandard⟩ := Supply.standard_eq_cons
  have hhtml : html.rootIds = [0] := Forest.rootIds_of_roots rfl
  have hxml : xml.rootIds = [0] := Forest.rootIds_of_roots rfl
  constructor
  · have hrun : ∃ text after, (Html.dialect classes html).convert html
        (Ledger.ofSupply .standard) = .ok text after ∧
          (Html.tables after).classes.entries = [("James", "a/b[@class=James]")] := by
      unfold Dialect.convert
      rw [hhtml, hstandard]
      exact ⟨_, _, rfl, rfl⟩
    obtain ⟨text, after, hrun, hentries⟩ := hrun
    have hconvert : Html.convert classes .standard html = .ok ⟨text, Html.tables after⟩ :=
      Dialect.convertWith_eq_ok_iff.mpr ⟨text, after, hrun, rfl⟩
    let c : Comparison := ⟨"//body[1]".toList, ['/'], ['p'], "contains( @Class, ".toList, '"',
      [')'], "/i".toList⟩
    have hc : c.WellFormed :=
      { before_plain := by simp [c, isQuote]
        before_closed := rfl
        before_ends := by simp [c]
        slashes := by simp [c]
        separated := by simp [c]
        tag_inert := by decide
        quote_isQuote := rfl
        later_plain := by simp [c, isQuote]
        later_begins := .inr ⟨['i'], rfl⟩ }
    have hon : c.On "class" :=
      ⟨XPath.application "contains" (XPath.plainSubject "class".toList), by decide, by decide,
        by decide⟩
    have horiginal : Unquoted "a/b[@class=James]" := by simp [Unquoted, isQuote]
    refine ⟨_, hconvert, ?_⟩
    exact ((restore_round_trip classes).1 html _ hconvert c "James" "a/b[@class=James]" hc
      horiginal).1 hon (by rw [hentries]; exact .head _)
  · have hrun : ∃ text after, (Xml.dialect values).convert xml
        (Ledger.ofSupply .standard) = .ok text after ∧ (Xml.tables after).attributes.entries =
          [("James", ("b", "James] or contains(@b, James)"))] := by
      unfold Dialect.convert
      rw [hxml, hstandard]
      exact ⟨_, _, rfl, rfl⟩
    obtain ⟨text, after, hrun, hentries⟩ := hrun
    have hconvert : Xml.convert values .standard xml = .ok ⟨text, Xml.tables after⟩ :=
      Dialect.convertWith_eq_ok_iff.mpr ⟨text, after, hrun, rfl⟩
    let c : Comparison := ⟨[], [], ['p'], "@b=".toList, '\'', [], []⟩
    have hc : c.WellFormed :=
      { before_plain := by simp [c]
        before_closed := rfl
        before_ends := by simp [c]
        slashes := by simp [c]
        separated := .inl rfl
        tag_inert := by decide
        quote_isQuote := rfl
        later_plain := by simp [c]
        later_begins := .inl rfl }
    have hon : c.On "b" :=
      ⟨XPath.equality (XPath.plainSubject "b".toList), by decide, by decide, by decide⟩
    have hchar : Text.inRanges Xml.nameRanges 'b'.toNat = true := by decide
    have hname : Xml.IsName "b" := ⟨⟨'b', rfl, by decide⟩, by simpa using hchar⟩
    have hvalue : Unquoted "James] or contains(@b, James)" := by simp [Unquoted, isQuote]
    refine ⟨_, hconvert, ?_⟩
    exact (restore_round_trip values).2 xml _ hconvert c "James" "b"
      "James] or contains(@b, James)" hc hvalue hname hon (by rw [hentries]; exact .head _)
      Restorer.standard ⟨Restorer.standard, [], ⟨16, rfl⟩, rfl⟩

end TreeNotation
