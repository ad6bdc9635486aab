import TreeNotation.Proofs.Conversion
import TreeNotation.Proofs.Writing.Occurrence
import TreeNotation.Proofs.Xml.Growth
import TreeNotation.Proofs.Xml.Requests

/-!
# Comments That Are Left Out

A comment is written after the word `comment`. If comments are left out, this word with a brace
behind it may still be read in the notation of a document: a text of the document may hold it, and
an element whose own text ends in the word may be followed by plain text. It is read nowhere else.

- **Nodes**: `Content.verbatim`, the texts of a node that are written as they are, and
  `Content.last?`, the one that its text ends in;
- **Elements**: `infix_shown_iff` and `suffix_shown_iff`, for attributes with names in the place of
  some values;
- **Documents**: `convert_skipping_comments`.
-/

namespace TreeNotation.Xml

open Text (infix_append_cons_iff infix_cons_of_not_mem infix_escapeText_iff suffix_append_cons_iff)
open Token (Gives Ledger gives_bind gives_mapM gives_pure gives_request gives_throw vocabulary)
open Writing

/-- The word that is written before a comment. -/
def commentWord : List Char := "comment".toList

theorem isWord_commentWord : IsWord commentWord where
  ne_nil := by decide
  isAlpha := by
    have hletters : commentWord.all Char.isAlpha = true := by decide
    exact List.all_eq_true.mp hletters

/-! ## Section 1: Nodes -/

/-- The texts of a node that are written as they are. Those of an element are its prefix, its local
name, and the names and values of its attributes, but for a prefix or value that a name stands in
for. -/
def Content.verbatim (options : XmlOptions) : Content → List String
  | .element space name attributes =>
    (space.toList.filter fun text => !selects options (.space text)) ++
      name :: attributes.entries.flatMap fun a =>
        if selects options (.value a.1 a.2) then [a.1] else [a.1, a.2]
  | .text payload | .cdata payload | .comment payload => [payload]
  | .instruction .. => []

/-- Whether a name stands in for the value of the attribute `name`. -/
def replaces (options : XmlOptions) (attributes : Attributes) (name : String) : Bool :=
  (attributes.get? name).any fun value => selects options (.value name value)

/-- The text of the document that an element is written with at its end: nothing if that is a list
of attributes in brackets, or a name that stands in. -/
def Content.last? (options : XmlOptions) : Content → Option String
  | .element _ name attributes =>
    if replaces options attributes "class" then none
    else if (classNames attributes).isEmpty && replaces options attributes "id" then none
    else closing? name attributes
  | _ => none

/-- A text of the node that is written as it is holds the word and the brace of a comment. -/
def Content.Holds (options : XmlOptions) (content : Content) : Prop :=
  ∃ text ∈ content.verbatim options, opening commentWord <:+: text.toList

/-- The text that the node is written with at its end ends in the word of a comment. -/
def Content.EndsInWord (options : XmlOptions) (content : Content) : Prop :=
  ∃ last ∈ content.last? options, commentWord <:+ last.toList

/-- A name of the vocabulary neither holds the brace nor ends in the word. -/
theorem occurs_of_mem_vocabulary {name : String} (h : name ∈ vocabulary) :
    ¬ opening commentWord <:+: name.toList ∧ ¬ commentWord <:+ name.toList := by
  have hend : ∀ name ∈ vocabulary, ¬ commentWord <:+ name.toList := by
    decide +kernel
  obtain ⟨hne, hletters⟩ := Text.ne_nil_and_isAlpha_of_mem_vocabulary h
  have hword : IsWord name.toList := ⟨hne, hletters⟩
  exact ⟨not_opening_of_not_mem (hword.not_mem rfl), hend name h⟩

/-- Escaping a payload keeps the word and the brace in it and brings none about. -/
theorem infix_escaped_iff (payload : String) :
    opening commentWord <:+: (Text.escapeText payload).toList ↔
      opening commentWord <:+: payload.toList :=
  infix_escapeText_iff isWord_commentWord.isBlank_of_mem_opening
    isWord_commentWord.isMark_of_mem_opening

/-! ## Section 2: Elements -/

/-- How an attribute is written: under its name, with its value, or with a name of the vocabulary if
one stands in. -/
def ShowsAs (options : XmlOptions) (a b : String × String) : Prop :=
  b.1 = a.1 ∧ if selects options (.value a.1 a.2) then b.2 ∈ vocabulary else b.2 = a.2

/-- How the attributes of an element are written, one after the other. -/
def Shows (options : XmlOptions) (attributes shown : Attributes) : Prop :=
  List.Forall₂ (ShowsAs options) attributes.entries shown.entries

section Elements

variable {options : XmlOptions} {attributes shown : Attributes}

theorem map_fst_of_showsAs {entries replaced : List (String × String)}
    (h : List.Forall₂ (ShowsAs options) entries replaced) :
    replaced.map Prod.fst = entries.map Prod.fst := by
  induction h with
  | nil => rfl
  | cons hfirst _ ih => rw [List.map_cons, List.map_cons, hfirst.1, ih]

/-- Below a name there is nothing, a name of the vocabulary, or the value. -/
theorem Shows.get?_eq (h : Shows options attributes shown) (name : String) :
    (replaces options attributes name = true ∧
      ∃ token ∈ vocabulary, shown.get? name = some token) ∨
    (replaces options attributes name = false ∧ shown.get? name = attributes.get? name) := by
  unfold replaces OrderedMap.get?
  unfold Shows at h
  generalize attributes.entries = entries, shown.entries = replaced at h ⊢
  induction h with
  | nil => exact .inr ⟨rfl, rfl⟩
  | @cons a b as bs hfirst hrest ih =>
    obtain ⟨hname, hvalue⟩ := hfirst
    rw [List.find?_cons, List.find?_cons, hname]
    by_cases hkey : a.1 = name
    · subst hkey
      by_cases hselects : selects options (.value a.1 a.2) = true
      · rw [if_pos hselects] at hvalue
        exact .inl ⟨by simpa using hselects, b.2, hvalue, by simp⟩
      · rw [if_neg hselects] at hvalue
        exact .inr ⟨by simpa using hselects, by simp [hvalue]⟩
    · simpa [hkey] using ih

theorem listed_isEmpty_iff : (listed attributes).isEmpty = true ↔
    ∀ name ∈ attributes.entries.map Prod.fst, name = "id" ∨ name = "class" := by
  simp [listed, or_iff_not_imp_left]

/-- The word and the brace occur in the attributes as they are written if and only if they do in one
of the texts that are written as they are. -/
theorem infix_shown_iff (h : Shows options attributes shown) :
    (∃ b ∈ shown.entries, opening commentWord <:+: b.1.toList ∨
      opening commentWord <:+: b.2.toList) ↔
    ∃ text ∈ attributes.entries.flatMap fun a =>
      if selects options (.value a.1 a.2) then [a.1] else [a.1, a.2],
        opening commentWord <:+: text.toList := by
  unfold Shows at h
  generalize attributes.entries = entries, shown.entries = replaced at h ⊢
  induction h with
  | nil => simp
  | @cons a b as bs hfirst _ ih =>
    obtain ⟨hname, hvalue⟩ := hfirst
    simp only [List.exists_mem_cons_iff, ih, List.flatMap_cons, List.mem_append, or_and_right,
      exists_or, hname]
    apply or_congr_left
    by_cases hselects : selects options (.value a.1 a.2) = true
    · rw [if_pos hselects] at hvalue ⊢
      simp [(occurs_of_mem_vocabulary hvalue).1]
    · rw [if_neg hselects] at hvalue ⊢
      simp [hvalue]

theorem classNames_of_shows (h : Shows options attributes shown) :
    (replaces options attributes "class" = true ∧
      ∃ token ∈ vocabulary, classNames shown = [token]) ∨
    (replaces options attributes "class" = false ∧ classNames shown = classNames attributes) := by
  rcases h.get?_eq "class" with ⟨hclass, token, hmem, hshown⟩ | ⟨hclass, hshown⟩
  · refine .inl ⟨hclass, token, hmem, ?_⟩
    rw [classNames, hshown]
    exact Text.words_of_mem_vocabulary hmem
  · exact .inr ⟨hclass, by rw [classNames, hshown, classNames]⟩

theorem nonempty?_of_shows (h : Shows options attributes shown) (name : String) :
    (replaces options attributes name = true ∧
      ∃ token ∈ vocabulary, nonempty? shown name = some token) ∨
    (replaces options attributes name = false ∧
      nonempty? shown name = nonempty? attributes name) := by
  rcases h.get?_eq name with ⟨hname, token, hmem, hshown⟩ | ⟨hname, hshown⟩
  · have hne : token ≠ "" := by
      rintro rfl
      exact (Text.ne_nil_and_isAlpha_of_mem_vocabulary hmem).1 rfl
    exact .inl ⟨hname, token, hmem, by simp [nonempty?, hshown, Option.filter, hne]⟩
  · exact .inr ⟨hname, by rw [nonempty?, hshown, nonempty?]⟩

/-- An element ends in the word as it is written if and only if it is written with a text of the
document at its end that does. -/
theorem suffix_shown_iff (h : Shows options attributes shown) {front name : String}
    (hfront : commentWord <:+ front.toList ↔ commentWord <:+ name.toList) (space : Option String) :
    (∃ last ∈ closing? front shown, commentWord <:+ last.toList) ↔
      (Content.element space name attributes).EndsInWord options := by
  have htoken : ∀ token ∈ vocabulary, ¬ commentWord <:+ token.toList :=
    fun token hmem => (occurs_of_mem_vocabulary hmem).2
  have hlisted : (listed shown).isEmpty = (listed attributes).isEmpty := by
    rw [Bool.eq_iff_iff, listed_isEmpty_iff, listed_isEmpty_iff, map_fst_of_showsAs h]
  unfold Content.EndsInWord Content.last? closing?
  rw [hlisted]
  by_cases hbrackets : (listed attributes).isEmpty = true
  case neg => simp [hbrackets]
  simp only [if_pos hbrackets]
  rcases classNames_of_shows h with ⟨hclass, token, hmem, hshown⟩ | ⟨hclass, hshown⟩
  · simpa [hclass, hshown] using htoken token hmem
  rw [hclass, hshown]
  rcases List.eq_nil_or_concat (classNames attributes) with hclasses | ⟨names, last, hclasses⟩
  · rw [hclasses]
    rcases nonempty?_of_shows h "id" with ⟨hid, token, hmem, hshown⟩ | ⟨hid, hshown⟩
    · simpa [hid, hshown] using htoken token hmem
    · rw [hid, hshown]
      cases nonempty? attributes "id" with
      | none => simpa using hfront
      | some id => simp
  · simp [hclasses]

/-- A request for a text gives a name of the vocabulary. -/
theorem gives_token (slot : Slot) : Gives (Ledger.Sound vocabulary Slot.literal) (· ∈ vocabulary)
    (Ledger.request slot slot.literal) :=
  gives_request slot

theorem gives_shows (attributes : Attributes) :
    Gives (Ledger.Sound vocabulary Slot.literal) (Shows options attributes)
      (replaceValues options attributes) := by
  unfold replaceValues
  split
  case isTrue hlong =>
    have hvalue : ∀ a ∈ attributes.entries, Gives (Ledger.Sound vocabulary Slot.literal)
        (ShowsAs options a) (replaceValue options a) := by
      intro a _
      unfold replaceValue
      split
      case isTrue hthreshold =>
        apply gives_bind (gives_token (.value a.1 a.2))
        intro token htoken
        exact gives_pure ⟨rfl, by simpa [selects, hlong, hthreshold] using htoken⟩
      case isFalse hthreshold => exact gives_pure ⟨rfl, by simp [selects, hthreshold]⟩
    apply gives_bind (gives_mapM hvalue)
    intro replaced hreplaced
    have hkeys : replaced.map Prod.fst = attributes.keys := map_fst_of_showsAs hreplaced
    apply gives_pure
    unfold Shows
    rw [OrderedMap.entries_ofList (hkeys ▸ attributes.nodup_keys)]
    exact hreplaced
  case isFalse hshort =>
    apply gives_pure
    apply List.forall₂_same.mpr
    intro a _
    exact ⟨rfl, by simp [selects, hshort]⟩

/-- What an element is written with before its attributes: the word and the brace occur in the
prefix if it is written as it is, or in the local name, which is what comes last. -/
theorem gives_front (space : Option String) (name : String) :
    Gives (Ledger.Sound vocabulary Slot.literal)
      (fun front => (opening commentWord <:+: front.toList ↔
          (∃ text ∈ space.toList.filter fun text => !selects options (.space text),
            opening commentWord <:+: text.toList) ∨ opening commentWord <:+: name.toList) ∧
        (commentWord <:+ front.toList ↔ commentWord <:+ name.toList))
      (writeName options space name) := by
  have hslash : '\\' ∉ opening commentWord := isWord_commentWord.not_mem_opening rfl (by decide)
  have hcolon : ':' ∉ opening commentWord := isWord_commentWord.not_mem_opening rfl (by decide)
  have hchars : ∀ space : String, (space ++ "\\:" ++ name).toList =
      space.toList ++ '\\' :: ':' :: name.toList := by
    simp
  have hoccurs : ∀ space : String, opening commentWord <:+: (space ++ "\\:" ++ name).toList ↔
      opening commentWord <:+: space.toList ∨ opening commentWord <:+: name.toList := by
    intro space
    rw [hchars, infix_append_cons_iff hslash, infix_cons_of_not_mem hcolon]
  have hends : ∀ space : String, commentWord <:+ (space ++ "\\:" ++ name).toList ↔
      commentWord <:+ name.toList := by
    intro space
    rw [hchars, suffix_append_cons_iff (isWord_commentWord.not_mem (c := '\\') rfl)]
    have hlast : commentWord <:+ [] ++ ':' :: name.toList ↔ commentWord <:+ name.toList :=
      suffix_append_cons_iff (isWord_commentWord.not_mem rfl)
    exact hlast
  unfold writeName
  split
  case h_1 => exact gives_pure ⟨by simp, Iff.rfl⟩
  case h_2 space =>
    split
    next hspaces =>
      apply gives_bind (gives_token (.space space))
      intro token htoken
      refine gives_pure ⟨?_, hends token⟩
      rw [hoccurs, or_iff_right (occurs_of_mem_vocabulary htoken).1]
      simp [selects, hspaces]
    next hspaces =>
      refine gives_pure ⟨?_, hends space⟩
      rw [hoccurs]
      simp [selects, hspaces]

end Elements

/-! ## Section 3: Documents -/

/-- The word and the brace occur in the text of a comment, and in that of a node that holds them;
the text of a node ends in the word if a text of the document comes last that does. -/
theorem gives_spells (config : Config) (id : NodeId) (content : Content) :
    Gives (Ledger.Sound vocabulary Slot.literal)
      ((dialect config).Spells commentWord
        (fun content => content.isComment = true ∨ content.Holds config.xml)
        (Content.EndsInWord config.xml) content)
      ((dialect config).own id content) := by
  have hword := isWord_commentWord
  have hempty : ¬ opening commentWord <:+: "".toList ∧ ¬ commentWord <:+ "".toList := by decide
  have hends : ∀ {content : Content}, content.last? config.xml = none →
      ¬ content.EndsInWord config.xml := by
    rintro content hnone ⟨last, hlast, -⟩
    rw [hnone] at hlast
    cases hlast
  cases content with
  | element space name attributes =>
    apply gives_bind (gives_front space name)
    rintro front ⟨hfront, hlast⟩
    apply gives_bind (gives_shows attributes)
    intro shown hshown
    refine gives_pure ⟨?_, ?_, fun hinlines => by cases hinlines⟩
    · rw [infix_element_iff hword, hfront, infix_shown_iff hshown]
      simp only [Content.isComment, Bool.false_eq_true, false_or, Content.Holds, Content.verbatim,
        List.mem_append, List.mem_cons, or_and_right, exists_or, exists_eq_left, or_assoc]
    · rw [suffix_element_iff hword]
      exact suffix_shown_iff hshown hlast space
  | text payload =>
    have hbrace : ∃ rest, (braced "" (Text.escapeText payload)).toList = '\x7b' :: rest :=
      ⟨(Text.escapeText payload).toList ++ ['\x7d'], by simp [braced]⟩
    refine gives_pure ⟨?_, ?_, fun _ => hbrace⟩
    · rw [infix_braced_iff hword, infix_escaped_iff, or_iff_right hempty.1, or_iff_right hempty.2]
      simp [Content.isComment, Content.Holds, Content.verbatim]
    · exact iff_of_false (hword.not_suffix_braced _ _) (hends rfl)
  | cdata payload =>
    have hlabel : ∀ preserves : Bool,
        ¬ opening commentWord <:+: (if preserves then "cdata" else "").toList ∧
          ¬ commentWord <:+ (if preserves then "cdata" else "").toList := by
      decide
    refine gives_pure ⟨?_, ?_, fun hinlines => by cases hinlines⟩
    · rw [infix_braced_iff hword, infix_escaped_iff, or_iff_right (hlabel _).1,
        or_iff_right (hlabel _).2]
      simp [Content.isComment, Content.Holds, Content.verbatim]
    · exact iff_of_false (hword.not_suffix_braced _ _) (hends rfl)
  | comment payload =>
    refine gives_pure ⟨?_, ?_, fun hinlines => by cases hinlines⟩
    · rw [infix_braced_iff hword]
      exact iff_of_true (.inr (.inl List.suffix_rfl)) (.inl rfl)
    · exact iff_of_false (hword.not_suffix_braced _ _) (hends rfl)
  | instruction target data => exact gives_throw _

/-- If comments are left out, none is written, and the word and the brace of a comment are read in a
notation if and only if a node that is written holds them in a text of its own, or ends in the word
with plain text written directly after it. -/
theorem convert_skipping_comments {doc : Document} (hdoc : doc.Reachable) {config : Config}
    (hskip : config.xml.skipComments = true) {result : Conversion Tables}
    (hresult : convert config .standard doc = .ok result) :
    (∀ node ∈ (dialect config).writtenEach doc.trees, node.2.isComment = false) ∧
      ("comment\x7b".toList <:+: result.text.toList ↔
        ∃ node ∈ (dialect config).writtenEach doc.trees, node.2.Holds config.xml ∨
          node.2.EndsInWord config.xml ∧ (dialect config).Leads doc node.1) := by
  have hshown : ∀ node ∈ (dialect config).writtenEach doc.trees, node.2.isComment = false := by
    intro node hnode
    have hskips := Dialect.skips_of_mem_writtenEach (fun _ => skips_of_inlines) doc.trees node hnode
    obtain ⟨id, content⟩ := node
    cases content with
    | comment payload => exact absurd hskips (by simp [dialect, skips, hskip])
    | _ => rfl
  have hlead : ∀ content : Content, (dialect config).inlines content = true →
      ¬ content.EndsInWord config.xml := by
    rintro content hinlines ⟨last, hlast, -⟩
    cases content with
    | text payload => cases hlast
    | _ => cases hinlines
  have hoccurs := Dialect.occursAt_convertWith hdoc.wellFormed isWord_commentWord hlead
    (Ledger.Sound.ofVocabulary vocabulary Slot.literal)
    (fun id content _ => gives_spells config id content) hresult
  refine ⟨hshown, hoccurs.trans (exists_congr fun node => and_congr_right fun hnode => ?_)⟩
  simp [Dialect.ComesAbout, hshown node hnode]

/-- The comment is left out. The element after it has the word for its name, but it is its
identifier that comes before the brace. -/
theorem note_skipping_comment :
    let doc : Document := List.foldl Document.perform Forest.empty
      [.addRootElement "note" OrderedMap.empty, .addComment "draft",
        .addElement "comment" (.ofList [("id", "first")]), .addText "hi",
        .attach 1 0, .attach 2 0, .attach 3 2]
    let config : Config := { xml := { skipComments := true } }
    (doc.Reachable ∧ config.xml.skipComments = true) ∧
      ∃ result, convert config .standard doc = .ok result ∧
        result.text = "note>comment#first{hi}" ∧
        (∀ node ∈ (dialect config).writtenEach doc.trees, node.2.isComment = false) ∧
        ("comment\x7b".toList <:+: result.text.toList ↔
          ∃ node ∈ (dialect config).writtenEach doc.trees, node.2.Holds config.xml ∨
            node.2.EndsInWord config.xml ∧ (dialect config).Leads doc node.1) := by
  intro doc config
  have hdoc : doc.Reachable := ⟨Forest.empty, _, rfl, rfl⟩
  have hroots : doc.rootIds = [0] := Forest.rootIds_of_roots rfl
  have htext : (convert config .standard doc).map Conversion.text =
      .ok "note>comment#first{hi}" := by
    unfold convert Dialect.convertWith Dialect.convert
    rw [hroots]
    rfl
  refine ⟨⟨hdoc, rfl⟩, ?_⟩
  obtain ⟨result, hresult, hnote⟩ := except_map_eq_ok_iff.mp htext
  exact ⟨result, hresult, hnote, convert_skipping_comments hdoc rfl hresult⟩

/-- Leaving comments out does not keep the word and the brace of a comment out of every notation: an
element may have that word for its name. -/
theorem comment_named_element :
    ¬ ∀ (doc : Document) (config : Config) (result : Conversion Tables), doc.Reachable →
      config.xml.skipComments = true → convert config .standard doc = .ok result →
        ¬ "comment\x7b".toList <:+: result.text.toList := by
  intro hnever
  let doc : Document := List.foldl Document.perform Forest.empty
    [.addRootElement "comment" OrderedMap.empty, .addText "x", .attach 1 0]
  let config : Config := { xml := { skipComments := true } }
  have hroots : doc.rootIds = [0] := Forest.rootIds_of_roots rfl
  have htext : (convert config .standard doc).map Conversion.text = .ok "comment{x}" := by
    unfold convert Dialect.convertWith Dialect.convert
    rw [hroots]
    rfl
  obtain ⟨result, hresult, hcomment⟩ := except_map_eq_ok_iff.mp htext
  refine hnever doc config result ⟨Forest.empty, _, rfl, rfl⟩ rfl hresult ?_
  rw [hcomment]
  decide

end TreeNotation.Xml
