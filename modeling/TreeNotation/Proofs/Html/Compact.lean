import TreeNotation.Proofs.Naming
import TreeNotation.Proofs.Token.Exhaustion

/-!
# Terse HTML

The terse settings for HTML ask for names in the place of class lists, of links to elsewhere and of
the sources of images, and they reduce the attributes of an element to those of its highest tier. The
source of an image belongs to no tier, so it is gone before a name could stand in for it.

- **Tiers**: `get?_select_of_primary` and `get?_select_of_no_tier`, which attributes are left;
- **Tables**: `exists_fills_of_convert`; the tables of a conversion hold the texts that the written
  nodes ask for and nothing else;
- **Main result**: `originals_of_compactHtml`, which texts the terse settings put into the tables.
-/

namespace TreeNotation

open Token (Fills Supply assign assign_cases listing)
open Writing (Attributes Conversion)
open Writing.Dialect (requestsOf)

/-! ## Section 1: Attributes of the highest tier -/

/-- A look-up in a map that is filtered by its keys. -/
theorem OrderedMap.get?_filter_of_keys {κ ν : Type} [DecidableEq κ] (m : OrderedMap κ ν)
    (p : κ → Bool) (key : κ) :
    (m.filter fun other _ => p other).get? key = if p key then m.get? key else none := by
  unfold get? filter
  rw [List.find?_filter]
  by_cases hkey : p key = true
  · rw [if_pos hkey]
    congr 2
    funext entry
    by_cases hentry : entry.1 = key <;> simp [hentry, hkey]
  · rw [if_neg hkey, Option.map_eq_none_iff, List.find?_eq_none]
    intro entry _ h
    simp only [decide_eq_true_eq, Bool.decide_and, Bool.and_eq_true] at h
    exact hkey (h.2 ▸ h.1)

namespace AttributeTiers

variable {tiers : AttributeTiers} {attributes : Attributes} {name : String}

theorem get?_ofTier (tiers : AttributeTiers) (tier : OrderedSet String) (attributes : Attributes)
    (name : String) : (tiers.ofTier tier attributes).get? name =
      if !tiers.drops name && tier.contains name then attributes.get? name else none :=
  attributes.get?_filter_of_keys (fun other => !tiers.drops other && tier.contains other) name

/-- A primary attribute is left as it is. -/
theorem get?_select_of_primary (hname : name ∈ tiers.primary) (hkept : tiers.drops name = false) :
    (tiers.select attributes).get? name = attributes.get? name := by
  have hprimary : (tiers.ofTier tiers.primary attributes).get? name = attributes.get? name := by
    rw [get?_ofTier, hkept, OrderedSet.contains_iff.mpr hname]
    rfl
  unfold select
  dsimp only
  split
  case isFalse => exact hprimary
  case isTrue hempty =>
    -- There is no primary attribute, so this one is not there either.
    have hentries : (tiers.ofTier tiers.primary attributes).entries = [] := List.isEmpty_iff.mp hempty
    have hnone : attributes.get? name = none := by
      rw [← hprimary, OrderedMap.get?, hentries]
      rfl
    rw [get?_ofTier, hnone, ite_self]

/-- An attribute of no tier is dropped. -/
theorem get?_select_of_no_tier (hprimary : name ∉ tiers.primary)
    (hsecondary : name ∉ tiers.secondary) : (tiers.select attributes).get? name = none := by
  have hnone : ∀ tier : OrderedSet String, name ∉ tier →
      (tiers.ofTier tier attributes).get? name = none := by
    intro tier htier
    have hnot : tier.contains name = false :=
      Bool.eq_false_iff.mpr fun h => htier (OrderedSet.contains_iff.mp h)
    rw [get?_ofTier, hnot, Bool.and_false]
    rfl
  unfold select
  dsimp only
  split
  · exact hnone tiers.secondary hsecondary
  · exact hnone tiers.primary hprimary

end AttributeTiers

/-! ## Section 2: Texts in tables -/

/-- The texts of one category are those of the keys in the book. -/
theorem Token.mem_snd_listing {κ ν : Type} {category : κ → Option ν} {book : List (κ × String)}
    {text : ν} : text ∈ (listing category book).map Prod.snd ↔
      ∃ key ∈ book.map Prod.fst, category key = some text := by
  simp only [listing, List.mem_map, List.mem_filterMap, Option.map_eq_some_iff]
  constructor
  · rintro ⟨_, ⟨entry, hentry, _, htext, rfl⟩, rfl⟩
    exact ⟨entry.1, ⟨entry, hentry, rfl⟩, htext⟩
  · rintro ⟨_, ⟨entry, hentry, rfl⟩, htext⟩
    exact ⟨(entry.2, text), ⟨entry, hentry, text, htext, rfl⟩, rfl⟩

namespace Html

variable {config : Config} {names : List String} {doc : Document} {options : HtmlOptions}

/-- The document is written with an element of this tag and these attributes. -/
def ShowsElement (config : Config) (doc : Document) (tag : String) (attributes : Attributes) :
    Prop :=
  ∃ node ∈ (dialect config doc).writtenEach doc.trees, node.2.content = .element tag attributes

/-- The tables of a conversion have names for the texts of the nodes that are written, and for
nothing else. -/
theorem exists_fills_of_convert (hdoc : doc.Reachable) {result : Conversion Tables}
    (h : convert config (.ofVocabulary names) doc = .ok result) :
    ∃ book, Fills names (requestsOf (fun entry => requests config.html entry.content)
        ((dialect config doc).writtenEach doc.trees)) book ∧
      result.tables.lists = listings book := by
  have hlists : (convert config (.ofVocabulary names) doc).map (fun result => result.tables.lists) =
      (assign names Slot.literal (requestsOf (fun entry => requests config.html entry.content)
        ((dialect config doc).writtenEach doc.trees))).map listings :=
    map_lists_writtenEach hdoc
  rw [h] at hlists
  rcases assign_cases names Slot.literal (requestsOf (fun entry => requests config.html entry.content)
    ((dialect config doc).writtenEach doc.trees)) with
    ⟨book, hassign, hfills⟩ | ⟨_, _, _, book, -, -, -, -, hassign⟩
  · rw [hassign] at hlists
    exact ⟨book, hfills, Except.ok.inj hlists⟩
  · rw [hassign] at hlists
    cases hlists

/-- The texts of one table are those that the written elements ask for. -/
theorem mem_snd_listing_iff {book : List (Slot × String)}
    (hfills : Fills names (requestsOf (fun entry => requests config.html entry.content)
      ((dialect config doc).writtenEach doc.trees)) book)
    {category : Slot → Option String} {slot : String → Slot}
    (hslot : ∀ key text, category key = some text ↔ key = slot text) {text : String} :
    text ∈ (listing category book).map Prod.snd ↔
      ∃ tag attributes, ShowsElement config doc tag attributes ∧
        slot text ∈ requests config.html (.element tag attributes) := by
  have hkey : (∃ key ∈ book.map Prod.fst, category key = some text) ↔
      slot text ∈ book.map Prod.fst := by
    simp only [hslot, exists_eq_right]
  rw [Token.mem_snd_listing, hkey, hfills.mem_iff, requestsOf, List.mem_flatMap]
  constructor
  · rintro ⟨⟨id, entry⟩, hnode, hasked⟩
    cases hcontent : entry.content with
    | text payload =>
      simp only [hcontent, requests, List.not_mem_nil] at hasked
    | element tag attributes =>
      simp only [hcontent] at hasked
      exact ⟨tag, attributes, ⟨(id, entry), hnode, hcontent⟩, hasked⟩
  · rintro ⟨tag, attributes, ⟨node, hnode, hcontent⟩, hasked⟩
    exact ⟨node, hnode, hcontent ▸ hasked⟩

/-! ## Section 3: What an element asks for -/

section Asking

variable {tag name value text : String} {attributes : Attributes}

theorem slot?_eq_classes_iff : slot? options tag name value = some (.classes text) ↔
    name = "class" ∧ options.simplifyClasses = true ∧ Text.words value ≠ [] ∧
      text = " ".intercalate (Text.words value) := by
  unfold slot?
  split
  case h_1 => simp [and_assoc, @eq_comm _ text]
  case h_2 => simp
  case h_3 => simp
  case h_4 hother _ _ => simp [show name ≠ "class" from hother]

theorem slot?_eq_link_iff : slot? options tag name value = some (.link text) ↔
    name = "href" ∧ tag = "a" ∧ value ≠ "" ∧ simplifiesLink options value = true ∧
      text = value := by
  unfold slot?
  split
  case h_1 => simp
  case h_2 => simp [and_assoc, @eq_comm _ text]
  case h_3 => simp
  case h_4 _ hother _ => simp [show name ≠ "href" from hother]

theorem slot?_eq_image_iff : slot? options tag name value = some (.image text) ↔
    name = "src" ∧ tag = "img" ∧ value ≠ "" ∧ options.simplifyImages = true ∧ text = value := by
  unfold slot?
  split
  case h_1 => simp
  case h_2 => simp
  case h_3 => simp [and_assoc, @eq_comm _ text]
  case h_4 _ _ hother => simp [show name ≠ "src" from hother]

/-- An element asks for what its attributes are read as, as far as they count. -/
theorem mem_requests_element_iff {slot : Slot} :
    slot ∈ requests options (.element tag attributes) ↔
      ∃ name ∈ ["class", "href", "src"], ∃ value,
        (counted options attributes).get? name = some value ∧
          slot? options tag name value = some slot := by
  simp only [requests, List.mem_filterMap, slotOf, Option.bind_eq_some_iff]

end Asking

/-! ## Section 4: The terse settings -/

section Terse

variable {tag text : String} {attributes : Attributes}

/-- The class list and the target of a link are primary, so they count as they are. -/
theorem get?_counted_compactHtml {name : String} (hname : name = "class" ∨ name = "href") :
    (counted Config.compactHtml.html attributes).get? name = attributes.get? name := by
  rcases hname with rfl | rfl
  · exact AttributeTiers.get?_select_of_primary (by decide) (by decide)
  · exact AttributeTiers.get?_select_of_primary (by decide) (by decide)

/-- The source of an image is in no tier, so it never counts. -/
theorem get?_src_counted_compactHtml :
    (counted Config.compactHtml.html attributes).get? "src" = none :=
  AttributeTiers.get?_select_of_no_tier (by decide) (by decide)

theorem classes_mem_requests_compactHtml :
    .classes text ∈ requests Config.compactHtml.html (.element tag attributes) ↔
      ∃ list, attributes.get? "class" = some list ∧ Text.words list ≠ [] ∧
        text = " ".intercalate (Text.words list) := by
  rw [mem_requests_element_iff]
  constructor
  · rintro ⟨name, -, list, hlist, hslot⟩
    obtain ⟨rfl, -, hwords, htext⟩ := slot?_eq_classes_iff.mp hslot
    rw [get?_counted_compactHtml (.inl rfl)] at hlist
    exact ⟨list, hlist, hwords, htext⟩
  · rintro ⟨list, hlist, hwords, htext⟩
    refine ⟨"class", by simp, list, ?_, slot?_eq_classes_iff.mpr ⟨rfl, rfl, hwords, htext⟩⟩
    rw [get?_counted_compactHtml (.inl rfl), hlist]

/-- The terse settings have names for links to elsewhere and for no others. -/
theorem simplifiesLink_compactHtml (target : String) :
    simplifiesLink Config.compactHtml.html target = isAbsolute target := by
  unfold simplifiesLink
  cases isAbsolute target <;> rfl

theorem link_mem_requests_compactHtml :
    .link text ∈ requests Config.compactHtml.html (.element tag attributes) ↔
      tag = "a" ∧ attributes.get? "href" = some text ∧ isAbsolute text = true := by
  rw [mem_requests_element_iff]
  constructor
  · rintro ⟨name, -, target, htarget, hslot⟩
    obtain ⟨rfl, htag, -, hlink, rfl⟩ := slot?_eq_link_iff.mp hslot
    rw [get?_counted_compactHtml (.inr rfl)] at htarget
    rw [simplifiesLink_compactHtml] at hlink
    exact ⟨htag, htarget, hlink⟩
  · rintro ⟨htag, htarget, hlink⟩
    have hne : text ≠ "" := by
      rintro rfl
      cases hlink
    refine ⟨"href", by simp, text, ?_, slot?_eq_link_iff.mpr ⟨rfl, htag, hne, ?_, rfl⟩⟩
    · rw [get?_counted_compactHtml (.inr rfl), htarget]
    · rw [simplifiesLink_compactHtml, hlink]

theorem image_not_mem_requests_compactHtml :
    .image text ∉ requests Config.compactHtml.html (.element tag attributes) := by
  rw [mem_requests_element_iff]
  rintro ⟨name, -, source, hsource, hslot⟩
  obtain ⟨rfl, -⟩ := slot?_eq_image_iff.mp hslot
  rw [get?_src_counted_compactHtml] at hsource
  cases hsource

end Terse

/-- Under the terse settings, the tables of class lists and of links hold the class lists of the
elements that are written and the targets that lead elsewhere of the links that are. The table of
images is empty, as sources of images are dropped before they could be given names. -/
theorem originals_of_compactHtml (hdoc : doc.Reachable) {result : Conversion Tables}
    (h : convert .compactHtml (.ofVocabulary names) doc = .ok result) :
    (∀ text, text ∈ result.tables.classes.entries.map Prod.snd ↔
      ∃ tag attributes list, ShowsElement .compactHtml doc tag attributes ∧
        attributes.get? "class" = some list ∧ Text.words list ≠ [] ∧
          text = " ".intercalate (Text.words list)) ∧
    (∀ text, text ∈ result.tables.links.entries.map Prod.snd ↔
      ∃ attributes, ShowsElement .compactHtml doc "a" attributes ∧
        attributes.get? "href" = some text ∧ isAbsolute text = true) ∧
    result.tables.images.entries = [] := by
  obtain ⟨book, hfills, hlists⟩ := exists_fills_of_convert hdoc h
  simp only [Tables.lists, listings, Prod.mk.injEq] at hlists
  obtain ⟨hclasses, hlinks, himages⟩ := hlists
  refine ⟨fun text => ?classes, fun text => ?links, ?images⟩
  case classes =>
    rw [hclasses, mem_snd_listing_iff hfills fun _ _ => Slot.classList?_eq_some_iff]
    simp only [classes_mem_requests_compactHtml, exists_and_left]
  case links =>
    rw [hlinks, mem_snd_listing_iff hfills fun _ _ => Slot.target?_eq_some_iff]
    simp only [link_mem_requests_compactHtml]
    constructor
    · rintro ⟨_, attributes, hshows, rfl, htarget⟩
      exact ⟨attributes, hshows, htarget⟩
    · rintro ⟨attributes, hshows, htarget⟩
      exact ⟨"a", attributes, hshows, rfl, htarget⟩
  case images =>
    rw [himages, ← List.map_eq_nil_iff (f := Prod.snd), List.eq_nil_iff_forall_not_mem]
    intro text htext
    obtain ⟨tag, attributes, -, hasked⟩ :=
      (mem_snd_listing_iff hfills fun _ _ => Slot.source?_eq_some_iff).mp htext
    exact image_not_mem_requests_compactHtml hasked

/-- A card with a logo, a link to elsewhere and a script: the logo is written, and no name stands in
for where it comes from. -/
theorem card_of_compactHtml :
    let doc : Document := List.foldl Document.perform Forest.empty
      [.addRootElement "div" (.ofList [("class", " card  big ")]),
        .addElement "img" (.ofList [("src", "/logo.png")]),
        .addElement "a" (.ofList [("href", "https://x.org")]),
        .addElement "script" (.ofList [("class", "late")]),
        .attach 1 0, .attach 2 0, .attach 3 0]
    doc.Reachable ∧ ∃ result, convert .compactHtml (.ofVocabulary ["Ann", "Ben"]) doc = .ok result ∧
      "card big" ∈ result.tables.classes.entries.map Prod.snd ∧
      "https://x.org" ∈ result.tables.links.entries.map Prod.snd ∧
      ShowsElement .compactHtml doc "img" (.ofList [("src", "/logo.png")]) ∧
        result.tables.images.entries = [] := by
  intro doc
  have hdoc : doc.Reachable := ⟨Forest.empty, _, rfl, rfl⟩
  have hroots : doc.rootIds = [0] := Forest.rootIds_of_roots rfl
  have htrees : doc.trees = [0].filterMap doc.subtree? := by rw [← hroots]; rfl
  -- Two texts are asked for, and there are two names.
  have hasked : requestsOf (fun entry => requests Config.compactHtml.html entry.content)
      ((dialect .compactHtml doc).writtenEach doc.trees) =
        [.classes "card big", .link "https://x.org"] := by
    rw [htrees]
    rfl
  have hlists : (convert .compactHtml (.ofVocabulary ["Ann", "Ben"]) doc).map
      (fun result => result.tables.lists) =
        .ok ([("Ann", "card big")], [("Ben", "https://x.org")], []) := by
    rw [map_lists_writtenEach hdoc, hasked]
    rfl
  have hshown : ∀ tag attributes, Content.element tag attributes ∈
      ((dialect .compactHtml doc).writtenEach doc.trees).map (fun node => node.2.content) →
        ShowsElement .compactHtml doc tag attributes := fun _ _ => List.mem_map.mp
  have hwritten : ((dialect .compactHtml doc).writtenEach doc.trees).map
      (fun node => node.2.content) = [.element "div" (.ofList [("class", " card  big ")]),
        .element "img" (.ofList [("src", "/logo.png")]),
        .element "a" (.ofList [("href", "https://x.org")])] := by
    rw [htrees]
    rfl
  rw [hwritten] at hshown
  cases hresult : convert .compactHtml (.ofVocabulary ["Ann", "Ben"]) doc with
  | error e =>
    rw [hresult] at hlists
    cases hlists
  | ok result =>
    obtain ⟨hclasses, hlinks, himages⟩ := originals_of_compactHtml hdoc hresult
    refine ⟨hdoc, result, rfl, ?_, ?_, hshown _ _ (.tail _ (.head _)), himages⟩
    · exact (hclasses _).mpr
        ⟨"div", _, " card  big ", hshown _ _ (.head _), rfl, by decide, by decide⟩
    · exact (hlinks _).mpr ⟨_, hshown _ _ (.tail _ (.tail _ (.head _))), rfl, by decide⟩

end Html

end TreeNotation
