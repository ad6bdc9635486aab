import TreeNotation.Proofs.Forest.Trees
import TreeNotation.Proofs.Html.Requests
import TreeNotation.Proofs.Token.Replay

/-!
# HTML Nodes with Names in Their Attributes

Once the names are known they can be put into the attributes of an element, and the element is then
written as it stands.

- **Without names**: `plain` is the text of a node of which nothing is replaced, and `own_spelledOut`
  says that it is written if nothing is to be;
- **With names**: `Content.named` puts names in the place of the texts that they stand for, and
  `replays_own` says that the node is written as it is with the names asked for;
- **Places**: `writtenSiblings_relabelAt`; names in attributes change no count of elements.
-/

namespace TreeNotation

/-- The options without any replacement by names. -/
def HtmlOptions.spelledOut (options : HtmlOptions) : HtmlOptions :=
  { options with
    simplifyClasses := false
    simplifyImages := false
    simplifyAbsoluteLinks := false
    simplifyRelativeLinks := false }

namespace Html

open Writing
open Token (Ledger Replays grows_inPlace grows_pure inPlace replays_inPlace replays_pure)

/-! ## Section 1: Nodes as they stand -/

/-- The text of a node of which nothing is replaced. -/
def plain (options : HtmlOptions) : Content → String
  | .text payload => braced "" (Text.escapeText payload)
  | .element tag attributes =>
    let kept := counted options attributes
    tag ++ idPart kept ++ classPart (classNames kept) ++ attributeList (bracketed options kept)

theorem slotOf_spelledOut (options : HtmlOptions) (tag : String) (attributes : Attributes)
    (name : String) : slotOf options.spelledOut tag attributes name = none := by
  unfold slotOf
  cases attributes.get? name with
  | none => rfl
  | some value =>
    rw [Option.bind_some]
    unfold slot?
    split
    · rfl
    · have hkind : simplifiesLink options.spelledOut value = false := by
        unfold simplifiesLink
        split <;> rfl
      rw [hkind, Bool.and_false]; rfl
    · have himages : options.spelledOut.simplifyImages = false := rfl
      rw [himages, Bool.and_false]; rfl
    · rfl

theorem own_spelledOut (options : HtmlOptions) (content : Content) :
    own options.spelledOut content = pure (plain options.spelledOut content) := by
  cases content with
  | text payload => rfl
  | element tag attributes =>
    simp only [own, writeClasses_eq options.spelledOut tag, replaceLink_eq, replaceImage_eq,
      slotOf_spelledOut, inPlace, pure_bind]
    rfl

/-! ## Section 2: Names in the place of attribute values -/

/-- The value of an attribute, or the name that stands for it. -/
def namedValue (options : HtmlOptions) (name? : Slot → Option String) (tag : String)
    (attributes : Attributes) (name value : String) : String :=
  ((slotOf options tag (counted options attributes) name).bind name?).getD value

/-- The node with names in the place of the attribute values that they stand for. -/
def Content.named (options : HtmlOptions) (name? : Slot → Option String) : Content → Content
  | .text payload => .text payload
  | .element tag attributes =>
    .element tag (attributes.mapValues (namedValue options name? tag attributes))

theorem ofTier_mapValues (tiers : AttributeTiers) (tier : OrderedSet String)
    (change : String → String → String) (attributes : Attributes) :
    tiers.ofTier tier (attributes.mapValues change) =
      (tiers.ofTier tier attributes).mapValues change := by
  apply OrderedMap.ext_entries
  exact List.filter_map

theorem counted_spelledOut (options : HtmlOptions) (attributes : Attributes) :
    counted options.spelledOut attributes = counted options attributes := rfl

theorem bracketed_spelledOut (options : HtmlOptions) (attributes : Attributes) :
    bracketed options.spelledOut attributes = bracketed options attributes := rfl

/-- Which attributes count is decided by their names. -/
theorem counted_mapValues (options : HtmlOptions) (change : String → String → String)
    (attributes : Attributes) :
    counted options (attributes.mapValues change) =
      (counted options attributes).mapValues change := by
  have hempty : ∀ m : Attributes, (m.mapValues change).isEmpty = m.isEmpty := by
    intro m
    exact List.isEmpty_map
  unfold counted
  split
  case isFalse => rfl
  case isTrue =>
    unfold AttributeTiers.select
    simp only [ofTier_mapValues, hempty]
    split <;> rfl

theorem listed_mapValues_congr {change change' : String → String → String}
    (h : ∀ name value, name ≠ "class" → change name value = change' name value)
    (attributes : Attributes) :
    listed (attributes.mapValues change) = listed (attributes.mapValues change') := by
  unfold listed OrderedMap.mapValues
  rw [List.filter_map, List.filter_map]
  apply List.map_congr_left
  intro a ha
  have hname := (List.mem_filter.mp ha).2
  simp only [Function.comp_apply, Bool.and_eq_true, decide_eq_true_eq] at hname
  rw [h a.1 a.2 hname.2]

theorem slot?_eq_none {options : HtmlOptions} {tag name value : String} (hclass : name ≠ "class")
    (hhref : name ≠ "href") (hsrc : name ≠ "src") : slot? options tag name value = none := by
  unfold slot?
  split
  · exact absurd rfl hclass
  · exact absurd rfl hhref
  · exact absurd rfl hsrc
  · rfl

/-- No name stands for the value of any other attribute. -/
theorem namedValue_of_ne {options : HtmlOptions} {name? : Slot → Option String} {tag name : String}
    {attributes : Attributes} (hclass : name ≠ "class") (hhref : name ≠ "href")
    (hsrc : name ≠ "src") (value : String) :
    namedValue options name? tag attributes name value = value := by
  have hnone : slotOf options tag (counted options attributes) name = none := by
    unfold slotOf
    cases (counted options attributes).get? name with
    | none => rfl
    | some value => exact slot?_eq_none hclass hhref hsrc
  unfold namedValue
  rw [hnone]
  rfl

section Element

variable {options : HtmlOptions} {name? : Slot → Option String} {tag : String}
  {attributes : Attributes}

theorem idPart_named :
    idPart ((counted options attributes).mapValues (namedValue options name? tag attributes)) =
      idPart (counted options attributes) := by
  unfold idPart nonempty?
  rw [OrderedMap.get?_mapValues]
  congr 2
  cases (counted options attributes).get? "id" with
  | none => rfl
  | some value =>
    rw [Option.map_some, namedValue_of_ne (by decide) (by decide) (by decide)]

/-- A name in the place of a class list is the one class name of the element. -/
theorem classPart_named
    (hwords : ∀ slot token, name? slot = some token → Text.words token = [token]) :
    classPart (classNames
        ((counted options attributes).mapValues (namedValue options name? tag attributes))) =
      ((slotOf options tag (counted options attributes) "class").bind name?).elim
        (classPart (classNames (counted options attributes))) fun token => "." ++ token := by
  unfold classNames
  rw [OrderedMap.get?_mapValues]
  unfold namedValue
  cases hclass : (counted options attributes).get? "class" with
  | none => simp [slotOf, hclass]
  | some value =>
    cases hname : (slotOf options tag (counted options attributes) "class").bind name? with
    | none => simp
    | some token =>
      obtain ⟨slot, -, htoken⟩ := Option.bind_eq_some_iff.mp hname
      simp [hwords slot token htoken, classPart]

/-- The attributes with a name in the place of one value. -/
def withName (options : HtmlOptions) (name? : Slot → Option String) (tag : String)
    (attributes : Attributes) (name : String) : Attributes :=
  ((slotOf options tag attributes name).bind name?).elim attributes (attributes.insert name)

/-- A name for the value of an attribute changes that one value. -/
theorem withName_eq (name : String) :
    withName options name? tag attributes name = attributes.mapValues fun other value =>
      if other = name then ((slotOf options tag attributes name).bind name?).getD value
      else value := by
  unfold withName
  cases hname : (slotOf options tag attributes name).bind name? with
  | none =>
    apply OrderedMap.ext_entries
    simp [OrderedMap.mapValues]
  | some token =>
    have hmem : name ∈ attributes.keys := by
      by_contra hnot
      unfold slotOf at hname
      rw [OrderedMap.get?_eq_none_iff.mpr hnot] at hname
      cases hname
    exact OrderedMap.insert_of_mem hmem token

theorem slotOf_withName {name other : String} (h : other ≠ name) :
    slotOf options tag (withName options name? tag attributes name) other =
      slotOf options tag attributes other := by
  unfold slotOf
  rw [withName_eq, OrderedMap.get?_mapValues]
  simp [h]

/-- In brackets an element with all names put in is written like one whose link and image have been
replaced, one after the other. -/
theorem bracketed_named :
    bracketed options
        ((counted options attributes).mapValues (namedValue options name? tag attributes)) =
      bracketed options (withName options name? tag
        (withName options name? tag (counted options attributes) "href") "src") := by
  have htwice : ∀ (m : Attributes) (change change' : String → String → String),
      (m.mapValues change).mapValues change' =
        m.mapValues fun name value => change' name (change name value) := by
    intro m change change'
    apply OrderedMap.ext_entries
    simp [OrderedMap.mapValues]
  unfold bracketed
  congr 1
  rw [withName_eq "src", slotOf_withName (by decide), withName_eq "href", htwice]
  apply listed_mapValues_congr
  intro name value hclass
  by_cases hhref : name = "href"
  · subst hhref
    rfl
  · by_cases hsrc : name = "src"
    · subst hsrc
      rfl
    · rw [namedValue_of_ne hclass hhref hsrc]
      simp [hhref, hsrc]

end Element

/-! ## Section 3: Nodes with names in them -/

variable {final : Ledger Slot}

/-- A node is written as it stands with the names of its texts in their place. -/
theorem replays_own (options : HtmlOptions)
    (hwords : ∀ slot token, final.table.get? slot = some token → Text.words token = [token])
    (content : Content) :
    Replays final (own options content)
      (own options.spelledOut (content.named options final.table.get?)) := by
  rw [own_spelledOut]
  cases content with
  | text payload => exact replays_pure _
  | element tag attributes =>
    simp only [Content.named, plain, counted_spelledOut, counted_mapValues, idPart_named,
      classPart_named hwords, bracketed_spelledOut, bracketed_named]
    simp only [own, writeClasses_eq options tag, replaceLink_eq, replaceImage_eq]
    -- The three parts with a name in them are known once the names are.
    apply (replays_inPlace _ _ _).after
    · intro classes
      apply (grows_inPlace _ _ _).bind
      intro linked
      exact (grows_inPlace _ _ _).map _
    apply (replays_inPlace _ _ _).after
    · intro linked
      exact (grows_inPlace _ _ _).map _
    apply (replays_inPlace _ _ _).after
    · exact fun shown => grows_pure _
    exact replays_pure _

/-! ## Section 4: Places -/

theorem skips_spelledOut (options : HtmlOptions) (content : Content) :
    skips options.spelledOut content = skips options content := by
  cases content <;> rfl

theorem skips_named (options : HtmlOptions) (name? : Slot → Option String) (content : Content) :
    skips options.spelledOut (content.named options name?) = skips options content := by
  cases content <;> rfl

theorem isText_named (options : HtmlOptions) (name? : Slot → Option String) (content : Content) :
    (content.named options name?).isText = content.isText := by
  cases content <;> rfl

/-- A document with other labels in which the same nodes are texts and the same nodes are left out
has as many written elements beside each node. -/
theorem writtenSiblings_relabelAt {options options' : HtmlOptions}
    (hsame : options'.skipTags = options.skipTags) {g : NodeId → Entry → Entry}
    (htext : ∀ id entry, (g id entry).content.isText = entry.content.isText)
    (hskips : ∀ id entry, skips options' (g id entry).content = skips options entry.content)
    (hcount : ∀ id entry, (g id entry).elementChildren = entry.elementChildren) (doc : Document)
    (id : NodeId) :
    writtenSiblings options' (doc.relabelAt g) id = writtenSiblings options doc id := by
  have hwritten : isWritten options' (doc.relabelAt g) = isWritten options doc := by
    funext other
    unfold isWritten
    rw [Forest.label?_relabelAt]
    cases doc.label? other with
    | none => rfl
    | some entry => simp only [Option.map_some, Option.any_some, htext, hskips]
  have hsiblings : Document.siblingCount (doc.relabelAt g) id = Document.siblingCount doc id := by
    unfold Document.siblingCount
    rw [Forest.label?_relabelAt, Forest.parent?_relabelAt]
    cases doc.label? id with
    | none => rfl
    | some entry =>
      cases doc.parent? id with
      | none => rfl
      | some parent =>
        simp only [Option.map_some, Option.bind_some, Forest.label?_relabelAt]
        cases doc.label? parent with
        | none => rfl
        | some above => simp only [Option.map_some, hcount, htext]
  unfold writtenSiblings
  rw [hsame, hwritten, hsiblings, Forest.parent?_relabelAt]
  simp only [Forest.children_relabelAt]

end Html

end TreeNotation
