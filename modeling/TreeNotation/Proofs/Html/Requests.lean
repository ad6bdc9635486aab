import TreeNotation.Html.Dialect
import TreeNotation.Proofs.Token.Assignment

/-!
# Requests of HTML Nodes

An HTML node asks for names in the place of its class list, of the target it links to and of the
image it shows, and does nothing else to the books.

- **Names**: `slotOf` is what a name stands for in the place of an attribute, and each way to write
  an attribute is a step of one kind (`writeClasses_eq`, `replaceLink_eq`, `replaceImage_eq`);
- **Any books**: `closed_own`; what is true of the requests for the texts that the options select
  is true of a node, such as that they keep something (`keeps_own_of_selects`);
- **Requests**: `requests` reads off a node what it asks for, and `asks_own` says that it does.
-/

namespace TreeNotation.Html

open Writing (Attributes classNames classPart nonempty?)
open Token (Ledger Asks Closed Keeps Rendering asks_bind asks_inPlace asks_map asks_pure
  bind_eq_ok_iff closed_inPlace closed_keeps inPlace)

/-- The text in whose place a name is written. -/
def Slot.literal : Slot → String
  | .classes text => text
  | .link text => text
  | .image text => text

theorem Slot.classList?_eq_some_iff {slot : Slot} {list : String} :
    slot.classList? = some list ↔ slot = .classes list := by
  cases slot <;> simp [classList?]

theorem Slot.target?_eq_some_iff {slot : Slot} {target : String} :
    slot.target? = some target ↔ slot = .link target := by
  cases slot <;> simp [target?]

theorem Slot.source?_eq_some_iff {slot : Slot} {source : String} :
    slot.source? = some source ↔ slot = .image source := by
  cases slot <;> simp [source?]

/-! ## Section 1: What names stand for -/

/-- Whether a name stands in for a text: for all class lists and for all images that have a source,
or for none, and for links by where they lead to. -/
def selects (options : HtmlOptions) : Slot → Bool
  | .classes _ => options.simplifyClasses
  | .link target => !target.isEmpty && simplifiesLink options target
  | .image source => !source.isEmpty && options.simplifyImages

/-- What a name stands for in the place of the value of an attribute, if one does: a class list that
is not blank, the target that a link leads to, or the source that an image is shown from. -/
def slot? (options : HtmlOptions) (tag name value : String) : Option Slot :=
  match name with
  | "class" =>
    if options.simplifyClasses && !(Text.words value).isEmpty then
      some (.classes (" ".intercalate (Text.words value)))
    else none
  | "href" =>
    if tag = "a" && !value.isEmpty && simplifiesLink options value then some (.link value) else none
  | "src" =>
    if tag = "img" && !value.isEmpty && options.simplifyImages then some (.image value) else none
  | _ => none

/-- What a name stands for in the place of the attribute `name` of an element. -/
def slotOf (options : HtmlOptions) (tag : String) (attributes : Attributes) (name : String) :
    Option Slot :=
  (attributes.get? name).bind (slot? options tag name)

theorem selects_of_slotOf {options : HtmlOptions} {tag : String} {attributes : Attributes}
    {name : String} {slot : Slot} (h : slotOf options tag attributes name = some slot) :
    selects options slot = true := by
  obtain ⟨value, -, hslot⟩ := Option.bind_eq_some_iff.mp h
  unfold slot? at hslot
  split at hslot
  case h_1 =>
    obtain ⟨hclasses, rfl⟩ := Option.ite_some_none_eq_some.mp hslot
    exact (Bool.and_eq_true_iff.mp hclasses).1
  case h_2 =>
    obtain ⟨hlink, rfl⟩ := Option.ite_some_none_eq_some.mp hslot
    simp only [Bool.and_eq_true] at hlink
    rw [selects, hlink.1.2, hlink.2, Bool.and_self]
  case h_3 =>
    obtain ⟨himage, rfl⟩ := Option.ite_some_none_eq_some.mp hslot
    simp only [Bool.and_eq_true] at himage
    rw [selects, himage.1.2, himage.2, Bool.and_self]
  case h_4 => cases hslot

theorem writeClasses_eq (options : HtmlOptions) (tag : String) (attributes : Attributes) :
    writeClasses options attributes =
      inPlace Slot.literal (classPart (classNames attributes)) (fun token => "." ++ token)
        (slotOf options tag attributes "class") := by
  unfold writeClasses classNames slotOf
  cases attributes.get? "class" with
  | none => rfl
  | some list =>
    simp only [Option.bind_some, slot?]
    -- A blank list has no names and asks for none.
    cases Text.words list with
    | nil => simp only [List.isEmpty_nil, Bool.not_true, Bool.and_false]; rfl
    | cons first rest => cases options.simplifyClasses <;> rfl

theorem replaceLink_eq (options : HtmlOptions) (tag : String) (attributes : Attributes) :
    replaceLink options tag attributes =
      inPlace Slot.literal attributes (attributes.insert "href")
        (slotOf options tag attributes "href") := by
  unfold replaceLink nonempty? slotOf
  cases attributes.get? "href" with
  | none => rfl
  | some target =>
    simp only [Option.bind_some, slot?]
    cases hempty : target.isEmpty with
    | true => simp [Option.filter, hempty, inPlace]
    | false =>
      by_cases hkind : tag = "a" ∧ simplifiesLink options target = true <;>
        simp [Option.filter, hempty, hkind, inPlace, Slot.literal]

theorem replaceImage_eq (options : HtmlOptions) (tag : String) (attributes : Attributes) :
    replaceImage options tag attributes =
      inPlace Slot.literal attributes (attributes.insert "src")
        (slotOf options tag attributes "src") := by
  unfold replaceImage nonempty? slotOf
  cases attributes.get? "src" with
  | none => rfl
  | some source =>
    simp only [Option.bind_some, slot?]
    cases hempty : source.isEmpty with
    | true => simp [Option.filter, hempty, inPlace]
    | false =>
      by_cases hkind : tag = "img" ∧ options.simplifyImages = true <;>
        simp [Option.filter, hempty, hkind, inPlace, Slot.literal]

/-! ## Section 2: What a node keeps -/

section Keeping

variable {C : ∀ {β : Type}, Rendering Slot β → Prop} {P : Ledger Slot → Prop}
  {options : HtmlOptions}

theorem closed_writeClasses (hC : Closed C)
    (h : ∀ slot, selects options slot = true → C (Ledger.request slot slot.literal))
    (tag : String) (attributes : Attributes) : C (writeClasses options attributes) := by
  rw [writeClasses_eq options tag]
  exact closed_inPlace hC (fun slot hslot => h slot (selects_of_slotOf hslot)) _ _

theorem closed_replaceLink (hC : Closed C)
    (h : ∀ slot, selects options slot = true → C (Ledger.request slot slot.literal))
    (tag : String) (attributes : Attributes) : C (replaceLink options tag attributes) := by
  rw [replaceLink_eq]
  exact closed_inPlace hC (fun slot hslot => h slot (selects_of_slotOf hslot)) _ _

theorem closed_replaceImage (hC : Closed C)
    (h : ∀ slot, selects options slot = true → C (Ledger.request slot slot.literal))
    (tag : String) (attributes : Attributes) : C (replaceImage options tag attributes) := by
  rw [replaceImage_eq]
  exact closed_inPlace hC (fun slot hslot => h slot (selects_of_slotOf hslot)) _ _

/-- What is true of the requests for the texts that are selected is true of a node. -/
theorem closed_own (hC : Closed C)
    (h : ∀ slot, selects options slot = true → C (Ledger.request slot slot.literal))
    (content : Content) : C (own options content) := by
  cases content with
  | text payload => exact hC.pure _
  | element tag attributes =>
    apply hC.bind (closed_writeClasses hC h tag _)
    intro classes
    apply hC.bind (closed_replaceLink hC h tag _)
    intro linked
    exact hC.bind (closed_replaceImage hC h tag _) fun shown => hC.pure _

/-- A node keeps what the requests for the texts that are selected keep. -/
theorem keeps_own_of_selects
    (h : ∀ slot, selects options slot = true → Keeps P (Ledger.request slot slot.literal))
    (content : Content) : Keeps P (own options content) :=
  closed_own (closed_keeps P) h content

/-- A node keeps what every request keeps. -/
theorem keeps_own (h : ∀ slot : Slot, Keeps P (Ledger.request slot slot.literal))
    (options : HtmlOptions) (content : Content) : Keeps P (own options content) :=
  keeps_own_of_selects (fun slot _ => h slot) content

end Keeping

/-! ## Section 3: What a node asks for -/

/-- What a node asks for: its class list, then the target that it links to, then the image that it
shows, as far as these attributes count. -/
def requests (options : HtmlOptions) : Content → List Slot
  | .text _ => []
  | .element tag attributes =>
    ["class", "href", "src"].filterMap (slotOf options tag (counted options attributes))

/-- A name in the place of a target leaves all other attributes alone. -/
theorem get?_of_replaceLink {options : HtmlOptions} {tag : String} {attributes linked : Attributes}
    {ledger after : Ledger Slot} (h : replaceLink options tag attributes ledger = .ok linked after)
    {name : String} (hname : name ≠ "href") : linked.get? name = attributes.get? name := by
  rw [replaceLink_eq] at h
  cases hslot : slotOf options tag attributes "href" with
  | none => rw [hslot] at h; cases h; rfl
  | some slot =>
    rw [hslot] at h
    obtain ⟨token, mid, -, hpure⟩ := bind_eq_ok_iff.mp h
    cases hpure
    rw [OrderedMap.get?_insert, if_neg hname.symm]

/-- A node asks for its own texts, one after the other. -/
theorem asks_own (options : HtmlOptions) (content : Content) :
    Asks Slot.literal (own options content) (requests options content) := by
  cases content with
  | text payload => exact asks_pure _
  | element tag attributes =>
    have hrequests : requests options (.element tag attributes) =
        (slotOf options tag (counted options attributes) "class").toList ++
          ((slotOf options tag (counted options attributes) "href").toList ++
            (slotOf options tag (counted options attributes) "src").toList) := by
      simp only [requests, List.filterMap_cons, List.filterMap_nil]
      cases slotOf options tag (counted options attributes) "class" <;>
        cases slotOf options tag (counted options attributes) "href" <;>
        cases slotOf options tag (counted options attributes) "src" <;> rfl
    rw [hrequests]
    simp only [own, writeClasses_eq options tag]
    apply asks_bind (asks_inPlace _ _ _)
    intro _ classes _ _
    rw [replaceLink_eq]
    apply asks_bind (asks_inPlace _ _ _)
    intro _ linked _ hlinked
    rw [← replaceLink_eq] at hlinked
    -- The source of the image is still the one that the element has.
    have hsource : slotOf options tag (counted options attributes) "src" =
        slotOf options tag linked "src" := by
      unfold slotOf
      rw [get?_of_replaceLink hlinked (by decide)]
    rw [hsource, replaceImage_eq]
    exact asks_map (asks_inPlace _ _ _)

end TreeNotation.Html
