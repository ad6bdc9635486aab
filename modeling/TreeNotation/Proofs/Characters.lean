import TreeNotation.Proofs.Html.Requests
import TreeNotation.Proofs.Text.Escaping
import TreeNotation.Proofs.Text.Words
import TreeNotation.Proofs.Writing.Attribute
import TreeNotation.Proofs.Writing.Indentation
import TreeNotation.Proofs.Xml.Requests

/-!
# The Characters of a Node

A node is written with the characters of its own texts, those of a few marks between them, and the
letters of names. So what is true of all these characters is true of all characters of its notation.

- **Texts**: `Text.Within` says something of every character of a text, and `Allows` of every
  character that is written beside the texts of a node;
- **Attributes**: `Writing.Within`, and what the parts of an element are written with;
- **Elements**: `Html.gives_element` and `Xml.gives_element`, also if names stand in.
-/

namespace TreeNotation

open Token (Gives Ledger forall_of_forall₂ gives_bind gives_inPlace gives_mapM gives_pure
  vocabulary)
open Writing (Attributes attributeList attributeText braced classNames classPart idPart listed
  nonempty?)

variable {p : Char → Prop}

/-! ## Section 1: Texts -/

/-- Every character of the text satisfies `p`. -/
def Text.Within (p : Char → Prop) (text : String) : Prop := ∀ c ∈ text.toList, p c

/-- The characters that are written beside the texts of a node satisfy `p`. -/
structure Allows (p : Char → Prop) : Prop where
  letter : ∀ c : Char, c.isAlpha = true → p c
  mark : ∀ c ∈ ['#', '.', '[', ']', '=', '"', ' ', '\\', ':', '\x7b', '\x7d'], p c

namespace Text

theorem within_append_iff {s t : String} : Within p (s ++ t) ↔ Within p s ∧ Within p t := by
  simp [Within, or_imp, forall_and]

theorem within_empty : Within p "" := by simp [Within]

theorem Within.append {s t : String} (hs : Within p s) (ht : Within p t) : Within p (s ++ t) :=
  within_append_iff.mpr ⟨hs, ht⟩

theorem within_of_mem_vocabulary (hp : Allows p) {name : String} (h : name ∈ vocabulary) :
    Within p name :=
  fun c hc => hp.letter c ((ne_nil_and_isAlpha_of_mem_vocabulary h).2 c hc)

theorem within_escapeText (hp : Allows p) {payload : String} (h : Within p payload) :
    Within p (escapeText payload) := by
  intro c hc
  rcases mem_escapeText hc with hc | rfl | rfl
  · exact h c hc
  · exact hp.mark _ (by simp)
  · exact hp.mark _ (by simp)

theorem within_escapeString (hp : Allows p) {payload : String} (h : Within p payload) :
    Within p (escapeString payload) := by
  intro c hc
  rw [escapeString, String.toList_ofList] at hc
  obtain ⟨d, hd, hc⟩ := List.mem_flatMap.mp hc
  unfold escapeStringChar at hc
  -- The character itself, or a backslash and one more mark or letter.
  have hescaped : ∀ e : Char, p e → c ∈ ['\\', e] → p c := by
    intro e he hc
    rcases List.mem_cons.mp hc with rfl | hc
    · exact hp.mark _ (by simp)
    · exact List.mem_singleton.mp hc ▸ he
  split at hc
  · exact hescaped _ (hp.mark _ (by simp)) hc
  · split at hc
    · exact hescaped _ (hp.mark _ (by simp)) hc
    · split at hc
      · exact hescaped _ (hp.letter _ (by decide)) hc
      · split at hc
        · exact hescaped _ (hp.letter _ (by decide)) hc
        · split at hc
          · exact hescaped _ (hp.letter _ (by decide)) hc
          · exact List.mem_singleton.mp hc ▸ h d hd

end Text

/-! ## Section 2: Attributes -/

namespace Writing

open Text (within_append_iff within_empty)

/-- Every character of the names and values of the attributes satisfies `p`. -/
def Within (p : Char → Prop) (attributes : Attributes) : Prop :=
  ∀ a ∈ attributes.entries, Text.Within p a.1 ∧ Text.Within p a.2

section Pieces

variable {attributes : Attributes}

theorem Within.get? (h : Within p attributes) {name value : String}
    (hvalue : attributes.get? name = some value) : Text.Within p value :=
  (h (name, value) (OrderedMap.get?_eq_some_iff.mp hvalue)).2

theorem Within.insert (h : Within p attributes) {name value : String} (hname : Text.Within p name)
    (hvalue : Text.Within p value) : Within p (attributes.insert name value) := by
  rintro ⟨other, text⟩ hmem
  have hget := OrderedMap.get?_eq_some_iff.mpr hmem
  rw [OrderedMap.get?_insert] at hget
  split at hget
  case isTrue heq =>
    cases hget
    exact heq ▸ ⟨hname, hvalue⟩
  case isFalse => exact h _ (OrderedMap.get?_eq_some_iff.mp hget)

theorem Within.filter (h : Within p attributes) (test : String → String → Bool) :
    Within p (attributes.filter test) :=
  fun a ha => h a (List.mem_filter.mp ha).1

theorem Within.ofList {pairs : List (String × String)}
    (h : ∀ a ∈ pairs, Text.Within p a.1 ∧ Text.Within p a.2) :
    Within p (OrderedMap.ofList pairs) := by
  have hfold : ∀ (pairs : List (String × String)) (attributes : Attributes),
      Within p attributes → (∀ a ∈ pairs, Text.Within p a.1 ∧ Text.Within p a.2) →
        Within p (pairs.foldl (fun m a => m.insert a.1 a.2) attributes) := by
    intro pairs
    induction pairs with
    | nil => exact fun attributes hattributes _ => hattributes
    | cons first rest ih =>
      intro attributes hattributes hpairs
      obtain ⟨hname, hvalue⟩ := hpairs first List.mem_cons_self
      exact ih _ (hattributes.insert hname hvalue)
        fun a ha => hpairs a (List.mem_cons_of_mem _ ha)
  exact hfold pairs OrderedMap.empty (fun a ha => absurd ha List.not_mem_nil) h

theorem Within.listed (h : Within p attributes) :
    ∀ a ∈ listed attributes, Text.Within p a.1 ∧ Text.Within p a.2 :=
  fun a ha => h a (List.mem_filter.mp ha).1

variable (hp : Allows p)

include hp

theorem within_attributeText {name value : String} (hname : Text.Within p name)
    (hvalue : Text.Within p value) : Text.Within p (attributeText name value) := by
  intro c hc
  rw [toList_attributeText, List.mem_append] at hc
  rcases hc with hc | hc
  · exact hname c hc
  · rcases mem_valueChars hc with rfl | rfl | hc
    · exact hp.mark _ (by simp)
    · exact hp.mark _ (by simp)
    · exact hvalue c hc

theorem within_attributeList {pairs : List (String × String)}
    (h : ∀ a ∈ pairs, Text.Within p a.1 ∧ Text.Within p a.2) :
    Text.Within p (attributeList pairs) := by
  by_cases hempty : pairs = []
  · rw [hempty]
    exact within_empty
  · obtain ⟨inner, hinner, hpairs⟩ := toList_attributeList hempty
    have hinside : ∀ c ∈ inner, p c := by
      intro c hc
      have hlater : c ∈ ' ' :: inner := List.mem_cons_of_mem _ hc
      rw [hpairs] at hlater
      obtain ⟨a, ha, hchar⟩ := List.mem_flatMap.mp hlater
      rcases List.mem_cons.mp hchar with rfl | hchar
      · exact hp.mark _ (by simp)
      · exact within_attributeText hp (h a ha).1 (h a ha).2 c hchar
    intro c hc
    simp only [hinner, List.mem_cons, List.mem_append, List.not_mem_nil, or_false] at hc
    rcases hc with rfl | hc | rfl
    · exact hp.mark _ (by simp)
    · exact hinside c hc
    · exact hp.mark _ (by simp)

theorem within_idPart (h : Within p attributes) : Text.Within p (idPart attributes) := by
  unfold idPart
  cases hid : nonempty? attributes "id" with
  | none => exact within_empty
  | some id =>
    refine within_append_iff.mpr ⟨?_, h.get? (Option.filter_eq_some_iff.mp hid).1⟩
    simpa [Text.Within] using hp.mark '#' (by simp)

theorem within_classPart (h : Within p attributes) :
    Text.Within p (classPart (classNames attributes)) := by
  intro c hc
  rw [toList_classPart] at hc
  obtain ⟨name, hname, hchar⟩ := List.mem_flatMap.mp hc
  rcases List.mem_cons.mp hchar with rfl | hchar
  · exact hp.mark _ (by simp)
  · unfold classNames at hname
    split at hname
    case h_1 list hlist => exact h.get? hlist c (Text.mem_of_mem_words hname c hchar)
    case h_2 => cases hname

theorem within_braced {word payload : String} (hword : Text.Within p word)
    (hpayload : Text.Within p payload) : Text.Within p (braced word payload) := by
  refine ((hword.append ?_).append hpayload).append ?_
  · simpa [Text.Within] using hp.mark '\x7b' (by simp)
  · simpa [Text.Within] using hp.mark '\x7d' (by simp)

end Pieces

end Writing

/-! ## Section 3: Elements -/

namespace Html

variable {options : HtmlOptions} {attributes : Attributes}

theorem within_counted (h : Writing.Within p attributes) :
    Writing.Within p (counted options attributes) := by
  unfold counted
  split
  · unfold AttributeTiers.select
    dsimp only
    split
    · exact h.filter _
    · exact h.filter _
  · exact h

/-- Behind its tag an element is written with the characters of its attributes, with names in the
place of some or without. -/
theorem gives_element (hp : Allows p) (tag : String) (h : Writing.Within p attributes) :
    Gives (Ledger.Sound vocabulary Slot.literal)
      (fun text => ∃ rest, text = tag ++ rest ∧ Text.Within p rest)
      (own options (.element tag attributes)) := by
  have hkept : Writing.Within p (counted options attributes) := within_counted h
  have hname : ∀ name : String, name.toList.all Char.isAlpha = true → Text.Within p name :=
    fun name hname c hc => hp.letter c (List.all_eq_true.mp hname c hc)
  rw [own, writeClasses_eq options tag]
  apply gives_bind (Q := Text.Within p)
  · apply gives_inPlace fun _ => Writing.within_classPart hp hkept
    intro token htoken
    refine Text.Within.append ?_ (Text.within_of_mem_vocabulary hp htoken)
    simpa [Text.Within] using hp.mark '.' (by simp)
  intro classes hclasses
  rw [replaceLink_eq]
  apply gives_bind (Q := Writing.Within p)
  · apply gives_inPlace fun _ => hkept
    intro token htoken
    exact hkept.insert (hname "href" (by decide)) (Text.within_of_mem_vocabulary hp htoken)
  intro linked hlinked
  rw [replaceImage_eq]
  apply gives_bind (Q := Writing.Within p)
  · apply gives_inPlace fun _ => hlinked
    intro token htoken
    exact hlinked.insert (hname "src" (by decide)) (Text.within_of_mem_vocabulary hp htoken)
  intro shown hshown
  refine gives_pure ⟨_, by rw [String.append_assoc, String.append_assoc], ?_⟩
  refine (Writing.within_idPart hp hkept).append (hclasses.append ?_)
  exact Writing.within_attributeList hp fun a ha => hshown.listed a (List.mem_filter.mp ha).1

end Html

namespace Xml

variable {options : XmlOptions} {attributes : Attributes}

theorem gives_replaceValues (hp : Allows p) (h : Writing.Within p attributes) :
    Gives (Ledger.Sound vocabulary Slot.literal) (Writing.Within p)
      (replaceValues options attributes) := by
  unfold replaceValues
  split
  case isTrue hlong =>
    apply gives_bind (gives_mapM (S := fun _ a => Text.Within p a.1 ∧ Text.Within p a.2) ?_)
    · intro replaced hreplaced
      exact gives_pure (Writing.Within.ofList (forall_of_forall₂ hreplaced))
    · intro a ha
      rw [replaceValue_eq hlong]
      refine gives_inPlace (fun _ => h a ha) fun token htoken => ?_
      exact ⟨(h a ha).1, Text.within_of_mem_vocabulary hp htoken⟩
  case isFalse => exact gives_pure h

/-- Behind its name an element is written with the characters of its attributes. What is true of the
name, with a name of the vocabulary in the place of its prefix or without if none stands in, is true
of what comes before them. -/
theorem gives_element (hp : Allows p) {Q : String → Prop} {space : Option String} {name : String}
    (hname : space.bind (spaceSlot? options) = none → Q (nameText space name))
    (htoken : ∀ token ∈ vocabulary, space ≠ none → Q (nameText (some token) name))
    (h : Writing.Within p attributes) (id : NodeId) :
    Gives (Ledger.Sound vocabulary Slot.literal)
      (fun text => ∃ front rest, text = front ++ rest ∧ Q front ∧ Text.Within p rest)
      (own options id (.element space name attributes)) := by
  rw [own, writeName_eq]
  apply gives_bind (Q := Q)
  · cases space with
    | none => exact gives_pure (hname rfl)
    | some space => exact gives_inPlace hname fun token hmem => htoken token hmem (by simp)
  intro front hfront
  apply gives_bind (gives_replaceValues hp h)
  intro shown hshown
  refine gives_pure ⟨front, _, by rw [String.append_assoc, String.append_assoc], hfront, ?_⟩
  refine (Writing.within_idPart hp hshown).append ((Writing.within_classPart hp hshown).append ?_)
  exact Writing.within_attributeList hp hshown.listed

end Xml

end TreeNotation
