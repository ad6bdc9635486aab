import TreeNotation.Proofs.Token.Replay
import TreeNotation.Proofs.Xml.Requests

/-!
# XML Nodes with Names in Their Prefixes and Attributes

Once the names are known they can be put into prefixes and attribute values, and the element is then
written as it stands.

- **Nodes**: `Content.named` puts names in the place of the texts that they stand for, and
  `replays_own` says that the node is written as it is with the names asked for;
- **Skipped elements**: `skips_named`; a name for its prefix does not make an element one of those
  that are left out.
-/

namespace TreeNotation

/-- The options without any replacement by names. -/
def XmlOptions.spelledOut (options : XmlOptions) : XmlOptions :=
  { options with simplifyNamespaces := false, simplifyLongAttributes := false }

namespace Xml

open Writing (Attributes)
open Token (Ledger Grows Replays grows_inPlace grows_pure grows_request replays_inPlace_getD
  replays_pure)

/-! ## Section 1: Names in prefixes and attribute values -/

/-- A prefix, or the name that stands for it. -/
def namedSpace (options : XmlOptions) (name? : Slot → Option String) (space : String) : String :=
  ((spaceSlot? options space).bind name?).getD space

/-- The value of an attribute, or the name that stands for it. -/
def namedValue (options : XmlOptions) (name? : Slot → Option String) (name value : String) :
    String :=
  ((valueSlot? options name value).bind name?).getD value

/-- The node with names in the place of the texts that they stand for. -/
def Content.named (options : XmlOptions) (name? : Slot → Option String) : Content → Content
  | .element space name attributes =>
    .element (space.map (namedSpace options name?)) name
      (attributes.mapValues (namedValue options name?))
  | content => content

variable {final : Ledger Slot}

theorem replays_writeName (options : XmlOptions) (space : Option String) (name : String) :
    Replays final (writeName options space name)
      (writeName options.spelledOut (space.map (namedSpace options final.table.get?)) name) := by
  have hplain : ∀ space, writeName options.spelledOut space name = pure (nameText space name) := by
    intro space
    cases space <;> rfl
  rw [writeName_eq, hplain]
  cases space with
  | none => exact replays_pure _
  | some space =>
    exact replays_inPlace_getD space (fun space => nameText (some space) name)
      (spaceSlot? options space)

theorem replays_replaceValue {options : XmlOptions} (h : options.simplifyLongAttributes = true)
    (a : String × String) :
    Replays final (replaceValue options a)
      (pure (a.1, namedValue options final.table.get? a.1 a.2)) := by
  rw [replaceValue_eq h]
  exact replays_inPlace_getD a.2 (fun value => (a.1, value)) (valueSlot? options a.1 a.2)

theorem grows_replaceValues (options : XmlOptions) (attributes : Attributes) :
    Grows (replaceValues options attributes) :=
  fun _ => keeps_replaceValues (fun slot _ => grows_request slot slot.literal _) attributes

theorem replays_replaceValues (options : XmlOptions) (attributes : Attributes) :
    Replays final (replaceValues options attributes)
      (replaceValues options.spelledOut
        (attributes.mapValues (namedValue options final.table.get?))) := by
  have hplain : ∀ attributes, replaceValues options.spelledOut attributes = pure attributes :=
    fun _ => rfl
  rw [hplain]
  unfold replaceValues
  split
  case isTrue hlong =>
    -- The values are replaced one by one, and the names of the attributes stay.
    have hgrows : ∀ a, Grows (replaceValue options a) := by
      intro a
      rw [replaceValue_eq hlong]
      exact grows_inPlace _ _ _
    have hentries : OrderedMap.ofList (attributes.entries.map fun a =>
        (a.1, namedValue options final.table.get? a.1 a.2)) =
          attributes.mapValues (namedValue options final.table.get?) :=
      OrderedMap.ext_entries (OrderedMap.entries_ofList (OrderedMap.mapValues _ _).nodup_keys)
    rw [← hentries]
    apply (Replays.mapM attributes.entries hgrows (replays_replaceValue hlong)).after
    · exact fun _ => grows_pure _
    · exact replays_pure _
  case isFalse hshort =>
    have hsame : attributes.mapValues (namedValue options final.table.get?) = attributes := by
      apply OrderedMap.ext_entries
      simp [OrderedMap.mapValues, namedValue, valueSlot?, hshort]
    rw [hsame]
    exact replays_pure attributes

/-- A node is written as it stands with the names of its texts in their place. -/
theorem replays_own (options : XmlOptions) (id : NodeId) (content : Content) :
    Replays final (own options id content)
      (own options.spelledOut id (content.named options final.table.get?)) := by
  cases content with
  | element space name attributes =>
    apply (replays_writeName options space name).bind
    · intro name
      exact (grows_replaceValues options attributes).map _
    · intro name _
      exact (replays_replaceValues options attributes).map _
  | text payload => exact replays_pure _
  | cdata payload => exact replays_pure _
  | comment payload => exact replays_pure _
  | instruction target data =>
    -- It is written in neither way.
    intro ledger b after h _
    cases h

/-! ## Section 2: Elements that are left out -/

theorem skips_spelledOut (options : XmlOptions) (content : Content) :
    skips options.spelledOut content = skips options content := by
  cases content <;> rfl

/-- A node that is written is not left out with a name for its prefix, if no element to be left out
has that name for its prefix. -/
theorem skips_named {options : XmlOptions} {name? : Slot → Option String}
    (hfree : ∀ slot token, name? slot = some token →
      ∀ entry ∈ options.tagsToSkip, ¬ (token ++ ":").toList <+: entry.toList)
    {content : Content} (h : skips options content = false) :
    skips options (content.named options name?) = false := by
  cases content with
  | element space name attributes =>
    cases space with
    | none => exact h
    | some space =>
      simp only [Content.named, skips, Bool.and_eq_false_iff, Bool.or_eq_false_iff] at h ⊢
      apply h.imp_right
      intro hnot
      refine ⟨?_, hnot.2⟩
      show options.tagsToSkip.contains (namedSpace options name? space ++ ":" ++ name) = false
      unfold namedSpace
      cases hname : (spaceSlot? options space).bind name? with
      | none => exact hnot.1
      | some token =>
        obtain ⟨slot, -, htoken⟩ := Option.bind_eq_some_iff.mp hname
        rw [Bool.eq_false_iff]
        intro hmem
        apply hfree slot token htoken _ (OrderedSet.contains_iff.mp hmem)
        show (token ++ ":").toList <+: (token ++ ":" ++ name).toList
        have happend : (token ++ ":" ++ name).toList = (token ++ ":").toList ++ name.toList :=
          String.toList_append
        rw [happend]
        exact List.prefix_append _ _
  | text payload => rfl
  | cdata payload => rfl
  | comment payload => exact h
  | instruction target data => rfl

end Xml

end TreeNotation
