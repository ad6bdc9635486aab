import TreeNotation.Proofs.Html.Requests
import TreeNotation.Proofs.Json.Requests
import TreeNotation.Proofs.Writing.Builds
import TreeNotation.Proofs.Xml.Requests

/-!
# Tables of Names

The tables that a converter hands out are a reversible account of the names it has used, for every
format and after any builds.

- `Html.sound_ledgerAfterBuilds` and its companions: the books are sound after any builds;
- `tables_faithful_after_builds`: what the tables of the three formats say.
-/

namespace TreeNotation

open Token (Ledger Supply)
open Token.Ledger (Sound Faithful keeps_sound_request)
open Writing.Dialect (Call ledgerAfterBuilds ledgerAfterBuilds_induction)

/-! ## Section 1: Books after any builds -/

theorem Html.sound_ledgerAfterBuilds (config : Config) (names : List String)
    (calls : List (Call Html.Entry)) :
    (ledgerAfterBuilds (Html.dialect config) (.ofVocabulary names) calls).Sound names
      Html.Slot.literal :=
  ledgerAfterBuilds_induction (Sound.ofVocabulary names _)
    (fun _ _ entry => Html.keeps_own keeps_sound_request config.html entry.content) calls

theorem Xml.sound_ledgerAfterBuilds (config : Config) (names : List String)
    (calls : List (Call Xml.Content)) :
    (ledgerAfterBuilds (fun _ => Xml.dialect config) (.ofVocabulary names) calls).Sound names
      Xml.Slot.literal :=
  ledgerAfterBuilds_induction (Sound.ofVocabulary names _)
    (fun _ id content => Xml.keeps_own keeps_sound_request config.xml id content) calls

theorem Json.sound_ledgerAfterBuilds (config : Config) (names : List String)
    (calls : List (Call Json.Entry)) :
    (ledgerAfterBuilds (fun _ => Json.dialect config) (.ofVocabulary names) calls).Sound names
      Json.Slot.literal :=
  ledgerAfterBuilds_induction (Sound.ofVocabulary names _)
    (fun _ _ entry => Json.keeps_own keeps_sound_request config.json entry.content) calls

/-! ## Section 2: Categories -/

theorem Html.size_tables {names : List String} {literal : Html.Slot → String}
    {ledger : Ledger Html.Slot} (hs : ledger.Sound names literal) :
    (Html.tables ledger).classes.size + (Html.tables ledger).links.size +
      (Html.tables ledger).images.size = ledger.table.size := by
  -- A slot is a class list, a link or an image.
  rw [← ledger.sum_countP_eq_size [fun slot => slot.classList?.isSome,
    fun slot => slot.target?.isSome, fun slot => slot.source?.isSome]
    (by rintro (_ | _ | _) <;> rfl)]
  simp only [Html.tables, hs.size_dictionary, List.map_cons, List.map_nil, List.sum_cons,
    List.sum_nil, Nat.add_zero, Nat.add_assoc]

theorem Xml.size_tables {names : List String} {literal : Xml.Slot → String}
    {ledger : Ledger Xml.Slot} (hs : ledger.Sound names literal) :
    (Xml.tables ledger).spaces.size + (Xml.tables ledger).attributes.size = ledger.table.size := by
  rw [← ledger.sum_countP_eq_size [fun slot => slot.space?.isSome,
    fun slot => slot.attribute?.isSome] (by rintro (_ | _) <;> rfl)]
  simp only [Xml.tables, hs.size_dictionary, List.map_cons, List.map_nil, List.sum_cons,
    List.sum_nil, Nat.add_zero]

theorem Json.size_tables {names : List String} {literal : Json.Slot → String}
    {ledger : Ledger Json.Slot} (hs : ledger.Sound names literal) :
    (Json.tables ledger).keys.size + (Json.tables ledger).values.size = ledger.table.size := by
  rw [← ledger.sum_countP_eq_size [fun slot => slot.key?.isSome,
    fun slot => slot.value?.isSome] (by rintro (_ | _) <;> rfl)]
  simp only [Json.tables, hs.size_dictionary, List.map_cons, List.map_nil, List.sum_cons,
    List.sum_nil, Nat.add_zero]

/-- The names of two categories that share no key are different names. -/
theorem nodup_keys_append {κ ν μ : Type} {names : List String} {literal : κ → String}
    {ledger : Ledger κ} (hs : ledger.Sound names literal) {category : κ → Option ν}
    {other : κ → Option μ} (hdisjoint : ∀ key, (category key).isSome → other key = none) :
    ((ledger.dictionary category).keys ++ (ledger.dictionary other).keys).Nodup := by
  apply List.nodup_append.mpr
  refine ⟨OrderedMap.nodup_keys _, OrderedMap.nodup_keys _, ?_⟩
  rintro token htoken _ hother rfl
  exact hs.not_mem_keys_of_disjoint hdisjoint htoken hother

theorem Html.nodup_tokens {names : List String} {literal : Html.Slot → String}
    {ledger : Ledger Html.Slot} (hs : ledger.Sound names literal) :
    ((Html.tables ledger).classes.keys ++ (Html.tables ledger).links.keys ++
      (Html.tables ledger).images.keys).Nodup := by
  apply List.nodup_append.mpr
  refine ⟨?_, OrderedMap.nodup_keys _, ?_⟩
  · apply nodup_keys_append hs
    rintro (_ | _ | _) <;> simp [Html.Slot.classList?, Html.Slot.target?]
  · rintro token htoken _ hother rfl
    -- A name for an image stands neither for a class list nor for a link.
    rcases List.mem_append.mp htoken with hclasses | hlinks
    · apply hs.not_mem_keys_of_disjoint ?_ hclasses hother
      rintro (_ | _ | _) <;> simp [Html.Slot.classList?, Html.Slot.source?]
    · apply hs.not_mem_keys_of_disjoint ?_ hlinks hother
      rintro (_ | _ | _) <;> simp [Html.Slot.target?, Html.Slot.source?]

theorem Xml.nodup_tokens {names : List String} {literal : Xml.Slot → String}
    {ledger : Ledger Xml.Slot} (hs : ledger.Sound names literal) :
    ((Xml.tables ledger).spaces.keys ++ (Xml.tables ledger).attributes.keys).Nodup :=
  nodup_keys_append hs (by rintro (_ | _) <;> simp [Xml.Slot.space?, Xml.Slot.attribute?])

theorem Json.nodup_tokens {names : List String} {literal : Json.Slot → String}
    {ledger : Ledger Json.Slot} (hs : ledger.Sound names literal) :
    ((Json.tables ledger).keys.keys ++ (Json.tables ledger).values.keys).Nodup :=
  nodup_keys_append hs (by rintro (_ | _) <;> simp [Json.Slot.key?, Json.Slot.value?])

/-! ## Section 3: The tables of the three formats -/

/-- After any builds, failed ones included, the tables of a converter are a reversible account: over
all its categories the names are different members of the vocabulary, as many as have been issued;
in each category the originals are different, no name is the text that it replaces, and turning the
forward map round loses nothing. -/
theorem tables_faithful_after_builds (config : Config) (names : List String) :
    (∀ calls : List (Call Html.Entry),
      let ledger := ledgerAfterBuilds (Html.dialect config) (.ofVocabulary names) calls
      let tables := Html.tables ledger
      (tables.classes.keys ++ tables.links.keys ++ tables.images.keys).Nodup ∧
      Faithful names id (fun list => ledger.table.get? (.classes list)) tables.classes ∧
      Faithful names id (fun target => ledger.table.get? (.link target)) tables.links ∧
      Faithful names id (fun source => ledger.table.get? (.image source)) tables.images ∧
      ledger.table.reversed.size = ledger.table.size ∧
      tables.classes.size + tables.links.size + tables.images.size = ledger.supply.issued) ∧
    (∀ calls : List (Call Xml.Content),
      let ledger := ledgerAfterBuilds (fun _ => Xml.dialect config) (.ofVocabulary names) calls
      let tables := Xml.tables ledger
      (tables.spaces.keys ++ tables.attributes.keys).Nodup ∧
      Faithful names id (fun space => ledger.table.get? (.space space)) tables.spaces ∧
      Faithful names Prod.snd (fun pair => ledger.table.get? (.value pair.1 pair.2))
        tables.attributes ∧
      ledger.table.reversed.size = ledger.table.size ∧
      tables.spaces.size + tables.attributes.size = ledger.supply.issued) ∧
    (∀ calls : List (Call Json.Entry),
      let ledger := ledgerAfterBuilds (fun _ => Json.dialect config) (.ofVocabulary names) calls
      let tables := Json.tables ledger
      (tables.keys.keys ++ tables.values.keys).Nodup ∧
      Faithful names id (fun key => ledger.table.get? (.key key)) tables.keys ∧
      Faithful names id (fun value => ledger.table.get? (.value value)) tables.values ∧
      ledger.table.reversed.size = ledger.table.size ∧
      tables.keys.size + tables.values.size = ledger.supply.issued) := by
  refine ⟨?_, ?_, ?_⟩
  · intro calls ledger tables
    have hs : ledger.Sound names Html.Slot.literal :=
      Html.sound_ledgerAfterBuilds config names calls
    -- Every category of slots is told apart by the text that it is for.
    refine ⟨Html.nodup_tokens hs, ?_, ?_, ?_, hs.size_reversed, ?_⟩
    · exact hs.faithful .classes fun _ _ => Html.Slot.classList?_eq_some_iff
    · exact hs.faithful .link fun _ _ => Html.Slot.target?_eq_some_iff
    · exact hs.faithful .image fun _ _ => Html.Slot.source?_eq_some_iff
    · rw [hs.issued_eq]; exact Html.size_tables hs
  · intro calls ledger tables
    have hs : ledger.Sound names Xml.Slot.literal := Xml.sound_ledgerAfterBuilds config names calls
    refine ⟨Xml.nodup_tokens hs, ?_, ?_, hs.size_reversed, ?_⟩
    · exact hs.faithful .space fun _ _ => Xml.Slot.space?_eq_some_iff
    · exact hs.faithful (fun pair : String × String => .value pair.1 pair.2) fun _ _ =>
        Xml.Slot.attribute?_eq_some_iff
    · rw [hs.issued_eq]; exact Xml.size_tables hs
  · intro calls ledger tables
    have hs : ledger.Sound names Json.Slot.literal :=
      Json.sound_ledgerAfterBuilds config names calls
    refine ⟨Json.nodup_tokens hs, ?_, ?_, hs.size_reversed, ?_⟩
    · exact hs.faithful .key fun _ _ => Json.Slot.key?_eq_some_iff
    · exact hs.faithful .value fun _ _ => Json.Slot.value?_eq_some_iff
    · rw [hs.issued_eq]; exact Json.size_tables hs

end TreeNotation
