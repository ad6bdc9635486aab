import TreeNotation.Proofs.Conversion
import TreeNotation.Proofs.Html.Requests
import TreeNotation.Proofs.Json.Requests
import TreeNotation.Proofs.Token.Extension
import TreeNotation.Proofs.Writing.Builds
import TreeNotation.Proofs.Writing.Requests
import TreeNotation.Proofs.Xml.Requests

/-!
# Longer Vocabularies

If a vocabulary suffices for a conversion, names after it change nothing: the notation and the
tables are the same ones.

- **Any dialect**: `convertWith_ofVocabulary_append`, from single nodes to conversions;
- **Formats**: `Document.convertWith_of_longer_vocabulary`.
-/

namespace TreeNotation

open Token (Carries Ledger Supply closed_carries)
open Token.Ledger (Extends carries_request exists_extends_ofVocabulary)

/-! ## Section 1: Any dialect -/

/-- A dialect whose nodes do the same with more names, and whose tables are read off the entries of
the books alone, writes a forest in the same way with names after a vocabulary that suffices. -/
theorem Writing.Dialect.convertWith_ofVocabulary_append {α κ μ : Type} {d : Dialect α κ}
    {f : Forest α} {tables : Ledger κ → μ} {names : List String} {result : Conversion μ}
    (hown : ∀ rest id label, Carries (Extends rest) (d.own id label))
    (htables : ∀ ledger longer : Ledger κ, longer.table = ledger.table →
      tables longer = tables ledger)
    (h : d.convertWith tables (.ofVocabulary names) f = .ok result) (more : List String) :
    d.convertWith tables (.ofVocabulary (names ++ more)) f = .ok result := by
  obtain ⟨text, after, hrun, rfl⟩ := convertWith_eq_ok_iff.mp h
  obtain ⟨rest, hstart⟩ := exists_extends_ofVocabulary (κ := κ) names more
  obtain ⟨after', hrun', hextends⟩ :=
    closed_convert (closed_carries (Extends rest)) (hown rest) f _ _ text after hstart hrun
  rw [← htables after after' hextends.table_eq]
  exact convertWith_eq_ok_iff.mpr ⟨text, after', hrun', rfl⟩

/-! ## Section 2: The formats -/

theorem Token.Ledger.dictionary_congr {κ ν : Type} {ledger longer : Ledger κ}
    (h : longer.table = ledger.table) (category : κ → Option ν) :
    longer.dictionary category = ledger.dictionary category := by
  unfold dictionary
  rw [h]

variable {config : Config} {names : List String}

theorem Html.convert_ofVocabulary_append {doc : Html.Document}
    {result : Writing.Conversion Html.Tables}
    (h : Html.convert config (.ofVocabulary names) doc = .ok result) (more : List String) :
    Html.convert config (.ofVocabulary (names ++ more)) doc = .ok result := by
  refine Writing.Dialect.convertWith_ofVocabulary_append ?_ ?_ h more
  · intro rest _ entry
    exact Html.closed_own (closed_carries _) (fun slot _ => carries_request slot _) entry.content
  · intro ledger longer htable
    simp only [Html.tables, Ledger.dictionary_congr htable]

theorem Json.convert_ofVocabulary_append {doc : Json.Document}
    {result : Writing.Conversion Json.Tables}
    (h : Json.convert config (.ofVocabulary names) doc = .ok result) (more : List String) :
    Json.convert config (.ofVocabulary (names ++ more)) doc = .ok result := by
  refine Writing.Dialect.convertWith_ofVocabulary_append ?_ ?_ h more
  · intro rest _ entry
    exact Json.closed_own (closed_carries _) (fun slot _ => carries_request slot _) entry.content
  · intro ledger longer htable
    simp only [Json.tables, Ledger.dictionary_congr htable]

theorem Xml.convert_ofVocabulary_append {doc : Xml.Document}
    {result : Writing.Conversion Xml.Tables}
    (h : Xml.convert config (.ofVocabulary names) doc = .ok result) (more : List String) :
    Xml.convert config (.ofVocabulary (names ++ more)) doc = .ok result := by
  refine Writing.Dialect.convertWith_ofVocabulary_append ?_ ?_ h more
  · intro rest id content
    exact Xml.closed_own (closed_carries _) (fun slot _ => carries_request slot _) id content
  · intro ledger longer htable
    simp only [Xml.tables, Ledger.dictionary_congr htable]

/-- A document of any format that can be converted with the names of a vocabulary has the same
notation and the same tables with more names after them. -/
theorem Document.convertWith_of_longer_vocabulary {doc : Document}
    {result : Writing.Conversion Tables}
    (h : doc.convertWith config (.ofVocabulary names) = .ok result) (more : List String) :
    doc.convertWith config (.ofVocabulary (names ++ more)) = .ok result := by
  -- One case for each format; in each of them the conversion has succeeded.
  cases doc with
  | html doc =>
    obtain ⟨inner, hinner, rfl⟩ := except_bind_eq_ok_iff.mp h
    exact except_bind_eq_ok_iff.mpr ⟨inner, Html.convert_ofVocabulary_append hinner more, rfl⟩
  | json doc =>
    obtain ⟨inner, hinner, rfl⟩ := except_bind_eq_ok_iff.mp h
    exact except_bind_eq_ok_iff.mpr ⟨inner, Json.convert_ofVocabulary_append hinner more, rfl⟩
  | xml doc =>
    obtain ⟨inner, hinner, rfl⟩ := except_bind_eq_ok_iff.mp h
    exact except_bind_eq_ok_iff.mpr ⟨inner, Xml.convert_ofVocabulary_append hinner more, rfl⟩

/-- A class list that is itself the first name of the vocabulary is given the last one, and still is
if that one comes again and others come after it. -/
theorem paragraph_with_longer_vocabulary :
    let config : Config := { html := { simplifyClasses := true } }
    let doc : Html.Document := List.foldl Html.Document.perform Forest.empty
      [.addRootElement "p" (.ofList [("class", "Ann")])]
    ∃ result : Writing.Conversion Tables,
      result.text = "p.Ben" ∧
      (Document.html doc).convertWith config (.ofVocabulary ["Ann", "Ben"]) = .ok result ∧
      (Document.html doc).convertWith config
        (.ofVocabulary (["Ann", "Ben"] ++ ["Ben", "Eve"])) = .ok result := by
  intro config doc
  have hroots : doc.rootIds = [0] := Forest.rootIds_of_roots rfl
  have hhtml : Html.convert config (.ofVocabulary ["Ann", "Ben"]) doc =
      .ok ⟨"p.Ben", .ofList [("Ben", "Ann")], .empty, .empty⟩ := by
    unfold Html.convert Writing.Dialect.convertWith Writing.Dialect.convert
    rw [hroots]
    rfl
  have hrun : (Document.html doc).convertWith config (.ofVocabulary ["Ann", "Ben"]) =
      .ok ⟨"p.Ben", .html ⟨.ofList [("Ben", "Ann")], .empty, .empty⟩⟩ :=
    except_bind_eq_ok_iff.mpr ⟨_, hhtml, rfl⟩
  exact ⟨_, rfl, hrun, Document.convertWith_of_longer_vocabulary hrun ["Ben", "Eve"]⟩

end TreeNotation
