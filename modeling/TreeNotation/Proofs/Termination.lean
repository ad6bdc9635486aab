import TreeNotation.Proofs.Html.Growth
import TreeNotation.Proofs.Json.Growth
import TreeNotation.Proofs.Writing.Recursion
import TreeNotation.Proofs.Xml.Growth
import TreeNotation.Html.Dialect
import TreeNotation.Json.Dialect
import TreeNotation.Xml.Dialect

/-!
# Termination

Links between nodes are numbers, and following numbers may go on for ever. In a forest that
operations have grown it never does: a search along the parents and the writing of a tree both come
to an end, with bounds that the size of the forest gives.

- **Searches**: `Forest.SearchesEnd`, for the search that attaching a node relies on;
- **Formats**: `searches_and_builds_end`, which adds the recursions that write documents.
-/

namespace TreeNotation

open Token (Ledger)
open Writing (traced)

/-! ## Section 1: Searches -/

/-- A search along the parents comes to an end, whatever number it begins with and whatever number
it looks for. -/
structure Forest.SearchesEnd {α : Type} (f : Forest α) : Prop where
  /-- It takes one step more than there are nodes at most, and gives the answer of the search that
  is made with this bound. -/
  climb_eq : ∀ ancestor id steps, f.size + 1 ≤ steps →
    f.climb ancestor steps id = some (f.isAncestorOrSelf ancestor id)
  found_iff : ∀ ancestor id, f.isAncestorOrSelf ancestor id = true ↔ f.AboveOrSelf ancestor id

theorem Forest.WellFormed.searchesEnd {α : Type} {f : Forest α} (hf : f.WellFormed) :
    f.SearchesEnd where
  climb_eq ancestor id _ hsteps := climb_eq_some hf.acyclic ancestor id hsteps
  found_iff _ _ := isAncestorOrSelf_iff hf.acyclic

/-! ## Section 2: All formats -/

/-- However a forest or a document has been grown, the search along the parents ends after one step
more than there are nodes at most, and it finds exactly the node that it begins with and the nodes
above. The recursion that writes a document below a node, in any format, ends as well: its calls are
nested no deeper than there are nodes, and it comes to every node at most once. -/
theorem searches_and_builds_end (config : Config) :
    (∀ (α : Type) (ops : List (Forest.Operation α)),
      ((Forest.empty : Forest α).performAll ops).SearchesEnd) ∧
    (∀ doc : Html.Document, doc.Reachable →
      Forest.SearchesEnd doc ∧ ∀ id, (Html.dialect config doc).EndsBelow doc id) ∧
    (∀ doc : Xml.Document, doc.Reachable →
      Forest.SearchesEnd doc ∧ ∀ id, (Xml.dialect config).EndsBelow doc id) ∧
    (∀ doc : Json.Document, doc.Reachable →
      Forest.SearchesEnd doc ∧ ∀ id, (Json.dialect config).EndsBelow doc id) := by
  refine ⟨?forest, ?html, ?xml, ?json⟩
  case forest =>
    intro α ops
    exact (Forest.wellFormed_performAll ops).searchesEnd
  case html =>
    intro doc hdoc
    exact ⟨hdoc.wellFormed.searchesEnd, Writing.Dialect.endsBelow _ hdoc.wellFormed⟩
  case xml =>
    intro doc hdoc
    exact ⟨hdoc.wellFormed.searchesEnd, Writing.Dialect.endsBelow _ hdoc.wellFormed⟩
  case json =>
    intro doc hdoc
    exact ⟨hdoc.wellFormed.searchesEnd, Writing.Dialect.endsBelow _ hdoc.wellFormed⟩

/-- A list with an item with a word set in bold, put together from below. All three elements are
nested, so room for two calls is not enough. -/
theorem nested_list_ends :
    let doc : Html.Document := List.foldl Html.Document.perform Forest.empty
      [.addRootElement "ul" .empty, .addElement "li" .empty, .addElement "b" .empty, .attach 2 1,
        .attach 1 0]
    let d := Html.dialect {} doc
    let start : Ledger Html.Slot := .ofSupply (.ofVocabulary [])
    doc.Reachable ∧ doc.climb 0 4 2 = some true ∧ doc.climb 9 4 2 = some false ∧
      (∃ visited : List NodeId, visited.Nodup ∧
        d.enter doc 3 0 0 ⟨start, []⟩ = traced visited (d.build doc 0 0 start) ∧
        traced visited (d.build doc 0 0 start) = .ok "ul>li>b" ⟨start, [0, 1, 2]⟩) ∧
      d.enter doc 2 0 0 ⟨start, []⟩ = .error .tooDeep ⟨start, [0, 1]⟩ := by
  intro doc d start
  have hdoc : doc.Reachable := ⟨Forest.empty, _, rfl, rfl⟩
  obtain ⟨-, hhtml, -, -⟩ := searches_and_builds_end {}
  obtain ⟨hsearch, hbuild⟩ := hhtml doc hdoc
  refine ⟨hdoc, hsearch.climb_eq 0 2 4 (by decide), hsearch.climb_eq 9 2 4 (by decide), ?_, rfl⟩
  obtain ⟨visited, hnodup, -, hrun⟩ := (hbuild 0).of_node (by decide) 0 start 3 (by decide)
  exact ⟨visited, hnodup, hrun, hrun.symm.trans rfl⟩

end TreeNotation
