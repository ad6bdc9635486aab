import TreeNotation.Proofs.Html.Counts
import TreeNotation.Proofs.Writing.Requests

/-!
# Two Ways to Count Siblings

Whether a node is put in parentheses depends on how many elements are written beside it. Where tags
are skipped they are counted among the children of the parent, otherwise the count that the parent
keeps is used. If no element is listed for skipping, both come to the same.

- **Any dialect**: `AgreeAt` says that two dialects treat a node alike, and `convertWith_congr` that
  they write a forest alike if they do so at all its nodes;
- **HTML**: `convert_skipping_eq`, from the counts of single nodes to conversions.
-/

namespace TreeNotation

/-! ## Section 1: Dialects that agree -/

namespace Writing.Dialect

open Token (Ledger Supply)

variable {α κ : Type} {d d' : Dialect α κ}

/-- Two dialects treat a node alike. -/
structure AgreeAt (d d' : Dialect α κ) (id : NodeId) (label : α) : Prop where
  skips_eq : d.skips label = d'.skips label
  inlines_eq : d.inlines label = d'.inlines label
  own_eq : d.own id label = d'.own id label
  encloses_eq : d.encloses id = d'.encloses id

/-- Two dialects treat all nodes of a tree alike. -/
def AgreeOn (d d' : Dialect α κ) (tree : Tree α) : Prop :=
  tree.Everywhere fun id label _ => AgreeAt d d' id label

mutual

theorem render_congr (hlayout : d.layout = d'.layout) (level : Nat) :
    ∀ tree : Tree α, AgreeOn d d' tree → d.render level tree = d'.render level tree
  | .node id label children, h => by
    obtain ⟨hat, hbelow⟩ := h.at_node
    have hassemble : d.assemble id level = d'.assemble id level := by
      funext own lead group
      rw [assemble, assemble, hlayout, hat.encloses_eq]
    rw [render, render, hat.skips_eq, hat.own_eq, hassemble, hlayout,
      renderBelow_congr hlayout (level + 1) children hbelow]

theorem renderBelow_congr (hlayout : d.layout = d'.layout) (level : Nat) :
    ∀ trees : List (Tree α), (∀ tree ∈ trees, AgreeOn d d' tree) →
      d.renderBelow level trees = d'.renderBelow level trees
  | [], _ => by rw [renderBelow, renderBelow]
  | .node id label children :: rest, h => by
    have hfirst := h _ List.mem_cons_self
    have hrest := renderEach_congr hlayout level rest fun tree htree =>
      h tree (List.mem_cons_of_mem _ htree)
    have hat := hfirst.at_node.1
    -- The first child leads the line in both dialects, or it comes with the others in both.
    by_cases hinlines : d.inlines label = true
    · rw [renderBelow_of_inlines level id children rest hinlines,
        renderBelow_of_inlines level id children rest (hat.inlines_eq ▸ hinlines), hat.own_eq, hrest]
    · rw [renderBelow_of_not_inlines level id children rest hinlines,
        renderBelow_of_not_inlines level id children rest (hat.inlines_eq ▸ hinlines),
        render_congr hlayout level _ hfirst, hrest]

theorem renderEach_congr (hlayout : d.layout = d'.layout) (level : Nat) :
    ∀ trees : List (Tree α), (∀ tree ∈ trees, AgreeOn d d' tree) →
      d.renderEach level trees = d'.renderEach level trees
  | [], _ => by rw [renderEach, renderEach]
  | first :: rest, h => by
    rw [renderEach, renderEach, render_congr hlayout level first (h _ List.mem_cons_self),
      renderEach_congr hlayout level rest fun tree htree => h tree (List.mem_cons_of_mem _ htree)]

end

/-- Dialects that treat the nodes of a forest alike write it alike. -/
theorem convertWith_congr {f : Forest α} (hf : f.WellFormed) (hlayout : d.layout = d'.layout)
    (hat : ∀ id label, f.label? id = some label → AgreeAt d d' id label) {μ : Type}
    (tables : Ledger κ → μ) (a : Supply) :
    d.convertWith tables a f = d'.convertWith tables a f := by
  have htrees : ∀ tree ∈ f.trees, AgreeOn d d' tree := by
    intro tree htree
    refine Forest.everywhere_of_mem_trees ?_ htree
    intro id node depth children hnode _
    exact hat id node.label (by simp [Forest.label?, hnode])
  unfold convertWith
  rw [convert_eq hf, convert_eq hf, renderEach_congr hlayout 0 f.trees htrees, hlayout]

end Writing.Dialect

/-! ## Section 2: HTML documents -/

namespace Html

open Token (Supply)
open Writing (Conversion)
open Writing.Dialect (AgreeAt convertWith_congr)

/-- The configuration with tags skipped or not. -/
def skipping (config : Config) (skipTags : Bool) : Config :=
  { config with html := { config.html with skipTags := skipTags } }

/-- No element of the document is listed for skipping. -/
def Document.NoneListed (doc : Document) (config : Config) : Prop :=
  ∀ id entry tag attributes, doc.label? id = some entry →
    entry.content = .element tag attributes → tag ∉ config.html.tagsToSkip

variable {config : Config} {doc : Document}

/-- If no element is listed, no node is left out whether tags are skipped or not. -/
theorem skips_skipping (hlisted : doc.NoneListed config) {id : NodeId} {entry : Entry}
    (hentry : doc.label? id = some entry) (skipTags : Bool) :
    skips (skipping config skipTags).html entry.content = false := by
  cases hcontent : entry.content with
  | text payload => rfl
  | element tag attributes =>
    have htag := hlisted id entry tag attributes hentry hcontent
    rw [← OrderedSet.contains_iff] at htag
    simp [skips, skipping, htag]

theorem own_skipping (config : Config) (content : Content) :
    own (skipping config true).html content = own (skipping config false).html content := by
  cases content <;> rfl

/-- The elements that are counted one by one are those that the parent keeps count of. -/
theorem writtenSiblings_skipping (hdoc : doc.Reachable) (hlisted : doc.NoneListed config)
    (id : NodeId) :
    writtenSiblings (skipping config true).html doc id =
      writtenSiblings (skipping config false).html doc id := by
  have hwritten : isWritten (skipping config true).html doc =
      isWritten (skipping config false).html doc := by
    funext other
    unfold isWritten
    cases hentry : doc.label? other with
    | none => rfl
    | some entry => simp only [Option.any_some, skips_skipping hlisted hentry]
  rw [Document.writtenSiblings_eq hdoc.wellFormed hdoc.counted,
    Document.writtenSiblings_eq hdoc.wellFormed hdoc.counted, hwritten]

/-- If no element of a document is listed for skipping, then every node has as many written siblings
where tags are skipped as where they are not, and the conversion is the same: it has the same
notation and tables, or it fails in the same way. -/
theorem convert_skipping_eq (hdoc : doc.Reachable) (hlisted : doc.NoneListed config)
    (supply : Supply) :
    (∀ id, writtenSiblings (skipping config true).html doc id =
      writtenSiblings (skipping config false).html doc id) ∧
      convert (skipping config true) supply doc = convert (skipping config false) supply doc := by
  refine ⟨writtenSiblings_skipping hdoc hlisted, ?_⟩
  have hlayout : (dialect (skipping config true) doc).layout =
      (dialect (skipping config false) doc).layout := rfl
  refine convertWith_congr hdoc.wellFormed hlayout (fun id entry hentry => ?_) tables supply
  have hskips := skips_skipping hlisted hentry
  refine ⟨(hskips true).trans (hskips false).symm, rfl, own_skipping config entry.content, ?_⟩
  show decide (0 < writtenSiblings _ doc id) = decide (0 < writtenSiblings _ doc id)
  rw [writtenSiblings_skipping hdoc hlisted id]

/-- A child that is moved beside its parent, which is then refused as the parent of the root: the
stored counts and the children that are looked at both say that there is one element beside it. -/
theorem convert_skipping_of_moved_child :
    let doc : Document := List.foldl Document.perform Forest.empty
      [.addRootElement "div" OrderedMap.empty, .addElement "p" OrderedMap.empty,
        .addElement "b" OrderedMap.empty, .addElement "i" OrderedMap.empty, .attach 1 0,
        .attach 2 1, .attach 3 1, .attach 3 0, .attach 0 1]
    (doc.Reachable ∧ doc.NoneListed {}) ∧
      (convert (skipping {} true) .standard doc).map Conversion.text = .ok "div>(p>b)+i" ∧
      convert (skipping {} true) .standard doc = convert (skipping {} false) .standard doc := by
  intro doc
  have hdoc : doc.Reachable := ⟨Forest.empty, _, rfl, rfl⟩
  have hlisted : doc.NoneListed {} := by
    intro id entry tag attributes hentry hcontent
    match id with
    | 0 | 1 | 2 | 3 => cases hentry; cases hcontent; decide
    | id + 4 => cases hentry
  have hroots : doc.rootIds = [0] := Forest.rootIds_of_roots rfl
  refine ⟨⟨hdoc, hlisted⟩, ?_, (convert_skipping_eq hdoc hlisted .standard).2⟩
  unfold convert Writing.Dialect.convertWith Writing.Dialect.convert
  rw [hroots]
  rfl

end Html

end TreeNotation
