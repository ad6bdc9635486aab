import TreeNotation.Proofs.Token.Replay
import TreeNotation.Proofs.Writing.Alike
import TreeNotation.Proofs.Writing.Builds
import TreeNotation.Proofs.Writing.Requests

/-!
# Writing Forests with Names in Their Labels

A forest in whose labels the names already stand is written, without any books, as the forest that
they come from.

- **Labels**: `relabelVisited` changes the labels of the nodes that are written and of no other;
- **Trees**: `replays_render`, from nodes to trees;
- **Forests**: `convertWith_relabelVisited`.
-/

namespace TreeNotation.Writing.Dialect

open Token (Ledger Rendering Supply Grows Replays replays_pure)

variable {α κ : Type} {d d' : Dialect α κ}

/-! ## Section 1: Labels of the nodes that are written -/

/-- The label of a node after a change that only the nodes that are written go through. -/
def changeVisited (d : Dialect α κ) (f : Forest α) (change : α → α) (id : NodeId) (label : α) : α :=
  if id ∈ (d.visited f).map Prod.fst then change label else label

/-- The forest with other labels at the nodes that are written. -/
def relabelVisited (d : Dialect α κ) (change : α → α) (f : Forest α) : Forest α :=
  f.relabelAt (d.changeVisited f change)

/-- A node that is written is not left out, and it is a node of the forest. -/
theorem label?_of_mem_visited {f : Forest α} {id : NodeId} {label : α}
    (h : (id, label) ∈ d.visited f) : f.label? id = some label ∧ d.skips label = false := by
  have hlabels : ∀ tree ∈ f.trees, tree.Everywhere fun id label _ => f.label? id = some label := by
    intro tree htree
    refine Forest.everywhere_of_mem_trees ?_ htree
    intro id node depth children hnode _
    simp only [Forest.label?, hnode, Option.map_some]
  exact Tree.of_mem_visitedEach d.skips f.trees hlabels _ h

/-! ## Section 2: Trees -/

section Replaying

variable [DecidableEq κ] {final : Ledger κ} {g : NodeId → α → α}

/-- The nodes of two dialects that are passed over, written into the line above or enclosed are the
same ones, if the labels are changed in between. -/
structure PlacedAlike (d d' : Dialect α κ) (g : NodeId → α → α) (id : NodeId) (label : α) :
    Prop where
  skips_eq : d'.skips (g id label) = d.skips label
  inlines_eq : d'.inlines (g id label) = d.inlines label
  encloses_eq : d'.encloses id = d.encloses id

theorem grows_renderEach (hgrows : ∀ id label, Grows (d.own id label)) (level : Nat)
    (trees : List (Tree α)) : Grows (d.renderEach level trees) :=
  fun start => keeps_renderEach (fun id label => hgrows id label start) level trees

mutual

/-- If a dialect writes with the names in the labels what another one writes at single nodes, it
does so for trees. -/
theorem replays_render (hlayout : d'.layout = d.layout)
    (hshown : ∀ label, d.inlines label = true → d.skips label = false)
    (hgrows : ∀ id label, Grows (d.own id label)) (level : Nat) : ∀ tree : Tree α,
      (tree.Everywhere fun id label _ => PlacedAlike d d' g id label) →
      (∀ node ∈ tree.visited d.skips,
        Replays final (d.own node.1 node.2) (d'.own node.1 (g node.1 node.2))) →
      Replays final (d.render level tree) (d'.render level (tree.relabelAt g))
  | .node id label children, hplaced, hown => by
    rw [Tree.relabelAt, render, render, hplaced.at_node.1.skips_eq]
    rw [Tree.visited] at hown
    split
    case isTrue => exact replays_pure ""
    case isFalse hskips =>
      rw [if_neg hskips] at hown
      simp only [assemble_eq hlayout hplaced.at_node.1.encloses_eq, hlayout]
      apply (hown (id, label) List.mem_cons_self).bind
      · intro own
        have hbelow : Grows (d.renderBelow (level + 1) children) := fun start =>
          keeps_renderBelow (fun id label => hgrows id label start) (level + 1) children
        exact hbelow.map _
      · intro own _
        have hbelow := replays_renderBelow hlayout hshown hgrows (level + 1) children
          hplaced.at_node.2 fun node hnode => hown node (List.mem_cons_of_mem _ hnode)
        exact hbelow.map _

theorem replays_renderBelow (hlayout : d'.layout = d.layout)
    (hshown : ∀ label, d.inlines label = true → d.skips label = false)
    (hgrows : ∀ id label, Grows (d.own id label)) (level : Nat) : ∀ trees : List (Tree α),
      (∀ tree ∈ trees, tree.Everywhere fun id label _ => PlacedAlike d d' g id label) →
      (∀ node ∈ Tree.visitedEach d.skips trees,
        Replays final (d.own node.1 node.2) (d'.own node.1 (g node.1 node.2))) →
      Replays final (d.renderBelow level trees) (d'.renderBelow level (Tree.relabelEach g trees))
  | [], _, _ => by
    rw [Tree.relabelEach, renderBelow, renderBelow]
    exact replays_pure _
  | .node id label children :: rest, hplaced, hown => by
    rw [Tree.visitedEach] at hown
    have hhere := (hplaced _ List.mem_cons_self).at_node.1
    have hrest := replays_renderEach hlayout hshown hgrows level rest
      (fun tree htree => hplaced tree (List.mem_cons_of_mem _ htree))
      fun node hnode => hown node (List.mem_append_right _ hnode)
    have hgrowsrest := grows_renderEach hgrows level rest
    rw [Tree.relabelEach]
    by_cases hinlines : d.inlines label = true
    · -- A text in the line above is written by itself, and it is one of the nodes written.
      have hself := hown (id, label) (by simp [Tree.visited, hshown label hinlines])
      have hinlines' : d'.inlines (g id label) = true := by rw [hhere.inlines_eq, hinlines]
      rw [Tree.relabelAt, renderBelow_of_inlines level id children rest hinlines,
        renderBelow_of_inlines level id _ _ hinlines']
      apply hself.bind
      · intro lead
        exact hgrowsrest.map _
      · intro lead _
        exact hrest.map _
    · have hfirst := replays_render hlayout hshown hgrows level (.node id label children)
        (hplaced _ List.mem_cons_self) fun node hnode => hown node (List.mem_append_left _ hnode)
      have hinlines' : ¬ d'.inlines (g id label) = true := by rwa [hhere.inlines_eq]
      rw [Tree.relabelAt] at hfirst ⊢
      rw [renderBelow_of_not_inlines level id children rest hinlines,
        renderBelow_of_not_inlines level id _ _ hinlines']
      apply hfirst.bind
      · intro part
        exact hgrowsrest.map _
      · intro part _
        exact hrest.map _

theorem replays_renderEach (hlayout : d'.layout = d.layout)
    (hshown : ∀ label, d.inlines label = true → d.skips label = false)
    (hgrows : ∀ id label, Grows (d.own id label)) (level : Nat) : ∀ trees : List (Tree α),
      (∀ tree ∈ trees, tree.Everywhere fun id label _ => PlacedAlike d d' g id label) →
      (∀ node ∈ Tree.visitedEach d.skips trees,
        Replays final (d.own node.1 node.2) (d'.own node.1 (g node.1 node.2))) →
      Replays final (d.renderEach level trees) (d'.renderEach level (Tree.relabelEach g trees))
  | [], _, _ => by
    rw [Tree.relabelEach, renderEach, renderEach]
    exact replays_pure _
  | first :: rest, hplaced, hown => by
    rw [Tree.visitedEach] at hown
    have hfirst := replays_render hlayout hshown hgrows level first (hplaced _ List.mem_cons_self)
      fun node hnode => hown node (List.mem_append_left _ hnode)
    have hrest := replays_renderEach hlayout hshown hgrows level rest
      (fun tree htree => hplaced tree (List.mem_cons_of_mem _ htree))
      fun node hnode => hown node (List.mem_append_right _ hnode)
    rw [Tree.relabelEach, renderEach, renderEach]
    apply hfirst.bind
    · intro part
      exact (grows_renderEach hgrows level rest).map _
    · intro part _
      exact hrest.map _

end

/-! ## Section 3: Forests -/

/-- After a change of labels that puts in the names of the books `final`, the dialect `d'` writes
single nodes as `d` does, and in the same places. -/
structure ReplaysNodes (final : Ledger κ) (d d' : Dialect α κ) (change : α → α) : Prop where
  layout_eq : d'.layout = d.layout
  shown : ∀ label, d.inlines label = true → d.skips label = false
  grows : ∀ id label, Grows (d.own id label)
  skips_eq : ∀ label, d'.skips label = d.skips label
  /-- A node that is written may change its label, and it is not left out for that. -/
  skips_change : ∀ label, d.skips label = false → d'.skips (change label) = false
  inlines_eq : ∀ label, d'.inlines label = d.inlines label
  inlines_change : ∀ label, d'.inlines (change label) = d.inlines label
  encloses_eq : ∀ id, d'.encloses id = d.encloses id
  replays_own : ∀ id label, Replays final (d.own id label) (d'.own id (change label))

variable {change : α → α}

/-- The nodes keep their places, those whose label changes and those that are left out. -/
theorem ReplaysNodes.placedAlike (h : ReplaysNodes final d d' change) (f : Forest α) {id : NodeId}
    {label : α} (hlabel : f.label? id = some label) :
    PlacedAlike d d' (d.changeVisited f change) id label := by
  refine ⟨?_, ?_, h.encloses_eq id⟩
  · unfold changeVisited
    split
    case isFalse => exact h.skips_eq label
    case isTrue hvisited =>
      -- The node is one of those written, and there it has the same label.
      obtain ⟨⟨_, other⟩, hmem, rfl⟩ := List.mem_map.mp hvisited
      obtain ⟨hother, hshow⟩ := label?_of_mem_visited hmem
      rw [hlabel, Option.some.injEq] at hother
      rw [hother, hshow]
      exact h.skips_change other hshow
  · unfold changeVisited
    split
    case isTrue => exact h.inlines_change label
    case isFalse => exact h.inlines_eq label

/-- The forest with the names in its labels has the conversion of the forest that it comes from,
without any names asked for. -/
theorem convertWith_relabelVisited {f : Forest α} (hf : f.WellFormed)
    (hnodes : ReplaysNodes final d d' change) {ledger after : Ledger κ} {text : String}
    (hrun : d.convert f ledger = .ok text after) (hfinal : after.Within final) {μ : Type}
    (tables : Ledger κ → μ) (a : Supply) :
    d'.convertWith tables a (d.relabelVisited change f) =
      .ok ⟨text, tables (Ledger.ofSupply a)⟩ := by
  have hplaced : ∀ tree ∈ f.trees,
      tree.Everywhere fun id label _ => PlacedAlike d d' (d.changeVisited f change) id label := by
    intro tree htree
    refine Forest.everywhere_of_mem_trees ?_ htree
    intro id node depth children hnode _
    apply hnodes.placedAlike f
    simp only [Forest.label?, hnode, Option.map_some]
  have hown : ∀ node ∈ d.visited f,
      Replays final (d.own node.1 node.2)
        (d'.own node.1 (d.changeVisited f change node.1 node.2)) := by
    intro node hnode
    unfold changeVisited
    rw [if_pos (List.mem_map_of_mem hnode)]
    exact hnodes.replays_own node.1 node.2
  have hreplays := replays_renderEach hnodes.layout_eq hnodes.shown hnodes.grows 0 f.trees hplaced
    hown
  have hpure : d'.convert (d.relabelVisited change f) = pure text := by
    rw [convert_eq hf] at hrun
    unfold relabelVisited
    rw [convert_eq (Forest.wellFormed_relabelAt hf), Forest.trees_relabelAt,
      ← Tree.relabelEach_eq_map, hnodes.layout_eq]
    exact (hreplays.map _) ledger text after hrun hfinal
  apply convertWith_eq_ok_iff.mpr
  refine ⟨text, Ledger.ofSupply a, ?_, rfl⟩
  rw [hpure]
  rfl

end Replaying

end TreeNotation.Writing.Dialect
