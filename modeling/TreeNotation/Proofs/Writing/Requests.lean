import TreeNotation.Proofs.Forest.Trees
import TreeNotation.Proofs.Token.Assignment
import TreeNotation.Writing.Dialect

/-!
# Requests in Document Order

What single nodes ask for, a tree asks for node by node in document order: a text that is written
directly after the node above it is a node like any other, and a node that is left out asks for
nothing, nor does anything below it.

- **Forests as trees**: `convert_eq`, which writes the trees of a forest in place of its roots;
- **Nodes**: `written` lists the nodes of a tree that are written, none of which is left out, and
  `written_eq_visited` says when these are all of that kind;
- **Trees**: `demands_render`, from what nodes ask for to what a tree asks for, also if some nodes
  fail;
- **Conversions**: `demands_convert` and `asks_convert`, from trees to a whole forest, and
  `convertWith_eq_ok_iff`, which takes a conversion that succeeds apart.
-/

namespace TreeNotation.Writing.Dialect

open Token (Ledger Supply Asks Demands demands_bind demands_map demands_map_ok_iff
  demands_pure bind_eq_ok_iff)

variable {α κ : Type} {d : Dialect α κ}

/-! ## Section 1: Rows of trees -/

theorem renderBelow_of_inlines (level : Nat) (id : NodeId) {label : α} (children : List (Tree α))
    (rest : List (Tree α)) (h : d.inlines label = true) :
    d.renderBelow level (.node id label children :: rest) = do
      let lead ← d.own id label
      let parts ← d.renderEach level rest
      return (lead, parts) := by
  rw [renderBelow]
  exact if_pos h

theorem renderBelow_of_not_inlines (level : Nat) (id : NodeId) {label : α}
    (children : List (Tree α)) (rest : List (Tree α)) (h : ¬ d.inlines label = true) :
    d.renderBelow level (.node id label children :: rest) = do
      let part ← d.render level (.node id label children)
      let parts ← d.renderEach level rest
      return ("", part :: parts) := by
  rw [renderBelow]
  exact if_neg h

theorem mapM_build {f : Forest α} {ids : List NodeId} {trees : List (Tree α)}
    (h : ids.mapM f.subtree? = some trees) (level : Nat) :
    (ids.mapM fun id => d.build f id level) = d.renderEach level trees := by
  replace h := Forest.mapM_eq_some_iff_forall₂.mp h
  induction h with
  | nil => rw [List.mapM_nil, renderEach]
  | cons htree _ ih =>
    rw [List.mapM_cons, renderEach, ih]
    simp only [build, htree]

/-- A well-formed forest is written as its trees are. -/
theorem convert_eq {f : Forest α} (hf : f.WellFormed) :
    d.convert f = do
      let parts ← d.renderEach 0 f.trees
      return d.layout.join parts := by
  unfold convert
  rw [mapM_build (Forest.mapM_subtree?_rootIds hf)]

theorem convertWith_eq_ok_iff {μ : Type} {tables : Ledger κ → μ} {a : Supply} {f : Forest α}
    {result : Conversion μ} :
    d.convertWith tables a f = .ok result ↔
      ∃ text after, d.convert f (Ledger.ofSupply a) = .ok text after ∧
        result = ⟨text, tables after⟩ := by
  unfold convertWith
  cases d.convert f (Ledger.ofSupply a) with
  | ok text after => simp [eq_comm]
  | error e after => simp

/-! ## Section 2: Nodes that are written -/

mutual

/-- The nodes of a tree that are written, in document order: nothing of a tree whose topmost node is
left out, and of a text that is written directly after the node above it that text alone. -/
def written (d : Dialect α κ) : Tree α → List (NodeId × α)
  | .node id label children =>
    if d.skips label then [] else (id, label) :: d.writtenBelow children

/-- The nodes that are written below a node with this row of children. -/
def writtenBelow (d : Dialect α κ) : List (Tree α) → List (NodeId × α)
  | [] => []
  | .node id label children :: rest =>
    (if d.inlines label then [(id, label)] else d.written (.node id label children)) ++
      d.writtenEach rest

/-- The nodes of trees side by side that are written, one tree after the other. -/
def writtenEach (d : Dialect α κ) : List (Tree α) → List (NodeId × α)
  | [] => []
  | first :: rest => d.written first ++ d.writtenEach rest

end

theorem writtenBelow_of_inlines (id : NodeId) {label : α} (children rest : List (Tree α))
    (h : d.inlines label = true) :
    d.writtenBelow (.node id label children :: rest) = (id, label) :: d.writtenEach rest := by
  rw [writtenBelow, if_pos h]
  rfl

theorem writtenBelow_of_not_inlines (id : NodeId) {label : α} (children rest : List (Tree α))
    (h : ¬ d.inlines label = true) : d.writtenBelow (.node id label children :: rest) =
      d.written (.node id label children) ++ d.writtenEach rest := by
  rw [writtenBelow, if_neg h]

theorem writtenBelow_cons_of_inlines {first : Tree α} (rest : List (Tree α))
    (h : d.inlines first.label = true) :
    d.writtenBelow (first :: rest) = (first.id, first.label) :: d.writtenEach rest := by
  obtain ⟨id, label, children⟩ := first
  exact writtenBelow_of_inlines id children rest h

theorem writtenBelow_cons_of_not_inlines {first : Tree α} (rest : List (Tree α))
    (h : ¬ d.inlines first.label = true) :
    d.writtenBelow (first :: rest) = d.written first ++ d.writtenEach rest := by
  obtain ⟨id, label, children⟩ := first
  exact writtenBelow_of_not_inlines id children rest h

mutual

/-- If plain text is never left out, then no node that is written is. -/
theorem skips_of_mem_written (hshown : ∀ label, d.inlines label = true → d.skips label = false) :
    ∀ tree : Tree α, ∀ node ∈ d.written tree, d.skips node.2 = false
  | .node id label children, node, hnode => by
    rw [written] at hnode
    split at hnode
    case isTrue => cases hnode
    case isFalse hskips =>
      rcases List.mem_cons.mp hnode with rfl | hnode
      · exact Bool.eq_false_iff.mpr hskips
      · exact skips_of_mem_writtenBelow hshown children node hnode

theorem skips_of_mem_writtenBelow
    (hshown : ∀ label, d.inlines label = true → d.skips label = false) :
    ∀ trees : List (Tree α), ∀ node ∈ d.writtenBelow trees, d.skips node.2 = false
  | [], node, hnode => by cases hnode
  | first :: rest, node, hnode => by
    by_cases hinlines : d.inlines first.label = true
    · rw [writtenBelow_cons_of_inlines rest hinlines] at hnode
      rcases List.mem_cons.mp hnode with rfl | hnode
      · exact hshown first.label hinlines
      · exact skips_of_mem_writtenEach hshown rest node hnode
    · rw [writtenBelow_cons_of_not_inlines rest hinlines] at hnode
      rcases List.mem_append.mp hnode with hnode | hnode
      · exact skips_of_mem_written hshown first node hnode
      · exact skips_of_mem_writtenEach hshown rest node hnode

theorem skips_of_mem_writtenEach
    (hshown : ∀ label, d.inlines label = true → d.skips label = false) :
    ∀ trees : List (Tree α), ∀ node ∈ d.writtenEach trees, d.skips node.2 = false
  | [], node, hnode => by cases hnode
  | first :: rest, node, hnode => by
    rw [writtenEach] at hnode
    rcases List.mem_append.mp hnode with hnode | hnode
    · exact skips_of_mem_written hshown first node hnode
    · exact skips_of_mem_writtenEach hshown rest node hnode

end

/-- A node that may be written directly after the one above it has no children. -/
def Bare (d : Dialect α κ) (tree : Tree α) : Prop :=
  tree.Everywhere fun _ label children => d.inlines label = true → children = []

theorem bare_of_mem_trees {f : Forest α} (h : f.BareAt d.inlines) {tree : Tree α}
    (htree : tree ∈ f.trees) : d.Bare tree := by
  refine Forest.everywhere_of_mem_trees ?_ htree
  intro id node depth children hnode hchildren hinlines
  have hnone := h id node.label (by simp [Forest.label?, hnode]) hinlines
  rw [Forest.children, hnode, Option.elim_some] at hnone
  rw [hnone, List.mapM_nil] at hchildren
  exact (Option.some.inj hchildren).symm

mutual

/-- If texts have nothing below them, all nodes are written but those that are left out. -/
theorem written_eq_visited (hshown : ∀ label, d.inlines label = true → d.skips label = false) :
    ∀ tree : Tree α, d.Bare tree → d.written tree = tree.visited d.skips
  | .node id label children, hbare => by
    rw [written, Tree.visited, writtenBelow_eq_visited hshown children hbare.at_node.2]

theorem writtenBelow_eq_visited
    (hshown : ∀ label, d.inlines label = true → d.skips label = false) :
    ∀ trees : List (Tree α), (∀ tree ∈ trees, d.Bare tree) →
      d.writtenBelow trees = Tree.visitedEach d.skips trees
  | [], _ => rfl
  | .node id label children :: rest, hbare => by
    have hrest := writtenEach_eq_visited hshown rest fun tree htree =>
      hbare tree (List.mem_cons_of_mem _ htree)
    rw [Tree.visitedEach]
    by_cases hinlines : d.inlines label = true
    · -- The text has nothing below it, so the tree on top of it is that one node.
      have hchildren := (hbare _ List.mem_cons_self).at_node.1 hinlines
      rw [writtenBelow_of_inlines id children rest hinlines, hrest, Tree.visited,
        hshown label hinlines, hchildren]
      rfl
    · rw [writtenBelow_of_not_inlines id children rest hinlines, hrest,
        written_eq_visited hshown _ (hbare _ List.mem_cons_self)]

theorem writtenEach_eq_visited
    (hshown : ∀ label, d.inlines label = true → d.skips label = false) :
    ∀ trees : List (Tree α), (∀ tree ∈ trees, d.Bare tree) →
      d.writtenEach trees = Tree.visitedEach d.skips trees
  | [], _ => rfl
  | first :: rest, hbare => by
    rw [writtenEach, Tree.visitedEach, written_eq_visited hshown first (hbare _ List.mem_cons_self),
      writtenEach_eq_visited hshown rest fun tree htree => hbare tree (List.mem_cons_of_mem _ htree)]

end

/-- The nodes of a forest that are not left out, in document order. -/
def visited (d : Dialect α κ) (f : Forest α) : List (NodeId × α) :=
  Tree.visitedEach d.skips f.trees

theorem writtenEach_trees {f : Forest α} (hbare : f.BareAt d.inlines)
    (hshown : ∀ label, d.inlines label = true → d.skips label = false) :
    d.writtenEach f.trees = d.visited f :=
  writtenEach_eq_visited hshown f.trees fun _ => bare_of_mem_trees hbare

/-- What the nodes of a list ask for, one node after the other. -/
def requestsOf (requests : α → List κ) (nodes : List (NodeId × α)) : List κ :=
  nodes.flatMap fun node => requests node.2

theorem map_ok_requestsOf (requests : α → List κ) (nodes : List (NodeId × α)) :
    (requestsOf requests nodes).map Except.ok =
      nodes.flatMap fun node => (requests node.2).map (.ok : κ → Except Error κ) :=
  List.map_flatMap

/-! ## Section 3: What trees and forests ask for -/

section Asking

variable [DecidableEq κ] {literal : κ → String} {demands : NodeId × α → List (Except Error κ)}

mutual

/-- If every node of a tree that is written has demands of its own, then the tree has the demands of
its nodes in document order. -/
theorem demands_render (level : Nat) : ∀ tree : Tree α,
    (∀ node ∈ d.written tree, Demands literal (d.own node.1 node.2) (demands node)) →
      Demands literal (d.render level tree) ((d.written tree).flatMap demands)
  | .node id label children, hown => by
    rw [render]
    rw [written] at hown ⊢
    split
    case isTrue => exact demands_pure ""
    case isFalse hskips =>
      rw [if_neg hskips] at hown
      -- The node itself comes first, then everything below it.
      apply demands_bind (hown (id, label) List.mem_cons_self)
      intro _ own _ _
      have hbelow := demands_renderBelow (level + 1) children
        fun node hnode => hown node (List.mem_cons_of_mem _ hnode)
      exact demands_map hbelow

theorem demands_renderBelow (level : Nat) : ∀ trees : List (Tree α),
    (∀ node ∈ d.writtenBelow trees, Demands literal (d.own node.1 node.2) (demands node)) →
      Demands literal (d.renderBelow level trees) ((d.writtenBelow trees).flatMap demands)
  | [], _ => by
    rw [renderBelow]
    exact demands_pure _
  | .node id label children :: rest, hown => by
    by_cases hinlines : d.inlines label = true
    · -- The text is written by itself, and what is below it is not.
      rw [writtenBelow_of_inlines id children rest hinlines] at hown ⊢
      rw [renderBelow_of_inlines level id children rest hinlines, List.flatMap_cons]
      apply demands_bind (hown (id, label) List.mem_cons_self)
      intro _ lead _ _
      exact demands_map (demands_renderEach level rest
        fun node hnode => hown node (List.mem_cons_of_mem _ hnode))
    · rw [writtenBelow_of_not_inlines id children rest hinlines] at hown ⊢
      rw [renderBelow_of_not_inlines level id children rest hinlines, List.flatMap_append]
      have hfirst := demands_render level (.node id label children)
        fun node hnode => hown node (List.mem_append_left _ hnode)
      apply demands_bind hfirst
      intro _ part _ _
      exact demands_map (demands_renderEach level rest
        fun node hnode => hown node (List.mem_append_right _ hnode))

theorem demands_renderEach (level : Nat) : ∀ trees : List (Tree α),
    (∀ node ∈ d.writtenEach trees, Demands literal (d.own node.1 node.2) (demands node)) →
      Demands literal (d.renderEach level trees) ((d.writtenEach trees).flatMap demands)
  | [], _ => by
    rw [renderEach]
    exact demands_pure _
  | first :: rest, hown => by
    rw [writtenEach] at hown ⊢
    have hfirst := demands_render level first
      fun node hnode => hown node (List.mem_append_left _ hnode)
    have hrest := demands_renderEach level rest
      fun node hnode => hown node (List.mem_append_right _ hnode)
    rw [renderEach, List.flatMap_append]
    apply demands_bind hfirst
    intro _ part _ _
    exact demands_map hrest

end

/-- A forest has the demands of the nodes that are written, in document order. -/
theorem demands_writtenEach {f : Forest α} (hf : f.WellFormed)
    (hown : ∀ node ∈ d.writtenEach f.trees,
      Demands literal (d.own node.1 node.2) (demands node)) :
    Demands literal (d.convert f) ((d.writtenEach f.trees).flatMap demands) := by
  rw [convert_eq hf]
  exact demands_map (demands_renderEach 0 f.trees hown)

/-- A forest asks for the keys of the nodes that are written, in document order. -/
theorem asks_writtenEach {f : Forest α} {requests : α → List κ} (hf : f.WellFormed)
    (hown : ∀ node ∈ d.writtenEach f.trees,
      Asks literal (d.own node.1 node.2) (requests node.2)) :
    Asks literal (d.convert f) (requestsOf requests (d.writtenEach f.trees)) := by
  rw [← demands_map_ok_iff, map_ok_requestsOf]
  apply demands_writtenEach hf
  intro node hnode
  exact demands_map_ok_iff.mpr (hown node hnode)

/-- If texts have nothing below them, a forest has the demands of all its nodes that are not left
out. -/
theorem demands_convert {f : Forest α} (hf : f.WellFormed) (hbare : f.BareAt d.inlines)
    (hshown : ∀ label, d.inlines label = true → d.skips label = false)
    (hown : ∀ node ∈ d.visited f, Demands literal (d.own node.1 node.2) (demands node)) :
    Demands literal (d.convert f) ((d.visited f).flatMap demands) := by
  rw [← writtenEach_trees hbare hshown] at hown ⊢
  exact demands_writtenEach hf hown

/-- If texts have nothing below them, a forest asks for the keys of all its nodes that are not left
out. -/
theorem asks_convert {f : Forest α} {requests : α → List κ} (hf : f.WellFormed)
    (hbare : f.BareAt d.inlines)
    (hshown : ∀ label, d.inlines label = true → d.skips label = false)
    (hown : ∀ node ∈ d.visited f, Asks literal (d.own node.1 node.2) (requests node.2)) :
    Asks literal (d.convert f) (requestsOf requests (d.visited f)) := by
  rw [← writtenEach_trees hbare hshown] at hown ⊢
  exact asks_writtenEach hf hown

end Asking

/-! ## Section 4: Nodes that must have been written -/

mutual

/-- If a tree has been written, so have all nodes of it that are to be. -/
theorem own_ok_of_render (level : Nat) : ∀ (tree : Tree α) (ledger : Ledger κ) text after,
    d.render level tree ledger = .ok text after → ∀ node ∈ d.written tree,
      ∃ before own later, d.own node.1 node.2 before = .ok own later
  | .node id label children, ledger, text, after, h, node, hnode => by
    rw [render] at h
    rw [written] at hnode
    split at h
    case isTrue hskips => rw [if_pos hskips] at hnode; cases hnode
    case isFalse hskips =>
      rw [if_neg hskips] at hnode
      obtain ⟨own, mid, hself, h⟩ := bind_eq_ok_iff.mp h
      obtain ⟨below, last, hbelow, -⟩ := bind_eq_ok_iff.mp h
      rcases List.mem_cons.mp hnode with rfl | hnode
      · exact ⟨ledger, own, mid, hself⟩
      · exact own_ok_of_renderBelow (level + 1) children mid below last hbelow node hnode

theorem own_ok_of_renderBelow (level : Nat) : ∀ (trees : List (Tree α)) (ledger : Ledger κ) parts
    after, d.renderBelow level trees ledger = .ok parts after → ∀ node ∈ d.writtenBelow trees,
      ∃ before own later, d.own node.1 node.2 before = .ok own later
  | [], _, _, _, _, node, hnode => by cases hnode
  | .node id label children :: rest, ledger, parts, after, h, node, hnode => by
    by_cases hinlines : d.inlines label = true
    · rw [renderBelow_of_inlines level id children rest hinlines] at h
      rw [writtenBelow_of_inlines id children rest hinlines] at hnode
      obtain ⟨lead, mid, hlead, h⟩ := bind_eq_ok_iff.mp h
      obtain ⟨others, last, hothers, -⟩ := bind_eq_ok_iff.mp h
      rcases List.mem_cons.mp hnode with rfl | hnode
      · exact ⟨ledger, lead, mid, hlead⟩
      · exact own_ok_of_renderEach level rest mid others last hothers node hnode
    · rw [renderBelow_of_not_inlines level id children rest hinlines] at h
      rw [writtenBelow_of_not_inlines id children rest hinlines] at hnode
      obtain ⟨part, mid, hpart, h⟩ := bind_eq_ok_iff.mp h
      obtain ⟨others, last, hothers, -⟩ := bind_eq_ok_iff.mp h
      rcases List.mem_append.mp hnode with hnode | hnode
      · exact own_ok_of_render level (.node id label children) ledger part mid hpart node hnode
      · exact own_ok_of_renderEach level rest mid others last hothers node hnode

theorem own_ok_of_renderEach (level : Nat) : ∀ (trees : List (Tree α)) (ledger : Ledger κ) parts
    after, d.renderEach level trees ledger = .ok parts after → ∀ node ∈ d.writtenEach trees,
      ∃ before own later, d.own node.1 node.2 before = .ok own later
  | [], _, _, _, _, node, hnode => by cases hnode
  | first :: rest, ledger, parts, after, h, node, hnode => by
    rw [renderEach] at h
    obtain ⟨part, mid, hpart, h⟩ := bind_eq_ok_iff.mp h
    obtain ⟨others, last, hothers, -⟩ := bind_eq_ok_iff.mp h
    rw [writtenEach, List.mem_append] at hnode
    rcases hnode with hnode | hnode
    · exact own_ok_of_render level first ledger part mid hpart node hnode
    · exact own_ok_of_renderEach level rest mid others last hothers node hnode

end

theorem own_ok_of_convert {f : Forest α} (hf : f.WellFormed) (hbare : f.BareAt d.inlines)
    (hshown : ∀ label, d.inlines label = true → d.skips label = false) {ledger after : Ledger κ}
    {text : String} (h : d.convert f ledger = .ok text after) :
    ∀ node ∈ d.visited f, ∃ before own later, d.own node.1 node.2 before = .ok own later := by
  rw [convert_eq hf] at h
  obtain ⟨parts, mid, hparts, -⟩ := bind_eq_ok_iff.mp h
  rw [← writtenEach_trees hbare hshown]
  exact own_ok_of_renderEach 0 f.trees ledger parts mid hparts

end TreeNotation.Writing.Dialect
