import TreeNotation.Proofs.Forest.Relabelling
import TreeNotation.Proofs.Forest.Unfolding

/-!
# The Trees of a Forest

A well-formed forest is a row of trees, one for each root. What is known of the nodes of the forest
is known of every node of these trees.

- **Places**: `Tree.visited` lists the nodes of a tree in document order, without those that are left
  out and all that is below them; `Tree.Everywhere` says something of every node and the trees below
  it, and `everywhere_of_unfold` takes it from the forest;
- **Labels**: `Tree.relabelAt` and `Forest.relabelAt` change labels node by node, and
  `trees_relabelAt` says that both come to the same.
-/

namespace TreeNotation

variable {α β : Type}

/-! ## Section 1: Places in a tree -/

namespace Tree

mutual

/-- The nodes of a tree with their labels, in document order, but for the nodes that `skips` leaves
out and all nodes below those. -/
def visited (skips : α → Bool) : Tree α → List (NodeId × α)
  | .node id label children =>
    if skips label then [] else (id, label) :: visitedEach skips children

/-- The nodes of trees side by side, one tree after the other. -/
def visitedEach (skips : α → Bool) : List (Tree α) → List (NodeId × α)
  | [] => []
  | first :: rest => visited skips first ++ visitedEach skips rest

end

/-- `R` is true at every node, of its number, its label and the trees below it. -/
inductive Everywhere (R : NodeId → α → List (Tree α) → Prop) : Tree α → Prop where
  | node {id : NodeId} {label : α} {children : List (Tree α)} (here : R id label children)
      (below : ∀ child ∈ children, Everywhere R child) : Everywhere R (.node id label children)

mutual

/-- The tree with every label replaced, at each node in its own way. -/
def relabelAt (g : NodeId → α → β) : Tree α → Tree β
  | .node id label children => .node id (g id label) (relabelEach g children)

/-- The trees with every label replaced. -/
def relabelEach (g : NodeId → α → β) : List (Tree α) → List (Tree β)
  | [] => []
  | first :: rest => relabelAt g first :: relabelEach g rest

end

variable {R : NodeId → α → List (Tree α) → Prop} {S : NodeId → α → Prop}

theorem Everywhere.at_node {id : NodeId} {label : α} {children : List (Tree α)}
    (h : Everywhere R (.node id label children)) :
    R id label children ∧ ∀ child ∈ children, Everywhere R child := by
  cases h with
  | node here below => exact ⟨here, below⟩

/-- What follows from something that is true at a node is true wherever that is. -/
theorem Everywhere.imp {Q : NodeId → α → List (Tree α) → Prop}
    (hstep : ∀ id label children, R id label children → Q id label children) {tree : Tree α}
    (h : tree.Everywhere R) : tree.Everywhere Q := by
  induction h with
  | node here below ih => exact .node (hstep _ _ _ here) ih

theorem relabelEach_eq_map (g : NodeId → α → β) (trees : List (Tree α)) :
    relabelEach g trees = trees.map (relabelAt g) := by
  induction trees with
  | nil => rfl
  | cons first rest ih => rw [relabelEach, ih, List.map_cons]

mutual

/-- A node that is visited is not left out, and what is true at every node is true there. -/
theorem of_mem_visited (skips : α → Bool) : ∀ tree : Tree α,
    (tree.Everywhere fun id label _ => S id label) → ∀ place ∈ tree.visited skips,
      S place.1 place.2 ∧ skips place.2 = false
  | .node id label children, htrue, place, hplace => by
    rw [visited] at hplace
    split at hplace
    case isTrue => cases hplace
    case isFalse hskips =>
      rcases List.mem_cons.mp hplace with rfl | hplace
      · exact ⟨htrue.at_node.1, Bool.eq_false_iff.mpr hskips⟩
      · exact of_mem_visitedEach skips children htrue.at_node.2 place hplace

theorem of_mem_visitedEach (skips : α → Bool) : ∀ trees : List (Tree α),
    (∀ tree ∈ trees, tree.Everywhere fun id label _ => S id label) →
      ∀ place ∈ visitedEach skips trees, S place.1 place.2 ∧ skips place.2 = false
  | [], _, place, hplace => by cases hplace
  | first :: rest, htrue, place, hplace => by
    rw [visitedEach, List.mem_append] at hplace
    rcases hplace with hplace | hplace
    · exact of_mem_visited skips first (htrue first List.mem_cons_self) place hplace
    · exact of_mem_visitedEach skips rest
        (fun tree htree => htrue tree (List.mem_cons_of_mem _ htree)) place hplace

end

end Tree

namespace Forest

/-! ## Section 2: From the nodes of a forest to those of its trees -/

/-- The trees of a forest, in document order. -/
def trees (f : Forest α) : List (Tree α) := f.rootIds.filterMap f.subtree?

theorem id_of_unfold {f : Forest α} {depth : Nat} {id : NodeId} {tree : Tree α}
    (h : f.unfold depth id = some tree) : tree.id = id := by
  cases depth with
  | zero => cases h
  | succ depth =>
    obtain ⟨_, _, -, -, rfl⟩ := unfold_succ_eq_some_iff.mp h
    rfl

theorem label?_of_unfold {f : Forest α} {depth : Nat} {id : NodeId} {tree : Tree α}
    (h : f.unfold depth id = some tree) : f.label? id = some tree.label := by
  cases depth with
  | zero => cases h
  | succ depth =>
    obtain ⟨node, _, hnode, -, rfl⟩ := unfold_succ_eq_some_iff.mp h
    simp [label?, hnode, Tree.label]

theorem exists_of_mem_mapM {γ δ : Type} {g : γ → Option δ} {as : List γ} {bs : List δ}
    (h : as.mapM g = some bs) {b : δ} (hb : b ∈ bs) : ∃ a ∈ as, g a = some b := by
  replace h := mapM_eq_some_iff_forall₂.mp h
  induction h with
  | nil => cases hb
  | @cons a _ _ _ hfirst _ ih =>
    rcases List.mem_cons.mp hb with rfl | hb
    · exact ⟨a, List.mem_cons_self, hfirst⟩
    · obtain ⟨other, hmem, hother⟩ := ih hb
      exact ⟨other, List.mem_cons_of_mem a hmem, hother⟩

theorem map_id_of_mapM {f : Forest α} {depth : Nat} {ids : List NodeId} {trees : List (Tree α)}
    (h : ids.mapM (f.unfold depth) = some trees) : trees.map Tree.id = ids := by
  replace h := mapM_eq_some_iff_forall₂.mp h
  induction h with
  | nil => rfl
  | cons htree _ ih => rw [List.map_cons, id_of_unfold htree, ih]

theorem mapM_eq_filterMap {γ δ : Type} {g : γ → Option δ} {as : List γ}
    (h : ∀ a ∈ as, (g a).isSome) : as.mapM g = some (as.filterMap g) := by
  induction as with
  | nil => rfl
  | cons a as ih =>
    obtain ⟨b, hb⟩ := Option.isSome_iff_exists.mp (h a List.mem_cons_self)
    rw [List.filterMap_cons_some hb]
    exact mapM_cons_eq_some_iff.mpr
      ⟨b, _, hb, ih fun other hother => h other (List.mem_cons_of_mem a hother), rfl⟩

/-- Every root of a well-formed forest has its tree. -/
theorem mapM_subtree?_rootIds {f : Forest α} (hf : f.WellFormed) :
    f.rootIds.mapM f.subtree? = some f.trees :=
  mapM_eq_filterMap fun root hroot =>
    isSome_subtree? hf (hf.lt_size_of_root root (WellFormed.mem_rootIds.mp hroot))

/-- What is true at every node of a forest, of its number, its label and the trees that its children
unfold into, is true everywhere in the trees of the forest. -/
theorem everywhere_of_unfold {f : Forest α} {R : NodeId → α → List (Tree α) → Prop}
    (hR : ∀ id node depth children, f.node? id = some node →
      node.children.mapM (f.unfold depth) = some children → R id node.label children)
    {depth : Nat} {id : NodeId} {tree : Tree α} (h : f.unfold depth id = some tree) :
    tree.Everywhere R := by
  -- The induction is on the depth, which is one less for the children.
  induction depth generalizing id tree with
  | zero => cases h
  | succ depth ih =>
    obtain ⟨node, children, hnode, hchildren, rfl⟩ := unfold_succ_eq_some_iff.mp h
    refine .node (hR id node depth children hnode hchildren) fun child hchild => ?_
    obtain ⟨other, -, hother⟩ := exists_of_mem_mapM hchildren hchild
    exact ih hother

theorem everywhere_of_mem_trees {f : Forest α} {R : NodeId → α → List (Tree α) → Prop}
    (hR : ∀ id node depth children, f.node? id = some node →
      node.children.mapM (f.unfold depth) = some children → R id node.label children)
    {tree : Tree α} (h : tree ∈ f.trees) : tree.Everywhere R := by
  obtain ⟨root, -, hroot⟩ := List.mem_filterMap.mp h
  exact everywhere_of_unfold hR hroot

/-- Nodes whose label passes the test have no children. -/
def BareAt (test : α → Bool) (f : Forest α) : Prop :=
  ∀ id label, f.label? id = some label → test label = true → f.children id = []

/-! ## Section 3: Labels node by node -/

/-- The forest with every label replaced, at each node in its own way. -/
def relabelAt (g : NodeId → α → β) (f : Forest α) : Forest β :=
  ⟨f.nodes.mapIdx fun id node => node.relabel (g id), f.roots, f.created⟩

section Relabelled

variable {g : NodeId → α → β}

theorem node?_relabelAt (f : Forest α) (id : NodeId) :
    (f.relabelAt g).node? id = (f.node? id).map (Node.relabel (g id)) := by
  simp [relabelAt, node?, Array.getElem?_mapIdx]

theorem size_relabelAt (f : Forest α) : (f.relabelAt g).size = f.size := by
  simp [relabelAt, size]

theorem label?_relabelAt (f : Forest α) (id : NodeId) :
    (f.relabelAt g).label? id = (f.label? id).map (g id) := by
  unfold label?
  rw [node?_relabelAt]
  cases f.node? id <;> rfl

theorem parent?_relabelAt (f : Forest α) (id : NodeId) :
    (f.relabelAt g).parent? id = f.parent? id := by
  unfold parent?
  rw [node?_relabelAt]
  cases f.node? id <;> rfl

theorem children_relabelAt (f : Forest α) (id : NodeId) :
    (f.relabelAt g).children id = f.children id := by
  unfold children
  rw [node?_relabelAt]
  cases f.node? id <;> rfl

theorem rootIds_relabelAt (f : Forest α) : (f.relabelAt g).rootIds = f.rootIds := by
  have hsequence : ∀ id, (f.relabelAt g).sequence id = f.sequence id := by
    intro id
    unfold sequence
    rw [node?_relabelAt]
    cases f.node? id <;> rfl
  simp only [rootIds, hsequence]
  rfl

theorem mapM_relabelled {unfoldBelow : NodeId → Option (Tree α)}
    {unfoldBelow' : NodeId → Option (Tree β)}
    (h : ∀ id, unfoldBelow' id = (unfoldBelow id).map (Tree.relabelAt g)) (ids : List NodeId) :
    ids.mapM unfoldBelow' = (ids.mapM unfoldBelow).map (Tree.relabelEach g) := by
  induction ids with
  | nil => rfl
  | cons id ids ih =>
    rw [List.mapM_cons, List.mapM_cons, h, ih]
    cases unfoldBelow id with
    | none => rfl
    | some tree => cases ids.mapM unfoldBelow <;> rfl

theorem unfold_relabelAt (f : Forest α) (depth : Nat) (id : NodeId) :
    (f.relabelAt g).unfold depth id = (f.unfold depth id).map (Tree.relabelAt g) := by
  induction depth generalizing id with
  | zero => rfl
  | succ depth ih =>
    unfold unfold
    rw [node?_relabelAt]
    cases f.node? id with
    | none => rfl
    | some node =>
      -- The children are the same, and so is the way to unfold them.
      simp only [Option.map_some, bind, Option.bind_some, Node.relabel, mapM_relabelled ih]
      cases node.children.mapM (f.unfold depth) <;> rfl

theorem trees_relabelAt (f : Forest α) :
    (f.relabelAt g).trees = f.trees.map (Tree.relabelAt g) := by
  unfold trees subtree?
  simp only [rootIds_relabelAt, size_relabelAt, unfold_relabelAt]
  rw [List.map_filterMap]

theorem wellFormed_relabelAt {f : Forest α} (hf : f.WellFormed) : (f.relabelAt g).WellFormed := by
  -- Without any labels, the two forests are one.
  have hbare : (f.relabelAt g).relabel (fun _ => ()) = f.relabel fun _ => () := by
    apply ext_node?
    · intro id
      rw [node?_relabel, node?_relabel, node?_relabelAt]
      cases f.node? id <;> rfl
    · rfl
    · rfl
  exact wellFormed_relabel_iff.mp (hbare ▸ wellFormed_relabel_iff.mpr hf)

end Relabelled

end Forest

end TreeNotation
