import TreeNotation.Proofs.Forest.Trees

/-!
# Pruning Forests

A forest is pruned by taking every node that a test finds out of the lists of children and of the
roots. No root leads to such a node any more, nor to what is below it.

- **Trees**: `Tree.pruned` leaves out trees whose topmost node is found; `trees_pruned` says that a
  pruned forest consists of pruned trees;
- **Forests**: `Forest.pruned`, well formed by `WellFormed.pruned`;
- **Operations**: there is no operation that deletes a node, but `removal` puts all that are found
  below a new node that is no root, and `sameTrees_removal` says that this comes to the same.
-/

namespace TreeNotation

variable {α β : Type} {test : α → Bool}

/-! ## Section 1: Pruned trees -/

namespace Tree

mutual

/-- The tree without the nodes below its topmost one that the test finds, and without all that is
below those. -/
def pruned (test : α → Bool) : Tree α → Tree α
  | .node id label children => .node id label (prunedEach test children)

/-- The trees whose topmost node the test does not find, pruned one by one. -/
def prunedEach (test : α → Bool) : List (Tree α) → List (Tree α)
  | [] => []
  | first :: rest =>
    if test first.label then prunedEach test rest else pruned test first :: prunedEach test rest

end

@[simp]
theorem id_pruned (tree : Tree α) : (tree.pruned test).id = tree.id := by
  cases tree
  rfl

@[simp]
theorem label_pruned (tree : Tree α) : (tree.pruned test).label = tree.label := by
  cases tree
  rfl

theorem prunedEach_cons_of_pos {first : Tree α} (h : test first.label = true)
    (rest : List (Tree α)) : prunedEach test (first :: rest) = prunedEach test rest := by
  rw [prunedEach, if_pos h]

theorem prunedEach_cons_of_neg {first : Tree α} (h : ¬ test first.label = true)
    (rest : List (Tree α)) :
    prunedEach test (first :: rest) = first.pruned test :: prunedEach test rest := by
  rw [prunedEach, if_neg h]

end Tree

namespace Forest

variable {f g : Forest α}

/-! ## Section 2: Pruned forests -/

/-- Whether the test finds the node with number `id`. -/
def finds (f : Forest α) (test : α → Bool) (id : NodeId) : Bool := (f.label? id).any test

/-- The nodes of a list that the test does not find. -/
def keptOf (f : Forest α) (test : α → Bool) (ids : List NodeId) : List NodeId :=
  ids.filter fun id => !f.finds test id

/-- The forest in which no node that the test finds is a root or a child. -/
def pruned (f : Forest α) (test : α → Bool) : Forest α where
  nodes := f.nodes.map fun node =>
    { node with
      parent := if test node.label then none else node.parent
      children := f.keptOf test node.children }
  roots := f.keptOf test f.roots
  created := f.created

theorem mem_keptOf {ids : List NodeId} {id : NodeId} :
    id ∈ f.keptOf test ids ↔ id ∈ ids ∧ f.finds test id = false := by
  simp [keptOf]

theorem finds_of_node? {id : NodeId} {node : Node α} (h : f.node? id = some node) :
    f.finds test id = test node.label := by
  simp [finds, label?, h]

theorem node?_pruned (f : Forest α) (test : α → Bool) (id : NodeId) :
    (f.pruned test).node? id = (f.node? id).map fun node =>
      { node with
        parent := if test node.label then none else node.parent
        children := f.keptOf test node.children } := by
  simp [pruned, node?]

@[simp]
theorem size_pruned (f : Forest α) (test : α → Bool) : (f.pruned test).size = f.size := by
  simp [pruned, size]

@[simp]
theorem label?_pruned (f : Forest α) (test : α → Bool) (id : NodeId) :
    (f.pruned test).label? id = f.label? id := by
  unfold label?
  rw [node?_pruned]
  cases f.node? id <;> rfl

@[simp]
theorem sequence_pruned (f : Forest α) (test : α → Bool) (id : NodeId) :
    (f.pruned test).sequence id = f.sequence id := by
  unfold sequence
  rw [node?_pruned]
  cases f.node? id <;> rfl

theorem children_pruned (f : Forest α) (test : α → Bool) (id : NodeId) :
    (f.pruned test).children id = f.keptOf test (f.children id) := by
  unfold children
  rw [node?_pruned]
  cases f.node? id <;> rfl

theorem parent?_pruned (f : Forest α) (test : α → Bool) (id : NodeId) :
    (f.pruned test).parent? id = if f.finds test id then none else f.parent? id := by
  unfold parent?
  rw [node?_pruned]
  cases hnode : f.node? id with
  | none => simp
  | some node =>
    rw [finds_of_node? hnode]
    rfl

/-- Parents and children still agree: a node that is found has left both. -/
theorem WellFormed.pruned (hf : f.WellFormed) (test : α → Bool) : (f.pruned test).WellFormed where
  created_eq := by
    rw [size_pruned]
    exact hf.created_eq
  sequence_eq id h := by
    rw [size_pruned] at h
    rw [sequence_pruned, hf.sequence_eq id h]
  mem_children_iff parent child := by
    rw [children_pruned, mem_keptOf, hf.mem_children_iff, parent?_pruned]
    cases f.finds test child <;> simp
  nodup_children id := by
    rw [children_pruned]
    exact (hf.nodup_children id).filter _
  acyclic id habove := by
    -- Every step along the parents is one that there was.
    have hstep : ∀ parent child,
        (f.pruned test).ParentOf parent child → f.ParentOf parent child := by
      intro parent child hparent
      simp only [ParentOf, parent?_pruned] at hparent ⊢
      split at hparent
      case isTrue => cases hparent
      case isFalse => exact hparent
    exact hf.acyclic id (Relation.TransGen.mono hstep id id habove)
  lt_size_of_root root h := by
    rw [size_pruned]
    exact hf.lt_size_of_root root (mem_keptOf.mp h).1
  parent?_root root h := by
    rw [parent?_pruned, hf.parent?_root root (mem_keptOf.mp h).1, ite_self]
  nodup_roots := hf.nodup_roots.filter _

/-- A node at a place in a pruned forest is none that the test finds. -/
theorem Reached.finds_eq_false {a b : NodeId} (h : Reached (f.pruned test) g a b) :
    f.finds test a = false := by
  cases h with
  | root hroot => exact (mem_keptOf.mp (WellFormed.mem_rootIds.mp (List.of_mem_zip hroot).1)).2
  | child _ hchild =>
    have hmem := (List.of_mem_zip hchild).1
    rw [children_pruned] at hmem
    exact (mem_keptOf.mp hmem).2

/-! ## Section 3: The order of the roots -/

/-- The roots come in the order of their numbers. -/
theorem WellFormed.pairwise_lt_rootIds (hf : f.WellFormed) : f.rootIds.Pairwise (· < ·) := by
  refine hf.pairwise_rootIds.imp_of_mem fun {a b} ha hb h => ?_
  rw [hf.sequence_eq a (hf.lt_size_of_root a (mem_rootIds.mp ha)),
    hf.sequence_eq b (hf.lt_size_of_root b (mem_rootIds.mp hb))] at h
  exact Nat.lt_of_succ_lt_succ h

/-- There is only one way to put the roots in order. -/
theorem WellFormed.rootIds_eq (hf : f.WellFormed) {ids : List NodeId} (hperm : f.roots.Perm ids)
    (hsorted : ids.Pairwise (· < ·)) : f.rootIds = ids := by
  have hids : f.rootIds.Perm ids := (List.mergeSort_perm f.roots _).trans hperm
  exact hids.eq_of_pairwise (fun a b _ _ hab hba => absurd hba (Nat.lt_asymm hab))
    hf.pairwise_lt_rootIds hsorted

theorem rootIds_pruned (hf : f.WellFormed) (test : α → Bool) :
    (f.pruned test).rootIds = f.keptOf test f.rootIds :=
  (hf.pruned test).rootIds_eq ((List.mergeSort_perm f.roots _).symm.filter _)
    (hf.pairwise_lt_rootIds.filter _)

/-! ## Section 4: The trees of a pruned forest -/

theorem mapM_keptOf {unfoldLeft unfoldRight : NodeId → Option (Tree α)}
    (hlabel : ∀ id tree, unfoldLeft id = some tree → f.label? id = some tree.label)
    (hpruned : ∀ id tree, unfoldLeft id = some tree → unfoldRight id = some (tree.pruned test))
    {ids : List NodeId} {trees : List (Tree α)} (h : ids.mapM unfoldLeft = some trees) :
    (f.keptOf test ids).mapM unfoldRight = some (Tree.prunedEach test trees) := by
  replace h := mapM_eq_some_iff_forall₂.mp h
  induction h with
  | nil => rfl
  | @cons id tree _ _ htree _ ih =>
    have hfinds : f.finds test id = test tree.label := by
      rw [finds, hlabel id tree htree, Option.any_some]
    -- The node and its tree go, or both stay.
    cases hfound : test tree.label with
    | true =>
      rw [Tree.prunedEach_cons_of_pos hfound, keptOf,
        List.filter_cons_of_neg (by simp [hfinds, hfound])]
      exact ih
    | false =>
      rw [Tree.prunedEach_cons_of_neg (by simp [hfound]), keptOf,
        List.filter_cons_of_pos (by simp [hfinds, hfound])]
      exact mapM_cons_eq_some_iff.mpr ⟨_, _, hpruned id tree htree, ih, rfl⟩

/-- What unfolds in a forest, unfolds without the nodes that are found in the pruned one. -/
theorem unfold_pruned {depth : Nat} {id : NodeId} {tree : Tree α}
    (h : f.unfold depth id = some tree) :
    (f.pruned test).unfold depth id = some (tree.pruned test) := by
  -- The induction is on the depth, which is one less for the children.
  induction depth generalizing id tree with
  | zero => cases h
  | succ depth ih =>
    obtain ⟨node, children, hnode, hchildren, rfl⟩ := unfold_succ_eq_some_iff.mp h
    have hbelow : (f.keptOf test node.children).mapM ((f.pruned test).unfold depth) =
        some (Tree.prunedEach test children) :=
      mapM_keptOf (fun _ _ => label?_of_unfold) (fun _ _ => ih) hchildren
    rw [unfold_succ_eq_some_iff, node?_pruned, hnode]
    exact ⟨_, _, rfl, hbelow, rfl⟩

theorem trees_pruned (hf : f.WellFormed) (test : α → Bool) :
    (f.pruned test).trees = Tree.prunedEach test f.trees := by
  have hsubtree : ∀ id tree, f.subtree? id = some tree →
      (f.pruned test).subtree? id = some (tree.pruned test) := by
    intro id tree htree
    unfold subtree?
    rw [size_pruned]
    exact unfold_pruned htree
  have htrees := mapM_keptOf (fun _ _ => label?_of_unfold) hsubtree (mapM_subtree?_rootIds hf)
  rw [← rootIds_pruned hf test, mapM_subtree?_rootIds (hf.pruned test)] at htrees
  exact Option.some.inj htrees

/-! ## Section 5: Pruning by operations -/

/-- What becomes of a forest if `gone` are put below a new node that is no root. -/
structure Without (f : Forest α) (gone : List NodeId) (g : Forest α) : Prop where
  wellFormed : g.WellFormed
  size_eq : g.size = f.size + 1
  roots_eq : g.roots = f.roots.filter fun id => id ∉ gone
  parent?_new : g.parent? f.size = none
  label?_eq : ∀ id, id < f.size → g.label? id = f.label? id
  children_eq : ∀ id, id < f.size →
    g.children id = (f.children id).filter fun other => other ∉ gone

/-- A new node by itself. -/
theorem without_push (hf : f.WellFormed) (label : α) : Without f [] (f.push label).2 where
  wellFormed := hf.push label
  size_eq := size_push f label
  roots_eq := by simp [push]
  parent?_new := by rw [parent?_push, WellFormed.parent?_size]
  label?_eq id hid := by
    unfold label?
    rw [node?_push, if_neg (Nat.ne_of_lt hid)]
  children_eq id _ := by simp [children_push]

/-- A child that is moved leaves the one list that it is in. -/
theorem children_of_attached (hg : g.WellFormed) {h : Forest α} {child parent : NodeId}
    (hat : Attached g child parent h) {id : NodeId} (hid : id ≠ parent) :
    h.children id = (g.children id).filter fun other => other ≠ child := by
  rw [hat.children_eq, if_neg hid]
  split
  case isTrue => rfl
  case isFalse hparent =>
    refine (List.filter_eq_self.mpr fun other hother => ?_).symm
    have hne : other ≠ child := by
      rintro rfl
      exact hparent ((hg.mem_children_iff id other).mp hother)
    simp [hne]

/-- The new node has no parent, so any other node may be put below it. -/
theorem Without.attach {gone : List NodeId} (hg : Without f gone g) {child : NodeId}
    (hchild : child < f.size) : Without f (gone ++ [child]) (g.perform (.attach child f.size)) := by
  have hsize : f.size < g.size := by
    rw [hg.size_eq]
    exact Nat.lt_succ_self _
  have hne : f.size ≠ child := (Nat.ne_of_lt hchild).symm
  have hcycle : g.isAncestorOrSelf child f.size = false := by
    simp [isAncestorOrSelf, meets, hne, hg.parent?_new]
  obtain ⟨⟨left, h⟩, hattach⟩ : ∃ result, g.attach child f.size = .ok result :=
    ⟨_, attach_eq_ok_iff.mpr ⟨hsize, Nat.lt_trans hchild hsize, hcycle, rfl, rfl⟩⟩
  have hat := attached_of_attach hattach
  have hperform : g.perform (.attach child f.size) = h := by simp only [perform_attach_eq, hattach]
  rw [hperform]
  exact {
    wellFormed := hperform ▸ hg.wellFormed.perform _
    size_eq := hat.size_eq.trans hg.size_eq
    roots_eq := by
      rw [hat.roots_eq, hg.roots_eq, List.filter_filter]
      simp [and_comm]
    parent?_new := by rw [hat.parent?_eq, if_neg hne, hg.parent?_new]
    label?_eq := fun id hid => by rw [hat.label?_eq, hg.label?_eq id hid]
    children_eq := fun id hid => by
      rw [children_of_attached hg.wellFormed hat (Nat.ne_of_lt hid), hg.children_eq id hid,
        List.filter_filter]
      simp [and_comm] }

theorem Without.attachAll {gone : List NodeId} (hg : Without f gone g) {more : List NodeId}
    (hmore : ∀ id ∈ more, id < f.size) :
    Without f (gone ++ more) (g.performAll (more.map fun id => .attach id f.size)) := by
  -- The induction is on the nodes still to be moved.
  induction more generalizing gone g with
  | nil => simpa [performAll] using hg
  | cons child more ih =>
    obtain ⟨hchild, hmore⟩ := List.forall_mem_cons.mp hmore
    have hnext := ih (hg.attach hchild) hmore
    rw [List.append_assoc, List.singleton_append] at hnext
    exact hnext

/-- The nodes that the test finds. -/
def found (f : Forest α) (test : α → Bool) : List NodeId :=
  (List.range f.size).filter (f.finds test)

/-- The operations that put all nodes that the test finds below a new one with the given label. -/
def removal (f : Forest α) (test : α → Bool) (label : α) : List (Operation α) :=
  .push label :: (f.found test).map fun id => .attach id f.size

theorem without_removal (hf : f.WellFormed) (test : α → Bool) (label : α) :
    Without f (f.found test) (f.performAll (f.removal test label)) :=
  (without_push hf label).attachAll fun _ hid => List.mem_range.mp (List.mem_filter.mp hid).1

/-- Without the nodes that are found, the same nodes are left as in the pruned forest. -/
theorem filter_not_mem_found (ids : List NodeId) (hids : ∀ id ∈ ids, id < f.size) :
    (ids.filter fun id => id ∉ f.found test) = f.keptOf test ids := by
  refine List.filter_congr fun id hid => ?_
  simp [found, hids id hid]

theorem sameTrees_removal (hf : f.WellFormed) (test : α → Bool) (label : α) :
    (f.pruned test).SameTrees id (f.performAll (f.removal test label)) := by
  have hg := without_removal hf test label
  generalize f.performAll (f.removal test label) = g at hg
  have hroots : (f.pruned test).rootIds = g.rootIds := by
    refine (hg.wellFormed.rootIds_eq ?_ (hf.pruned test).pairwise_lt_rootIds).symm
    rw [hg.roots_eq, filter_not_mem_found f.roots hf.lt_size_of_root]
    exact (List.mergeSort_perm (f.pruned test).roots _).symm
  -- Every node that is left keeps its number.
  refine ⟨fun a b => a = b ∧ a < f.size, ?_, ?_, ?_⟩
  · rw [← hroots, List.forall₂_same]
    intro root hroot
    exact ⟨rfl, hf.lt_size_of_root root (mem_keptOf.mp (WellFormed.mem_rootIds.mp hroot)).1⟩
  · rintro a _ ⟨rfl, ha⟩
    rw [label?_pruned, hg.label?_eq a ha]
  · rintro a _ ⟨rfl, ha⟩
    rw [children_pruned, hg.children_eq a ha,
      filter_not_mem_found (f.children a) fun _ => hf.child_lt_size, List.forall₂_same]
    intro child hchild
    exact ⟨rfl, hf.child_lt_size (mem_keptOf.mp hchild).1⟩

/-! ## Section 6: Pruning and labels -/

section Labels

variable (look : α → β) (test : β → Bool) (f : Forest α)

theorem finds_relabel :
    (f.relabel look).finds test = f.finds fun label => test (look label) := by
  funext id
  unfold finds
  rw [label?_relabel, Option.any_map]

theorem found_relabel :
    (f.relabel look).found test = f.found fun label => test (look label) := by
  simp only [found, size_relabel, finds_relabel]

theorem pruned_relabel :
    (f.relabel look).pruned test = (f.pruned fun label => test (look label)).relabel look := by
  have hkept : (f.relabel look).keptOf test = f.keptOf fun label => test (look label) := by
    funext ids
    simp only [keptOf, finds_relabel]
  apply ext_node?
  · intro id
    rw [node?_pruned, node?_relabel, node?_relabel, node?_pruned, hkept]
    cases f.node? id <;> rfl
  · exact congrFun hkept f.roots
  · rfl

end Labels

/-- Labels may be looked at before or after trees are matched. -/
theorem sameTrees_relabel_iff {look : α → β} {f g : Forest α} :
    (f.relabel look).SameTrees id (g.relabel look) ↔ f.SameTrees look g := by
  have hpaired : ∀ pairs, Paired pairs id (f.relabel look) (g.relabel look) ↔
      Paired pairs look f g := by
    intro pairs
    constructor
    · rintro ⟨hroots, hlabel, hchildren⟩
      simp only [rootIds_relabel, label?_relabel, children_relabel, Option.map_id_fun, id_eq]
        at hroots hlabel hchildren
      exact ⟨hroots, hlabel, hchildren⟩
    · rintro ⟨hroots, hlabel, hchildren⟩
      refine ⟨?_, ?_, ?_⟩ <;>
        simpa only [rootIds_relabel, label?_relabel, children_relabel, Option.map_id_fun, id_eq]
  exact exists_congr hpaired

end Forest

end TreeNotation
