import TreeNotation.Forest.Outline
import TreeNotation.Proofs.Forest.Trees

/-!
# Outlines of Well-Formed Forests

The walk that lists a forest takes one node after the other from a stack and puts its children on
top. Nothing in a stack says that this comes to an end, or to every node once; it does because the
nodes on the stack never lie above each other.

- **Walks**: `Walks`, a walk that runs to its end, however many steps that takes; a bounded walk
  lists as much of it as it has steps (`walk_eq_take`);
- **Order**: `Tree.preorder` lists a tree by recursion, and `walks_trees` says that the walk lists
  the trees of a forest in this order;
- **Nodes**: `LiesBelow` counts the levels between two nodes; a walk lists what lies below the stack
  (`Walks.mem_iff`), and every node once (`Walks.nodup`), and so does each tree (`mem_preorder_iff`,
  `nodup_preorder`).
-/

namespace TreeNotation

variable {α : Type}

/-! ## Section 1: Walks -/

namespace Forest

/-- The children of a node with their depth, if the node is `depth` deep. -/
def childrenAt (f : Forest α) (id : NodeId) (depth : Nat) : List (NodeId × Nat) :=
  (f.children id).map fun child => (child, depth + 1)

/-- From a stack the walk runs to its end and lists the entries on its way. -/
inductive Walks (f : Forest α) : List (NodeId × Nat) → List (NodeId × Nat) → Prop where
  /-- Nothing is left on the stack. -/
  | done : f.Walks [] []
  /-- The node on top is listed, and its children take its place. -/
  | visit {id : NodeId} {depth : Nat} {stack entries : List (NodeId × Nat)}
      (later : f.Walks (f.childrenAt id depth ++ stack) entries) :
      f.Walks ((id, depth) :: stack) ((id, depth) :: entries)

/-- A walk with a bound on its steps lists the first entries of the walk without one. -/
theorem Walks.walk_eq_take {f : Forest α} {stack entries : List (NodeId × Nat)}
    (h : f.Walks stack entries) (steps : Nat) : f.walk steps stack = entries.take steps := by
  -- The induction is on the walk, which uses up one step for each entry.
  induction h generalizing steps with
  | done => cases steps <;> simp [walk]
  | visit later ih =>
    cases steps with
    | zero => simp [walk]
    | succ steps =>
      rw [walk, List.take_succ_cons, ← ih steps]
      rfl

end Forest

/-! ## Section 2: Preorder -/

namespace Tree

mutual

/-- The nodes of a tree with their depths, each before the nodes below it; the topmost one is
`depth` deep. -/
def preorder (depth : Nat) : Tree α → List (NodeId × Nat)
  | .node id _ children => (id, depth) :: preorderEach (depth + 1) children

/-- The nodes of trees side by side, one tree after the other. -/
def preorderEach (depth : Nat) : List (Tree α) → List (NodeId × Nat)
  | [] => []
  | first :: rest => preorder depth first ++ preorderEach depth rest

end

end Tree

namespace Forest

variable {f : Forest α}

/-- If the walk lists the trees of single nodes in preorder, then those of nodes side by side. -/
theorem walks_of_mapM {unfoldOne : NodeId → Option (Tree α)} {depth : Nat}
    (hone : ∀ id tree stack entries, unfoldOne id = some tree → f.Walks stack entries →
      f.Walks ((id, depth) :: stack) (tree.preorder depth ++ entries))
    {ids : List NodeId} {trees : List (Tree α)} (h : ids.mapM unfoldOne = some trees)
    {stack entries : List (NodeId × Nat)} (hlater : f.Walks stack entries) :
    f.Walks (ids.map (fun id => (id, depth)) ++ stack)
      (Tree.preorderEach depth trees ++ entries) := by
  replace h := mapM_eq_some_iff_forall₂.mp h
  induction h with
  | nil => simpa [Tree.preorderEach] using hlater
  | cons htree _ ih =>
    have hwalk := hone _ _ _ _ htree ih
    simpa [Tree.preorderEach] using hwalk

/-- The walk lists the tree of the node on top, and goes on as if the node had not been there. -/
theorem walks_of_unfold {levels : Nat} {id : NodeId} {tree : Tree α}
    (h : f.unfold levels id = some tree) (depth : Nat) {stack entries : List (NodeId × Nat)}
    (hlater : f.Walks stack entries) :
    f.Walks ((id, depth) :: stack) (tree.preorder depth ++ entries) := by
  -- The induction is on the levels to which the node is unfolded.
  induction levels generalizing id tree depth stack entries with
  | zero => cases h
  | succ levels ih =>
    obtain ⟨node, trees, hnode, htrees, rfl⟩ := unfold_succ_eq_some_iff.mp h
    have hbelow := walks_of_mapM (fun _ _ _ _ htree => ih htree (depth + 1)) htrees hlater
    rw [Tree.preorder, List.cons_append]
    apply Walks.visit
    simpa [childrenAt, children, hnode] using hbelow

/-- The walk from the roots lists the trees of the forest in preorder. -/
theorem walks_trees (hf : f.WellFormed) :
    f.Walks (f.rootIds.map fun id => (id, 0)) (Tree.preorderEach 0 f.trees) := by
  have hwalk := walks_of_mapM (fun _ _ _ _ htree => walks_of_unfold htree 0)
    (mapM_subtree?_rootIds hf) Walks.done
  simpa using hwalk

/-! ## Section 3: Nodes -/

/-- `id` lies so many levels below `top`: it is the node itself, or lies one level less below a
child of it. -/
def LiesBelow (f : Forest α) : Nat → NodeId → NodeId → Prop
  | 0, top, id => id = top
  | levels + 1, top, id => ∃ child ∈ f.children top, f.LiesBelow levels child id

theorem LiesBelow.snoc {levels : Nat} {top parent id : NodeId} (h : f.LiesBelow levels top parent)
    (hid : id ∈ f.children parent) : f.LiesBelow (levels + 1) top id := by
  induction levels generalizing top with
  | zero =>
    obtain rfl := h
    exact ⟨id, hid, rfl⟩
  | succ levels ih =>
    obtain ⟨child, hchild, hbelow⟩ := h
    exact ⟨child, hchild, ih hbelow⟩

/-- The nodes that lie below another one, or are that node, are those that it lies above. -/
theorem aboveOrSelf_iff_liesBelow (hf : f.WellFormed) {top id : NodeId} :
    f.AboveOrSelf top id ↔ ∃ levels, f.LiesBelow levels top id := by
  constructor
  · intro h
    induction h with
    | refl => exact ⟨0, rfl⟩
    | tail _ hparent ih =>
      obtain ⟨levels, hbelow⟩ := ih
      exact ⟨levels + 1, hbelow.snoc ((hf.mem_children_iff _ _).mpr hparent)⟩
  · intro h
    obtain ⟨levels, hbelow⟩ := h
    induction levels generalizing top with
    | zero =>
      obtain rfl := hbelow
      exact .refl
    | succ levels ih =>
      obtain ⟨child, hchild, hlater⟩ := hbelow
      exact (ih hlater).head ((hf.mem_children_iff _ _).mp hchild)

/-- A walk lists the nodes on its stack and all that lie below them, each at its depth. -/
theorem Walks.mem_iff {stack entries : List (NodeId × Nat)} (h : f.Walks stack entries)
    {id : NodeId} {depth : Nat} :
    (id, depth) ∈ entries ↔
      ∃ top ∈ stack, ∃ levels, depth = top.2 + levels ∧ f.LiesBelow levels top.1 id := by
  induction h with
  | done => simp
  | @visit top depth' stack entries later ih =>
    -- A node below the one on top is that node itself or lies below one of its children.
    have hbelow : (∃ levels, depth = depth' + levels ∧ f.LiesBelow levels top id) ↔
        (id, depth) = (top, depth') ∨ ∃ entry ∈ f.childrenAt top depth', ∃ levels,
          depth = entry.2 + levels ∧ f.LiesBelow levels entry.1 id := by
      constructor
      · intro hlies
        obtain ⟨levels, rfl, hlies⟩ := hlies
        cases levels with
        | zero =>
          obtain rfl := hlies
          exact .inl rfl
        | succ levels =>
          obtain ⟨child, hchild, hlies⟩ := hlies
          exact .inr ⟨_, List.mem_map_of_mem hchild, levels, by omega, hlies⟩
      · intro hcase
        rcases hcase with heq | ⟨entry, hentry, levels, rfl, hlies⟩
        · cases heq
          exact ⟨0, rfl, rfl⟩
        · obtain ⟨child, hchild, rfl⟩ := List.mem_map.mp hentry
          exact ⟨levels + 1, by omega, child, hchild, hlies⟩
    simp only [List.mem_cons, ih, List.mem_append, or_and_right, exists_or, exists_eq_left, hbelow,
      or_assoc]

theorem Walks.mem_map_iff (hf : f.WellFormed) {stack entries : List (NodeId × Nat)}
    (h : f.Walks stack entries) {id : NodeId} :
    id ∈ entries.map Prod.fst ↔ ∃ top ∈ stack.map Prod.fst, f.AboveOrSelf top id := by
  simp only [List.mem_map, Prod.exists, exists_and_right, exists_eq_right, h.mem_iff,
    aboveOrSelf_iff_liesBelow hf]
  constructor
  · intro hlisted
    obtain ⟨_, top, depth, htop, levels, -, hlies⟩ := hlisted
    exact ⟨top, ⟨depth, htop⟩, levels, hlies⟩
  · intro hlies
    obtain ⟨top, ⟨depth, htop⟩, levels, hlies⟩ := hlies
    exact ⟨_, top, depth, htop, levels, rfl, hlies⟩

/-- What lies above a child other than the child itself lies above the parent or is the parent. -/
theorem aboveOrSelf_child_iff (hf : f.WellFormed) {parent child other : NodeId}
    (hchild : child ∈ f.children parent) :
    f.AboveOrSelf other child ↔ child = other ∨ f.AboveOrSelf other parent := by
  have hparent : f.parent? child = some parent := (hf.mem_children_iff _ _).mp hchild
  rw [aboveOrSelf_iff, hparent]
  simp

theorem not_aboveOrSelf_parent (hf : f.WellFormed) {parent child : NodeId}
    (hchild : child ∈ f.children parent) : ¬ f.AboveOrSelf child parent := by
  intro h
  exact hf.acyclic child (Relation.TransGen.tail' h ((hf.mem_children_iff _ _).mp hchild))

/-- Neither of two nodes is the other one or lies above it. -/
def Beside (f : Forest α) (a b : NodeId) : Prop := ¬ f.AboveOrSelf a b ∧ ¬ f.AboveOrSelf b a

theorem beside_of_roots (hf : f.WellFormed) {a b : NodeId} (ha : a ∈ f.rootIds)
    (hb : b ∈ f.rootIds) (hne : a ≠ b) : f.Beside a b := by
  -- Nothing lies above a root but the root itself.
  have htop : ∀ root ∈ f.rootIds, ∀ above, f.AboveOrSelf above root → root = above := by
    intro root hroot above habove
    have hparent := hf.parent?_root root (WellFormed.mem_rootIds.mp hroot)
    simpa [hparent] using aboveOrSelf_iff.mp habove
  exact ⟨fun h => hne (htop b hb a h).symm, fun h => hne (htop a ha b h)⟩

theorem beside_of_children (hf : f.WellFormed) {parent a b : NodeId} (ha : a ∈ f.children parent)
    (hb : b ∈ f.children parent) (hne : a ≠ b) : f.Beside a b := by
  have ha' := not_aboveOrSelf_parent hf ha
  have hb' := not_aboveOrSelf_parent hf hb
  constructor
  · simp [aboveOrSelf_child_iff hf hb, ha', hne.symm]
  · simp [aboveOrSelf_child_iff hf ha, hb', hne]

/-- A child of a node lies beside all that the node lies beside. -/
theorem Beside.child (hf : f.WellFormed) {parent child other : NodeId} (h : f.Beside parent other)
    (hchild : child ∈ f.children parent) : f.Beside child other := by
  have habove : f.AboveOrSelf parent child := by
    rw [aboveOrSelf_child_iff hf hchild]
    exact .inr .refl
  constructor
  · intro hother
    exact h.1 (habove.trans hother)
  · rw [aboveOrSelf_child_iff hf hchild, not_or]
    refine ⟨?_, h.2⟩
    rintro rfl
    exact h.1 habove

/-- If the nodes on the stack lie beside each other, the walk lists no node twice. -/
theorem Walks.nodup (hf : f.WellFormed) {stack entries : List (NodeId × Nat)}
    (h : f.Walks stack entries) (hstack : (stack.map Prod.fst).Pairwise f.Beside) :
    (entries.map Prod.fst).Nodup := by
  -- The induction is on the walk. Children on top of the stack lie beside each other and beside all
  -- that the node that has been there lay beside.
  induction h with
  | done => exact List.nodup_nil
  | @visit id depth stack entries later ih =>
    rw [List.map_cons, List.pairwise_cons] at hstack
    obtain ⟨hfirst, hothers⟩ := hstack
    have hmap : (f.childrenAt id depth).map Prod.fst = f.children id := by
      simp [childrenAt, Function.comp_def]
    have hpairwise : ((f.childrenAt id depth ++ stack).map Prod.fst).Pairwise f.Beside := by
      rw [List.map_append, hmap, List.pairwise_append]
      refine ⟨?_, hothers, fun child hchild other hother => (hfirst other hother).child hf hchild⟩
      exact (hf.nodup_children id).imp_of_mem fun ha hb hne => beside_of_children hf ha hb hne
    have hnew : id ∉ entries.map Prod.fst := by
      rw [later.mem_map_iff hf, List.map_append, hmap]
      intro h
      obtain ⟨top, htop, habove⟩ := h
      rcases List.mem_append.mp htop with hchild | hother
      · exact not_aboveOrSelf_parent hf hchild habove
      · exact (hfirst top hother).2 habove
    rw [List.map_cons, List.nodup_cons]
    exact ⟨hnew, ih hpairwise⟩

/-! ## Section 4: The nodes of a tree -/

/-- The tree of a node lists no node twice. -/
theorem nodup_preorder (hf : f.WellFormed) {levels : Nat} {id : NodeId} {tree : Tree α}
    (h : f.unfold levels id = some tree) (depth : Nat) :
    ((tree.preorder depth).map Prod.fst).Nodup := by
  have hnodup := (walks_of_unfold h depth Walks.done).nodup hf (List.pairwise_singleton _ id)
  rwa [List.append_nil] at hnodup

/-- The tree of a node lists this node and all nodes below it. -/
theorem mem_preorder_iff (hf : f.WellFormed) {levels : Nat} {id : NodeId} {tree : Tree α}
    (h : f.unfold levels id = some tree) (depth : Nat) {other : NodeId} :
    other ∈ (tree.preorder depth).map Prod.fst ↔ f.AboveOrSelf id other := by
  have hwalk := walks_of_unfold h depth Walks.done
  rw [List.append_nil] at hwalk
  rw [hwalk.mem_map_iff hf]
  simp

end Forest

end TreeNotation
