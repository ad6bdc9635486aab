import TreeNotation.Proofs.Forest.Pruning

/-!
# Attaching Nodes

What becomes of a well-formed forest when a node is to be attached below another one, for any two
numbers.

- **Refusals**: `Refused`, the three reasons in the order in which they are looked for;
- **Moves**: `Joined`, what a move changes and that it changes nothing else; the tree below the node
  moves along (`subtree?_of_attached`);
- **Rule**: `Attaching` puts refusals, moves and nodes that stay together, and
  `WellFormed.attaching` says that attaching is like that.
-/

namespace TreeNotation.Forest

variable {α β : Type} {f g : Forest α} {child parent : NodeId}

/-! ## Section 1: Refusals -/

/-- Why `child` is not attached below `parent`: one of them is missing, the parent first, or
`child` is the parent or lies above it. -/
inductive Refused (f : Forest α) (child parent : NodeId) : Error → Prop where
  | missingParent (hparent : f.node? parent = none) :
    Refused f child parent (.structural parent .absent)
  | missingChild (hparent : (f.node? parent).isSome) (hchild : f.node? child = none) :
    Refused f child parent (.structural child .absent)
  | cycle (hparent : (f.node? parent).isSome) (hchild : (f.node? child).isSome)
    (habove : f.AboveOrSelf child parent) :
    Refused f child parent (.structural child (.cycle parent))

theorem node?_eq_none_iff {id : NodeId} : f.node? id = none ↔ ¬ id < f.size := by
  rw [← isSome_node?_iff, Bool.not_eq_true, Option.isSome_eq_false_iff, Option.isNone_iff_eq_none]

/-- Attaching fails for these reasons, and for no others. -/
theorem WellFormed.attach_eq_error_iff (hf : f.WellFormed) {e : Error} :
    f.attach child parent = .error e ↔ Refused f child parent e := by
  rw [attach_eq]
  constructor
  · intro h
    -- One case for each check, in the order in which they are made.
    dsimp only at h
    split at h
    case isFalse hparent =>
      cases h
      exact .missingParent (node?_eq_none_iff.mpr hparent)
    case isTrue hparent =>
      split at h
      case isFalse hchild =>
        cases h
        exact .missingChild (isSome_node?_iff.mpr hparent) (node?_eq_none_iff.mpr hchild)
      case isTrue hchild =>
        split at h
        case isFalse => cases h
        case isTrue hcycle =>
          cases h
          exact .cycle (isSome_node?_iff.mpr hparent) (isSome_node?_iff.mpr hchild)
            ((isAncestorOrSelf_iff hf.acyclic).mp hcycle)
  · intro h
    cases h with
    | missingParent hparent => rw [if_neg (node?_eq_none_iff.mp hparent)]
    | missingChild hparent hchild =>
      rw [if_pos (isSome_node?_iff.mp hparent), if_neg (node?_eq_none_iff.mp hchild)]
    | cycle hparent hchild habove =>
      rw [if_pos (isSome_node?_iff.mp hparent), if_pos (isSome_node?_iff.mp hchild),
        if_pos ((isAncestorOrSelf_iff hf.acyclic).mpr habove)]

/-! ## Section 2: Moves -/

/-- What has become of a forest in which `child` has been put below `parent`, which was not its
parent before. -/
structure Joined (f : Forest α) (child parent : NodeId) (g : Forest α) : Prop where
  size_eq : g.size = f.size
  created_eq : g.created = f.created
  roots_eq : g.roots = f.roots.filter fun id => id ≠ child
  rootIds_eq : g.rootIds = f.rootIds.filter fun id => id ≠ child
  node?_child : g.node? child = (f.node? child).map fun node => { node with parent := some parent }
  node?_parent : g.node? parent =
    (f.node? parent).map fun node => { node with children := node.children ++ [child] }
  /-- The node that the child leaves keeps its other children in their order. -/
  node?_old : ∀ old, f.parent? child = some old → g.node? old =
    (f.node? old).map fun node =>
      { node with children := node.children.filter fun id => id ≠ child }
  node?_other : ∀ id, id ≠ child → id ≠ parent → f.parent? child ≠ some id →
    g.node? id = f.node? id
  /-- The tree below the child moves along. -/
  subtree?_child : ∃ tree, f.subtree? child = some tree ∧ g.subtree? child = some tree

theorem mapM_eq_some_of_forall {γ δ : Type} {first second : γ → Option δ} {as : List γ}
    {bs : List δ} (h : ∀ a ∈ as, ∀ b, first a = some b → second a = some b)
    (hfirst : as.mapM first = some bs) : as.mapM second = some bs := by
  induction as generalizing bs with
  | nil => exact hfirst
  | cons a as ih =>
    obtain ⟨b, rest, hb, hrest, rfl⟩ := mapM_cons_eq_some_iff.mp hfirst
    exact mapM_cons_eq_some_iff.mpr ⟨b, rest, h a List.mem_cons_self b hb,
      ih (fun other hother => h other (List.mem_cons_of_mem a hother)) hrest, rfl⟩

/-- A node unfolds into the same tree in two forests that agree on it and on all nodes below it. -/
theorem unfold_eq_some_of_agree (hf : f.WellFormed) {id : NodeId}
    (hagree : ∀ other, f.AboveOrSelf id other →
      g.label? other = f.label? other ∧ g.children other = f.children other)
    {depth : Nat} {tree : Tree α} (h : f.unfold depth id = some tree) :
    g.unfold depth id = some tree := by
  -- The induction is on the depth. What lies below a child lies below the node.
  induction depth generalizing id tree with
  | zero => cases h
  | succ depth ih =>
    obtain ⟨node, trees, hnode, htrees, rfl⟩ := unfold_succ_eq_some_iff.mp h
    obtain ⟨hlabel, hchildren⟩ := hagree id Relation.ReflTransGen.refl
    rw [label?, label?, hnode, Option.map_some] at hlabel
    obtain ⟨node', hnode', hlabel'⟩ := Option.map_eq_some_iff.mp hlabel
    simp only [children, hnode, hnode', Option.elim_some] at hchildren
    refine unfold_succ_eq_some_iff.mpr ⟨node', trees, hnode', ?_, by rw [hlabel']⟩
    rw [hchildren]
    refine mapM_eq_some_of_forall (fun other hother below hbelow => ?_) htrees
    have hparent : f.ParentOf id other := by
      rw [ParentOf, ← hf.mem_children_iff, children, hnode, Option.elim_some]
      exact hother
    exact ih (fun last hlast => hagree last (hlast.head hparent)) hbelow

/-- No node below the child that is attached has another label or other children than before. -/
theorem subtree?_of_attached (hf : f.WellFormed) (hg : Attached f child parent g)
    (hcycle : ¬ f.AboveOrSelf child parent) {tree : Tree α} (h : f.subtree? child = some tree) :
    g.subtree? child = some tree := by
  unfold subtree? at h ⊢
  rw [hg.size_eq]
  refine unfold_eq_some_of_agree hf (fun other habove => ⟨hg.label?_eq other, ?_⟩) h
  have hparent : other ≠ parent := fun heq => hcycle (heq ▸ habove)
  have hold : f.parent? child ≠ some other := fun hold =>
    hf.acyclic child (Relation.TransGen.tail' habove hold)
  rw [hg.children_eq, if_neg hparent, if_neg hold]

theorem WellFormed.joined (hf : f.WellFormed) {left : Option NodeId}
    (hattach : f.attach child parent = .ok (left, g)) (hmove : f.parent? child ≠ some parent) :
    left = f.parent? child ∧ Joined f child parent g := by
  have hg := attached_of_attach hattach
  obtain ⟨-, hchild, hsearch, hleft, hmoved⟩ := attach_eq_ok_iff.mp hattach
  have hcycle : ¬ f.AboveOrSelf child parent := by
    rw [← isAncestorOrSelf_iff hf.acyclic, hsearch]
    exact Bool.false_ne_true
  have hwell : g.WellFormed := hf.attached hg hcycle
  -- The three nodes that change are three different ones.
  have hne : parent ≠ child := fun heq => hcycle (heq ▸ Relation.ReflTransGen.refl)
  have hself : f.parent? child ≠ some child := fun h =>
    hf.acyclic child (Relation.TransGen.single h)
  have hold : left = f.parent? child := by
    rw [hleft]
    cases hparent : f.parent? child with
    | none => rfl
    | some old =>
      have hnew : old ≠ parent := fun heq => hmove (heq ▸ hparent)
      exact if_pos (decide_eq_true hnew)
  have hnode := fun id => hmoved ▸ node?_moved f child parent id left
  rw [hold] at hnode
  refine ⟨hold, hg.size_eq, hg.created_eq, hg.roots_eq, ?_, ?_, ?_, ?_, ?_, ?_⟩
  · apply hwell.rootIds_eq
    · rw [hg.roots_eq]
      exact (List.mergeSort_perm f.roots _).symm.filter _
    · exact hf.pairwise_lt_rootIds.filter _
  · rw [hnode]
    simp only [if_neg hself, if_neg hne.symm, if_true]
  · -- The child is in no list but that of its old parent.
    rw [hnode]
    cases hparent : f.node? parent with
    | none => rfl
    | some node =>
      have hnew : child ∉ node.children := by
        have hmem := hf.mem_children_iff parent child
        rw [children, hparent, Option.elim_some] at hmem
        exact fun h => hmove (hmem.mp h)
      simp only [Option.map_some, if_neg hmove, if_neg hne, if_true, if_neg hnew]
  · intro old h
    rw [hnode]
    have hnew : old ≠ parent := fun heq => hmove (heq ▸ h)
    have hother : old ≠ child := fun heq => hself (heq ▸ h)
    simp only [if_pos h, if_neg hnew, if_neg hother]
  · intro id hother hnew hkept
    rw [hnode]
    simp only [if_neg hother, if_neg hnew, if_neg hkept]
    exact Option.map_id'
  · obtain ⟨tree, htree⟩ := Option.isSome_iff_exists.mp (isSome_subtree? hf hchild)
    exact ⟨tree, htree, subtree?_of_attached hf hg hcycle htree⟩

/-! ## Section 3: The rule -/

/-- What an attempt to attach `child` below `parent` is answered with, and the forest `after` it.
`reply` is what the answer makes of the parent that the child has been taken from. -/
structure Attaching (reply : Option NodeId → β) (f : Forest α) (child parent : NodeId)
    (answer : Except Error β) (after : Forest α) : Prop where
  eq_error_iff : ∀ e, answer = .error e ↔ Refused f child parent e
  of_refused : ∀ e, Refused f child parent e → after = f
  stays : (∀ e, ¬ Refused f child parent e) → f.parent? child = some parent →
    answer = .ok (reply none) ∧ after = f
  moves : (∀ e, ¬ Refused f child parent e) → f.parent? child ≠ some parent →
    answer = .ok (reply (f.parent? child)) ∧ Joined f child parent after

/-- The rule does not depend on how much of the parent that a child has left is told. -/
theorem Attaching.map {answer : Except Error (Option NodeId)} {after : Forest α}
    (h : Attaching id f child parent answer after) (reply : Option NodeId → β) :
    Attaching reply f child parent (answer.map reply) after where
  eq_error_iff e := by
    rw [← h.eq_error_iff]
    cases answer <;> simp [Except.map]
  of_refused := h.of_refused
  stays hallowed hparent := by
    obtain ⟨hanswer, hafter⟩ := h.stays hallowed hparent
    exact ⟨by rw [hanswer]; rfl, hafter⟩
  moves hallowed hparent := by
    obtain ⟨hanswer, hafter⟩ := h.moves hallowed hparent
    exact ⟨by rw [hanswer]; rfl, hafter⟩

/-- A child that is attached where it is stays there. -/
theorem WellFormed.moved_none (hf : f.WellFormed) (hparent : f.parent? child = some parent) :
    f.moved child parent none = f := by
  have hmem := (hf.mem_children_iff parent child).mpr hparent
  refine ext_node? (fun id => ?_) ?_ rfl
  · rw [node?_moved]
    cases hnode : f.node? id with
    | none => rfl
    | some node =>
      have habove : (if id = child then some parent else node.parent) = node.parent := by
        split
        case isTrue hid => rw [← hparent, ← hid, parent?, hnode, Option.bind_some]
        case isFalse => rfl
      have hbelow : (if id = parent then
          if child ∈ node.children then node.children else node.children ++ [child]
          else node.children) = node.children := by
        split
        case isTrue hid =>
          rw [← hid, children, hnode, Option.elim_some] at hmem
          exact if_pos hmem
        case isFalse => rfl
      simp only [Option.map_some, reduceCtorEq, if_false, habove, hbelow]
  · -- A node with a parent is no root.
    refine List.filter_eq_self.mpr fun root hroot => decide_eq_true fun heq => ?_
    rw [← heq, hf.parent?_root root hroot] at hparent
    cases hparent

theorem WellFormed.attaching (hf : f.WellFormed) (child parent : NodeId) :
    Attaching id f child parent ((f.attach child parent).map Prod.fst)
      (f.perform (.attach child parent)) := by
  rw [perform_attach_eq]
  cases hattach : f.attach child parent with
  | error e =>
    have hrefused := hf.attach_eq_error_iff.mp hattach
    refine ⟨fun other => ?_, fun _ _ => rfl, fun h => absurd hrefused (h e), fun h =>
      absurd hrefused (h e)⟩
    rw [← hf.attach_eq_error_iff, hattach]
    simp [Except.map]
  | ok result =>
    obtain ⟨left, g⟩ := result
    have hallowed : ∀ e, ¬ Refused f child parent e := by
      intro e hrefused
      rw [hf.attach_eq_error_iff.mpr hrefused] at hattach
      cases hattach
    refine ⟨fun e => iff_of_false (by simp [Except.map]) (hallowed e), fun e h =>
      absurd h (hallowed e), fun _ hparent => ?_, fun _ hmove => ?_⟩
    · obtain ⟨-, -, -, hleft, hmoved⟩ := attach_eq_ok_iff.mp hattach
      have hnone : left = none := by rw [hleft, hparent]; simp [Option.filter]
      rw [hnone, hf.moved_none hparent] at hmoved
      exact ⟨by rw [hnone]; rfl, hmoved⟩
    · obtain ⟨hleft, hjoined⟩ := hf.joined hattach hmove
      exact ⟨by rw [hleft]; rfl, hjoined⟩

end TreeNotation.Forest
