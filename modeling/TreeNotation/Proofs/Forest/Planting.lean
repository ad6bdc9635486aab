import TreeNotation.Proofs.Writing.Sketch

/-!
# Planting Trees in Forests

A tree is planted in a forest by creating its nodes one after the other, each below its parent, which
has been created before. Nothing else in the forest changes.

- **Invariant**: `Planted` says what a forest has become by planting a row of trees below a node;
- **Steps**: `planted_push` and `exists_attach`, one new node without or with a parent;
- **Runs**: `Planted.append` for trees side by side, `Planted.below` for trees below a new node;
- **Reading back**: `subtree?_eq_of_isTreeOf`; a tree that is found in a forest is the one that its
  topmost node unfolds into.
-/

namespace TreeNotation

/-! ## Section 1: Trees in a forest -/

namespace Tree

variable {α : Type}

mutual

/-- How many nodes a tree has. -/
def count : Tree α → Nat
  | .node _ _ children => countEach children + 1

/-- How many nodes trees side by side have. -/
def countEach : List (Tree α) → Nat
  | [] => 0
  | first :: rest => count first + countEach rest

end

theorem countEach_append (trees others : List (Tree α)) :
    countEach (trees ++ others) = countEach trees + countEach others := by
  induction trees with
  | nil => exact (Nat.zero_add _).symm
  | cons first rest ih => rw [List.cons_append, countEach, countEach, ih, Nat.add_assoc]

theorem countEach_singleton (tree : Tree α) : countEach [tree] = tree.count := rfl

end Tree

namespace Forest

open Writing.Dialect (IsTreeOf)

variable {α : Type} {f g h : Forest α}

/-- The forest `g` is `f` with a row of trees behind the other children of `parent`, or with trees
that have no parent. -/
structure Planted (f : Forest α) (parent : Option NodeId) (trees : List (Tree α)) (g : Forest α) :
    Prop where
  wellFormed : g.WellFormed
  size_eq : g.size = f.size + Tree.countEach trees
  roots_eq : g.roots = f.roots
  label?_eq : ∀ id, id < f.size → g.label? id = f.label? id
  parent?_eq : ∀ id, id < f.size → g.parent? id = f.parent? id
  children_eq : ∀ id, id < f.size →
    g.children id = f.children id ++ if parent = some id then trees.map Tree.id else []
  /-- All nodes of the trees are new. -/
  everywhere : ∀ tree ∈ trees, tree.Everywhere fun id label children =>
    f.size ≤ id ∧ g.label? id = some label ∧ g.children id = children.map Tree.id
  parent?_top : ∀ tree ∈ trees, g.parent? tree.id = parent

/-- What is everywhere in a tree is true of its topmost node. -/
theorem at_top {R : NodeId → α → List (Tree α) → Prop} {tree : Tree α} (htree : tree.Everywhere R) :
    R tree.id tree.label tree.children := by
  cases htree with
  | node here _ => exact here

namespace Planted

variable {parent : Option NodeId} {trees : List (Tree α)}

theorem size_le (hg : Planted f parent trees g) : f.size ≤ g.size := by
  rw [hg.size_eq]
  exact Nat.le_add_right _ _

theorem isTreeOf (hg : Planted f parent trees g) {tree : Tree α} (htree : tree ∈ trees) :
    IsTreeOf g tree :=
  (hg.everywhere tree htree).imp fun _ _ _ here => here.2

/-- Planting no trees changes nothing. -/
theorem refl (hf : f.WellFormed) (parent : Option NodeId) : Planted f parent [] f where
  wellFormed := hf
  size_eq := rfl
  roots_eq := rfl
  label?_eq _ _ := rfl
  parent?_eq _ _ := rfl
  children_eq id _ := by simp
  everywhere _ htree := absurd htree List.not_mem_nil
  parent?_top _ htree := absurd htree List.not_mem_nil

/-- More trees behind the ones that have been planted. -/
theorem append {others : List (Tree α)} (hg : Planted f parent trees g)
    (hh : Planted g parent others h) (hparent : ∀ id, parent = some id → id < f.size) :
    Planted f parent (trees ++ others) h where
  wellFormed := hh.wellFormed
  size_eq := by rw [hh.size_eq, hg.size_eq, Tree.countEach_append, Nat.add_assoc]
  roots_eq := hh.roots_eq.trans hg.roots_eq
  label?_eq id hid := (hh.label?_eq id (Nat.lt_of_lt_of_le hid hg.size_le)).trans
    (hg.label?_eq id hid)
  parent?_eq id hid := (hh.parent?_eq id (Nat.lt_of_lt_of_le hid hg.size_le)).trans
    (hg.parent?_eq id hid)
  children_eq id hid := by
    rw [hh.children_eq id (Nat.lt_of_lt_of_le hid hg.size_le), hg.children_eq id hid]
    split <;> simp
  everywhere tree htree := by
    rcases List.mem_append.mp htree with htree | htree
    · refine (hg.everywhere tree htree).imp fun id label children here => ?_
      obtain ⟨hnew, hlabel, hchildren⟩ := here
      have hid := lt_size_of_label? hlabel
      -- The parent is an older node than those of the trees.
      have hother : parent ≠ some id := fun heq =>
        Nat.not_lt.mpr hnew (hparent id heq)
      refine ⟨hnew, by rw [hh.label?_eq id hid, hlabel], ?_⟩
      rw [hh.children_eq id hid, if_neg hother, List.append_nil, hchildren]
    · refine (hh.everywhere tree htree).imp fun id label children here => ?_
      exact ⟨Nat.le_trans hg.size_le here.1, here.2⟩
  parent?_top tree htree := by
    rcases List.mem_append.mp htree with htree | htree
    · have hid := lt_size_of_label? (at_top (hg.everywhere tree htree)).2.1
      rw [hh.parent?_eq tree.id hid, hg.parent?_top tree htree]
    · exact hh.parent?_top tree htree

/-- Trees below a node that has just been planted. -/
theorem below {id : NodeId} {label : α} (hg : Planted f parent [.node id label []] g)
    (hh : Planted g (some id) trees h) : Planted f parent [.node id label trees] h := by
  obtain ⟨⟨hnew, hlabel, hchildren⟩, -⟩ := (hg.everywhere _ List.mem_cons_self).at_node
  have hid := lt_size_of_label? hlabel
  have hold : ∀ other, other < f.size → other < g.size ∧ some id ≠ some other := by
    intro other hother
    refine ⟨Nat.lt_of_lt_of_le hother hg.size_le, fun heq => ?_⟩
    cases heq
    exact Nat.not_lt.mpr hnew hother
  refine ⟨hh.wellFormed, ?_, hh.roots_eq.trans hg.roots_eq, ?_, ?_, ?_, ?_, ?_⟩
  · rw [hh.size_eq, hg.size_eq, Tree.countEach_singleton, Tree.countEach_singleton, Tree.count,
      Tree.count, Tree.countEach]
    omega
  · intro other hother
    rw [hh.label?_eq other (hold other hother).1, hg.label?_eq other hother]
  · intro other hother
    rw [hh.parent?_eq other (hold other hother).1, hg.parent?_eq other hother]
  · intro other hother
    rw [hh.children_eq other (hold other hother).1, if_neg (hold other hother).2,
      List.append_nil, hg.children_eq other hother]
    rfl
  · intro tree htree
    obtain rfl := List.mem_singleton.mp htree
    refine .node ⟨hnew, by rw [hh.label?_eq id hid, hlabel], ?_⟩ fun child hchild => ?_
    · -- The new node had no children before.
      rw [hh.children_eq id hid, if_pos rfl, hchildren]
      rfl
    · exact (hh.everywhere child hchild).imp fun other _ _ here =>
        ⟨Nat.le_trans hg.size_le here.1, here.2⟩
  · intro tree htree
    obtain rfl := List.mem_singleton.mp htree
    show h.parent? id = parent
    rw [hh.parent?_eq id hid]
    exact hg.parent?_top _ List.mem_cons_self

end Planted

/-! ## Section 2: One new node -/

theorem children_size : f.children f.size = [] := by
  unfold children
  rw [node?_size]; rfl

/-- A new node without a parent is a tree of its own. -/
theorem planted_push (hf : f.WellFormed) (label : α) :
    Planted f none [.node f.size label []] (f.push label).2 where
  wellFormed := hf.push label
  size_eq := size_push f label
  roots_eq := rfl
  label?_eq id hid := by rw [label?_push, if_neg (Nat.ne_of_lt hid)]
  parent?_eq id _ := parent?_push f label id
  children_eq id _ := by
    rw [children_push]
    simp
  everywhere tree htree := by
    obtain rfl := List.mem_singleton.mp htree
    refine .node ⟨Nat.le_refl _, by rw [label?_push, if_pos rfl], ?_⟩ (by simp)
    rw [children_push, children_size]
    rfl
  parent?_top tree htree := by
    obtain rfl := List.mem_singleton.mp htree
    exact (parent?_push f label f.size).trans WellFormed.parent?_size

/-- A node without children lies above no other node. -/
theorem not_aboveOrSelf_of_bare (hf : f.WellFormed) {id other : NodeId} (hbare : f.children id = [])
    (hne : id ≠ other) : ¬ f.AboveOrSelf id other := by
  intro habove
  rcases habove.cases_head with heq | ⟨child, hparent, -⟩
  · exact hne heq
  · have hchild := (hf.mem_children_iff id child).mpr hparent
    rw [hbare] at hchild
    cases hchild

/-- A new node can be attached to any other node, and is then its last child. -/
theorem exists_attach (hf : f.WellFormed) (label : α) {parent : NodeId} (hparent : parent < f.size) :
    ∃ g, (f.push label).2.attach f.size parent = .ok (none, g) ∧
      Planted f (some parent) [.node f.size label []] g := by
  have hpushed := hf.push label
  have hbare : (f.push label).2.children f.size = [] := by rw [children_push, children_size]
  have hnone : (f.push label).2.parent? f.size = none :=
    (parent?_push f label f.size).trans WellFormed.parent?_size
  have hcycle : (f.push label).2.isAncestorOrSelf f.size parent = false := by
    rw [Bool.eq_false_iff, ne_eq, isAncestorOrSelf_iff hpushed.acyclic]
    exact not_aboveOrSelf_of_bare hpushed hbare (Nat.ne_of_gt hparent)
  have hattach : (f.push label).2.attach f.size parent =
      .ok (none, (f.push label).2.moved f.size parent none) := by
    apply attach_eq_ok_iff.mpr
    rw [size_push, hnone]
    exact ⟨Nat.lt_succ_of_lt hparent, Nat.lt_succ_self _, hcycle, rfl, rfl⟩
  have hattached := attached_of_attach hattach
  have hnot : ∀ id, f.size ∉ f.children id := fun id hmem =>
    Nat.lt_irrefl _ (hf.child_lt_size hmem)
  refine ⟨_, hattach, ?_, ?_, ?_, ?_, ?_, ?_, ?_, ?_⟩
  · apply hpushed.attached hattached
    rw [← isAncestorOrSelf_iff hpushed.acyclic, hcycle]
    exact Bool.false_ne_true
  · exact hattached.size_eq.trans (size_push f label)
  · -- The new node was no root.
    rw [hattached.roots_eq]
    show f.roots.filter _ = f.roots
    rw [List.filter_eq_self]
    intro root hroot
    simpa using Nat.ne_of_lt (hf.lt_size_of_root root hroot)
  · intro id hid
    rw [hattached.label?_eq, label?_push, if_neg (Nat.ne_of_lt hid)]
  · intro id hid
    rw [hattached.parent?_eq, if_neg (Nat.ne_of_lt hid), parent?_push]
  · intro id hid
    rw [hattached.children_eq, children_push, hnone]
    by_cases hid' : id = parent
    · rw [if_pos hid', if_neg (hnot id), if_pos (congrArg some hid'.symm)]
      rfl
    · rw [if_neg hid', if_neg (by simp), if_neg (by simpa using Ne.symm hid'), List.append_nil]
  · intro tree htree
    obtain rfl := List.mem_singleton.mp htree
    refine .node ⟨Nat.le_refl _, ?_, ?_⟩ (by simp)
    · rw [hattached.label?_eq, label?_push, if_pos rfl]
    · rw [hattached.children_eq, if_neg (Nat.ne_of_gt hparent), hnone, if_neg (by simp), hbare]
      rfl
  · intro tree htree
    obtain rfl := List.mem_singleton.mp htree
    show Forest.parent? _ f.size = _
    rw [hattached.parent?_eq, if_pos rfl]

/-! ## Section 3: Reading trees back -/

mutual

/-- A forest has one tree for each of its nodes. -/
theorem eq_of_isTreeOf : ∀ {s t : Tree α}, IsTreeOf f s → IsTreeOf f t → s.id = t.id → s = t
  | .node id label children, .node other label' children', hs, ht, hid => by
    obtain rfl : id = other := hid
    obtain ⟨⟨hlabel, hchildren⟩, hbelow⟩ := hs.at_node
    obtain ⟨⟨hlabel', hchildren'⟩, hbelow'⟩ := ht.at_node
    rw [hlabel, Option.some.injEq] at hlabel'
    rw [hlabel', eq_of_map_id_eq hbelow hbelow' (hchildren.symm.trans hchildren')]

theorem eq_of_map_id_eq : ∀ {ss ts : List (Tree α)}, (∀ s ∈ ss, IsTreeOf f s) →
    (∀ t ∈ ts, IsTreeOf f t) → ss.map Tree.id = ts.map Tree.id → ss = ts
  | [], [], _, _, _ => rfl
  | s :: ss, t :: ts, hss, hts, hids => by
    obtain ⟨hid, hrest⟩ := List.cons.inj hids
    rw [eq_of_isTreeOf (hss s List.mem_cons_self) (hts t List.mem_cons_self) hid,
      eq_of_map_id_eq (fun s hs => hss s (List.mem_cons_of_mem _ hs))
        (fun t ht => hts t (List.mem_cons_of_mem _ ht)) hrest]

end

/-- A tree that is found in a forest is the one that its topmost node unfolds into. -/
theorem subtree?_eq_of_isTreeOf (hf : f.WellFormed) {tree : Tree α} (htree : IsTreeOf f tree) :
    f.subtree? tree.id = some tree := by
  have hid := lt_size_of_label? (at_top htree).1
  obtain ⟨found, hfound⟩ := Option.isSome_iff_exists.mp (isSome_subtree? hf hid)
  have hisTree : IsTreeOf f found := by
    refine everywhere_of_unfold ?_ hfound
    intro id node depth children hnode hchildren
    constructor
    · simp only [label?, hnode, Option.map_some]
    · rw [map_id_of_mapM hchildren, Forest.children, hnode, Option.elim_some]
  rw [hfound, eq_of_isTreeOf hisTree htree (id_of_unfold hfound)]

end Forest

end TreeNotation
