import Mathlib.Data.List.Perm.Subperm
import Mathlib.Logic.Relation
import TreeNotation.Proofs.Forest.Growth

/-!
# Ancestry

The nodes above a node, and the search along the parents that attaching a node makes.

- **Relation**: `Above` joins a node to all nodes below it, in one step or more;
- **Search**: `climb` is the search with its end told apart from its bound. In a forest without
  cycles it comes to an end in time (`climb_eq_some`), and it finds an ancestor exactly if there is
  one (`isAncestorOrSelf_iff`).
-/

namespace TreeNotation

namespace Forest

variable {α : Type}

/-! ## Section 1: Nodes above a node -/

/-- `parent` is the parent of `child`. -/
def ParentOf (f : Forest α) (parent child : NodeId) : Prop := f.parent? child = some parent

/-- `ancestor` lies above `id`, one step or more along the parents. -/
def Above (f : Forest α) (ancestor id : NodeId) : Prop := Relation.TransGen f.ParentOf ancestor id

/-- `ancestor` is `id` or lies above it. -/
def AboveOrSelf (f : Forest α) (ancestor id : NodeId) : Prop :=
  Relation.ReflTransGen f.ParentOf ancestor id

/-- No node lies above itself. -/
def Acyclic (f : Forest α) : Prop := ∀ id, ¬ f.Above id id

/-- The nodes above a node other than itself are its parent and the nodes above that. -/
theorem aboveOrSelf_iff {f : Forest α} {ancestor id : NodeId} :
    f.AboveOrSelf ancestor id ↔
      id = ancestor ∨ ∃ parent, f.parent? id = some parent ∧ f.AboveOrSelf ancestor parent := by
  constructor
  · intro h
    rcases h.cases_tail with heq | ⟨parent, habove, hparent⟩
    · exact Or.inl heq
    · exact Or.inr ⟨parent, hparent, habove⟩
  · rintro (rfl | ⟨parent, hparent, habove⟩)
    · exact Relation.ReflTransGen.refl
    · exact habove.tail hparent

/-! ## Section 2: The search along the parents -/

theorem length_le_of_nodup_of_forall_lt {n : Nat} {visited : List Nat} (hnodup : visited.Nodup)
    (hlt : ∀ id ∈ visited, id < n) : visited.length ≤ n := by
  -- The numbers are among those below the bound.
  have hsub : visited ⊆ List.range n := fun id hid => List.mem_range.mpr (hlt id hid)
  simpa using (hnodup.subperm hsub).length_le

/-- The search for `ancestor` on the way from `id` along the parents, with the answer that it comes
to; no answer if it has not come to an end after `steps` nodes. -/
def climb (f : Forest α) (ancestor : NodeId) : Nat → NodeId → Option Bool
  | 0, _ => none
  | steps + 1, id =>
    if id = ancestor then some true
    else match f.parent? id with
      | some parent => f.climb ancestor steps parent
      | none => some false

/-- What meets a node within a bound is the search, with no answer taken for a no. -/
theorem meets_eq_climb (f : Forest α) (ancestor : NodeId) (steps : Nat) (id : NodeId) :
    f.meets ancestor steps id = (f.climb ancestor steps id).getD false := by
  induction steps generalizing id with
  | zero => rfl
  | succ steps ih =>
    unfold meets climb
    split
    case isTrue => rfl
    case isFalse =>
      cases f.parent? id with
      | some parent => exact ih parent
      | none => rfl

/-- An answer of the search is right. -/
theorem eq_true_iff_of_climb {f : Forest α} {ancestor : NodeId} {steps : Nat} {id : NodeId}
    {answer : Bool} (h : f.climb ancestor steps id = some answer) :
    answer = true ↔ f.AboveOrSelf ancestor id := by
  -- The induction follows the search, one parent for each step that is left.
  induction steps generalizing id with
  | zero => cases h
  | succ steps ih =>
    rw [aboveOrSelf_iff]
    unfold climb at h
    split at h
    case isTrue heq =>
      cases h
      simp [heq]
    case isFalse hne =>
      split at h
      case h_1 parent hparent => simp [ih h, hne, hparent]
      case h_2 hnone =>
        cases h
        simp [hne, hnone]

/-- The search from `id` comes to an end with the steps that the nodes already `visited` leave. -/
theorem isSome_climb {f : Forest α} (hacyclic : f.Acyclic) (ancestor : NodeId) {steps : Nat}
    {id : NodeId} {visited : List Nat} (hnodup : visited.Nodup)
    (hlt : ∀ other ∈ visited, other < f.size) (hbelow : ∀ other ∈ visited, f.Above id other)
    (hsteps : f.size + 1 ≤ steps + visited.length) : (f.climb ancestor steps id).isSome := by
  -- The induction is on the steps that are left. With each step the search leaves one more node
  -- behind, and without cycles it comes to no node twice.
  induction steps generalizing id visited with
  | zero =>
    -- More nodes have been visited than there are.
    have := length_le_of_nodup_of_forall_lt hnodup hlt
    omega
  | succ steps ih =>
    unfold climb
    split
    case isTrue => rfl
    case isFalse =>
      split
      case h_1 parent hparent =>
        -- All nodes visited lie below this one.
        have hid : id ∉ visited := fun hmem => hacyclic id (hbelow id hmem)
        have hnodup' : (id :: visited).Nodup := List.nodup_cons.mpr ⟨hid, hnodup⟩
        apply ih hnodup'
        · intro other hother
          rcases List.mem_cons.mp hother with rfl | hother
          · exact lt_size_of_parent? hparent
          · exact hlt other hother
        · intro other hother
          rcases List.mem_cons.mp hother with rfl | hother
          · exact Relation.TransGen.single hparent
          · exact Relation.TransGen.head hparent (hbelow other hother)
        · rw [List.length_cons]; omega
      case h_2 => rfl

/-- Without cycles the search comes to its end after one step more than there are nodes. -/
theorem exists_climb_eq {f : Forest α} (hacyclic : f.Acyclic) (ancestor id : NodeId) {steps : Nat}
    (hsteps : f.size + 1 ≤ steps) : ∃ answer, f.climb ancestor steps id = some answer :=
  Option.isSome_iff_exists.mp
    (isSome_climb hacyclic ancestor List.nodup_nil (by simp) (by simp) (by simpa using hsteps))

/-- Without cycles, the bounded search finds exactly the nodes that are `id` or lie above it. -/
theorem isAncestorOrSelf_iff {f : Forest α} (hacyclic : f.Acyclic) {ancestor id : NodeId} :
    f.isAncestorOrSelf ancestor id = true ↔ f.AboveOrSelf ancestor id := by
  obtain ⟨answer, hanswer⟩ := exists_climb_eq hacyclic ancestor id (Nat.le_refl _)
  rw [isAncestorOrSelf, meets_eq_climb, hanswer]
  exact eq_true_iff_of_climb hanswer

/-- Any search that is long enough gives the answer of the bounded one. -/
theorem climb_eq_some {f : Forest α} (hacyclic : f.Acyclic) (ancestor id : NodeId) {steps : Nat}
    (hsteps : f.size + 1 ≤ steps) :
    f.climb ancestor steps id = some (f.isAncestorOrSelf ancestor id) := by
  obtain ⟨answer, hanswer⟩ := exists_climb_eq hacyclic ancestor id hsteps
  rw [hanswer, Option.some.injEq, Bool.eq_iff_iff, isAncestorOrSelf_iff hacyclic]
  exact eq_true_iff_of_climb hanswer

/-! ## Section 3: A new parent -/

/-- A way down through a forest with one node below a new parent either was there before, or it
leads through that node. -/
theorem above_or_through {f g : Forest α} {child parent : NodeId}
    (hg : ∀ id, g.parent? id = if id = child then some parent else f.parent? id)
    {ancestor id : NodeId} (h : g.Above ancestor id) :
    f.Above ancestor id ∨ (f.AboveOrSelf ancestor parent ∧ f.AboveOrSelf child id) := by
  -- An edge is old, or it is the new one.
  have hedge : ∀ a b, g.ParentOf a b → f.ParentOf a b ∨ (a = parent ∧ b = child) := by
    intro a b hab
    unfold ParentOf at hab
    rw [hg] at hab
    split at hab
    case isTrue hb => exact Or.inr ⟨(Option.some.inj hab).symm, hb⟩
    case isFalse => exact Or.inl hab
  -- The induction is on the way down, of which the last step is taken off.
  induction h with
  | single hab =>
    rcases hedge _ _ hab with hold | ⟨rfl, rfl⟩
    · exact Or.inl (Relation.TransGen.single hold)
    · exact Or.inr ⟨Relation.ReflTransGen.refl, Relation.ReflTransGen.refl⟩
  | tail _ hbc ih =>
    rcases hedge _ _ hbc with hold | ⟨rfl, rfl⟩
    · -- An old step keeps on the way that there was.
      rcases ih with habove | ⟨hparent, hchild⟩
      · exact Or.inl (habove.tail hold)
      · exact Or.inr ⟨hparent, hchild.tail hold⟩
    · -- The last step is the new one.
      rcases ih with habove | ⟨hparent, -⟩
      · exact Or.inr ⟨habove.to_reflTransGen, Relation.ReflTransGen.refl⟩
      · exact Or.inr ⟨hparent, Relation.ReflTransGen.refl⟩

/-- A node may be put below any node that it does not lie above. -/
theorem acyclic_of_new_parent {f g : Forest α} {child parent : NodeId} (hacyclic : f.Acyclic)
    (hg : ∀ id, g.parent? id = if id = child then some parent else f.parent? id)
    (hcycle : ¬ f.AboveOrSelf child parent) : g.Acyclic := by
  intro id h
  rcases above_or_through hg h with hold | ⟨hparent, hchild⟩
  · exact hacyclic id hold
  · exact hcycle (hchild.trans hparent)

end Forest

end TreeNotation
