import TreeNotation.Proofs.Forest.Trees
import TreeNotation.Writing.Dialect

/-!
# Writing Relabelled Forests

To replace all labels of a forest and write it is to write the forest itself in a dialect that
looks at each label through the replacement.

- **Dialects**: `comap`, a dialect behind a replacement of labels;
- **Trees**: `render_comap`;
- **Forests**: `convertWith_relabel`.
-/

namespace TreeNotation

variable {α β : Type}

/-! ## Section 1: Trees of relabelled forests -/

namespace Forest

theorem relabelAt_const (g : α → β) (f : Forest α) : (f.relabelAt fun _ => g) = f.relabel g := by
  apply ext_node?
  · intro id
    rw [node?_relabelAt, node?_relabel]
  · rfl
  · rfl

theorem subtree?_relabel (g : α → β) (f : Forest α) (id : NodeId) :
    (f.relabel g).subtree? id = (f.subtree? id).map (Tree.relabelAt fun _ => g) := by
  rw [← relabelAt_const]
  unfold subtree?
  rw [size_relabelAt, unfold_relabelAt]

end Forest

/-! ## Section 2: Dialects behind a replacement -/

namespace Writing.Dialect

open Token (Ledger Supply)

variable {κ : Type}

/-- The dialect that writes each label as `d` writes what `g` makes of it. -/
def comap (g : α → β) (d : Dialect β κ) : Dialect α κ where
  layout := d.layout
  skips label := d.skips (g label)
  inlines label := d.inlines (g label)
  own id label := d.own id (g label)
  encloses := d.encloses

variable {g : α → β} {d : Dialect β κ}

mutual

theorem render_comap (level : Nat) : ∀ tree : Tree α,
    (d.comap g).render level tree = d.render level (tree.relabelAt fun _ => g)
  | .node id label children => by
    rw [Tree.relabelAt, render, render, renderBelow_comap (level + 1) children]
    rfl

theorem renderBelow_comap (level : Nat) : ∀ trees : List (Tree α),
    (d.comap g).renderBelow level trees = d.renderBelow level (Tree.relabelEach (fun _ => g) trees)
  | [] => by rw [Tree.relabelEach, renderBelow, renderBelow]
  | .node id label children :: rest => by
    rw [Tree.relabelEach, renderBelow, renderBelow, render_comap level (.node id label children),
      renderEach_comap level rest, Tree.relabelAt]
    rfl

theorem renderEach_comap (level : Nat) : ∀ trees : List (Tree α),
    (d.comap g).renderEach level trees = d.renderEach level (Tree.relabelEach (fun _ => g) trees)
  | [] => by rw [Tree.relabelEach, renderEach, renderEach]
  | first :: rest => by
    rw [Tree.relabelEach, renderEach, renderEach, render_comap level first,
      renderEach_comap level rest]

end

/-! ## Section 3: Forests -/

theorem build_comap (f : Forest α) (id : NodeId) (level : Nat) :
    (d.comap g).build f id level = d.build (f.relabel g) id level := by
  unfold build
  rw [Forest.subtree?_relabel]
  cases f.subtree? id with
  | none => rfl
  | some tree => exact render_comap level tree

/-- A relabelled forest is written as the forest itself is in the dialect behind the replacement. -/
theorem convertWith_relabel {μ : Type} (tables : Ledger κ → μ) (a : Supply) (f : Forest α) :
    d.convertWith tables a (f.relabel g) = (d.comap g).convertWith tables a f := by
  have hconvert : (d.comap g).convert f = d.convert (f.relabel g) := by
    unfold convert
    simp only [build_comap, Forest.rootIds_relabel]
    rfl
  unfold convertWith
  rw [hconvert]

end Writing.Dialect

end TreeNotation
