import TreeNotation.Proofs.Forest.Pruning
import TreeNotation.Proofs.Writing.Sketch

/-!
# Leaving Out is Pruning

A dialect that leaves nodes out writes a forest as one that leaves nothing out writes the pruned
forest, unless a text moves up to the front of its row by that: only what is first in the stored row
is written directly after the node above.

- **Rows**: `Dialect.shifts` says that pruning moves a text to the front of a row, and
  `Dialect.Settled` that this happens at no node with a row that is written;
- **Trees**: `render_pruned` and its companions, up to texts that are empty;
- **Forests**: `convert_pruned`.
-/

namespace TreeNotation.Writing

namespace Dialect

open Layout (traces tracesBelow traces_traces traces_cons_traces traces_cons_empty)
open Token (Ledger Rendering Supply)

variable {α κ : Type} {d : Dialect α κ}

/-! ## Section 1: Rows whose first text stays where it is -/

/-- The dialect that leaves nothing out. -/
def keepingAll (d : Dialect α κ) : Dialect α κ := { d with skips := fun _ => false }

/-- Whether a row begins with a node that is left out and the first node after it that is not left
out is plain text. -/
def shifts (d : Dialect α κ) : List (Tree α) → Bool
  | [] => false
  | first :: rest =>
    d.skips first.label &&
      (rest.find? fun tree => !d.skips tree.label).any fun tree => d.inlines tree.label

mutual

/-- No row that is written in a tree shifts. -/
def Settled (d : Dialect α κ) : Tree α → Prop
  | .node _ label children =>
    d.skips label = false → d.shifts children = false ∧ d.SettledBelow children

/-- No row that is written below a node with this row of children shifts. -/
def SettledBelow (d : Dialect α κ) : List (Tree α) → Prop
  | [] => True
  | first :: rest =>
    -- A text that comes first is written without what is below it.
    (d.inlines first.label = false → d.Settled first) ∧ d.SettledEach rest

/-- No row that is written below trees of one level shifts. -/
def SettledEach (d : Dialect α κ) : List (Tree α) → Prop
  | [] => True
  | first :: rest => d.Settled first ∧ d.SettledEach rest

end

theorem head_prunedEach (test : α → Bool) (trees : List (Tree α)) :
    (Tree.prunedEach test trees).head?.map Tree.label =
      (trees.find? fun tree => !test tree.label).map Tree.label := by
  induction trees with
  | nil => rfl
  | cons first rest ih =>
    by_cases hfirst : test first.label = true
    · rw [Tree.prunedEach_cons_of_pos hfirst, ih, List.find?_cons_of_neg (by simp [hfirst])]
    · rw [Tree.prunedEach_cons_of_neg hfirst, List.find?_cons_of_pos (by simp [hfirst])]
      simp

/-- If a row does not shift, then leaving out its first node does not put a plain text in its
place. -/
theorem inlines_head_of_shifts {first : Tree α} {rest : List (Tree α)}
    (hskips : d.skips first.label = true) (hshifts : d.shifts (first :: rest) = false)
    (label : α) (hhead : (Tree.prunedEach d.skips rest).head?.map Tree.label = some label) :
    d.inlines label = false := by
  rw [head_prunedEach] at hhead
  obtain ⟨tree, htree, rfl⟩ := Option.map_eq_some_iff.mp hhead
  simpa [shifts, hskips, htree] using hshifts

/-- A row that does not begin with a plain text is written tree by tree. -/
theorem renderBelow_eq_renderEach (level : Nat) {trees : List (Tree α)}
    (h : ∀ label, trees.head?.map Tree.label = some label → d.inlines label = false) :
    d.renderBelow level trees = (fun parts => ("", parts)) <$> d.renderEach level trees := by
  cases trees with
  | nil => simp [renderBelow, renderEach]
  | cons first rest =>
    have hfirst : d.inlines first.label = false := h first.label rfl
    simp [renderBelow, renderEach, hfirst]

/-! ## Section 2: Trees -/

/-- Steps that lead to the same as far as `look` tells go on in the same way, if what follows looks
at no more than that. -/
theorem bind_eq_of_map_eq {γ δ : Type} {m m' : Rendering κ γ} {look : γ → γ}
    (h : look <$> m = look <$> m') {next : γ → Rendering κ δ}
    (hnext : ∀ value, next (look value) = next value) : m >>= next = m' >>= next := by
  simpa only [hnext] using bind_eq_of_views h next

/-- A node that is left out is written as the empty text. -/
theorem render_of_skips (level : Nat) {tree : Tree α} (h : d.skips tree.label = true) :
    d.render level tree = pure "" := by
  obtain ⟨id, label, children⟩ := tree
  rw [render]
  exact if_pos h

mutual

/-- A tree that is not left out is written as the pruned one. -/
theorem render_pruned (hkeeps : ∀ label, d.inlines label = true → d.skips label = false)
    (level : Nat) : ∀ tree : Tree α, d.skips tree.label = false → d.Settled tree →
      d.render level tree = d.keepingAll.render level (tree.pruned d.skips)
  | .node id label children, hkept, hsettled => by
    have hlabel : d.skips label = false := hkept
    obtain ⟨hshifts, hbelow⟩ := hsettled hlabel
    have hrow := renderBelow_pruned hkeeps (level + 1) children hshifts hbelow
    rw [render, Tree.pruned, render, if_neg (by simp [hlabel]), if_neg (by simp [keepingAll])]
    refine bind_congr fun own => ?_
    -- Of what is written below, the group takes the traces only.
    refine bind_eq_of_map_eq hrow fun below => ?_
    simp only [tracesBelow, Layout.group_traces]

theorem renderBelow_pruned (hkeeps : ∀ label, d.inlines label = true → d.skips label = false)
    (level : Nat) : ∀ trees : List (Tree α), d.shifts trees = false → d.SettledBelow trees →
      tracesBelow <$> d.renderBelow level trees =
        tracesBelow <$> d.keepingAll.renderBelow level (Tree.prunedEach d.skips trees)
  | [], _, _ => rfl
  | first :: rest, hshifts, hsettled => by
    obtain ⟨hfirst, hrest⟩ := hsettled
    have hparts := renderEach_pruned hkeeps level rest hrest
    by_cases hskips : d.skips first.label = true
    · -- The next node that is kept comes first in the pruned row, and it is no plain text.
      have hfirst : ¬ d.inlines first.label = true := fun hinlines =>
        absurd hskips (by simp [hkeeps first.label hinlines])
      have hhead := inlines_head_of_shifts hskips hshifts
      rw [Tree.prunedEach_cons_of_pos hskips, renderBelow, if_neg hfirst,
        renderBelow_eq_renderEach (d := d.keepingAll) level hhead, render_of_skips level hskips]
      simp only [pure_bind, map_eq_pure_bind, bind_assoc, tracesBelow, traces_cons_empty]
      exact bind_eq_of_map_eq hparts fun parts => by rw [traces_traces]
    · have hkept : d.skips first.label = false := Bool.eq_false_iff.mpr hskips
      rw [Tree.prunedEach_cons_of_neg hskips]
      by_cases hinlines : d.inlines first.label = true
      · rw [renderBelow, if_pos hinlines, renderBelow,
          if_pos (by simpa [keepingAll] using hinlines)]
        simp only [map_bind, map_pure, Tree.label_pruned, Tree.id_pruned]
        refine bind_congr fun lead => bind_eq_of_map_eq hparts fun parts => ?_
        simp only [tracesBelow, traces_traces]
      · rw [renderBelow, if_neg hinlines, renderBelow,
          if_neg (by simpa [keepingAll] using hinlines),
          render_pruned hkeeps level first hkept (hfirst (Bool.eq_false_iff.mpr hinlines))]
        simp only [map_bind, map_pure]
        refine bind_congr fun part => bind_eq_of_map_eq hparts fun parts => ?_
        simp only [tracesBelow, traces_cons_traces]

theorem renderEach_pruned (hkeeps : ∀ label, d.inlines label = true → d.skips label = false)
    (level : Nat) : ∀ trees : List (Tree α), d.SettledEach trees →
      traces <$> d.renderEach level trees =
        traces <$> d.keepingAll.renderEach level (Tree.prunedEach d.skips trees)
  | [], _ => rfl
  | first :: rest, hsettled => by
    obtain ⟨hfirst, hrest⟩ := hsettled
    have hparts := renderEach_pruned hkeeps level rest hrest
    by_cases hskips : d.skips first.label = true
    · -- The node leaves the empty text, and no trace.
      rw [Tree.prunedEach_cons_of_pos hskips, renderEach, render_of_skips level hskips, ← hparts]
      simp
    · have hkept : d.skips first.label = false := Bool.eq_false_iff.mpr hskips
      rw [Tree.prunedEach_cons_of_neg hskips, renderEach, renderEach,
        render_pruned hkeeps level first hkept hfirst]
      simp only [map_bind, map_pure]
      refine bind_congr fun part => bind_eq_of_map_eq hparts fun parts => ?_
      rw [traces_cons_traces]

end

/-! ## Section 3: Forests -/

/-- Leaving nodes out comes to the same as pruning the forest first, if no row shifts by that. -/
theorem convert_pruned (hkeeps : ∀ label, d.inlines label = true → d.skips label = false)
    {f : Forest α} (hf : f.WellFormed) (hsettled : d.SettledEach f.trees) :
    d.convert f = d.keepingAll.convert (f.pruned d.skips) := by
  have hparts := renderEach_pruned hkeeps 0 f.trees hsettled
  rw [convert_eq hf, convert_eq (hf.pruned d.skips), Forest.trees_pruned hf]
  refine bind_eq_of_map_eq hparts fun parts => ?_
  rw [Layout.join_traces]

theorem convertWith_pruned (hkeeps : ∀ label, d.inlines label = true → d.skips label = false)
    {f : Forest α} (hf : f.WellFormed) (hsettled : d.SettledEach f.trees) {μ : Type}
    (tables : Ledger κ → μ) (a : Supply) :
    d.convertWith tables a f = d.keepingAll.convertWith tables a (f.pruned d.skips) := by
  unfold convertWith
  rw [convert_pruned hkeeps hf hsettled]

end Dialect

end TreeNotation.Writing
