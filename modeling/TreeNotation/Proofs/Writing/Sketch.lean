import TreeNotation.Proofs.Token.Books
import TreeNotation.Proofs.Writing.Requests

/-!
# Sketches

A sketch is what a dialect has found out about a tree before it puts the texts together: the text of
each node that is written, the text directly after it, and whether a group is to be put in
parentheses. Nodes that are left out are not in it.

- **Sketches**: `Sketch.text` puts a sketch together, `Sketch.Everywhere` says something of every
  part of it;
- **Drawing**: `Dialect.drawEach` makes the sketches of trees, and `render_eq_draw` says that trees are
  written as their sketches are;
- **Nodes**: `DrawnRow` says which nodes the sketches of a row are of;
- **Forests**: `convert_eq_draw` and `exists_sketches`; a forest is put together from sketches.
-/

namespace TreeNotation.Writing

/-! ## Section 1: Sketches -/

/-- A node that is written, and the nodes below it that are written one by one. -/
inductive Sketch where
  /-- The number of the node, its own text, the text directly after that, and whether it is put in
  parentheses if it has a group. -/
  | node (id : NodeId) (own lead : String) (enclosed : Bool) (group : List Sketch)

namespace Sketch

/-- The number of the node. -/
def id : Sketch → NodeId
  | .node id _ _ _ _ => id

/-- The text of the node by itself. -/
def own : Sketch → String
  | .node _ own _ _ _ => own

/-- The text directly after the one of the node. -/
def lead : Sketch → String
  | .node _ _ lead _ _ => lead

/-- Whether the node is put in parentheses if it has a group. -/
def enclosed : Sketch → Bool
  | .node _ _ _ enclosed _ => enclosed

/-- What is written below the node, one by one, but for the text in the line of the node. -/
def group : Sketch → List Sketch
  | .node _ _ _ _ group => group

mutual

/-- The notation of a sketch at a level. -/
def text (layout : Layout) (level : Nat) : Sketch → String
  | .node _ own lead enclosed group =>
    let written := layout.group (texts layout (level + 1) group)
    let body := own ++ lead ++ written
    layout.margin level ++
      if !written.isEmpty && enclosed then "(" ++ body ++ ")" else body

/-- The notations of sketches of one level. -/
def texts (layout : Layout) (level : Nat) : List Sketch → List String
  | [] => []
  | first :: rest => text layout level first :: texts layout level rest

end

/-- `P` is true of the sketch and of all its parts. -/
inductive Everywhere (P : Sketch → Prop) : Sketch → Prop where
  | node {s : Sketch} (here : P s) (inside : ∀ part ∈ s.group, Everywhere P part) : Everywhere P s

theorem Everywhere.inside {P : Sketch → Prop} {s : Sketch} (h : s.Everywhere P) :
    P s ∧ ∀ part ∈ s.group, part.Everywhere P := by
  cases h with
  | node here inside => exact ⟨here, inside⟩

/-- What is true of a sketch if something else is true of it and all its parts. -/
theorem Everywhere.imp {P Q : Sketch → Prop}
    (hstep : ∀ s, P s → (∀ part ∈ s.group, part.Everywhere P) → Q s) {s : Sketch}
    (h : s.Everywhere P) : s.Everywhere Q := by
  induction h with
  | node here inside ih => exact .node (hstep _ here inside) ih

theorem texts_eq_map (layout : Layout) (level : Nat) (row : List Sketch) :
    texts layout level row = row.map (text layout level) := by
  induction row with
  | nil => rfl
  | cons first rest ih => rw [texts, ih, List.map_cons]

theorem text_ne_empty {layout : Layout} {level : Nat} {s : Sketch}
    (h : s.own ≠ "") : s.text layout level ≠ "" := by
  obtain ⟨id, own, lead, enclosed, group⟩ := s
  rw [text]
  simp only [Sketch.own] at h
  split
  · simp
  · simp [h]

end Sketch

/-! ## Section 2: Rendered nodes that leave a trace -/

namespace Layout

theorem join_congr (layout : Layout) {parts parts' : List String}
    (h : (parts.filter fun part => !part.isEmpty) = parts'.filter fun part => !part.isEmpty) :
    layout.join parts = layout.join parts' := by
  unfold join
  rw [h]

theorem group_congr (layout : Layout) {parts parts' : List String}
    (h : (parts.filter fun part => !part.isEmpty) = parts'.filter fun part => !part.isEmpty) :
    layout.group parts = layout.group parts' := by
  have hall : ∀ parts : List String, parts.all String.isEmpty =
      (parts.filter fun part => !part.isEmpty).isEmpty := by
    intro parts
    rw [Bool.eq_iff_iff, List.isEmpty_iff, List.filter_eq_nil_iff]
    simp
  unfold group
  rw [hall parts, hall parts', h, layout.join_congr h]

/-- The rendered nodes that do not render as nothing. -/
def traces (parts : List String) : List String := parts.filter fun part => !part.isEmpty

@[simp]
theorem traces_traces (parts : List String) : traces (traces parts) = traces parts := by
  simp [traces, List.filter_filter]

@[simp]
theorem traces_cons_traces (part : String) (parts : List String) :
    traces (part :: traces parts) = traces (part :: parts) := by
  simp [traces, List.filter_cons, List.filter_filter]

@[simp]
theorem traces_cons_empty (parts : List String) : traces ("" :: parts) = traces parts :=
  List.filter_cons_of_neg (by simp)

theorem join_traces (layout : Layout) (parts : List String) :
    layout.join (traces parts) = layout.join parts :=
  layout.join_congr (traces_traces parts)

/-- What is written below a node, without the rendered nodes that leave no trace. -/
def tracesBelow (below : String × List String) : String × List String := (below.1, traces below.2)

theorem group_traces (layout : Layout) (parts : List String) :
    layout.group (traces parts) = layout.group parts :=
  layout.group_congr (traces_traces parts)

end Layout

/-- The notation of a first sketch, if there is any, and those of the others. -/
theorem Sketch.traces_texts_cons (layout : Layout) (level : Nat) (first : Option Sketch)
    (row : List Sketch) :
    Layout.traces (first.elim "" (text layout level) :: texts layout level row) =
      Layout.traces (texts layout level (first.toList ++ row)) := by
  cases first with
  | none => exact Layout.traces_cons_empty _
  | some sketch => rfl

/-! ## Section 3: Drawing -/

namespace Dialect

open Layout (traces tracesBelow traces_cons_traces)
open Token (Ledger Rendering Supply bind_eq_ok_iff)

variable {α κ : Type} {d : Dialect α κ}

mutual

/-- The sketch of a tree; none if its topmost node is left out. -/
def draw (d : Dialect α κ) : Tree α → Rendering κ (Option Sketch)
  | .node id label children =>
    if d.skips label then pure none
    else do
      let own ← d.own id label
      let (lead, below) ← d.drawBelow children
      return some (.node id own lead (d.encloses id) below)

/-- The text written directly after a node, and the sketches of the other trees below it. -/
def drawBelow (d : Dialect α κ) : List (Tree α) → Rendering κ (String × List Sketch)
  | [] => pure ("", [])
  | .node id label children :: rest =>
    if d.inlines label then do
      let lead ← d.own id label
      let others ← d.drawEach rest
      return (lead, others)
    else do
      let first ← d.draw (.node id label children)
      let others ← d.drawEach rest
      return ("", first.toList ++ others)

/-- The sketches of trees of one level. -/
def drawEach (d : Dialect α κ) : List (Tree α) → Rendering κ (List Sketch)
  | [] => pure []
  | first :: rest => do
    let first ← d.draw first
    let others ← d.drawEach rest
    return first.toList ++ others

end

/-- Steps that lead to the same as far as two views tell go on in the same way, if what follows looks
at no more than that. -/
theorem bind_eq_of_views {β γ δ ε : Type} {m : Rendering κ β} {m' : Rendering κ γ} {view : β → δ}
    {view' : γ → δ} (h : view <$> m = view' <$> m') (next : δ → Rendering κ ε) :
    (m >>= fun value => next (view value)) = m' >>= fun value => next (view' value) := by
  rw [← bind_map_left view m next, h, bind_map_left]

mutual

/-- A tree is written as its sketch is. -/
theorem render_eq_draw (level : Nat) : ∀ tree : Tree α, d.render level tree =
    (fun sketch => sketch.elim "" (Sketch.text d.layout level)) <$> d.draw tree
  | .node id label children => by
    rw [render, draw]
    split
    case isTrue => rfl
    case isFalse =>
      simp only [map_bind, map_pure]
      refine bind_congr fun own => ?_
      -- Of what is written below, the group takes the traces only.
      have hbelow := bind_eq_of_views (renderBelow_eq_draw (level + 1) children) fun below =>
        pure (d.assemble id level own below.1 (d.layout.group below.2))
      simpa only [tracesBelow, Layout.group_traces, Option.elim_some, Sketch.text, assemble]
        using hbelow

theorem renderBelow_eq_draw (level : Nat) : ∀ trees : List (Tree α),
    tracesBelow <$> d.renderBelow level trees =
      (fun below => tracesBelow (below.1, Sketch.texts d.layout level below.2)) <$>
        d.drawBelow trees
  | [] => rfl
  | .node id label children :: rest => by
    have hrest := renderEach_eq_draw level rest
    rw [drawBelow]
    by_cases hinlines : d.inlines label = true
    · rw [renderBelow_of_inlines level id children rest hinlines, if_pos hinlines]
      simp only [map_bind, map_pure, tracesBelow]
      exact bind_congr fun lead => bind_eq_of_views hrest fun parts => pure (lead, parts)
    · rw [renderBelow_of_not_inlines level id children rest hinlines, if_neg hinlines,
        render_eq_draw level (.node id label children)]
      simp only [map_bind, map_pure, bind_map_left, tracesBelow]
      refine bind_congr fun first => ?_
      have hparts := bind_eq_of_views hrest fun parts =>
        pure ("", traces (first.elim "" (Sketch.text d.layout level) :: parts))
      simpa only [traces_cons_traces, Sketch.traces_texts_cons] using hparts

theorem renderEach_eq_draw (level : Nat) : ∀ trees : List (Tree α),
    traces <$> d.renderEach level trees =
      (fun row => traces (Sketch.texts d.layout level row)) <$> d.drawEach trees
  | [] => rfl
  | first :: rest => by
    rw [renderEach, drawEach, render_eq_draw level first]
    simp only [map_bind, map_pure, bind_map_left]
    refine bind_congr fun first => ?_
    have hparts := bind_eq_of_views (renderEach_eq_draw level rest) fun parts =>
      pure (traces (first.elim "" (Sketch.text d.layout level) :: parts))
    simpa only [traces_cons_traces, Sketch.traces_texts_cons] using hparts

end

/-! ## Section 4: Sketches and the nodes they are of -/

/-- Whether the node with number `id` is written if the nodes above it are. -/
def shows (d : Dialect α κ) (f : Forest α) (id : NodeId) : Bool :=
  (f.label? id).any fun label => !d.skips label

/-- The children that are written one by one, given all children of a node: those that are not left
out, but for a text that comes first. -/
def groupIds (d : Dialect α κ) (f : Forest α) : List NodeId → List NodeId
  | [] => []
  | first :: rest =>
    (if (f.label? first).any d.inlines then rest else first :: rest).filter (d.shows f)

theorem mem_of_mem_groupIds {f : Forest α} {ids : List NodeId} {id : NodeId}
    (h : id ∈ d.groupIds f ids) : id ∈ ids ∧ d.shows f id = true := by
  cases ids with
  | nil => cases h
  | cons first rest =>
    obtain ⟨hmem, hshows⟩ := List.mem_filter.mp h
    split at hmem
    · exact ⟨List.mem_cons_of_mem first hmem, hshows⟩
    · exact ⟨hmem, hshows⟩

theorem nodup_groupIds {f : Forest α} {ids : List NodeId} (h : ids.Nodup) :
    (d.groupIds f ids).Nodup := by
  cases ids with
  | nil => exact List.nodup_nil
  | cons first rest =>
    refine List.Nodup.filter _ ?_
    split
    · exact (List.nodup_cons.mp h).2
    · exact h

theorem mem_groupIds {f : Forest α} {ids : List NodeId} {id : NodeId} (hid : id ∈ ids)
    (hshows : d.shows f id = true) (hblock : (f.label? id).any d.inlines = false) :
    id ∈ d.groupIds f ids := by
  cases ids with
  | nil => cases hid
  | cons first rest =>
    refine List.mem_filter.mpr ⟨?_, hshows⟩
    split
    case isFalse => exact hid
    case isTrue hfirst =>
      -- The first child is written into the line above, so it is another one.
      rcases List.mem_cons.mp hid with rfl | hid
      · rw [hblock] at hfirst; cases hfirst
      · exact hid

/-- The text directly after a node with the given children is the one of its first child if that is
plain text, and nothing otherwise. -/
def HasLead (d : Dialect α κ) (f : Forest α) (lead : String) : List NodeId → Prop
  | [] => lead = ""
  | first :: _ =>
    if (f.label? first).any d.inlines then
      ∃ label before after, f.label? first = some label ∧ d.own first label before = .ok lead after
    else lead = ""

/-- The sketch is of a node of the forest that is written, with what is written below it. -/
structure Drawn (d : Dialect α κ) (f : Forest α) (s : Sketch) : Prop where
  exists_label : ∃ label before after, f.label? s.id = some label ∧ d.skips label = false ∧
    d.own s.id label before = .ok s.own after
  lead_eq : d.HasLead f s.lead (f.children s.id)
  enclosed_eq : s.enclosed = d.encloses s.id
  group_eq : s.group.map Sketch.id = d.groupIds f (f.children s.id)

/-- The tree is the tree of a node of the forest. -/
def IsTreeOf (f : Forest α) (tree : Tree α) : Prop :=
  tree.Everywhere fun id label children =>
    f.label? id = some label ∧ f.children id = children.map Tree.id

variable {f : Forest α}

theorem IsTreeOf.shows_eq {id : NodeId} {label : α} {children : List (Tree α)}
    (h : IsTreeOf f (.node id label children)) : d.shows f id = !d.skips label := by
  unfold shows
  rw [h.at_node.1.1]
  rfl

/-- The sketches of a row are of the nodes with the given numbers that are written. -/
def DrawnRow (d : Dialect α κ) (f : Forest α) (ids : List NodeId) (row : List Sketch) : Prop :=
  row.map Sketch.id = ids.filter (d.shows f) ∧ ∀ s ∈ row, s.Everywhere (d.Drawn f)

theorem DrawnRow.append {ids ids' : List NodeId} {row row' : List Sketch}
    (h : d.DrawnRow f ids row) (h' : d.DrawnRow f ids' row') :
    d.DrawnRow f (ids ++ ids') (row ++ row') := by
  constructor
  · rw [List.map_append, h.1, h'.1, List.filter_append]
  · intro s hs
    rcases List.mem_append.mp hs with hs | hs
    · exact h.2 s hs
    · exact h'.2 s hs

mutual

theorem drawn_of_draw : ∀ (tree : Tree α) (ledger after : Ledger κ) (sketch : Option Sketch),
    IsTreeOf f tree → d.draw tree ledger = .ok sketch after →
      d.DrawnRow f [tree.id] sketch.toList
  | .node id label children, ledger, after, sketch, htree, h => by
    have hshows : d.shows f (Tree.id (.node id label children)) = !d.skips label := htree.shows_eq
    rw [draw] at h
    unfold DrawnRow
    rw [List.filter_singleton, hshows]
    split at h
    case isTrue hskips =>
      cases h
      rw [hskips]
      exact ⟨rfl, by simp⟩
    case isFalse hskips =>
      rw [Bool.not_eq_true] at hskips
      obtain ⟨own, mid, hown, h⟩ := bind_eq_ok_iff.mp h
      obtain ⟨⟨lead, group⟩, last, hbelow, h⟩ := bind_eq_ok_iff.mp h
      cases h
      obtain ⟨hlead, hids, hinside⟩ :=
        drawn_of_drawBelow children mid _ lead group htree.at_node.2 hbelow
      rw [← htree.at_node.1.2] at hlead hids
      rw [hskips]
      refine ⟨rfl, ?_⟩
      intro s hs
      obtain rfl := List.mem_singleton.mp hs
      exact .node ⟨⟨label, ledger, mid, htree.at_node.1.1, hskips, hown⟩, hlead, rfl, hids⟩ hinside

theorem drawn_of_drawBelow : ∀ (trees : List (Tree α)) (ledger after : Ledger κ) (lead : String)
    (group : List Sketch), (∀ tree ∈ trees, IsTreeOf f tree) →
      d.drawBelow trees ledger = .ok (lead, group) after →
      d.HasLead f lead (trees.map Tree.id) ∧
        group.map Sketch.id = d.groupIds f (trees.map Tree.id) ∧
          ∀ s ∈ group, s.Everywhere (d.Drawn f)
  | [], ledger, after, lead, group, htrees, h => by
    rw [drawBelow] at h
    cases h
    exact ⟨rfl, rfl, by simp⟩
  | .node id label children :: rest, ledger, after, lead, group, htrees, h => by
    have htree := htrees _ List.mem_cons_self
    have hrest : ∀ tree ∈ rest, IsTreeOf f tree := fun tree hmem =>
      htrees tree (List.mem_cons_of_mem _ hmem)
    have hinlined : (f.label? id).any d.inlines = d.inlines label := by
      rw [htree.at_node.1.1]; rfl
    rw [drawBelow] at h
    rw [List.map_cons, groupIds, HasLead]
    show (if (f.label? id).any d.inlines then _ else _ : Prop) ∧
      _ = (if (f.label? id).any d.inlines then _ else _ : List NodeId).filter _ ∧ _
    rw [hinlined]
    split at h
    case isTrue hinlines =>
      obtain ⟨own, mid, hown, h⟩ := bind_eq_ok_iff.mp h
      obtain ⟨others, last, hothers, h⟩ := bind_eq_ok_iff.mp h
      cases h
      rw [if_pos hinlines, if_pos hinlines]
      exact ⟨⟨label, ledger, mid, htree.at_node.1.1, hown⟩,
        drawn_of_drawEach rest mid _ _ hrest hothers⟩
    case isFalse hinlines =>
      obtain ⟨first, mid, hfirst, h⟩ := bind_eq_ok_iff.mp h
      obtain ⟨others, last, hothers, h⟩ := bind_eq_ok_iff.mp h
      cases h
      rw [if_neg hinlines, if_neg hinlines]
      have hrow := drawn_of_draw _ ledger mid first htree hfirst
      exact ⟨rfl, hrow.append (drawn_of_drawEach rest mid _ others hrest hothers)⟩

theorem drawn_of_drawEach : ∀ (trees : List (Tree α)) (ledger after : Ledger κ)
    (row : List Sketch), (∀ tree ∈ trees, IsTreeOf f tree) →
      d.drawEach trees ledger = .ok row after →
      d.DrawnRow f (trees.map Tree.id) row
  | [], ledger, after, row, htrees, h => by
    rw [drawEach] at h
    cases h
    exact ⟨rfl, by simp⟩
  | tree :: rest, ledger, after, row, htrees, h => by
    rw [drawEach] at h
    obtain ⟨first, mid, hfirst, h⟩ := bind_eq_ok_iff.mp h
    obtain ⟨others, last, hothers, h⟩ := bind_eq_ok_iff.mp h
    cases h
    have hrow := drawn_of_draw tree ledger mid first (htrees _ List.mem_cons_self) hfirst
    exact hrow.append (drawn_of_drawEach rest mid _ others
      (fun tree hmem => htrees tree (List.mem_cons_of_mem _ hmem)) hothers)

end

/-! ## Section 5: Forests -/

/-- The sketches of the trees of a forest. -/
def sketches (d : Dialect α κ) (a : Supply) (f : Forest α) : Except Error (List Sketch) :=
  match d.drawEach f.trees (Ledger.ofSupply a) with
  | .ok row _ => .ok row
  | .error e _ => .error e

theorem isTreeOf_of_mem_trees {tree : Tree α} (h : tree ∈ f.trees) : IsTreeOf f tree := by
  refine Forest.everywhere_of_mem_trees ?_ h
  intro id node depth children hnode hchildren
  constructor
  · simp only [Forest.label?, hnode, Option.map_some]
  · rw [Forest.map_id_of_mapM hchildren, Forest.children, hnode, Option.elim_some]

/-- The sketches of a forest are of its roots that are written. -/
theorem drawnRow_sketches (hf : f.WellFormed) {a : Supply} {row : List Sketch}
    (h : d.sketches a f = .ok row) : d.DrawnRow f f.rootIds row := by
  unfold sketches at h
  cases hrun : d.drawEach f.trees (Ledger.ofSupply a) with
  | error e after => rw [hrun] at h; cases h
  | ok row' after =>
    rw [hrun] at h
    cases h
    rw [← Forest.map_id_of_mapM (Forest.mapM_subtree?_rootIds hf)]
    exact drawn_of_drawEach f.trees _ after row (fun _ => isTreeOf_of_mem_trees) hrun

/-- A forest is put together from the sketches of its trees. -/
theorem convert_eq_draw (hf : f.WellFormed) :
    d.convert f = (fun row => d.layout.join (Sketch.texts d.layout 0 row)) <$> d.drawEach f.trees := by
  have hparts := bind_eq_of_views (renderEach_eq_draw (d := d) 0 f.trees) fun parts =>
    pure (d.layout.join parts)
  simp only [Layout.join_traces] at hparts
  rw [convert_eq hf, hparts, bind_pure_comp]

/-- A conversion that succeeds is put together from sketches. -/
theorem exists_sketches (hf : f.WellFormed) {μ : Type} {tables : Ledger κ → μ}
    {a : Supply} {result : Conversion μ} (h : d.convertWith tables a f = .ok result) :
    ∃ row, d.sketches a f = .ok row ∧
      result.text = d.layout.join (Sketch.texts d.layout 0 row) := by
  obtain ⟨text, after, hrun, rfl⟩ := convertWith_eq_ok_iff.mp h
  rw [convert_eq_draw hf, map_eq_pure_bind] at hrun
  obtain ⟨row, mid, hdraw, hpure⟩ := bind_eq_ok_iff.mp hrun
  cases hpure
  refine ⟨row, ?_, rfl⟩
  unfold sketches
  rw [hdraw]

end Dialect

end TreeNotation.Writing
