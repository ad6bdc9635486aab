import TreeNotation.Proofs.Token.Replay
import TreeNotation.Proofs.Writing.Rows

/-!
# Indentation in Any Dialect

What a dialect writes over several lines is what it writes on one line, with a break and a margin
before every line but the first: the margin of a line is that of the depth of its node. Both layouts
ask for the same names and fail in the same way.

- **Depths**: `Forest.AtDepth` counts the nodes above a node, and `Dialect.linedEach` lists the nodes
  that have lines of their own with their depths, in document order;
- **Steps**: `Gives` says what a step results in, and `gives_drawEach` carries it from single nodes
  to the sketches of trees;
- **Conversions**: `convertWith_unbreak` and `lines_of_convertWith`.
-/

namespace TreeNotation

/-! ## Section 1: Depths -/

/-- The node with number `id` lies `depth` steps below a node that is attached to nothing. -/
inductive Forest.AtDepth {α : Type} (f : Forest α) : NodeId → Nat → Prop where
  | top {id : NodeId} (hparent : f.parent? id = none) : AtDepth f id 0
  | under {id parent : NodeId} {depth : Nat} (hparent : f.parent? id = some parent)
      (habove : AtDepth f parent depth) : AtDepth f id (depth + 1)

/-! ## Section 2: What a step gives -/

namespace Token

variable {κ β γ : Type} {P : Ledger κ → Prop} {Q : β → Prop} {R : γ → Prop}

/-- If `P` is true of the books before a step that succeeds, then it is true of them afterwards, and
the step results in something that `Q` is true of. -/
def Gives (P : Ledger κ → Prop) (Q : β → Prop) (x : Rendering κ β) : Prop :=
  ∀ ledger, P ledger → ∀ b after, x ledger = .ok b after → P after ∧ Q b

theorem gives_pure {b : β} (h : Q b) : Gives P Q (pure b : Rendering κ β) := by
  intro ledger hledger b after hrun
  cases hrun
  exact ⟨hledger, h⟩

theorem gives_throw (e : Error) : Gives P Q (throw e : Rendering κ β) := by
  intro ledger _ b after hrun
  cases hrun

theorem Gives.imp {Q' : β → Prop} {x : Rendering κ β} (hx : Gives P Q x) (h : ∀ b, Q b → Q' b) :
    Gives P Q' x := by
  intro ledger hledger b after hrun
  obtain ⟨hafter, hb⟩ := hx ledger hledger b after hrun
  exact ⟨hafter, h b hb⟩

theorem gives_bind {x : Rendering κ β} {f : β → Rendering κ γ} (hx : Gives P Q x)
    (hf : ∀ b, Q b → Gives P R (f b)) : Gives P R (x >>= f) := by
  intro ledger hledger c after hrun
  obtain ⟨b, mid, hfirst, hrest⟩ := bind_eq_ok_iff.mp hrun
  obtain ⟨hmid, hb⟩ := hx ledger hledger b mid hfirst
  exact hf b hb mid hmid c after hrest

theorem gives_mapM {f : β → Rendering κ γ} {S : β → γ → Prop} {items : List β}
    (hf : ∀ b ∈ items, Gives P (S b) (f b)) : Gives P (List.Forall₂ S items) (items.mapM f) := by
  induction items with
  | nil => exact gives_pure .nil
  | cons item items ih =>
    rw [List.mapM_cons]
    apply gives_bind (hf item List.mem_cons_self)
    intro first hfirst
    apply gives_bind (ih fun b hb => hf b (List.mem_cons_of_mem _ hb))
    intro rest hrest
    exact gives_pure (.cons hfirst hrest)

theorem forall_of_forall₂ {items : List β} {results : List γ}
    (h : List.Forall₂ (fun _ => R) items results) : ∀ c ∈ results, R c := by
  induction h with
  | nil => simp
  | cons hfirst _ ih => exact List.forall_mem_cons.mpr ⟨hfirst, ih⟩

/-- A request gives a name of the vocabulary. -/
theorem gives_request [DecidableEq κ] {names : List String} {literal : κ → String} (key : κ) :
    Gives (Ledger.Sound names literal) (· ∈ names) (Ledger.request key (literal key)) := by
  intro ledger hsound token after hrun
  have hkeeps : Keeps (Ledger.Sound names literal) (Ledger.request key (literal key)) :=
    Ledger.keeps_sound_request key
  have hafter := hkeeps ledger hsound
  rw [Attempt.after, hrun] at hafter
  have hsound' : after.Sound names literal := hafter
  exact ⟨hsound', hsound'.mem_of_get? (get?_of_request hrun)⟩

/-- What is written in a place is like what is written with any name, or like what is written
without one if none stands in. -/
theorem gives_inPlace [DecidableEq κ] {names : List String} {literal : κ → String} {plain : β}
    {write : String → β} {key? : Option κ} (hplain : key? = none → Q plain)
    (hwrite : ∀ token ∈ names, Q (write token)) :
    Gives (Ledger.Sound names literal) Q (inPlace literal plain write key?) := by
  cases key? with
  | none => exact gives_pure (hplain rfl)
  | some key => exact gives_bind (gives_request key) fun token htoken =>
      gives_pure (hwrite token htoken)

end Token

namespace Writing.Dialect

open Token (Gives Ledger Rendering Supply bind_eq_ok_iff gives_bind gives_pure)

variable {α κ : Type} {d : Dialect α κ} {f : Forest α}

/-! ## Section 3: Nodes with lines of their own -/

mutual

/-- The nodes of a tree that have lines of their own with their depths, in document order: all that
are written, but for texts directly after the node above them. -/
def lined (d : Dialect α κ) (depth : Nat) : Tree α → List (NodeId × Nat)
  | .node id label children =>
    if d.skips label then [] else (id, depth) :: d.linedBelow (depth + 1) children

/-- The nodes below a node with this row of children that have lines of their own. -/
def linedBelow (d : Dialect α κ) (depth : Nat) : List (Tree α) → List (NodeId × Nat)
  | [] => []
  | .node id label children :: rest =>
    (if d.inlines label then [] else d.lined depth (.node id label children)) ++
      d.linedEach depth rest

/-- The nodes of trees side by side that have lines of their own, one tree after the other. -/
def linedEach (d : Dialect α κ) (depth : Nat) : List (Tree α) → List (NodeId × Nat)
  | [] => []
  | first :: rest => d.lined depth first ++ d.linedEach depth rest

end

mutual

/-- A node with a line of its own is listed with its depth. -/
theorem atDepth_of_mem_lined (hf : f.WellFormed) (depth : Nat) : ∀ tree : Tree α, IsTreeOf f tree →
    f.AtDepth tree.id depth → ∀ place ∈ d.lined depth tree, f.AtDepth place.1 place.2
  | .node id label children, htree, hdepth, place, hplace => by
    rw [lined] at hplace
    split at hplace
    case isTrue => cases hplace
    case isFalse =>
      rcases List.mem_cons.mp hplace with rfl | hplace
      · exact hdepth
      · refine atDepth_of_mem_linedBelow hf (depth + 1) children htree.at_node.2 ?_ place hplace
        intro child hchild
        -- The children of the node are one step further down.
        have hmem : child.id ∈ f.children id := by
          rw [htree.at_node.1.2]
          exact List.mem_map_of_mem hchild
        exact .under ((hf.mem_children_iff id child.id).mp hmem) hdepth

theorem atDepth_of_mem_linedBelow (hf : f.WellFormed) (depth : Nat) : ∀ trees : List (Tree α),
    (∀ tree ∈ trees, IsTreeOf f tree) → (∀ tree ∈ trees, f.AtDepth tree.id depth) →
      ∀ place ∈ d.linedBelow depth trees, f.AtDepth place.1 place.2
  | [], _, _, place, hplace => by cases hplace
  | .node id label children :: rest, htrees, hdepths, place, hplace => by
    rw [linedBelow, List.mem_append] at hplace
    rcases hplace with hplace | hplace
    · split at hplace
      · cases hplace
      · exact atDepth_of_mem_lined hf depth _ (htrees _ List.mem_cons_self)
          (hdepths _ List.mem_cons_self) place hplace
    · exact atDepth_of_mem_linedEach hf depth rest
        (fun tree htree => htrees tree (List.mem_cons_of_mem _ htree))
        (fun tree htree => hdepths tree (List.mem_cons_of_mem _ htree)) place hplace

theorem atDepth_of_mem_linedEach (hf : f.WellFormed) (depth : Nat) : ∀ trees : List (Tree α),
    (∀ tree ∈ trees, IsTreeOf f tree) → (∀ tree ∈ trees, f.AtDepth tree.id depth) →
      ∀ place ∈ d.linedEach depth trees, f.AtDepth place.1 place.2
  | [], _, _, place, hplace => by cases hplace
  | first :: rest, htrees, hdepths, place, hplace => by
    rw [linedEach, List.mem_append] at hplace
    rcases hplace with hplace | hplace
    · exact atDepth_of_mem_lined hf depth first (htrees _ List.mem_cons_self)
        (hdepths _ List.mem_cons_self) place hplace
    · exact atDepth_of_mem_linedEach hf depth rest
        (fun tree htree => htrees tree (List.mem_cons_of_mem _ htree))
        (fun tree htree => hdepths tree (List.mem_cons_of_mem _ htree)) place hplace

end

theorem atDepth_of_mem_trees (hf : f.WellFormed) {place : NodeId × Nat}
    (hplace : place ∈ d.linedEach 0 f.trees) : f.AtDepth place.1 place.2 := by
  refine atDepth_of_mem_linedEach hf 0 f.trees (fun _ => isTreeOf_of_mem_trees) ?_ place hplace
  intro tree htree
  have hroot : tree.id ∈ f.rootIds := by
    rw [← Forest.map_id_of_mapM (Forest.mapM_subtree?_rootIds hf)]
    exact List.mem_map_of_mem htree
  exact .top (hf.parent?_root _ (Forest.WellFormed.mem_rootIds.mp hroot))

mutual

/-- The sketch of a tree has the nodes with lines of their own. -/
theorem places_of_draw (level : Nat) : ∀ (tree : Tree α) (ledger after : Ledger κ)
    (sketch : Option Sketch), d.draw tree ledger = .ok sketch after →
      Sketch.placesEach level sketch.toList = d.lined level tree
  | .node id label children, ledger, after, sketch, h => by
    rw [draw] at h
    rw [lined]
    split at h
    case isTrue hskips =>
      cases h
      rw [if_pos hskips]
      rfl
    case isFalse hskips =>
      obtain ⟨own, mid, -, h⟩ := bind_eq_ok_iff.mp h
      obtain ⟨⟨lead, group⟩, last, hbelow, h⟩ := bind_eq_ok_iff.mp h
      cases h
      rw [if_neg hskips, ← placesEach_of_drawBelow (level + 1) children mid _ lead group hbelow]
      simp [Sketch.placesEach, Sketch.places]

theorem placesEach_of_drawBelow (level : Nat) : ∀ (trees : List (Tree α)) (ledger after : Ledger κ)
    (lead : String) (group : List Sketch), d.drawBelow trees ledger = .ok (lead, group) after →
      Sketch.placesEach level group = d.linedBelow level trees
  | [], ledger, after, lead, group, h => by
    rw [drawBelow] at h
    cases h
    rfl
  | .node id label children :: rest, ledger, after, lead, group, h => by
    rw [drawBelow] at h
    rw [linedBelow]
    split at h
    case isTrue hinlines =>
      obtain ⟨own, mid, -, h⟩ := bind_eq_ok_iff.mp h
      obtain ⟨others, last, hothers, h⟩ := bind_eq_ok_iff.mp h
      cases h
      rw [if_pos hinlines, List.nil_append]
      exact placesEach_of_drawEach level rest mid _ _ hothers
    case isFalse hinlines =>
      obtain ⟨first, mid, hfirst, h⟩ := bind_eq_ok_iff.mp h
      obtain ⟨others, last, hothers, h⟩ := bind_eq_ok_iff.mp h
      cases h
      rw [if_neg hinlines, Sketch.placesEach_append,
        places_of_draw level _ ledger mid first hfirst,
        placesEach_of_drawEach level rest mid _ others hothers]

theorem placesEach_of_drawEach (level : Nat) : ∀ (trees : List (Tree α)) (ledger after : Ledger κ)
    (row : List Sketch), d.drawEach trees ledger = .ok row after →
      Sketch.placesEach level row = d.linedEach level trees
  | [], ledger, after, row, h => by
    rw [drawEach] at h
    cases h
    rfl
  | tree :: rest, ledger, after, row, h => by
    rw [drawEach] at h
    obtain ⟨first, mid, hfirst, h⟩ := bind_eq_ok_iff.mp h
    obtain ⟨others, last, hothers, h⟩ := bind_eq_ok_iff.mp h
    cases h
    rw [linedEach, Sketch.placesEach_append, places_of_draw level tree ledger mid first hfirst,
      placesEach_of_drawEach level rest mid _ others hothers]

end

/-! ## Section 4: What is drawn -/

section Drawing

variable {P : Ledger κ → Prop}

/-- Every node of the tree is written as a text that does not break. -/
def StaysOnLine (d : Dialect α κ) (P : Ledger κ → Prop) (tree : Tree α) : Prop :=
  tree.Everywhere fun id label _ => Gives P (fun text => Unbroken text.toList) (d.own id label)

mutual

/-- The sketch of a tree whose nodes do not break is tidy. -/
theorem gives_draw : ∀ tree : Tree α, d.StaysOnLine P tree →
    Gives P (fun sketch => ∀ s ∈ sketch.toList, s.Everywhere Sketch.Tidy) (d.draw tree)
  | .node id label children, htree => by
    rw [draw]
    split
    case isTrue => exact gives_pure (by simp)
    case isFalse =>
      apply gives_bind htree.at_node.1
      intro own hown
      apply gives_bind (gives_drawBelow children htree.at_node.2)
      rintro ⟨lead, group⟩ ⟨hlead, hgroup⟩
      refine gives_pure fun s hs => ?_
      obtain rfl := List.mem_singleton.mp hs
      exact .node ⟨hown, hlead⟩ hgroup

theorem gives_drawBelow : ∀ trees : List (Tree α), (∀ tree ∈ trees, d.StaysOnLine P tree) →
    Gives P (fun below => (below.1 = "" ∨ Unbroken below.1.toList) ∧
      ∀ s ∈ below.2, s.Everywhere Sketch.Tidy) (d.drawBelow trees)
  | [], _ => by
    rw [drawBelow]
    exact gives_pure ⟨.inl rfl, by simp⟩
  | .node id label children :: rest, htrees => by
    have hfirst := htrees _ List.mem_cons_self
    have hrest := gives_drawEach rest fun tree htree => htrees tree (List.mem_cons_of_mem _ htree)
    rw [drawBelow]
    split
    case isTrue =>
      apply gives_bind hfirst.at_node.1
      intro lead hlead
      exact gives_bind hrest fun others hothers => gives_pure ⟨.inr hlead, hothers⟩
    case isFalse =>
      apply gives_bind (gives_draw (.node id label children) hfirst)
      intro first hdrawn
      apply gives_bind hrest
      intro others hothers
      exact gives_pure ⟨.inl rfl, List.forall_mem_append.mpr ⟨hdrawn, hothers⟩⟩

theorem gives_drawEach : ∀ trees : List (Tree α), (∀ tree ∈ trees, d.StaysOnLine P tree) →
    Gives P (fun row => ∀ s ∈ row, s.Everywhere Sketch.Tidy) (d.drawEach trees)
  | [], _ => by
    rw [drawEach]
    exact gives_pure (by simp)
  | first :: rest, htrees => by
    rw [drawEach]
    apply gives_bind (gives_draw first (htrees _ List.mem_cons_self))
    intro first hdrawn
    apply gives_bind (gives_drawEach rest fun tree htree =>
      htrees tree (List.mem_cons_of_mem _ htree))
    intro others hothers
    exact gives_pure (List.forall_mem_append.mpr ⟨hdrawn, hothers⟩)

end

theorem staysOnLine_of_mem_trees
    (hown : ∀ id label, f.label? id = some label →
      Gives P (fun text => Unbroken text.toList) (d.own id label))
    {tree : Tree α} (htree : tree ∈ f.trees) : d.StaysOnLine P tree := by
  refine Forest.everywhere_of_mem_trees ?_ htree
  intro id node depth children hnode _
  exact hown id node.label (by simp [Forest.label?, hnode])

end Drawing

/-! ## Section 5: Conversions in two layouts -/

/-- The dialect with another layout. -/
def withLayout (d : Dialect α κ) (layout : Layout) : Dialect α κ := { d with layout := layout }

/-- What is drawn does not depend on the layout. -/
theorem drawEach_withLayout (d : Dialect α κ) (layout : Layout) :
    (d.withLayout layout).drawEach = d.drawEach := by
  delta drawEach
  rfl

/-- The text of the node with number `id` as it is written at some point of a conversion. -/
def Writes (d : Dialect α κ) (f : Forest α) (id : NodeId) (text : String) : Prop :=
  ∃ label before after, f.label? id = some label ∧ d.own id label before = .ok text after

/-- The line is of the node at a place: behind as many spaces as the depth of the node asks for, and
no more, it begins with the text of the node or with an opening parenthesis and that text. -/
structure IsLineAt (d : Dialect α κ) (f : Forest α) (width : Nat) (place : NodeId × Nat)
    (line : String) : Prop where
  atDepth : f.AtDepth place.1 place.2
  exists_body : ∃ opening text rest, (opening = [] ∨ opening = ['(']) ∧ d.Writes f place.1 text ∧
    line.toList = marginChars width place.2 ++ (opening ++ (text.toList ++ rest)) ∧
      Unbroken (opening ++ (text.toList ++ rest))

section Conversions

variable {P : Ledger κ → Prop} {a : Supply}

/-- A conversion in some layout, as far as its text goes, is the joining of what is drawn. -/
theorem convertWith_withLayout {μ : Type} (hf : f.WellFormed) (layout : Layout)
    (tables : Ledger κ → μ) (a : Supply) : (d.withLayout layout).convertWith tables a f =
      match d.drawEach f.trees (Ledger.ofSupply a) with
      | .ok row after => .ok ⟨layout.join (Sketch.texts layout 0 row), tables after⟩
      | .error e _ => .error e := by
  unfold convertWith
  rw [convert_eq_draw hf, drawEach_withLayout, map_eq_pure_bind]
  simp only [bind, EStateM.bind]
  cases d.drawEach f.trees (Ledger.ofSupply a) <;> rfl

variable (hP : P (Ledger.ofSupply a))
  (hown : ∀ id label, f.label? id = some label →
    Gives P (fun text => Unbroken text.toList) (d.own id label))

include hP hown

theorem tidy_of_drawEach {row : List Sketch} {after : Ledger κ}
    (hrun : d.drawEach f.trees (Ledger.ofSupply a) = .ok row after) :
    ∀ s ∈ row, s.Everywhere Sketch.Tidy :=
  (gives_drawEach f.trees (fun _ => staysOnLine_of_mem_trees hown) _ hP row after hrun).2

/-- Over several lines a conversion has the tables that it has on one line or fails as it does
there, and without its breaks and margins it has the same text. -/
theorem convertWith_unbreak {μ : Type} (hf : f.WellFormed) (tables : Ledger κ → μ) (width : Nat) :
    ((d.withLayout (.indented width)).convertWith tables a f).map
        (fun result => (⟨unbreak result.text, result.tables⟩ : Conversion μ)) =
      (d.withLayout .line).convertWith tables a f := by
  rw [convertWith_withLayout hf, convertWith_withLayout hf]
  cases hrun : d.drawEach f.trees (Ledger.ofSupply a) with
  | error e after => rfl
  | ok row after =>
    have htidy := tidy_of_drawEach hP hown hrun
    simp only [Except.map, Sketch.unbreak_join htidy]

/-- The lines of what is drawn are of nodes of the forest, each at the place of its node. -/
theorem isLineAt_of_mem_rowsEach (hf : f.WellFormed) {row : List Sketch} {after : Ledger κ}
    (hrun : d.drawEach f.trees (Ledger.ofSupply a) = .ok row after) (width : Nat) {line : Row}
    (hline : line ∈ Sketch.rowsEach 0 [] row) :
    d.IsLineAt f width (line.id, line.level)
      (String.ofList (marginChars width line.level ++ line.body)) := by
  have hplace : (line.id, line.level) ∈ d.linedEach 0 f.trees := by
    rw [← placesEach_of_drawEach 0 f.trees _ after row hrun, ← Sketch.map_place_rowsEach row 0 []]
    exact List.mem_map_of_mem hline
  -- The line is of a part of the sketches, and that part is of a node of the forest.
  have hparts := fun s hs => (tidy_of_drawEach hP hown hrun s hs).and
    ((drawn_of_drawEach f.trees _ after row (fun _ => isTreeOf_of_mem_trees) hrun).2 s hs)
  obtain ⟨part, ⟨htidy, hdrawn⟩, hof⟩ :=
    Sketch.exists_part_of_mem_rowsEach row 0 [] hparts (by simp) line hline
  obtain ⟨label, before, later, hlabel, -, hpart⟩ := hdrawn.exists_label
  obtain ⟨opening, signs, hopening, -, hbody⟩ := hof.exists_body
  have hunbroken := htidy.body hof
  rw [List.append_assoc] at hbody
  rw [hbody] at hunbroken
  refine ⟨atDepth_of_mem_trees hf hplace, opening, part.own, _, hopening, ?_, ?_, hunbroken⟩
  · rw [hof.id_eq]
    exact ⟨label, before, later, hlabel, hpart⟩
  · rw [String.toList_ofList, hbody]

/-- Over several lines, every node that is written has a line of its own but for texts directly
after the node above them, and each line has the margin that goes with the depth of its node. -/
theorem lines_of_convertWith {μ : Type} (hf : f.WellFormed) {tables : Ledger κ → μ} {width : Nat}
    {result : Conversion μ}
    (h : (d.withLayout (.indented width)).convertWith tables a f = .ok result) :
    ∃ lines, result.text = "\n".intercalate lines ∧
      List.Forall₂ (d.IsLineAt f width) (d.linedEach 0 f.trees) lines := by
  rw [convertWith_withLayout hf] at h
  cases hrun : d.drawEach f.trees (Ledger.ofSupply a) with
  | error e after => rw [hrun] at h; cases h
  | ok row after =>
    rw [hrun] at h
    cases h
    refine ⟨_, Sketch.join_eq_intercalate (tidy_of_drawEach hP hown hrun) width, ?_⟩
    rw [← placesEach_of_drawEach 0 f.trees _ after row hrun, ← Sketch.map_place_rowsEach row 0 [],
      List.forall₂_map_left_iff, List.forall₂_map_right_iff, List.forall₂_same]
    exact fun line => isLineAt_of_mem_rowsEach hP hown hf hrun width

end Conversions

end Writing.Dialect

end TreeNotation
