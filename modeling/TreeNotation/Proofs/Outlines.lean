import TreeNotation.Proofs.Forest.Outline
import TreeNotation.Proofs.Html.Growth
import TreeNotation.Proofs.Json.Growth
import TreeNotation.Proofs.Xml.Growth

/-!
# Outlines of Documents

The outline of a document shows its trees and nothing else, whatever its format and its history.

- **Outlines**: `Forest.Outlined`, what there is to say of the lines of an outline, and
  `Forest.WellFormed.outlined`;
- **Formats**: `outlines_show_trees`.
-/

namespace TreeNotation

/-! ## Section 1: Well-formed forests -/

/-- The outline of a forest has a line for each of the entries, a node with its depth. -/
structure Forest.Outlined {α : Type} (f : Forest α) (text : α → String)
    (entries : List (NodeId × Nat)) : Prop where
  /-- The walk over the stack, from the roots in their order, comes to its end. -/
  walks : f.Walks (f.rootIds.map fun id => (id, 0)) entries
  /-- The entries are those of the trees of all roots, each listed by recursion. -/
  preorder : ∃ trees, f.rootIds.mapM f.subtree? = some trees ∧ entries = Tree.preorderEach 0 trees
  nodup : (entries.map Prod.fst).Nodup
  mem_iff : ∀ id depth, (id, depth) ∈ entries ↔ ∃ root ∈ f.roots, f.LiesBelow depth root id
  /-- A node without a root above it has no line. -/
  listed_iff : ∀ id, id ∈ entries.map Prod.fst ↔ ∃ root ∈ f.roots, f.AboveOrSelf root id
  outline_eq : f.outline text = String.join (entries.map fun entry =>
    String.join (List.replicate entry.2 "  ") ++ "[" ++ entry.1.repr ++ "] " ++
      f.describe text entry.1 ++ "\n")

namespace Forest

variable {α : Type} {f : Forest α}

theorem margin_eq (depth : Nat) :
    String.ofList (List.replicate (2 * depth) ' ') = String.join (List.replicate depth "  ") := by
  induction depth with
  | zero => rfl
  | succ depth ih =>
    rw [List.replicate_succ, String.join_cons, ← ih, Nat.mul_succ, ← String.toList_inj]
    simp [List.replicate_succ]

theorem LiesBelow.lt_size (hf : f.WellFormed) {levels : Nat} {top id : NodeId}
    (htop : top < f.size) (h : f.LiesBelow levels top id) : id < f.size := by
  induction levels generalizing top with
  | zero =>
    obtain rfl := h
    exact htop
  | succ levels ih =>
    obtain ⟨child, hchild, hbelow⟩ := h
    exact ih (hf.child_lt_size hchild) hbelow

theorem WellFormed.outlined (hf : f.WellFormed) (text : α → String) :
    f.Outlined text (Tree.preorderEach 0 f.trees) := by
  have hwalk := walks_trees hf
  have hroots : ∀ root ∈ f.rootIds, root < f.size := fun root hroot =>
    hf.lt_size_of_root root (WellFormed.mem_rootIds.mp hroot)
  have hids : (f.rootIds.map fun id => (id, 0)).map Prod.fst = f.rootIds := by
    simp [Function.comp_def]
  have hnodup : ((Tree.preorderEach 0 f.trees).map Prod.fst).Nodup := by
    apply hwalk.nodup hf
    rw [hids]
    have hdifferent : f.rootIds.Nodup :=
      (List.mergeSort_perm f.roots _).nodup_iff.mpr hf.nodup_roots
    exact hdifferent.imp_of_mem fun ha hb hne => beside_of_roots hf ha hb hne
  have hmem : ∀ id depth, (id, depth) ∈ Tree.preorderEach 0 f.trees ↔
      ∃ root ∈ f.roots, f.LiesBelow depth root id := by
    intro id depth
    rw [hwalk.mem_iff]
    simp [WellFormed.mem_rootIds]
  have hlisted : ∀ id, id ∈ (Tree.preorderEach 0 f.trees).map Prod.fst ↔
      ∃ root ∈ f.roots, f.AboveOrSelf root id := by
    intro id
    rw [hwalk.mem_map_iff hf, hids]
    simp [WellFormed.mem_rootIds]
  -- No node is listed twice, so the bound on the steps of the walk is enough.
  have hlength : (Tree.preorderEach 0 f.trees).length ≤ f.size := by
    have hlt : ∀ id ∈ (Tree.preorderEach 0 f.trees).map Prod.fst, id < f.size := by
      intro id hid
      obtain ⟨root, hroot, habove⟩ := (hlisted id).mp hid
      obtain ⟨levels, hbelow⟩ := (aboveOrSelf_iff_liesBelow hf).mp habove
      exact hbelow.lt_size hf (hf.lt_size_of_root root hroot)
    simpa using length_le_of_nodup_of_forall_lt hnodup hlt
  have hline : f.outlineLine text = fun entry =>
      String.join (List.replicate entry.2 "  ") ++ "[" ++ entry.1.repr ++ "] " ++
        f.describe text entry.1 ++ "\n" := by
    funext entry
    rw [outlineLine, margin_eq]
  refine ⟨hwalk, ⟨_, mapM_subtree?_rootIds hf, rfl⟩, hnodup, hmem, hlisted, ?_⟩
  rw [outline, listing, hwalk.walk_eq_take, List.take_of_length_le hlength, hline]

end Forest

/-! ## Section 2: All formats -/

/-- The outline of a document, however it has been grown, has one line for each node with a root
above it and none for any other node: the trees of the roots in their order, each node before the
nodes below it, and these in the order of their lists. Every line begins with two spaces for each
level that its node lies below the root. -/
theorem outlines_show_trees :
    (∀ doc : Html.Document, doc.Reachable →
      ∃ entries, Forest.Outlined doc (fun entry => entry.content.describe) entries) ∧
    (∀ doc : Xml.Document, doc.Reachable →
      ∃ entries, Forest.Outlined doc Xml.Content.describe entries) ∧
    (∀ doc : Json.Document, doc.Reachable →
      ∃ entries, Forest.Outlined doc (fun entry => entry.content.describe) entries) :=
  ⟨fun _ hdoc => ⟨_, hdoc.wellFormed.outlined _⟩, fun _ hdoc => ⟨_, hdoc.wellFormed.outlined _⟩,
    fun _ hdoc => ⟨_, hdoc.wellFormed.outlined _⟩⟩

/-- A list whose second item was attached first, with a word in it, and a word left over. -/
theorem outline_of_list :
    let doc : Html.Document := List.foldl Html.Document.perform Forest.empty
      [.addRootElement "ul" .empty, .addElement "li" .empty, .addElement "li" .empty,
        .addText "word", .addText "left over", .attach 2 0, .attach 1 0, .attach 3 2]
    doc.Reachable ∧
      Forest.Outlined doc (fun entry => entry.content.describe) [(0, 0), (2, 1), (3, 2), (1, 1)] ∧
      doc.outline (fun entry => entry.content.describe) =
        "[0] ul\n  [2] li\n    [3] \"word\"\n  [1] li\n" := by
  intro doc
  have hdoc : doc.Reachable := ⟨Forest.empty, _, rfl, rfl⟩
  obtain ⟨hhtml, -, -⟩ := outlines_show_trees
  obtain ⟨entries, h⟩ := hhtml doc hdoc
  have hroots : doc.rootIds = [0] := Forest.rootIds_of_roots rfl
  have htake : entries.take 5 = [(0, 0), (2, 1), (3, 2), (1, 1)] := by
    rw [← h.walks.walk_eq_take, hroots]
    rfl
  have hentries : entries = [(0, 0), (2, 1), (3, 2), (1, 1)] := by
    have hlength := congrArg List.length htake
    rw [List.length_take] at hlength
    rw [← htake, List.take_of_length_le]
    simp only [List.length_cons, List.length_nil] at hlength
    omega
  subst hentries
  refine ⟨hdoc, h, ?_⟩
  rw [h.outline_eq]
  decide +kernel

end TreeNotation
