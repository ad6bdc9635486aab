import TreeNotation.Proofs.Json.Encoding

/-!
# Recovering a JSON Value from its Forest

The forest of a value keeps all of it: the value can be read from the tree of the root.

- **Reading**: `valueOf?` reads a value from a tree, and `valueOf?_treeOf` says that it inverts
  `treeOf`;
- **Numbers**: `numbers_treeOf`; the nodes are numbered in document order, without gaps;
- **Shape**: `Shaped` says what the children of a node are, and `shaped_treeOf` that the tree of a
  value is shaped so everywhere;
- **Main result**: `encodes_ofValue`, from trees to the forest.
-/

namespace TreeNotation

/-! ## Section 1: Numbers in document order -/

namespace Tree

variable {α : Type}

/-- The numbers of the nodes of a tree, in document order. -/
def numbers (tree : Tree α) : List NodeId := (tree.visited fun _ => false).map Prod.fst

/-- The numbers of the nodes of trees side by side. -/
def numbersEach (trees : List (Tree α)) : List NodeId :=
  (visitedEach (fun _ => false) trees).map Prod.fst

theorem numbers_node (id : NodeId) (label : α) (children : List (Tree α)) :
    (node id label children).numbers = id :: numbersEach children := rfl

theorem numbersEach_nil : numbersEach ([] : List (Tree α)) = [] := rfl

theorem numbersEach_cons (first : Tree α) (rest : List (Tree α)) :
    numbersEach (first :: rest) = first.numbers ++ numbersEach rest := by
  rw [numbersEach, visitedEach, List.map_append]
  rfl

/-- What is true everywhere in a tree is true of the number of every node with some label. -/
theorem exists_of_mem_numbers {S : NodeId → α → Prop} {tree : Tree α}
    (h : tree.Everywhere fun id label _ => S id label) {id : NodeId} (hid : id ∈ tree.numbers) :
    ∃ label, S id label := by
  obtain ⟨place, hplace, rfl⟩ := List.mem_map.mp hid
  exact ⟨place.2, (of_mem_visited _ tree h place hplace).1⟩

end Tree

namespace Forest

open Writing.Dialect (IsTreeOf)

variable {α : Type} {f : Forest α}

/-- The nodes of a tree are below all that its topmost node is below. -/
theorem everywhere_aboveOrSelf (hf : f.WellFormed) {tree : Tree α} (htree : IsTreeOf f tree)
    {top : NodeId} (htop : f.AboveOrSelf top tree.id) :
    tree.Everywhere fun id _ _ => f.AboveOrSelf top id := by
  induction htree with
  | @node id label children here below ih =>
    refine .node htop fun child hchild => ih child hchild ?_
    -- A child is one step further down.
    have hparent : f.parent? child.id = some id := by
      rw [← hf.mem_children_iff, here.2]
      exact List.mem_map_of_mem hchild
    exact aboveOrSelf_iff.mpr (.inr ⟨_, hparent, htop⟩)

/-- What a tree says of a node and the labels of its children is true in the forest. -/
theorem everywhere_labels {R : α → List α → Prop} {tree : Tree α} (htree : IsTreeOf f tree)
    (h : tree.Everywhere fun _ label children => R label (children.map Tree.label)) :
    tree.Everywhere fun id label _ => f.label? id = some label ∧
      ∃ below, (f.children id).map f.label? = below.map some ∧ R label below := by
  induction htree with
  | @node id label children here below ih =>
    obtain ⟨hlabels, hbelow⟩ := h.at_node
    refine .node ⟨here.1, _, ?_, hlabels⟩ fun child hchild => ih child hchild (hbelow child hchild)
    rw [here.2, List.map_map, List.map_map]
    exact List.map_congr_left fun child hchild => (at_top (below child hchild)).1

end Forest

namespace Json.Document

open Forest (WellFormed)
open Writing.Dialect (IsTreeOf)

mutual

/-- The nodes of a value are numbered one after the other. -/
theorem numbers_treeOf (id : NodeId) (index : Option Nat) : ∀ value : Value,
    (treeOf id index value).numbers = List.range' id (treeOf id index value).count
  | .array items => by
    rw [treeOf, Tree.numbers_node, Tree.count, numbersEach_treesOfItems, List.range'_succ]
  | .object members => by
    rw [treeOf, Tree.numbers_node, Tree.count, numbersEach_treesOfMembers, List.range'_succ]
  | .null => rfl
  | .bool _ => rfl
  | .number _ => rfl
  | .string _ => rfl

theorem numbersEach_treesOfItems (id : NodeId) (index : Nat) : ∀ items : List Value,
    Tree.numbersEach (treesOfItems id index items) =
      List.range' id (Tree.countEach (treesOfItems id index items))
  | [] => rfl
  | item :: items => by
    rw [treesOfItems, Tree.numbersEach_cons, Tree.countEach, numbers_treeOf,
      numbersEach_treesOfItems, List.range'_append_1]

theorem numbersEach_treesOfMembers (id : NodeId) : ∀ members : List (String × Value),
    Tree.numbersEach (treesOfMembers id members) =
      List.range' id (Tree.countEach (treesOfMembers id members))
  | [] => rfl
  | (key, value) :: members => by
    -- The number of a property comes before those of its value.
    have hmember : Tree.numbers (.node id ⟨.property key, none⟩ [treeOf (id + 1) none value]) =
        List.range' id
          (Tree.count (.node id ⟨.property key, none⟩ [treeOf (id + 1) none value])) := by
      rw [Tree.numbers_node, Tree.count, Tree.countEach_singleton, Tree.numbersEach_cons,
        Tree.numbersEach_nil, List.append_nil, numbers_treeOf, List.range'_succ]
    rw [treesOfMembers, Tree.numbersEach_cons, Tree.countEach, hmember,
      numbersEach_treesOfMembers, List.range'_append_1]

end

/-! ## Section 2: Reading a value from a tree -/

/-- The value of a leaf, nothing if its text is none of its type. -/
def leafOf? (payload : String) : LeafType → Option Value
  | .string => some (.string payload)
  | .number =>
    if h : payload.toList.all isPlain = true then
      some (.number ⟨payload, List.all_eq_true.mp h⟩)
    else none
  | .boolean =>
    if payload = "true" then some (.bool true)
    else if payload = "false" then some (.bool false)
    else none
  | .null => if payload = "null" then some .null else none

mutual

/-- The value that a tree describes, nothing if a leaf has children, a property is not below an
object, or something else is. -/
def valueOf? : Tree Entry → Option Value
  | .node _ ⟨.array, _⟩ items => (valuesOf? items).map .array
  | .node _ ⟨.object, _⟩ members => (membersOf? members).map .object
  | .node _ ⟨.leaf type payload, _⟩ [] => leafOf? payload type
  | _ => none

/-- The values that trees side by side describe. -/
def valuesOf? : List (Tree Entry) → Option (List Value)
  | [] => some []
  | item :: items => do
    let value ← valueOf? item
    let values ← valuesOf? items
    return value :: values

/-- The keys and values of trees side by side that are all properties with one child. -/
def membersOf? : List (Tree Entry) → Option (List (String × Value))
  | [] => some []
  | .node _ ⟨.property key, _⟩ [child] :: members => do
    let value ← valueOf? child
    let members ← membersOf? members
    return (key, value) :: members
  | _ => none

end

mutual

/-- A value is read back from its tree, whatever its nodes are numbered from. -/
theorem valueOf?_treeOf (id : NodeId) (index : Option Nat) : ∀ value : Value,
    valueOf? (treeOf id index value) = some value
  | .array items => by
    rw [treeOf, valueOf?, valuesOf?_treesOfItems]
    rfl
  | .object members => by
    rw [treeOf, valueOf?, membersOf?_treesOfMembers]
    rfl
  | .null => by simp [treeOf, valueOf?, contentOf, leafOf?]
  | .bool value => by cases value <;> simp [treeOf, valueOf?, contentOf, leafOf?]
  | .number number => by
    simp only [treeOf, valueOf?, contentOf, leafOf?]
    rw [dif_pos (List.all_eq_true.mpr number.plain)]
  | .string value => by simp [treeOf, valueOf?, contentOf, leafOf?]

theorem valuesOf?_treesOfItems (id : NodeId) (index : Nat) : ∀ items : List Value,
    valuesOf? (treesOfItems id index items) = some items
  | [] => rfl
  | item :: items => by
    rw [treesOfItems, valuesOf?, valueOf?_treeOf, valuesOf?_treesOfItems]
    rfl

theorem membersOf?_treesOfMembers (id : NodeId) : ∀ members : List (String × Value),
    membersOf? (treesOfMembers id members) = some members
  | [] => rfl
  | (key, value) :: members => by
    rw [treesOfMembers, membersOf?, valueOf?_treeOf, membersOf?_treesOfMembers]
    rfl

end

/-! ## Section 3: The shape of the tree -/

/-- The node is no property. -/
def IsValue (content : Content) : Prop := ∀ key, content ≠ .property key

/-- A child of a node may be at position `i` of its children, by what the node is. Items know their
positions, members are properties, the value of a property has no position, and a leaf has nothing
below it. -/
def Fits : Content → Nat → Entry → Prop
  | .array, i, entry => entry.index = some i ∧ IsValue entry.content
  | .object, _, entry => ∃ key, entry = ⟨.property key, none⟩
  | .property _, _, entry => entry.index = none ∧ IsValue entry.content
  | .leaf .., _, _ => False

/-- The labels of the children of a node fit to what the node is. -/
structure Shaped (content : Content) (below : List Entry) : Prop where
  fits : ∀ (i : Nat) (entry : Entry), below[i]? = some entry → Fits content i entry
  single : ∀ key, content = .property key → below.length = 1

/-- Without children, any node but a property has its shape. -/
theorem shaped_nil {content : Content} (h : IsValue content) : Shaped content [] where
  fits _ _ hentry := nomatch hentry
  single key hkey := absurd hkey (h key)

theorem label_treeOf (id : NodeId) (index : Option Nat) (value : Value) :
    (treeOf id index value).label = ⟨contentOf value, index⟩ := by
  cases value <;> rfl

theorem isValue_contentOf (value : Value) : IsValue (contentOf value) := by
  intro key
  cases value <;> exact nofun

theorem label_treesOfItems {id : NodeId} {index i : Nat} {items : List Value} {entry : Entry}
    (h : ((treesOfItems id index items).map Tree.label)[i]? = some entry) :
    entry.index = some (index + i) ∧ IsValue entry.content := by
  induction items generalizing id index i with
  | nil => cases h
  | cons item items ih =>
    rw [treesOfItems, List.map_cons, label_treeOf] at h
    cases i with
    | zero =>
      cases h
      exact ⟨rfl, isValue_contentOf item⟩
    | succ i =>
      obtain ⟨hindex, hvalue⟩ := ih h
      exact ⟨by rw [hindex, Nat.add_right_comm, Nat.add_assoc], hvalue⟩

theorem label_treesOfMembers {id : NodeId} {members : List (String × Value)} {entry : Entry}
    (h : entry ∈ (treesOfMembers id members).map Tree.label) :
    ∃ key, entry = ⟨.property key, none⟩ := by
  induction members generalizing id with
  | nil => cases h
  | cons member members ih =>
    rw [treesOfMembers, List.map_cons] at h
    rcases List.mem_cons.mp h with rfl | h
    · exact ⟨member.1, rfl⟩
    · exact ih h

mutual

/-- The tree of a value is shaped everywhere. -/
theorem shaped_treeOf (id : NodeId) (index : Option Nat) : ∀ value : Value,
    (treeOf id index value).Everywhere fun _ label children =>
      Shaped label.content (children.map Tree.label)
  | .array items => by
    refine .node ⟨fun i entry hentry => ?_, nofun⟩ (shaped_treesOfItems (id + 1) 0 items)
    have hitem := label_treesOfItems hentry
    rwa [Nat.zero_add] at hitem
  | .object members =>
    .node ⟨fun _ _ hentry => label_treesOfMembers (List.mem_of_getElem? hentry), nofun⟩
      (shaped_treesOfMembers (id + 1) members)
  | .null => .node (shaped_nil nofun) (by simp)
  | .bool _ => .node (shaped_nil nofun) (by simp)
  | .number _ => .node (shaped_nil nofun) (by simp)
  | .string _ => .node (shaped_nil nofun) (by simp)

theorem shaped_treesOfItems (id : NodeId) (index : Nat) : ∀ items : List Value,
    ∀ tree ∈ treesOfItems id index items, tree.Everywhere fun _ label children =>
      Shaped label.content (children.map Tree.label)
  | [], _, htree => by cases htree
  | item :: items, tree, htree => by
    rw [treesOfItems] at htree
    rcases List.mem_cons.mp htree with rfl | htree
    · exact shaped_treeOf id (some index) item
    · exact shaped_treesOfItems _ (index + 1) items tree htree

theorem shaped_treesOfMembers (id : NodeId) : ∀ members : List (String × Value),
    ∀ tree ∈ treesOfMembers id members, tree.Everywhere fun _ label children =>
      Shaped label.content (children.map Tree.label)
  | [], _, htree => by cases htree
  | (key, value) :: members, tree, htree => by
    rw [treesOfMembers] at htree
    rcases List.mem_cons.mp htree with rfl | htree
    · refine .node ⟨fun i entry hentry => ?fits, fun _ _ => rfl⟩ fun child hchild => ?below
      case fits =>
        -- The only child is the value.
        have hlabel := List.mem_singleton.mp (List.mem_of_getElem? hentry)
        rw [hlabel, label_treeOf]
        exact ⟨rfl, isValue_contentOf value⟩
      case below =>
        rw [List.mem_singleton.mp hchild]
        exact shaped_treeOf (id + 1) none value
    · exact shaped_treesOfMembers _ members tree htree

end

/-! ## Section 4: The forest keeps the value -/

/-- The forest describes the value, and each of its nodes has its place in it. -/
structure Encodes (value : Value) (doc : Document) : Prop where
  rootIds_eq : doc.rootIds = [0]
  /-- The tree of the root is read as the value, and its nodes are numbered as they are met. -/
  read : ∃ tree, doc.subtree? 0 = some tree ∧ valueOf? tree = some value ∧
    tree.numbers = List.range doc.size
  below_root : ∀ id, id < doc.size → Forest.AboveOrSelf doc 0 id
  property : ∀ id key index, doc.label? id = some ⟨.property key, index⟩ →
    (∃ child, doc.children id = [child]) ∧
      ∃ parent place, doc.parent? id = some parent ∧ doc.label? parent = some ⟨.object, place⟩
  index_iff : ∀ id entry, doc.label? id = some entry → ∀ i, entry.index = some i ↔
    ∃ parent place, doc.parent? id = some parent ∧ doc.label? parent = some ⟨.array, place⟩ ∧
      (doc.children parent)[i]? = some id

/-- The tree of the value is in the document, and no node is outside it. -/
structure Holds (doc : Document) (value : Value) : Prop where
  wellFormed : WellFormed doc
  tree : IsTreeOf doc (treeOf 0 none value)
  numbers_eq : (treeOf 0 none value).numbers = List.range doc.size

namespace Holds

variable {doc : Document} {value : Value}

theorem label?_zero (h : Holds doc value) : doc.label? 0 = some ⟨contentOf value, none⟩ := by
  have htop := (Forest.at_top h.tree).1
  rwa [id_treeOf, label_treeOf] at htop

/-- What is true everywhere in the tree is true of all nodes of the document. -/
theorem everywhere (h : Holds doc value) {S : NodeId → Entry → Prop}
    (hS : (treeOf 0 none value).Everywhere fun id label _ => S id label) {id : NodeId}
    (hid : id < doc.size) : ∃ entry, S id entry := by
  apply Tree.exists_of_mem_numbers hS
  rw [h.numbers_eq]
  exact List.mem_range.mpr hid

theorem aboveOrSelf (h : Holds doc value) {id : NodeId} (hid : id < doc.size) :
    Forest.AboveOrSelf doc 0 id := by
  have htop : Forest.AboveOrSelf doc 0 (treeOf 0 none value).id := by
    rw [id_treeOf]
    exact .refl
  obtain ⟨_, habove⟩ :=
    h.everywhere (Forest.everywhere_aboveOrSelf h.wellFormed h.tree htop) hid
  exact habove

theorem exists_shaped (h : Holds doc value) {id : NodeId} (hid : id < doc.size) :
    ∃ entry, doc.label? id = some entry ∧ ∃ below,
      (doc.children id).map doc.label? = below.map some ∧ Shaped entry.content below :=
  h.everywhere (Forest.everywhere_labels h.tree (shaped_treeOf 0 none value)) hid

theorem shaped (h : Holds doc value) {id : NodeId} {entry : Entry}
    (hentry : doc.label? id = some entry) :
    ∃ below, (doc.children id).map doc.label? = below.map some ∧ Shaped entry.content below := by
  obtain ⟨label, hlabel, hbelow⟩ := h.exists_shaped (Forest.lt_size_of_label? hentry)
  rw [hentry, Option.some.injEq] at hlabel
  exact hlabel ▸ hbelow

theorem fits (h : Holds doc value) {parent id : NodeId} {above entry : Entry} {i : Nat}
    (habove : doc.label? parent = some above) (hid : (doc.children parent)[i]? = some id)
    (hentry : doc.label? id = some entry) : Fits above.content i entry := by
  obtain ⟨below, hlabels, hshaped⟩ := h.shaped habove
  -- The same position of both lists is looked up.
  have hlabel : ((doc.children parent).map doc.label?)[i]? = (below.map some)[i]? := by
    rw [hlabels]
  rw [List.getElem?_map, hid, Option.map_some, hentry, List.getElem?_map, eq_comm,
    Option.map_eq_some_iff] at hlabel
  obtain ⟨label, hlabel, heq⟩ := hlabel
  exact hshaped.fits i entry (Option.some.inj heq ▸ hlabel)

/-- Every node but the root is a child that fits to its parent. -/
theorem exists_fits (h : Holds doc value) {id : NodeId} {entry : Entry}
    (hentry : doc.label? id = some entry) (hne : id ≠ 0) :
    ∃ parent above i, doc.parent? id = some parent ∧ doc.label? parent = some above ∧
      (doc.children parent)[i]? = some id ∧ Fits above.content i entry := by
  have hreach := h.aboveOrSelf (Forest.lt_size_of_label? hentry)
  obtain ⟨parent, hparent, -⟩ := (Forest.aboveOrSelf_iff.mp hreach).resolve_left hne
  have hmem := (h.wellFormed.mem_children_iff parent id).mpr hparent
  obtain ⟨i, hi⟩ := List.mem_iff_getElem?.mp hmem
  obtain ⟨above, habove, -⟩ := h.exists_shaped (h.wellFormed.parent_lt_size hparent)
  exact ⟨parent, above, i, hparent, habove, hi, h.fits habove hi hentry⟩

/-- A property has one child and is below an object. -/
theorem property (h : Holds doc value) {id : NodeId} {key : String} {index : Option Nat}
    (hentry : doc.label? id = some ⟨.property key, index⟩) :
    (∃ child, doc.children id = [child]) ∧
      ∃ parent place, doc.parent? id = some parent ∧ doc.label? parent = some ⟨.object, place⟩ := by
  constructor
  · obtain ⟨below, hlabels, hshaped⟩ := h.shaped hentry
    have hlength := congrArg List.length hlabels
    rw [List.length_map, List.length_map, hshaped.single key rfl] at hlength
    exact List.length_eq_one_iff.mp hlength
  · -- The root is no property.
    have hne : id ≠ 0 := by
      intro hid
      rw [hid, h.label?_zero, Option.some.injEq, Entry.mk.injEq] at hentry
      exact isValue_contentOf value key hentry.1
    obtain ⟨parent, ⟨content, place⟩, i, hparent, habove, -, hfits⟩ := h.exists_fits hentry hne
    cases content with
    | object => exact ⟨parent, place, hparent, habove⟩
    | array => exact absurd rfl (hfits.2 key)
    | property other => exact absurd rfl (hfits.2 key)
    | leaf type payload => exact hfits.elim

/-- A position is that in the array a node is an item of. -/
theorem index_iff (h : Holds doc value) {id : NodeId} {entry : Entry}
    (hentry : doc.label? id = some entry) (i : Nat) : entry.index = some i ↔
      ∃ parent place, doc.parent? id = some parent ∧ doc.label? parent = some ⟨.array, place⟩ ∧
        (doc.children parent)[i]? = some id := by
  constructor
  · intro hindex
    -- The root has no position.
    have hne : id ≠ 0 := by
      intro hid
      rw [hid, h.label?_zero, Option.some.injEq] at hentry
      rw [← hentry] at hindex
      cases hindex
    obtain ⟨parent, ⟨content, place⟩, j, hparent, habove, hj, hfits⟩ := h.exists_fits hentry hne
    cases content with
    | array =>
      have hij : i = j := Option.some.inj (hindex.symm.trans hfits.1)
      exact ⟨parent, place, hparent, habove, hij ▸ hj⟩
    | object =>
      obtain ⟨key, heq⟩ := hfits
      rw [heq] at hindex
      cases hindex
    | property key => cases hindex.symm.trans hfits.1
    | leaf type payload => exact hfits.elim
  · intro hitem
    obtain ⟨parent, place, -, habove, hi⟩ := hitem
    exact (h.fits habove hi hentry).1

end Holds

/-- Every value has a forest, and that forest encodes it. -/
theorem encodes_ofValue (value : Value) : ∃ doc, ofValue value = .ok doc ∧ Encodes value doc := by
  obtain ⟨doc, hdoc, hwell, hroots, htrees, hsize⟩ := exists_ofValue value
  have htree : treeOf 0 none value ∈ Forest.trees doc := by
    rw [htrees]
    exact List.mem_singleton_self _
  have hisTree := Writing.Dialect.isTreeOf_of_mem_trees htree
  have hnumbers : (treeOf 0 none value).numbers = List.range doc.size := by
    rw [numbers_treeOf, List.range_eq_range', hsize]
  have hholds : Holds doc value := ⟨hwell, hisTree, hnumbers⟩
  have hrootIds : doc.rootIds = [0] := Forest.rootIds_of_roots hroots
  have hsubtree := Forest.subtree?_eq_of_isTreeOf hwell hisTree
  rw [id_treeOf] at hsubtree
  exact ⟨doc, hdoc, {
    rootIds_eq := hrootIds
    read := ⟨_, hsubtree, valueOf?_treeOf 0 none value, hnumbers⟩
    below_root := fun _ => hholds.aboveOrSelf
    property := fun _ _ _ => hholds.property
    index_iff := fun _ _ => hholds.index_iff }⟩

end Json.Document

end TreeNotation
