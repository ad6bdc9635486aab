import TreeNotation.Proofs.Forest.Planting
import TreeNotation.Proofs.Json.Growth

/-!
# The Forest of a JSON Value

A value is placed node by node in document order, so its nodes are numbered in that order, and it
never fails.

- **Trees**: `treeOf` is the tree of a value with the numbers that its nodes get;
- **Placing**: `exists_placeValue`, by the recursion of the value;
- **Main result**: `exists_ofValue`; the forest of a value has the tree of the value and no other.
-/

namespace TreeNotation.Json.Document

open Forest (Planted WellFormed)

/-! ## Section 1: The tree of a value -/

mutual

/-- The tree of a value, its nodes numbered in document order from `id` on. -/
def treeOf (id : NodeId) (index : Option Nat) : Value → Tree Entry
  | .array items => .node id ⟨.array, index⟩ (treesOfItems (id + 1) 0 items)
  | .object members => .node id ⟨.object, index⟩ (treesOfMembers (id + 1) members)
  | value => .node id ⟨contentOf value, index⟩ []

/-- The trees of the items of an array, the first of them at position `index`. -/
def treesOfItems (id : NodeId) (index : Nat) : List Value → List (Tree Entry)
  | [] => []
  | item :: items =>
    let tree := treeOf id (some index) item
    tree :: treesOfItems (id + tree.count) (index + 1) items

/-- The trees of the members of an object. -/
def treesOfMembers (id : NodeId) : List (String × Value) → List (Tree Entry)
  | [] => []
  | (key, value) :: members =>
    let tree := .node id ⟨.property key, none⟩ [treeOf (id + 1) none value]
    tree :: treesOfMembers (id + tree.count) members

end

theorem id_treeOf (id : NodeId) (index : Option Nat) (value : Value) :
    (treeOf id index value).id = id := by
  cases value <;> rfl

/-! ## Section 2: Placing a value -/

variable {doc : Document}

/-- The document has the node that others are to be placed below, if there is to be one. -/
def HasParent (doc : Document) (parent : Option NodeId) : Prop :=
  ∀ id, parent = some id → id < Forest.size doc

theorem exists_place (hdoc : WellFormed doc) {parent : Option NodeId}
    (hparent : doc.HasParent parent) (entry : Entry) :
    ∃ after, place doc parent entry = .ok (Forest.size doc, after) ∧
      Planted doc parent [.node (Forest.size doc) entry []] after := by
  cases parent with
  | none => exact ⟨_, rfl, Forest.planted_push hdoc entry⟩
  | some parent =>
    obtain ⟨after, hattach, hplanted⟩ := Forest.exists_attach hdoc entry (hparent parent rfl)
    have hafter : attach (Forest.push doc entry).2 (Forest.size doc) parent = .ok after := by
      rw [attach, hattach]
      rfl
    exact ⟨after, bind_eq_ok_iff.mpr ⟨after, hafter, rfl⟩, hplanted⟩

/-- A node that has just been placed can be the parent of others. -/
theorem hasParent_of_planted {parent : Option NodeId} {label : Entry} {after : Document}
    (h : Planted doc parent [.node (Forest.size doc) label []] after) :
    after.HasParent (some (Forest.size doc)) := by
  intro id hid
  rw [h.size_eq, ← Option.some.inj hid]
  exact Nat.lt_succ_self _

theorem HasParent.mono {parent : Option NodeId} {trees : List (Tree Entry)} {after : Document}
    {other : Option NodeId} (hparent : doc.HasParent other) (h : Planted doc parent trees after) :
    after.HasParent other := fun id hid =>
  Nat.lt_of_lt_of_le (hparent id hid) h.size_le

theorem exists_placeAlone (hdoc : WellFormed doc) {parent : Option NodeId}
    (hparent : doc.HasParent parent) (entry : Entry) :
    ∃ after, (do let (_, doc) ← place doc parent entry; return doc) = Except.ok after ∧
      Planted doc parent [.node (Forest.size doc) entry []] after := by
  obtain ⟨after, hplace, hplanted⟩ := exists_place hdoc hparent entry
  exact ⟨after, bind_eq_ok_iff.mpr ⟨_, hplace, rfl⟩, hplanted⟩

mutual

/-- A value is placed as its tree. -/
theorem exists_placeValue {doc : Document} (hdoc : WellFormed doc) {parent : Option NodeId}
    (hparent : doc.HasParent parent) (index : Option Nat) : ∀ value : Value,
      ∃ after, placeValue doc parent index value = .ok after ∧
        Planted doc parent [treeOf (Forest.size doc) index value] after
  | .array items => by
    obtain ⟨placed, hplace, hplanted⟩ := exists_place hdoc hparent ⟨.array, index⟩
    obtain ⟨after, hitems, hbelow⟩ :=
      exists_placeItems hplanted.wellFormed (hasParent_of_planted hplanted) 0 items
    refine ⟨after, ?_, ?_⟩
    · rw [placeValue]
      exact bind_eq_ok_iff.mpr ⟨_, hplace, hitems⟩
    · rw [treeOf]
      rw [hplanted.size_eq] at hbelow
      exact hplanted.below hbelow
  | .object members => by
    obtain ⟨placed, hplace, hplanted⟩ := exists_place hdoc hparent ⟨.object, index⟩
    obtain ⟨after, hmembers, hbelow⟩ :=
      exists_placeMembers hplanted.wellFormed (hasParent_of_planted hplanted) members
    refine ⟨after, ?_, ?_⟩
    · rw [placeValue]
      exact bind_eq_ok_iff.mpr ⟨_, hplace, hmembers⟩
    · rw [treeOf]
      rw [hplanted.size_eq] at hbelow
      exact hplanted.below hbelow
  | .null => exists_placeAlone hdoc hparent _
  | .bool _ => exists_placeAlone hdoc hparent _
  | .number _ => exists_placeAlone hdoc hparent _
  | .string _ => exists_placeAlone hdoc hparent _

theorem exists_placeItems {doc : Document} (hdoc : WellFormed doc) {parent : NodeId}
    (hparent : doc.HasParent (some parent)) (index : Nat) : ∀ items : List Value,
      ∃ after, placeItems doc parent index items = .ok after ∧
        Planted doc (some parent) (treesOfItems (Forest.size doc) index items) after
  | [] => ⟨doc, rfl, .refl hdoc _⟩
  | item :: items => by
    obtain ⟨placed, hitem, hplanted⟩ := exists_placeValue hdoc hparent (some index) item
    obtain ⟨after, hitems, hothers⟩ :=
      exists_placeItems hplanted.wellFormed (hparent.mono hplanted) (index + 1) items
    refine ⟨after, ?_, ?_⟩
    · rw [placeItems]
      exact bind_eq_ok_iff.mpr ⟨placed, hitem, hitems⟩
    · rw [treesOfItems]
      rw [hplanted.size_eq, Tree.countEach_singleton] at hothers
      exact hplanted.append hothers hparent

theorem exists_placeMembers {doc : Document} (hdoc : WellFormed doc) {parent : NodeId}
    (hparent : doc.HasParent (some parent)) : ∀ members : List (String × Value),
      ∃ after, placeMembers doc parent members = .ok after ∧
        Planted doc (some parent) (treesOfMembers (Forest.size doc) members) after
  | [] => ⟨doc, rfl, .refl hdoc _⟩
  | (key, value) :: members => by
    -- The property is placed, then its value below it, then the other members.
    obtain ⟨placed, hproperty, hplanted⟩ := exists_place hdoc hparent ⟨.property key, none⟩
    obtain ⟨filled, hvalue, hbelow⟩ :=
      exists_placeValue hplanted.wellFormed (hasParent_of_planted hplanted) none value
    rw [hplanted.size_eq] at hbelow
    have hmember := hplanted.below hbelow
    obtain ⟨after, hmembers, hothers⟩ :=
      exists_placeMembers hmember.wellFormed (hparent.mono hmember) members
    refine ⟨after, ?_, ?_⟩
    · rw [placeMembers]
      exact bind_eq_ok_iff.mpr ⟨_, hproperty, bind_eq_ok_iff.mpr ⟨filled, hvalue, hmembers⟩⟩
    · rw [treesOfMembers]
      rw [hmember.size_eq, Tree.countEach_singleton] at hothers
      exact hmember.append hothers hparent

end

/-! ## Section 3: The forest of a value -/

/-- The forest of a value has the tree of the value, numbered from zero, and no other. -/
theorem exists_ofValue (value : Value) : ∃ doc, ofValue value = .ok doc ∧
    Forest.WellFormed doc ∧ doc.roots = [0] ∧ Forest.trees doc = [treeOf 0 none value] ∧
      Forest.size doc = (treeOf 0 none value).count := by
  have hstart : HasParent Forest.empty none := fun id hid => absurd hid (by simp)
  obtain ⟨placed, hplaced, hplanted⟩ := exists_placeValue WellFormed.empty hstart none value
  have hroots : placed.roots = [] := hplanted.roots_eq
  have htop := hplanted.parent?_top _ List.mem_cons_self
  have htree := hplanted.isTreeOf List.mem_cons_self
  have hid : (treeOf (Forest.size (Forest.empty : Document)) none value).id = 0 := id_treeOf 0 _ _
  have hlt := Forest.lt_size_of_label? (Forest.at_top htree).1
  rw [hid] at htop hlt
  have hmark : Forest.markRoot placed 0 = .ok { placed with roots := [0] } := by
    apply Forest.markRoot_eq_ok_iff.mpr
    refine ⟨hlt, htop, ?_⟩
    rw [hroots]
    rfl
  have hdoc : ofValue value = .ok { placed with roots := [0] } :=
    bind_eq_ok_iff.mpr ⟨placed, hplaced, hmark⟩
  have hwell := wellFormed_ofValue hdoc
  have hsize : Forest.size placed = (treeOf 0 none value).count :=
    hplanted.size_eq.trans (Nat.zero_add _)
  refine ⟨_, hdoc, hwell, rfl, ?_, hsize⟩
  -- Marking a root changes no node, so the tree is the one that has been placed.
  have htree' : Writing.Dialect.IsTreeOf ({ placed with roots := [0] } : Document)
      (treeOf 0 none value) := htree
  have hrootIds : Forest.rootIds ({ placed with roots := [0] } : Document) = [0] :=
    List.mergeSort_singleton _
  have hsubtree := Forest.subtree?_eq_of_isTreeOf hwell htree'
  rw [id_treeOf] at hsubtree
  rw [Forest.trees, hrootIds, List.filterMap_cons_some hsubtree, List.filterMap_nil]

end TreeNotation.Json.Document
