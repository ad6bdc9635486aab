import TreeNotation.Json.Document
import TreeNotation.Proofs.Forest.WellFormed

/-!
# Growing JSON Documents

A JSON document grows as any forest does, from nothing or from the forest of a value.

- `Operation`, `perform`, and `Reachable` for what operations lead to;
- `wellFormed_placeValue`: placing a value is a run of operations on forests, so the forest of a
  value is well formed.
-/

namespace TreeNotation.Json

/-- An operation on a document, with any numbers as operands. -/
inductive Operation where
  | add (content : Content)
  | markRoot (id : NodeId)
  | attach (child parent : NodeId)

/-- What an operation does to the forest. -/
def Operation.bare : Operation → Forest.Operation Entry
  | .add content => .push ⟨content, none⟩
  | .markRoot id => .markRoot id
  | .attach child parent => .attach child parent

namespace Document

/-! ## Section 1: Operations one after the other -/

/-- The document that an operation leaves, whether it is refused or not. -/
def perform (doc : Document) : Operation → Document
  | .add content => (doc.add content).2
  | .markRoot id => (Forest.registration id).after doc
  | .attach child parent => (Forest.attachment child parent).after doc

/-- The documents that operations lead to from the empty one or from that of a value. -/
def Reachable : Document → Prop :=
  ReachedFrom (fun doc => doc = Forest.empty ∨ ∃ value, ofValue value = .ok doc) perform

theorem perform_eq (doc : Document) (op : Operation) :
    doc.perform op = Forest.perform doc op.bare := by
  cases op <;> rfl

/-! ## Section 2: The forest of a value -/

theorem wellFormed_attach {doc after : Document} (hdoc : Forest.WellFormed doc)
    {child parent : NodeId} (h : doc.attach child parent = .ok after) :
    Forest.WellFormed after := by
  have hperform : Forest.perform doc (.attach child parent) = after := by
    rw [attach] at h
    rw [Forest.perform_attach_eq]
    cases hattach : Forest.attach doc child parent with
    | error e => rw [hattach] at h; cases h
    | ok result => rw [hattach] at h; cases h; rfl
  exact hperform ▸ hdoc.perform _

theorem bind_eq_ok_iff {γ δ : Type} {m : Except Error γ} {next : γ → Except Error δ} {value : δ} :
    (m >>= next) = .ok value ↔ ∃ first, m = .ok first ∧ next first = .ok value := by
  cases m <;> simp [bind, Except.bind]

theorem wellFormed_place {doc after : Document} (hdoc : Forest.WellFormed doc)
    {parent : Option NodeId} {entry : Entry} {id : NodeId}
    (h : place doc parent entry = .ok (id, after)) : Forest.WellFormed after := by
  cases parent with
  | none =>
    -- Without a parent the node is created and nothing else.
    cases h
    exact hdoc.push entry
  | some parent =>
    obtain ⟨attached, hattach, hafter⟩ := bind_eq_ok_iff.mp h
    cases hafter
    exact wellFormed_attach (hdoc.push entry) hattach

theorem wellFormed_placeAlone {doc after : Document} (hdoc : Forest.WellFormed doc)
    {parent : Option NodeId} {entry : Entry}
    (h : (do let (_, doc) ← place doc parent entry; return doc) = Except.ok after) :
    Forest.WellFormed after := by
  obtain ⟨⟨id, placed⟩, hplace, hafter⟩ := bind_eq_ok_iff.mp h
  cases hafter
  exact wellFormed_place hdoc hplace

mutual

theorem wellFormed_placeValue {doc after : Document} (hdoc : Forest.WellFormed doc)
    (parent : Option NodeId) (index : Option Nat) :
    ∀ value, placeValue doc parent index value = .ok after → Forest.WellFormed after
  | .array items, h => by
    rw [placeValue] at h
    obtain ⟨⟨id, placed⟩, hplace, hitems⟩ := bind_eq_ok_iff.mp h
    exact wellFormed_placeItems (wellFormed_place hdoc hplace) id 0 items hitems
  | .object members, h => by
    rw [placeValue] at h
    obtain ⟨⟨id, placed⟩, hplace, hmembers⟩ := bind_eq_ok_iff.mp h
    exact wellFormed_placeMembers (wellFormed_place hdoc hplace) id members hmembers
  | .null, h => wellFormed_placeAlone hdoc h
  | .bool _, h => wellFormed_placeAlone hdoc h
  | .number _, h => wellFormed_placeAlone hdoc h
  | .string _, h => wellFormed_placeAlone hdoc h

theorem wellFormed_placeItems {doc after : Document} (hdoc : Forest.WellFormed doc)
    (parent : NodeId) (index : Nat) :
    ∀ items, placeItems doc parent index items = .ok after → Forest.WellFormed after
  | [], h => by
    cases h
    exact hdoc
  | item :: items, h => by
    rw [placeItems] at h
    obtain ⟨placed, hitem, hitems⟩ := bind_eq_ok_iff.mp h
    have hplaced := wellFormed_placeValue hdoc (some parent) (some index) item hitem
    exact wellFormed_placeItems hplaced parent (index + 1) items hitems

theorem wellFormed_placeMembers {doc after : Document} (hdoc : Forest.WellFormed doc)
    (parent : NodeId) :
    ∀ members, placeMembers doc parent members = .ok after → Forest.WellFormed after
  | [], h => by
    cases h
    exact hdoc
  | (key, value) :: members, h => by
    rw [placeMembers] at h
    -- The property is placed, then its value below it, then the other members.
    obtain ⟨⟨id, placed⟩, hproperty, h⟩ := bind_eq_ok_iff.mp h
    obtain ⟨filled, hvalue, hmembers⟩ := bind_eq_ok_iff.mp h
    have hplaced := wellFormed_place hdoc hproperty
    have hfilled := wellFormed_placeValue hplaced (some id) none value hvalue
    exact wellFormed_placeMembers hfilled parent members hmembers

end

theorem wellFormed_ofValue {value : Value} {doc : Document} (h : ofValue value = .ok doc) :
    Forest.WellFormed doc := by
  obtain ⟨placed, hplaced, hroot⟩ := bind_eq_ok_iff.mp h
  have hwell := wellFormed_placeValue Forest.WellFormed.empty none none value hplaced
  -- The first node that is placed becomes the root.
  have hperform : Forest.perform placed (.markRoot 0) = doc := by
    rw [Forest.perform_markRoot_eq, hroot]
  exact hperform ▸ hwell.perform _

theorem Reachable.wellFormed {doc : Document} (h : doc.Reachable) : Forest.WellFormed doc := by
  apply ReachedFrom.induction ?_ ?_ h
  · intro doc hdoc
    rcases hdoc with rfl | ⟨value, hvalue⟩
    · exact Forest.WellFormed.empty
    · exact wellFormed_ofValue hvalue
  · intro doc op hdoc
    rw [perform_eq]; exact hdoc.perform op.bare

end Document

end TreeNotation.Json
