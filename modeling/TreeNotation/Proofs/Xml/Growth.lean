import TreeNotation.Proofs.Forest.WellFormed
import TreeNotation.Xml.Document

/-!
# Growing XML Documents

An XML document grows as any forest does.

- `Operation`, `perform`, and `Reachable` for what operations lead to;
- `perform_eq`: which operation on forests an operation is.
-/

namespace TreeNotation.Xml

open Writing (Attributes)

/-- An operation on a document, with any numbers as operands. -/
inductive Operation where
  | addElement (name : String) (attributes : Attributes)
  | addRootElement (name : String) (attributes : Attributes)
  | addText (payload : String)
  | addCData (payload : String)
  | addComment (payload : String)
  | addInstruction (target data : String)
  | markRoot (id : NodeId)
  | attach (child parent : NodeId)

/-- What an operation does to the forest. -/
def Operation.bare : Operation → Forest.Operation Content
  | .addElement name attributes => .push (Document.elementContent name attributes)
  | .addRootElement name attributes => .pushRoot (Document.elementContent name attributes)
  | .addText payload => .push (.text (Text.trim payload))
  | .addCData payload => .push (.cdata (Text.trim payload))
  | .addComment payload => .push (.comment (Text.trim payload))
  | .addInstruction target data => .push (.instruction target (Text.trim data))
  | .markRoot id => .markRoot id
  | .attach child parent => .attach child parent

namespace Document

/-- The document that an operation leaves, whether it is refused or not. -/
def perform (doc : Document) : Operation → Document
  | .addElement name attributes => (doc.addElement name attributes).2
  | .addRootElement name attributes => (doc.addRootElement name attributes).2
  | .addText payload => (doc.addText payload).2
  | .addCData payload => (doc.addCData payload).2
  | .addComment payload => (doc.addComment payload).2
  | .addInstruction target data => (doc.addInstruction target data).2
  | .markRoot id => (Forest.registration id).after doc
  | .attach child parent => (Forest.attachment child parent).after doc

/-- The documents that operations lead to from the empty one. -/
def Reachable : Document → Prop := ReachedFrom (fun doc => doc = Forest.empty) perform

theorem perform_eq (doc : Document) (op : Operation) :
    doc.perform op = Forest.perform doc op.bare := by
  cases op <;> rfl

theorem foldl_perform_eq (doc : Document) (ops : List Operation) :
    ops.foldl perform doc = Forest.performAll doc (ops.map Operation.bare) := by
  induction ops generalizing doc with
  | nil => rfl
  | cons op ops ih =>
    rw [List.foldl_cons, ih, perform_eq]
    rfl

theorem Reachable.wellFormed {doc : Document} (h : doc.Reachable) : Forest.WellFormed doc := by
  apply ReachedFrom.induction ?_ ?_ h
  · intro doc hdoc
    rw [hdoc]; exact Forest.WellFormed.empty
  · intro doc op hdoc
    rw [perform_eq]; exact hdoc.perform op.bare

end Document

end TreeNotation.Xml
