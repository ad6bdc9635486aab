import TreeNotation.Document
import TreeNotation.Proofs.Html.Counts
import TreeNotation.Proofs.Json.Growth
import TreeNotation.Proofs.Writing.Alike
import TreeNotation.Proofs.Xml.Growth

/-!
# Conversion Depends on the Trees Only

Converters read what documents store: parents, counts of elements, lists of roots. Whatever the
history of a document, that carries what its ordered labelled trees say and nothing else.

- **Nodes**: `Html.alikeAt_dialect` and its companions, one for each format;
- **Documents**: `Document.Reachable`, `Document.SameTrees` and `convertWith_of_sameTrees`.
-/

namespace TreeNotation

open Token (Supply withoutNodes)
open Writing.Dialect (AlikeAt mapError_convertWith)

/-! ## Section 1: HTML -/

namespace Html

variable {P Q : Document}

/-- A text in the line above is not left out. -/
theorem skips_of_inlines {config : Config} {doc : Document} {entry : Entry}
    (h : (dialect config doc).inlines entry = true) :
    (dialect config doc).skips entry = false := by
  show skips config.html entry.content = false
  cases hcontent : entry.content with
  | text payload => rfl
  | element tag attributes => simp [dialect, hcontent, Content.isText] at h

theorem countP_eq_of_forall₂ {pairs : NodeId → NodeId → Prop} {test test' : NodeId → Bool}
    (htest : ∀ a b, pairs a b → test a = test' b) {as bs : List NodeId}
    (h : List.Forall₂ pairs as bs) : as.countP test = bs.countP test' := by
  induction h with
  | nil => rfl
  | cons hab _ ih => rw [List.countP_cons, List.countP_cons, ih, htest _ _ hab]

theorem isWritten_of_label_eq (options : HtmlOptions) {a b : NodeId}
    (h : (P.label? a).map Entry.content = (Q.label? b).map Entry.content) :
    isWritten options P a = isWritten options Q b := by
  -- Whether a node is written is read off its contents; counts and links play no part.
  have hcontents : ∀ (doc : Document) (id : NodeId), isWritten options doc id =
      ((doc.label? id).map Entry.content).any fun content =>
        !content.isText && !skips options content := by
    intro doc id
    unfold isWritten
    cases doc.label? id <;> rfl
  rw [hcontents, hcontents, h]

/-- Nodes at the same place have as many written elements beside them: the stored parents lead to
nodes at the same place, and the stored counts say what is below those. -/
theorem writtenSiblings_of_reached (hP : P.Reachable) (hQ : Q.Reachable)
    (h : Forest.SameTrees Entry.content P Q) (options : HtmlOptions) {a b : NodeId}
    (hab : Forest.Reached P Q a b) :
    writtenSiblings options P a = writtenSiblings options Q b := by
  obtain ⟨pairs, hpairs⟩ := h
  have hsame := hpairs.reached
  have hwritten : ∀ a b, Forest.Reached P Q a b → isWritten options P a = isWritten options Q b :=
    fun a b hab => isWritten_of_label_eq options (hsame.label_eq a b hab)
  -- With right counts, both sides look at the children of the parents.
  rw [Document.writtenSiblings_eq hP.wellFormed hP.counted,
    Document.writtenSiblings_eq hQ.wellFormed hQ.counted]
  unfold Document.countBeside
  rcases hab.parents hP.wellFormed hQ.wellFormed with ⟨ha, hb⟩ | ⟨p, q, ha, hb, hpq⟩
  · simp only [ha, hb]
  · simp only [ha, hb, hwritten a b hab,
      countP_eq_of_forall₂ hwritten (hsame.children p q hpq)]

theorem alikeAt_dialect (hP : P.Reachable) (hQ : Q.Reachable)
    (h : Forest.SameTrees Entry.content P Q) (config : Config) {a b : NodeId} {x y : Entry}
    (hab : Forest.Reached P Q a b) (hlook : x.content = y.content) :
    AlikeAt (dialect config P) (dialect config Q) a x b y where
  skips_eq := congrArg (skips config.html) hlook
  inlines_eq := congrArg Content.isText hlook
  own_eq := congrArg (fun content => withoutNodes (own config.html content)) hlook
  encloses_eq := by
    simp only [dialect, writtenSiblings_of_reached hP hQ h config.html hab]

end Html

/-! ## Section 2: XML and JSON -/

theorem Xml.skips_of_inlines {config : Config} {content : Xml.Content}
    (h : (Xml.dialect config).inlines content = true) :
    (Xml.dialect config).skips content = false := by
  cases content with
  | text payload => rfl
  | _ => cases h

theorem Xml.alikeAt_dialect (config : Config) (a b : NodeId) {x y : Xml.Content} (hlook : x = y) :
    AlikeAt (Xml.dialect config) (Xml.dialect config) a x b y where
  skips_eq := congrArg (Xml.skips config.xml) hlook
  inlines_eq := congrArg Xml.Content.isText hlook
  own_eq := by
    subst hlook
    -- Only the refusal of a processing instruction names the node.
    cases x <;> rfl
  encloses_eq := rfl

theorem Json.alikeAt_dialect (config : Config) (a b : NodeId) {x y : Json.Entry}
    (hlook : x.content = y.content) :
    AlikeAt (Json.dialect config) (Json.dialect config) a x b y where
  skips_eq := rfl
  inlines_eq := rfl
  own_eq := congrArg (fun content => withoutNodes (Json.own config.json content)) hlook
  encloses_eq := rfl

/-! ## Section 3: Documents of any format -/

theorem mapError_bind_congr {γ δ : Type} {change : Error → Error} {m m' : Except Error γ}
    (h : m.mapError change = m'.mapError change) (finish : γ → Except Error δ) :
    (m >>= finish).mapError change = (m' >>= finish).mapError change := by
  -- Both fail for the same reason, or both go on with the same value.
  cases m with
  | error e =>
    cases m' with
    | error e' => exact congrArg Except.error (Except.error.inj h)
    | ok value' => cases h
  | ok value =>
    cases m' with
    | error e' => cases h
    | ok value' =>
      cases Except.ok.inj h
      rfl

theorem except_bind_eq_ok_iff {γ δ : Type} {m : Except Error γ} {finish : γ → δ} {value : δ} :
    (do let inner ← m; return finish inner) = (.ok value : Except Error δ) ↔
      ∃ inner, m = .ok inner ∧ value = finish inner := by
  cases m with
  | error e => simp [bind, Except.bind]
  | ok inner => simp [bind, Except.bind, pure, Except.pure, eq_comm]

theorem except_map_eq_ok_iff {γ δ : Type} {m : Except Error γ} {finish : γ → δ} {value : δ} :
    m.map finish = .ok value ↔ ∃ inner, m = .ok inner ∧ finish inner = value := by
  cases m <;> simp [Except.map]

namespace Document

/-- The documents that operations of their format lead to. -/
def Reachable : Document → Prop
  | .html doc => doc.Reachable
  | .json doc => doc.Reachable
  | .xml doc => doc.Reachable

/-- Two documents of one format consist of the same ordered trees. The label of a node is all that
it holds but the position of an item in its array and, in HTML, sibling links and counts. -/
def SameTrees : Document → Document → Prop
  | .html P, .html Q => Forest.SameTrees Html.Entry.content P Q
  | .json P, .json Q => Forest.SameTrees Json.Entry.content P Q
  | .xml P, .xml Q => Forest.SameTrees id P Q
  | _, _ => False

/-- Documents with the same trees convert to the same notation with the same tables, or both fail
for the same reason, at a node of their own; whatever the numbers of their nodes, the nodes without
a root above them, and the order in which the trees have come about. -/
theorem convertWith_of_sameTrees {P Q : Document} (hP : P.Reachable) (hQ : Q.Reachable)
    (h : P.SameTrees Q) (config : Config) (supply : Supply) :
    (P.convertWith config supply).mapError Error.withoutNode =
      (Q.convertWith config supply).mapError Error.withoutNode := by
  -- One case for each format; documents of different formats have no trees in common.
  cases P with
  | html P =>
    cases Q with
    | html Q =>
      have hat : ∀ a b x y, Forest.Reached P Q a b → x.content = y.content →
          AlikeAt (Html.dialect config P) (Html.dialect config Q) a x b y :=
        fun _ _ _ _ => Html.alikeAt_dialect hP hQ h config
      have hlayout : (Html.dialect config P).layout = (Html.dialect config Q).layout := rfl
      exact mapError_bind_congr
        (mapError_convertWith hP.wellFormed hQ.wellFormed h hlayout hat Html.tables supply) _
    | json Q => exact h.elim
    | xml Q => exact h.elim
  | json P =>
    cases Q with
    | html Q => exact h.elim
    | json Q =>
      have hat : ∀ a b x y, Forest.Reached P Q a b → x.content = y.content →
          AlikeAt (Json.dialect config) (Json.dialect config) a x b y :=
        fun a b _ _ _ => Json.alikeAt_dialect config a b
      exact mapError_bind_congr
        (mapError_convertWith hP.wellFormed hQ.wellFormed h rfl hat Json.tables supply) _
    | xml Q => exact h.elim
  | xml P =>
    cases Q with
    | html Q => exact h.elim
    | json Q => exact h.elim
    | xml Q =>
      have hat : ∀ a b x y, Forest.Reached P Q a b → id x = id y →
          AlikeAt (Xml.dialect config) (Xml.dialect config) a x b y :=
        fun a b _ _ _ => Xml.alikeAt_dialect config a b
      exact mapError_bind_congr
        (mapError_convertWith hP.wellFormed hQ.wellFormed h rfl hat Xml.tables supply) _

/-- A document grown from its root downwards, and one in which the same tree has come about from its
leaves upwards, with a node moved on the way and another one left over. -/
theorem convertWith_of_moved_html :
    let P : Html.Document := List.foldl Html.Document.perform Forest.empty
      [.addRootElement "div" OrderedMap.empty, .addElement "p" OrderedMap.empty,
        .addText "x", .attach 1 0, .attach 2 0]
    let Q : Html.Document := List.foldl Html.Document.perform Forest.empty
      [.addElement "b" OrderedMap.empty, .addText "x", .addElement "p" OrderedMap.empty,
        .addRootElement "div" OrderedMap.empty, .attach 1 2, .attach 2 3, .attach 1 3]
    (Document.html P).Reachable ∧ (Document.html Q).Reachable ∧
      (Document.html P).SameTrees (.html Q) ∧
      (convertWith {} .standard (.html P)).mapError Error.withoutNode =
        (convertWith {} .standard (.html Q)).mapError Error.withoutNode := by
  intro P Q
  have hP : (Document.html P).Reachable := ⟨Forest.empty, _, rfl, rfl⟩
  have hQ : (Document.html Q).Reachable := ⟨Forest.empty, _, rfl, rfl⟩
  have hsame : (Document.html P).SameTrees (.html Q) := by
    -- The pairs at the same place; the node left over in the second document is in none of them.
    refine ⟨fun a b => (a, b) ∈ [(0, 3), (1, 2), (2, 1)], ?_, ?_, ?_⟩
    · have hroots : P.rootIds = [0] := Forest.rootIds_of_roots rfl
      have hroots' : Q.rootIds = [3] := by
        show List.mergeSort [3] _ = [3]
        rw [List.mergeSort_singleton]
      rw [hroots, hroots']
      exact .cons (by decide) .nil
    · intro a b hab
      simp only [List.mem_cons, Prod.mk.injEq, List.not_mem_nil, or_false] at hab
      rcases hab with ⟨rfl, rfl⟩ | ⟨rfl, rfl⟩ | ⟨rfl, rfl⟩
      · exact Eq.trans (b := some (Html.Document.elementContent "div" OrderedMap.empty)) rfl rfl
      · exact Eq.trans (b := some (Html.Document.elementContent "p" OrderedMap.empty)) rfl rfl
      · exact Eq.trans (b := some (.text (Text.trim "x"))) rfl rfl
    · intro a b hab
      simp only [List.mem_cons, Prod.mk.injEq, List.not_mem_nil, or_false] at hab
      rcases hab with ⟨rfl, rfl⟩ | ⟨rfl, rfl⟩ | ⟨rfl, rfl⟩
      · exact .cons (b := 2) (by decide) (.cons (b := 1) (by decide) .nil)
      · exact .nil
      · exact .nil
  exact ⟨hP, hQ, hsame, convertWith_of_sameTrees hP hQ hsame {} .standard⟩

end Document

end TreeNotation
