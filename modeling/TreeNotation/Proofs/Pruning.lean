import TreeNotation.Proofs.Conversion
import TreeNotation.Proofs.Writing.Shifting

/-!
# Skipping is Pruning

A document converts with nodes left out as the pruned document does with nothing left out, unless a
text follows nodes left out at the beginning of a row: it is written directly after the node above
only if it is the first child that is stored.

- **Configurations**: `Config.keepingAll`, which leaves nothing out;
- **Formats**: `alikeAt_pruned`; a node has as many written siblings in the document as in the
  pruned one, and its own text looks at no option for what is left out;
- **Documents**: `Document.pruned` and `exists_pruned`, which leads to it by operations;
  `convertWith_keepingAll_of_pruned` compares the conversions, and `pruning_moves_text` is the case
  in which they differ.
-/

namespace TreeNotation

open Token (Ledger Supply Yields withoutNodes)
open Writing (Conversion Dialect braced)
open Writing.Dialect (AlikeAt BeginsBraced mapError_convertWith)

/-! ## Section 1: What is written of the pruned document -/

theorem mapError_eq_ok {γ : Type} {change : Error → Error} {m : Except Error γ} {value : γ}
    (h : m.mapError change = .ok value) : m = .ok value := by
  cases m with
  | error e => cases h
  | ok value' => exact h

/-- Two conversions come to the same on a condition, and have different notations without it. -/
structure SameIff {μ : Type} (condition : Prop) (m m' : Except Error (Conversion μ)) : Prop where
  same : condition → m.mapError Error.withoutNode = m'.mapError Error.withoutNode
  differ : ¬ condition → ∀ result result', m = .ok result → m' = .ok result' →
    result.text ≠ result'.text

/-- A conversion that comes to the same as one of the pruned forest with nothing left out comes to
the same as one of the forest itself exactly if no row shifts. -/
theorem sameIff_settled {α κ μ : Type} {d : Dialect α κ} {tables : Ledger κ → μ}
    {a : Supply} {f : Forest α} {other : Except Error (Conversion μ)}
    (hkeeps : ∀ label, d.inlines label = true → d.skips label = false) (hbraces : d.Braces)
    (hf : f.WellFormed)
    (hother : (d.keepingAll.convertWith tables a (f.pruned d.skips)).mapError Error.withoutNode =
      other.mapError Error.withoutNode) :
    SameIff (d.SettledEach f.trees) (d.convertWith tables a f) other where
  same hsettled := by
    rw [Writing.Dialect.convertWith_pruned hkeeps hf hsettled, hother]
  differ hsettled result result' hresult hresult' := by
    rw [hresult'] at hother
    exact Writing.Dialect.text_ne_of_not_settled hkeeps hbraces hf hsettled hresult
      (mapError_eq_ok hother)

/-- Tables of one format are tables of a document. -/
theorem SameIff.wrap {μ : Type} {condition : Prop} {m m' : Except Error (Conversion μ)}
    (h : SameIff condition m m') (wrap : μ → Tables) :
    SameIff condition (m >>= fun inner => pure ⟨inner.text, wrap inner.tables⟩)
      (m' >>= fun inner => pure ⟨inner.text, wrap inner.tables⟩) where
  same hcondition := mapError_bind_congr (h.same hcondition) _
  differ hcondition result result' hresult hresult' := by
    cases m with
    | error e => cases hresult
    | ok inner =>
      cases m' with
      | error e => cases hresult'
      | ok inner' =>
        cases hresult
        cases hresult'
        exact h.differ hcondition inner inner' rfl rfl

theorem beginsBraced_braced (payload : String) : BeginsBraced (braced "" payload) :=
  ⟨payload.toList ++ ['\x7d'], by simp [braced]⟩

/-- The configuration that leaves nothing out. -/
def Config.keepingAll (config : Config) : Config :=
  { config with
    html := { config.html with skipTags := false }
    xml := { config.xml with skipTags := false, skipComments := false } }

/-! ## Section 2: HTML -/

namespace Html

variable {P Q : Document} {config : Config}

/-- Whether the node with this entry is left out. -/
def skipsEntry (config : Config) : Entry → Bool := fun entry => skips config.html entry.content

theorem skips_keepingAll (content : Content) : skips config.keepingAll.html content = false := by
  cases content <;> simp [skips, Config.keepingAll]

theorem own_keepingAll (content : Content) :
    own config.keepingAll.html content = own config.html content := by
  cases content <;> rfl

theorem braces_dialect (doc : Document) : (dialect config doc).Braces := by
  intro id entry hinlines
  obtain ⟨content, _⟩ := entry
  cases content with
  | element tag attributes => cases hinlines
  | text payload => exact Yields.pure (beginsBraced_braced (Text.escapeText payload))

theorem isWritten_pruned {id : NodeId} (h : P.finds (skipsEntry config) id = false) :
    isWritten config.html P id =
      isWritten config.keepingAll.html (P.pruned (skipsEntry config)) id := by
  unfold isWritten
  rw [Forest.label?_pruned]
  cases hlabel : P.label? id with
  | none => rfl
  | some entry =>
    have hkept : skips config.html entry.content = false := by
      simpa [Forest.finds, hlabel, skipsEntry] using h
    simp [hkept, skips_keepingAll]

theorem countP_children_pruned (P : Document) (id : NodeId) :
    ((P.pruned (skipsEntry config)).children id).countP (isWritten config.html P) =
      (P.children id).countP (isWritten config.html P) := by
  rw [Forest.children_pruned, Forest.keptOf, List.countP_filter]
  refine List.countP_congr fun other _ => ?_
  unfold isWritten Forest.finds skipsEntry
  cases P.label? other <;> simp

/-- At the same place in the pruned document, the same siblings are written. -/
theorem writtenSiblings_of_pruned (hP : P.Reachable) (hQ : Q.Reachable)
    (h : (P.pruned (skipsEntry config)).SameTrees Entry.content Q) {a b : NodeId}
    (hab : Forest.Reached (P.pruned (skipsEntry config)) Q a b) :
    writtenSiblings config.html P a = writtenSiblings config.keepingAll.html Q b := by
  obtain ⟨pairs, hpairs⟩ := h
  have hsame := hpairs.reached
  have hwritten : ∀ a b, Forest.Reached (P.pruned (skipsEntry config)) Q a b →
      isWritten config.html P a = isWritten config.keepingAll.html Q b := by
    intro a b hab
    rw [isWritten_pruned hab.finds_eq_false]
    exact isWritten_of_label_eq _ (hsame.label_eq a b hab)
  have hparent : (P.pruned (skipsEntry config)).parent? a = P.parent? a := by
    rw [Forest.parent?_pruned, hab.finds_eq_false, if_neg Bool.false_ne_true]
  rw [Document.writtenSiblings_eq hP.wellFormed hP.counted,
    Document.writtenSiblings_eq hQ.wellFormed hQ.counted]
  unfold Document.countBeside
  -- Both sides look at the children of the parents, of which the pruned document has lost those
  -- that do not count.
  rcases hab.parents (hP.wellFormed.pruned _) hQ.wellFormed with ⟨ha, hb⟩ | ⟨p, q, ha, hb, hpq⟩
  · rw [hparent] at ha
    simp only [ha, hb]
  · rw [hparent] at ha
    simp only [ha, hb, hwritten a b hab, ← countP_children_pruned P p,
      countP_eq_of_forall₂ hwritten (hsame.children p q hpq)]

theorem alikeAt_pruned (hP : P.Reachable) (hQ : Q.Reachable)
    (h : (P.pruned (skipsEntry config)).SameTrees Entry.content Q) {a b : NodeId} {x y : Entry}
    (hab : Forest.Reached (P.pruned (skipsEntry config)) Q a b) (hlook : x.content = y.content) :
    AlikeAt (dialect config P).keepingAll (dialect config.keepingAll Q) a x b y where
  skips_eq := (skips_keepingAll y.content).symm
  inlines_eq := congrArg Content.isText hlook
  own_eq := by
    show withoutNodes (own config.html x.content) =
      withoutNodes (own config.keepingAll.html y.content)
    rw [own_keepingAll, hlook]
  encloses_eq := by
    simp only [dialect, Writing.Dialect.keepingAll, writtenSiblings_of_pruned hP hQ h hab]

theorem convert_pruned (hP : P.Reachable) (hQ : Q.Reachable)
    (h : (P.pruned (skipsEntry config)).SameTrees Entry.content Q) (supply : Supply) :
    ((dialect config P).keepingAll.convertWith tables supply
        (P.pruned (skipsEntry config))).mapError Error.withoutNode =
      (convert config.keepingAll supply Q).mapError Error.withoutNode := by
  have hat : ∀ a b x y, Forest.Reached (P.pruned (skipsEntry config)) Q a b →
      x.content = y.content →
      AlikeAt (dialect config P).keepingAll (dialect config.keepingAll Q) a x b y :=
    fun _ _ _ _ => alikeAt_pruned hP hQ h
  have hlayout : (dialect config P).keepingAll.layout = (dialect config.keepingAll Q).layout := rfl
  exact mapError_convertWith (hP.wellFormed.pruned _) hQ.wellFormed h hlayout hat tables supply

/-- The operations that move all nodes left out below a new text that is no root. -/
def removal (config : Config) (doc : Document) : List Operation :=
  .addText "" :: (Forest.found doc (skipsEntry config)).map fun id => .attach id doc.size

theorem exists_pruned (hP : P.Reachable) (config : Config) : ∃ Q : Document, Q.Reachable ∧
    (P.pruned (skipsEntry config)).SameTrees Entry.content Q := by
  refine ⟨(removal config P).foldl Document.perform P, ReachedFrom.foldl hP _, ?_⟩
  have hops : (removal config P).map Operation.bare =
      P.contents.removal (skips config.html) (.text (Text.trim "")) := by
    simp only [removal, Forest.removal, Document.contents, Forest.found_relabel,
      Forest.size_relabel, List.map_cons, List.map_map]
    rfl
  have hwell : P.contents.WellFormed := Forest.wellFormed_relabel_iff.mpr hP.wellFormed
  have hsame := Forest.sameTrees_removal hwell (skips config.html) (.text (Text.trim ""))
  have hpruned : P.contents.pruned (skips config.html) =
      Document.contents (P.pruned (skipsEntry config)) :=
    Forest.pruned_relabel Entry.content (skips config.html) P
  -- The contents grow as any forest does.
  rw [hpruned, ← hops, ← Document.contents_foldl_perform] at hsame
  exact Forest.sameTrees_relabel_iff.mp hsame

end Html

/-! ## Section 3: XML -/

namespace Xml

variable {P Q : Document} {config : Config}

theorem skips_keepingAll (content : Content) : skips config.keepingAll.xml content = false := by
  cases content <;> simp [skips, Config.keepingAll]

theorem braces_dialect : (dialect config).Braces := by
  intro id content hinlines
  cases content with
  | text payload => exact Yields.pure (beginsBraced_braced (Text.escapeText payload))
  | _ => cases hinlines

theorem alikeAt_pruned (a b : NodeId) {x y : Content} (hlook : x = y) :
    AlikeAt (dialect config).keepingAll (dialect config.keepingAll) a x b y where
  skips_eq := (skips_keepingAll y).symm
  inlines_eq := congrArg Content.isText hlook
  own_eq := by
    subst hlook
    -- Only the refusal of a processing instruction names the node.
    cases x <;> rfl
  encloses_eq := rfl

theorem convert_pruned (hP : P.Reachable) (hQ : Q.Reachable)
    (h : (P.pruned (skips config.xml)).SameTrees id Q) (supply : Supply) :
    ((dialect config).keepingAll.convertWith tables supply
        (P.pruned (skips config.xml))).mapError Error.withoutNode =
      (convert config.keepingAll supply Q).mapError Error.withoutNode := by
  have hat : ∀ a b x y, Forest.Reached (P.pruned (skips config.xml)) Q a b → id x = id y →
      AlikeAt (dialect config).keepingAll (dialect config.keepingAll) a x b y :=
    fun a b _ _ _ => alikeAt_pruned a b
  have hlayout : (dialect config).keepingAll.layout = (dialect config.keepingAll).layout := rfl
  exact mapError_convertWith (hP.wellFormed.pruned _) hQ.wellFormed h hlayout hat tables supply

/-- The operations that move all nodes left out below a new text that is no root. -/
def removal (config : Config) (doc : Document) : List Operation :=
  .addText "" :: (Forest.found doc (skips config.xml)).map fun id => .attach id doc.size

theorem exists_pruned (hP : P.Reachable) (config : Config) : ∃ Q : Document, Q.Reachable ∧
    (P.pruned (skips config.xml)).SameTrees id Q := by
  refine ⟨(removal config P).foldl Document.perform P, ReachedFrom.foldl hP _, ?_⟩
  have hops : (removal config P).map Operation.bare =
      Forest.removal P (skips config.xml) (.text (Text.trim "")) := by
    simp [removal, Forest.removal, Operation.bare, Function.comp_def]
  rw [Document.foldl_perform_eq, hops]
  exact Forest.sameTrees_removal hP.wellFormed (skips config.xml) _

end Xml

/-! ## Section 4: Documents of any format -/

namespace Document

variable {P Q : Document} {config : Config}

/-- The document without the nodes that a configuration leaves out, and without all that is below
those. In JSON, nothing is left out. -/
def pruned (config : Config) : Document → Document
  | .html doc => .html (Forest.pruned doc (Html.skipsEntry config))
  | .json doc => .json doc
  | .xml doc => .xml (Forest.pruned doc (Xml.skips config.xml))

/-- No node whose children are written has a first child that is left out, and a text as the first
child that is not. -/
def Settled (config : Config) : Document → Prop
  | .html doc => (Html.dialect config doc).SettledEach (Forest.trees doc)
  | .json _ => True
  | .xml doc => (Xml.dialect config).SettledEach (Forest.trees doc)

theorem exists_pruned (hP : P.Reachable) (config : Config) :
    ∃ Q : Document, Q.Reachable ∧ (P.pruned config).SameTrees Q := by
  cases P with
  | html P =>
    obtain ⟨Q, hQ, hsame⟩ := Html.exists_pruned hP config
    exact ⟨.html Q, hQ, hsame⟩
  | json P => exact ⟨.json P, hP, Forest.SameTrees.refl _ P⟩
  | xml P =>
    obtain ⟨Q, hQ, hsame⟩ := Xml.exists_pruned hP config
    exact ⟨.xml Q, hQ, hsame⟩

/-- There are documents with the trees of the pruned one. Each of them converts with nothing left
out as the document does with nodes left out, to the same notation and the same tables, or both fail
for the same reason, at a node of their own. The only documents of which this is not true are those
in which a node whose children are written has a first child that is left out and a text as the
first child that is not; there, the notations are different ones. -/
theorem convertWith_keepingAll_of_pruned (hP : P.Reachable) (config : Config) (supply : Supply) :
    (∃ Q : Document, Q.Reachable ∧ (P.pruned config).SameTrees Q) ∧
    ∀ Q : Document, Q.Reachable → (P.pruned config).SameTrees Q →
      (P.Settled config → (P.convertWith config supply).mapError Error.withoutNode =
        (Q.convertWith config.keepingAll supply).mapError Error.withoutNode) ∧
      (¬ P.Settled config → ∀ result result', P.convertWith config supply = .ok result →
        Q.convertWith config.keepingAll supply = .ok result' → result.text ≠ result'.text) := by
  refine ⟨exists_pruned hP config, fun Q hQ h => ?_⟩
  cases P with
  | html P =>
    cases Q with
    | html Q =>
      have hsame := sameIff_settled (fun _ => Html.skips_of_inlines) (Html.braces_dialect P)
        hP.wellFormed (Html.convert_pruned hP hQ h supply)
      exact ⟨(hsame.wrap Tables.html).same, (hsame.wrap Tables.html).differ⟩
    | json Q => exact h.elim
    | xml Q => exact h.elim
  | json P =>
    cases Q with
    | html Q => exact h.elim
    | json Q =>
      -- Nothing is left out, and no option for what is left out is looked at.
      exact ⟨fun _ => convertWith_of_sameTrees hP hQ h config supply, fun hsettled =>
        (hsettled True.intro).elim⟩
    | xml Q => exact h.elim
  | xml P =>
    cases Q with
    | html Q => exact h.elim
    | json Q => exact h.elim
    | xml Q =>
      have hsame := sameIff_settled (fun _ => Xml.skips_of_inlines) Xml.braces_dialect
        hP.wellFormed (Xml.convert_pruned hP hQ h supply)
      exact ⟨(hsame.wrap Tables.xml).same, (hsame.wrap Tables.xml).differ⟩

/-- A paragraph with a text, a script and an element: the text comes first with the script and
without it. -/
theorem text_before_script :
    let P : Html.Document := List.foldl Html.Document.perform Forest.empty
      [.addRootElement "p" .empty, .addText "text", .addElement "script" .empty,
        .addElement "b" .empty, .attach 1 0, .attach 2 0, .attach 3 0]
    let tags : Config := { html := { skipTags := true } }
    (Document.html P).Reachable ∧ (Document.html P).Settled tags ∧
      ∃ Q result, Document.Reachable Q ∧ ((Document.html P).pruned tags).SameTrees Q ∧
        convertWith tags .standard (.html P) = .ok result ∧
        convertWith tags.keepingAll .standard Q = .ok result ∧
        result.text = "p\x7btext\x7d>b" := by
  intro P tags
  have hP : (Document.html P).Reachable := ⟨Forest.empty, _, rfl, rfl⟩
  have hroot : P.rootIds = [0] := List.mergeSort_singleton _
  have hsettled : (Document.html P).Settled tags := by
    show (Html.dialect tags P).SettledEach (Forest.trees P)
    unfold Forest.trees
    rw [hroot]
    refine ⟨fun _ => ⟨rfl, ?_, ?_, ?_, trivial⟩, trivial⟩
    · intro hinlines
      cases hinlines
    · intro hkept
      cases hkept
    · intro _
      exact ⟨rfl, trivial⟩
  obtain ⟨inner, hinner, htext⟩ : ∃ inner, Html.convert tags .standard P = .ok inner ∧
      inner.text = "p\x7btext\x7d>b" := by
    unfold Html.convert Dialect.convertWith Dialect.convert
    rw [hroot]
    exact ⟨_, rfl, rfl⟩
  have hresult : convertWith tags .standard (.html P) =
      .ok ⟨inner.text, .html inner.tables⟩ := by
    rw [convertWith, hinner]
    rfl
  obtain ⟨⟨Q, hQ, hsame⟩, hall⟩ := convertWith_keepingAll_of_pruned hP tags .standard
  have hconvert := (hall Q hQ hsame).1 hsettled
  rw [hresult] at hconvert
  exact ⟨hP, hsettled, Q, _, hQ, hsame, hresult, mapError_eq_ok hconvert.symm, htext⟩

/-- A paragraph with a text that a script comes before, and an element with a text that a comment
comes before: without the script and the comment, the texts come first. -/
theorem pruning_moves_text :
    let P : Html.Document := List.foldl Html.Document.perform Forest.empty
      [.addRootElement "p" .empty, .addElement "script" .empty, .addText "text",
        .addElement "b" .empty, .attach 1 0, .attach 2 0, .attach 3 0]
    let Q : Html.Document := List.foldl Html.Document.perform Forest.empty
      [.addRootElement "p" .empty, .addText "text", .addElement "b" .empty, .attach 1 0,
        .attach 2 0]
    let tags : Config := { html := { skipTags := true } }
    let P' : Xml.Document := List.foldl Xml.Document.perform Forest.empty
      [.addRootElement "a" .empty, .addComment "c", .addText "text", .attach 1 0, .attach 2 0]
    let Q' : Xml.Document := List.foldl Xml.Document.perform Forest.empty
      [.addRootElement "a" .empty, .addText "text", .attach 1 0]
    let comments : Config := { xml := { skipComments := true } }
    (P.Reachable ∧ Q.Reachable ∧
      (P.pruned (Html.skipsEntry tags)).SameTrees Html.Entry.content Q ∧
      (∃ result, Html.convert tags .standard P = .ok result ∧ result.text = "p>\x7btext\x7d+b") ∧
      ∃ result, Html.convert tags.keepingAll .standard Q = .ok result ∧
        result.text = "p\x7btext\x7d>b") ∧
    P'.Reachable ∧ Q'.Reachable ∧ (P'.pruned (Xml.skips comments.xml)).SameTrees id Q' ∧
      (∃ result, Xml.convert comments .standard P' = .ok result ∧
        result.text = "a>\x7btext\x7d") ∧
      ∃ result, Xml.convert comments.keepingAll .standard Q' = .ok result ∧
        result.text = "a\x7btext\x7d" := by
  intro P Q tags P' Q' comments
  have hP : P.Reachable := ⟨Forest.empty, _, rfl, rfl⟩
  have hQ : Q.Reachable := ⟨Forest.empty, _, rfl, rfl⟩
  have hP' : P'.Reachable := ⟨Forest.empty, _, rfl, rfl⟩
  have hQ' : Q'.Reachable := ⟨Forest.empty, _, rfl, rfl⟩
  have hsingle : ∀ {test : NodeId → NodeId → Bool}, List.mergeSort [0] test = [0] :=
    List.mergeSort_singleton _
  have hrootP : P.rootIds = [0] := hsingle
  have hrootQ : Q.rootIds = [0] := hsingle
  have hrootP' : P'.rootIds = [0] := hsingle
  have hrootQ' : Q'.rootIds = [0] := hsingle
  refine ⟨⟨hP, hQ, ?_, ?_, ?_⟩, hP', hQ', ?_, ?_, ?_⟩
  · refine Forest.sameTrees_of_pairs [(0, 0), (2, 1), (3, 2)] ?_ ?_
    · rw [Forest.rootIds_pruned hP.wellFormed, hrootP, hrootQ]
      exact .cons (.head _) .nil
    · simp only [List.forall_mem_cons, Forest.label?_pruned, Forest.children_pruned]
      refine ⟨⟨?_, ?_⟩, ⟨?_, .nil⟩, ⟨?_, .nil⟩, by simp⟩
      · exact Eq.trans (b := some (Html.Document.elementContent "p" .empty)) rfl rfl
      · exact .cons (b := 1) (.tail _ (.head _)) (.cons (b := 2) (.tail _ (.tail _ (.head _))) .nil)
      · exact Eq.trans (b := some (.text (Text.trim "text"))) rfl rfl
      · exact Eq.trans (b := some (Html.Document.elementContent "b" .empty)) rfl rfl
  · unfold Html.convert Dialect.convertWith Dialect.convert
    rw [hrootP]
    exact ⟨_, rfl, rfl⟩
  · unfold Html.convert Dialect.convertWith Dialect.convert
    rw [hrootQ]
    exact ⟨_, rfl, rfl⟩
  · refine Forest.sameTrees_of_pairs [(0, 0), (2, 1)] ?_ ?_
    · rw [Forest.rootIds_pruned hP'.wellFormed, hrootP', hrootQ']
      exact .cons (.head _) .nil
    · simp only [List.forall_mem_cons, Forest.label?_pruned, Forest.children_pruned]
      refine ⟨⟨?_, ?_⟩, ⟨?_, .nil⟩, by simp⟩
      · exact Eq.trans (b := some (Xml.Document.elementContent "a" .empty)) rfl rfl
      · exact .cons (b := 1) (.tail _ (.head _)) .nil
      · exact Eq.trans (b := some (.text (Text.trim "text"))) rfl rfl
  · unfold Xml.convert Dialect.convertWith Dialect.convert
    rw [hrootP']
    exact ⟨_, rfl, rfl⟩
  · unfold Xml.convert Dialect.convertWith Dialect.convert
    rw [hrootQ']
    exact ⟨_, rfl, rfl⟩

end Document

end TreeNotation
