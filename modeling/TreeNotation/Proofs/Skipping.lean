import Mathlib.Data.List.TakeDrop
import TreeNotation.Proofs.Html.Growth
import TreeNotation.Proofs.Html.Requests
import TreeNotation.Proofs.Writing.Pruning
import TreeNotation.Proofs.Xml.Growth
import TreeNotation.Proofs.Xml.Requests

/-!
# Elements that are Left Out

Which elements a list of tags leaves out. An element is created in lower case and the list is taken
as it is given, so the list is one of names in lower case: a name in it that has a capital leaves
out nothing.

- **Names**: `Text.lower_eq_self_iff`, and `Xml.qualifiedName_of_lower`, that a name in lower case
  is the full name of the element that is created from it;
- **Any dialect**: `LeavesOut` and `BeginsWith`, what is written of a node that is left out and of
  one that is not;
- **Formats**: `left_out_iff_listed_in_lower_case`.
-/

namespace TreeNotation

open Token (Ledger bind_eq_ok_iff)
open Writing (Attributes)

/-! ## Section 1: Names in lower case -/

namespace Text

/-- A character that is its own lower case wherever it stands. -/
def IsSmall (c : Char) : Prop := ∀ before after, lowerAt before c after = [c]

/-- A text that begins in lower case begins with a small character. -/
theorem isSmall_of_lowerAt {before after rest : List Char} {c : Char}
    (h : lowerAt before c after ++ rest = c :: after) : IsSmall c ∧ rest = after := by
  unfold lowerAt at h
  split at h
  case isTrue hsigma =>
    -- Neither of the small sigmas is the capital one.
    split at h
    · exact absurd ((List.cons.inj h).1.trans hsigma) (by decide)
    · exact absurd ((List.cons.inj h).1.trans hsigma) (by decide)
  case isFalse hsigma =>
    split at h
    case isTrue hdot => exact absurd ((List.cons.inj h).1.trans hdot) (by decide)
    case isFalse hdot =>
      obtain ⟨hchar, hrest⟩ := List.cons.inj h
      refine ⟨fun _ _ => ?_, hrest⟩
      rw [lowerAt, if_neg hsigma, if_neg hdot, hchar]

theorem lowerAfter_eq_self_iff {before cs : List Char} :
    lowerAfter before cs = cs ↔ ∀ c ∈ cs, IsSmall c := by
  induction cs generalizing before with
  | nil => simp [lowerAfter]
  | cons c cs ih =>
    rw [List.forall_mem_cons, lowerAfter]
    constructor
    · intro h
      obtain ⟨hsmall, hrest⟩ := isSmall_of_lowerAt h
      exact ⟨hsmall, ih.mp hrest⟩
    · intro h
      rw [h.1, ih.mpr h.2]
      rfl

/-- A text is its own lower case if all its characters are. -/
theorem lower_eq_self_iff {s : String} : lower s = s ↔ ∀ c ∈ s.toList, IsSmall c := by
  rw [lower, ← String.toList_inj, String.toList_ofList]
  exact lowerAfter_eq_self_iff

end Text

namespace Xml

/-- A name with a colon is what comes before the first one, the colon, and what comes after it. -/
theorem splitName_cases (name : String) :
    (∃ space rest, splitName name = (some space, rest) ∧ name = space ++ ":" ++ rest) ∨
      splitName name = (none, name) := by
  unfold splitName
  rw [List.span_eq_takeWhile_dropWhile]
  have hjoined : (name.toList.takeWhile fun c => c ≠ ':') ++
      (name.toList.dropWhile fun c => c ≠ ':') = name.toList := List.takeWhile_append_dropWhile
  have hhead := List.head?_dropWhile_not (fun c => decide (c ≠ ':')) name.toList
  generalize name.toList.takeWhile (fun c => decide (c ≠ ':')) = before at hjoined ⊢
  cases hrest : name.toList.dropWhile fun c => c ≠ ':' with
  | nil =>
    rw [hrest, List.append_nil] at hjoined
    refine .inr (Prod.ext rfl ?_)
    show String.ofList before = name
    rw [hjoined, String.ofList_toList]
  | cons c rest =>
    -- The rest begins with the first character that the search does not pass over.
    rw [hrest] at hjoined hhead
    obtain rfl : c = ':' := by simpa using hhead
    refine .inl ⟨_, _, rfl, ?_⟩
    rw [← String.toList_inj, ← hjoined]
    simp

/-- A name in lower case is the full name of the element that is created from it. -/
theorem qualifiedName_of_lower {name : String} (h : Text.lower name = name)
    (attributes : Attributes) :
    (Document.elementContent name attributes).qualifiedName = name := by
  have hsmall := Text.lower_eq_self_iff.mp h
  unfold Document.elementContent
  rcases splitName_cases name with ⟨space, rest, hname, hsplit⟩ | hname
  · have hspace : Text.lower space = space := Text.lower_eq_self_iff.mpr fun c hc =>
      hsmall c (by rw [hsplit]; simp [hc])
    have hrest : Text.lower rest = rest := Text.lower_eq_self_iff.mpr fun c hc =>
      hsmall c (by rw [hsplit]; simp [hc])
    rw [hname]
    simp only [Option.map_some, hspace, hrest]
    exact hsplit.symm
  · rw [hname]
    exact h

end Xml

/-! ## Section 2: Any dialect -/

namespace Writing.Dialect

variable {α κ : Type} {d : Dialect α κ} {f : Forest α} {id : NodeId} {label : α}

/-- Nothing is written of the tree below a node, at any level, and no name is requested for it. -/
def LeavesOut (d : Dialect α κ) (f : Forest α) (id : NodeId) : Prop :=
  ∀ level ledger, d.build f id level ledger = .ok "" ledger

/-- What is written of a node begins with a name that is like `shown`, after the margin and at most
a parenthesis. -/
def BeginsWith (d : Dialect α κ) (f : Forest α) (id : NodeId) (shown : String → Prop) : Prop :=
  ∀ level ledger text after, d.build f id level ledger = .ok text after →
    ∃ opening name rest, (opening = "" ∨ opening = "(") ∧ shown name ∧
      text = d.layout.margin level ++ opening ++ name ++ rest

/-- A node is left out if it is `listed`, and otherwise it is written from a name like `shown`
on. -/
structure LeftOutIf (d : Dialect α κ) (listed : Prop) (f : Forest α) (id : NodeId)
    (shown : String → Prop) : Prop where
  leavesOut : listed → d.LeavesOut f id
  beginsWith : ¬ listed → d.BeginsWith f id shown

theorem leavesOut_of_skips (hf : f.WellFormed) (hlabel : f.label? id = some label)
    (hskips : d.skips label = true) : d.LeavesOut f id := by
  intro level ledger
  obtain ⟨tree, htree⟩ :=
    Option.isSome_iff_exists.mp (Forest.isSome_subtree? hf (Forest.lt_size_of_label? hlabel))
  have htop : some label = some tree.label := hlabel.symm.trans (Forest.label?_of_unfold htree)
  rw [Option.some.inj htop] at hskips
  rw [build, htree]
  show d.render level tree ledger = _
  rw [render_of_skips level hskips]
  rfl

theorem beginsWith_of_not_skips (hlabel : f.label? id = some label)
    (hskips : d.skips label = false) {shown : String → Prop}
    (hown : ∀ ledger own after, d.own id label ledger = .ok own after →
      ∃ name rest, shown name ∧ own = name ++ rest) : d.BeginsWith f id shown := by
  intro level ledger text after hbuild
  rw [build] at hbuild
  cases htree : f.subtree? id with
  | none => rw [htree] at hbuild; cases hbuild
  | some tree =>
    rw [htree] at hbuild
    have hid : tree.id = id := Forest.id_of_unfold htree
    have htop : some label = some tree.label := hlabel.symm.trans (Forest.label?_of_unfold htree)
    obtain ⟨other, top, children⟩ := tree
    obtain rfl : other = id := hid
    obtain rfl : label = top := Option.some.inj htop
    replace hbuild : d.render level (.node other label children) ledger = .ok text after := hbuild
    rw [render, if_neg (Bool.eq_false_iff.mp hskips)] at hbuild
    obtain ⟨own, mid, hrun, hbelow⟩ := bind_eq_ok_iff.mp hbuild
    obtain ⟨⟨lead, parts⟩, last, -, hwritten⟩ := bind_eq_ok_iff.mp hbelow
    cases hwritten
    obtain ⟨name, rest, hname, rfl⟩ := hown ledger own mid hrun
    unfold assemble
    split
    case isTrue =>
      exact ⟨"(", name, rest ++ lead ++ d.layout.group parts ++ ")", .inr rfl, hname, by
        simp only [String.append_assoc]⟩
    case isFalse =>
      exact ⟨"", name, rest ++ lead ++ d.layout.group parts, .inl rfl, hname, by
        simp only [String.append_assoc, String.append_empty]⟩

theorem leftOutIf_of_skips_iff {listed : Prop} (hf : f.WellFormed)
    (hlabel : f.label? id = some label) (hskips : d.skips label = true ↔ listed)
    {shown : String → Prop} (hown : ∀ ledger own after, d.own id label ledger = .ok own after →
      ∃ name rest, shown name ∧ own = name ++ rest) : d.LeftOutIf listed f id shown where
  leavesOut hlisted := leavesOut_of_skips hf hlabel (hskips.mpr hlisted)
  beginsWith hlisted :=
    beginsWith_of_not_skips hlabel (Bool.eq_false_iff.mpr fun h => hlisted (hskips.mp h)) hown

end Writing.Dialect

/-! ## Section 3: HTML -/

open Writing.Dialect (LeftOutIf leftOutIf_of_skips_iff)

namespace Html

variable {doc : Document} {op : Operation} {tag : String} {attributes : Attributes}

/-- An element has its tag in lower case ever after it has been created. -/
theorem label?_of_created (doc : Document)
    (hop : op = .addElement tag attributes ∨ op = .addRootElement tag attributes)
    (later : List Operation) :
    ∃ entry, Forest.label? ((op :: later).foldl Document.perform doc) doc.size = some entry ∧
      entry.content = Document.elementContent tag attributes := by
  have hbare : op.bare = .push (Document.elementContent tag attributes) ∨
      op.bare = .pushRoot (Document.elementContent tag attributes) := by
    rcases hop with rfl | rfl
    · exact .inl rfl
    · exact .inr rfl
  have hlabel := Forest.label?_of_created doc.contents hbare (later.map Operation.bare)
  have hcontents := Document.contents_foldl_perform (doc.perform op) later
  rw [Document.contents_perform] at hcontents
  rw [← hcontents, Document.contents, Document.contents, Forest.size_relabel,
    Forest.label?_relabel] at hlabel
  exact Option.map_eq_some_iff.mp hlabel

/-- An element by itself begins with its tag. -/
theorem own_eq_tag_append {options : HtmlOptions} {ledger after : Ledger Slot} {text : String}
    (h : own options (.element tag attributes) ledger = .ok text after) :
    ∃ rest, text = tag ++ rest := by
  obtain ⟨classes, _, -, h⟩ := bind_eq_ok_iff.mp h
  obtain ⟨linked, _, -, h⟩ := bind_eq_ok_iff.mp h
  obtain ⟨shown, _, -, h⟩ := bind_eq_ok_iff.mp h
  cases h
  exact ⟨Writing.idPart (counted options attributes) ++ classes ++
    Writing.attributeList (bracketed options shown), by simp only [String.append_assoc]⟩

theorem leftOutIf_of_created {config : Config} (hskip : config.html.skipTags = true)
    (hdoc : doc.Reachable)
    (hop : op = .addElement tag attributes ∨ op = .addRootElement tag attributes)
    (later : List Operation) :
    let after := (op :: later).foldl Document.perform doc
    LeftOutIf (dialect config after) (Text.lower tag ∈ config.html.tagsToSkip) after doc.size
      fun text => text = Text.lower tag := by
  intro after
  obtain ⟨entry, hentry, hcontent⟩ := label?_of_created doc hop later
  refine leftOutIf_of_skips_iff (Document.Reachable.wellFormed (hdoc.foldl (op :: later))) hentry
    ?_ fun ledger text last hown => ?_
  · show skips config.html entry.content = true ↔ _
    rw [hcontent, Document.elementContent, skips, hskip, Bool.true_and, OrderedSet.contains_iff]
  · replace hown : own config.html entry.content ledger = .ok text last := hown
    rw [hcontent] at hown
    obtain ⟨rest, hrest⟩ := own_eq_tag_append hown
    exact ⟨_, rest, rfl, hrest⟩

end Html

/-! ## Section 4: XML -/

namespace Xml

variable {doc : Document} {op : Operation} {name : String} {attributes : Attributes}

theorem label?_of_created (doc : Document)
    (hop : op = .addElement name attributes ∨ op = .addRootElement name attributes)
    (later : List Operation) :
    Forest.label? ((op :: later).foldl Document.perform doc) doc.size =
      some (Document.elementContent name attributes) := by
  have hbare : op.bare = .push (Document.elementContent name attributes) ∨
      op.bare = .pushRoot (Document.elementContent name attributes) := by
    rcases hop with rfl | rfl
    · exact .inl rfl
    · exact .inr rfl
  rw [List.foldl_cons, Document.perform_eq, Document.foldl_perform_eq]
  exact Forest.label?_of_created doc hbare (later.map Operation.bare)

/-- An element by itself begins with its local name, after the prefix or the name that stands in for
it if it has one. -/
theorem own_eq_nameText_append {options : XmlOptions} (id : NodeId) {space : Option String}
    {ledger after : Ledger Slot} {text : String}
    (h : own options id (.element space name attributes) ledger = .ok text after) :
    ∃ shown rest, shown.isSome = space.isSome ∧ text = nameText shown name ++ rest := by
  obtain ⟨written, _, hname, h⟩ := bind_eq_ok_iff.mp h
  obtain ⟨shown, _, -, h⟩ := bind_eq_ok_iff.mp h
  cases h
  have hwritten : ∃ shown, shown.isSome = space.isSome ∧ written = nameText shown name := by
    unfold writeName at hname
    cases space with
    | none =>
      cases hname
      exact ⟨none, rfl, rfl⟩
    | some space =>
      dsimp only at hname
      split at hname
      case isTrue =>
        obtain ⟨token, _, -, hpure⟩ := bind_eq_ok_iff.mp hname
        cases hpure
        exact ⟨some token, rfl, rfl⟩
      case isFalse =>
        cases hname
        exact ⟨some space, rfl, rfl⟩
  obtain ⟨before, hsome, rfl⟩ := hwritten
  exact ⟨before, Writing.idPart shown ++ Writing.classPart (Writing.classNames shown) ++
    Writing.attributeList (Writing.listed shown), hsome, by simp only [String.append_assoc]⟩

theorem leftOutIf_of_created {config : Config} (hskip : config.xml.skipTags = true)
    (hdoc : doc.Reachable)
    (hop : op = .addElement name attributes ∨ op = .addRootElement name attributes)
    (later : List Operation) :
    let after := (op :: later).foldl Document.perform doc
    let content := Document.elementContent name attributes
    LeftOutIf (dialect config)
      (content.qualifiedName ∈ config.xml.tagsToSkip ∨ content.tag ∈ config.xml.tagsToSkip)
      after doc.size fun text => ∃ shown : Option String,
        shown.isSome = content.space?.isSome ∧ text = nameText shown content.tag := by
  intro after content
  refine leftOutIf_of_skips_iff (Document.Reachable.wellFormed (hdoc.foldl (op :: later)))
    (label?_of_created doc hop later) ?_ fun ledger text last hown => ?_
  · show skips config.xml content = true ↔ _
    have hskips : skips config.xml content = (config.xml.skipTags &&
        (config.xml.tagsToSkip.contains content.qualifiedName ||
          config.xml.tagsToSkip.contains content.tag)) := rfl
    rw [hskips, hskip, Bool.true_and, Bool.or_eq_true, OrderedSet.contains_iff,
      OrderedSet.contains_iff]
  · obtain ⟨shown, rest, hsome, hrest⟩ := own_eq_nameText_append doc.size hown
    exact ⟨_, rest, ⟨shown, hsome, rfl⟩, hrest⟩

end Xml

/-! ## Section 5: Lists of tags -/

/-- Which elements are left out where tags are skipped, of those that have been created by their
name in any document, whatever happens to the document afterwards. In HTML it is those whose name is
listed once it is in lower case, in XML those whose full or local name is listed once prefix and
local name are in lower case. All others are written, from their name in lower case on. So a name
that is listed in lower case leaves out the elements that are created by it. -/
theorem left_out_iff_listed_in_lower_case (config : Config) :
    (config.html.skipTags = true → ∀ doc : Html.Document, doc.Reachable → ∀ tag attributes op later,
      op = .addElement tag attributes ∨ op = .addRootElement tag attributes →
      let after := (op :: later).foldl Html.Document.perform doc
      let d := Html.dialect config after
      d.LeftOutIf (Text.lower tag ∈ config.html.tagsToSkip) after doc.size
        (fun text => text = Text.lower tag) ∧
      (Text.lower tag = tag → tag ∈ config.html.tagsToSkip → d.LeavesOut after doc.size)) ∧
    (config.xml.skipTags = true → ∀ doc : Xml.Document, doc.Reachable → ∀ name attributes op later,
      op = .addElement name attributes ∨ op = .addRootElement name attributes →
      let after := (op :: later).foldl Xml.Document.perform doc
      let d := Xml.dialect config
      let content := Xml.Document.elementContent name attributes
      d.LeftOutIf
        (content.qualifiedName ∈ config.xml.tagsToSkip ∨ content.tag ∈ config.xml.tagsToSkip)
        after doc.size
        (fun text => ∃ shown : Option String,
          shown.isSome = content.space?.isSome ∧ text = Xml.nameText shown content.tag) ∧
      (Text.lower name = name → name ∈ config.xml.tagsToSkip → d.LeavesOut after doc.size)) := by
  constructor
  · intro hskip doc hdoc tag attributes op later hop after d
    have hrule := Html.leftOutIf_of_created hskip hdoc hop later
    refine ⟨hrule, fun hlower htag => hrule.leavesOut ?_⟩
    rwa [hlower]
  · intro hskip doc hdoc name attributes op later hop after d content
    have hrule := Xml.leftOutIf_of_created hskip hdoc hop later
    refine ⟨hrule, fun hlower hname => hrule.leavesOut (.inl ?_)⟩
    rwa [Xml.qualifiedName_of_lower hlower]

/-- A list with a name in lower case and one with a capital: the first leaves out an element that is
created with capitals, the second does not even leave out the one that is created by it. -/
theorem capital_in_list_leaves_out_nothing :
    let config : Config := { xml :=
      { skipTags := true, tagsToSkip := .ofList ["xs:annotation", "xs:complexType"] } }
    let doc : Xml.Document :=
      Xml.Document.perform Forest.empty (.addRootElement "xs:element" .empty)
    let noted := List.foldl Xml.Document.perform doc
      [.addElement "xs:Annotation" .empty, .attach 1 0]
    let typed := List.foldl Xml.Document.perform doc
      [.addElement "xs:complexType" .empty, .attach 1 0]
    (Xml.dialect config).LeavesOut noted 1 ∧
      "xs:complexType" ∈ config.xml.tagsToSkip ∧
      (Xml.dialect config).BeginsWith typed 1 (fun text => ∃ shown : Option String,
        shown.isSome = true ∧ text = Xml.nameText shown "complextype") := by
  intro config doc noted typed
  have hdoc : doc.Reachable := ⟨Forest.empty, [.addRootElement "xs:element" .empty], rfl, rfl⟩
  obtain ⟨-, hxml⟩ := left_out_iff_listed_in_lower_case config
  exact ⟨(hxml rfl doc hdoc _ _ _ [.attach 1 0] (.inl rfl)).1.leavesOut (by decide), by decide,
    (hxml rfl doc hdoc _ _ _ [.attach 1 0] (.inl rfl)).1.beginsWith (by decide)⟩

end TreeNotation
