import TreeNotation.Proofs.Naming
import TreeNotation.Proofs.Token.Exhaustion

/-!
# Conversions that Fail

A conversion of a forest that operations have led to misses no node. It fails for want of names, or
at a processing instruction, which has no notation: what comes first in document order decides.

- **Any dialect**: `convertWith_of_demands`, for conversions that fail at some node;
- **Instructions**: `Xml.convert_of_instruction`;
- **Formats**: `conversions_decided`.
-/

namespace TreeNotation

open Token (Decided Demands Ledger Supply assign books decided_assign demands_map_ok_iff granted)

/-! ## Section 1: Failures on the way -/

namespace Writing.Dialect

variable {α κ μ : Type} {d : Dialect α κ} {f : Forest α}

/-- If a forest asks for some keys and fails after them, its conversion fails in that way, unless
the assignment of the keys has failed before. -/
theorem convertWith_of_demands [DecidableEq κ] {names : List String} {literal : κ → String}
    {tables : Ledger κ → μ} {keys : List κ} {e : Error} {later : List (Except Error κ)}
    (h : Demands literal (d.convert f) (keys.map .ok ++ .error e :: later)) :
    d.convertWith tables (.ofVocabulary names) f =
      (assign names literal keys).bind fun _ => .error e := by
  have hbooks := h (Ledger.ofSupply (.ofVocabulary names))
  have hassign := (Ledger.Agrees.ofVocabulary (κ := κ) names).granted literal keys
  rw [List.foldlM_append, Token.foldlM_meet_map_ok] at hbooks
  rw [assign, ← hassign]
  unfold convertWith
  unfold books at hbooks
  cases hgranted : granted literal keys (Ledger.ofSupply (.ofVocabulary names)) with
  | ok ledger =>
    -- All keys have names, and the failure comes next.
    rw [hgranted] at hbooks
    cases hrun : d.convert f (Ledger.ofSupply (.ofVocabulary names)) with
    | ok text after => rw [hrun] at hbooks; cases hbooks
    | error failure after => rw [hrun] at hbooks; cases hbooks; rfl
  | error failure =>
    rw [hgranted] at hbooks
    cases hrun : d.convert f (Ledger.ofSupply (.ofVocabulary names)) with
    | ok text after => rw [hrun] at hbooks; cases hbooks
    | error other after => rw [hrun] at hbooks; cases hbooks; rfl

end Writing.Dialect

/-! ## Section 2: Processing instructions -/

open Writing.Dialect (requestsOf)

variable {config : Config} {names : List String}

theorem Xml.exists_first_instruction {nodes : List (NodeId × Xml.Content)}
    (h : ∃ node ∈ nodes, node.2.isInstruction = true) : ∃ before id target data after,
      nodes = before ++ (id, .instruction target data) :: after ∧
        ∀ node ∈ before, node.2.isInstruction = false := by
  have hfound : (nodes.find? fun node => node.2.isInstruction).isSome := List.find?_isSome.mpr h
  obtain ⟨⟨id, content⟩, hfind⟩ := Option.isSome_iff_exists.mp hfound
  obtain ⟨hcontent, before, after, hsplit, hbefore⟩ := List.find?_eq_some_iff_append.mp hfind
  cases content with
  | instruction target data =>
    refine ⟨before, id, target, data, after, hsplit, fun node hnode => ?_⟩
    exact Bool.eq_false_iff.mpr fun htrue => by simpa [htrue] using hbefore node hnode
  | element space name attributes => cases hcontent
  | text payload => cases hcontent
  | cdata payload => cases hcontent
  | comment payload => cases hcontent

/-- The first instruction is named, unless there were not names enough for the nodes before it. -/
theorem Xml.convert_of_instruction {doc : Xml.Document} (hdoc : doc.Reachable)
    (htexts : Forest.BareAt Xml.Content.isText doc) {before after : List (NodeId × Xml.Content)}
    {id : NodeId} {target data : String}
    (hnodes : (Xml.dialect config).visited doc = before ++ (id, .instruction target data) :: after)
    (hbefore : ∀ node ∈ before, node.2.isInstruction = false) :
    Xml.convert config (.ofVocabulary names) doc =
      (assign names Xml.Slot.literal (requestsOf (Xml.requests config.xml) before)).bind
        fun _ => .error (.structural id (.unwritable target)) := by
  have hdemands := Writing.Dialect.demands_convert hdoc.wellFormed htexts
    (fun _ => Xml.skips_of_inlines) fun node _ => Xml.demands_own config.xml node
  have hkeys : before.flatMap (Xml.demands config.xml) =
      (requestsOf (Xml.requests config.xml) before).map .ok := by
    rw [Writing.Dialect.map_ok_requestsOf]
    exact List.flatMap_congr fun node hnode => Xml.demands_of_not_isInstruction (hbefore node hnode)
  rw [hnodes, List.flatMap_append, List.flatMap_cons, hkeys] at hdemands
  exact Writing.Dialect.convertWith_of_demands hdemands

/-! ## Section 3: The three formats -/

/-- What the elements of an HTML document that are written ask for, in document order. -/
def Html.requested (config : Config) (doc : Html.Document) : List Html.Slot :=
  requestsOf (fun entry => Html.requests config.html entry.content)
    ((Html.dialect config doc).visited doc)

/-- What the nodes of a JSON document ask for, in document order. -/
def Json.requested (config : Config) (doc : Json.Document) : List Json.Slot :=
  requestsOf (fun entry => Json.requests config.json entry.content)
    ((Json.dialect config).visited doc)

/-- What nodes of an XML document ask for, one after the other. -/
def Xml.requested (config : Config) (nodes : List (NodeId × Xml.Content)) : List Xml.Slot :=
  requestsOf (Xml.requests config.xml) nodes

/-- What fails for want of names only misses no node. -/
theorem ne_absent_of_decided {κ ρ : Type} [DecidableEq κ] {literal : κ → String} {keys : List κ}
    {outcome : Except Error ρ} (h : Decided names literal keys outcome) (id : NodeId) :
    outcome ≠ .error (.structural id .absent) := by
  intro heq
  obtain ⟨issued, he⟩ := h.exhausted _ heq
  cases he

theorem Html.decided_convert (config : Config) (names : List String) {doc : Html.Document}
    (hdoc : doc.Reachable)
    (htexts : Forest.BareAt (fun entry => entry.content.isText) doc) :
    Decided names Html.Slot.literal (Html.requested config doc)
      (Html.convert config (.ofVocabulary names) doc) :=
  (decided_assign names _ _).of_map_eq (Html.map_lists_convert hdoc htexts)

theorem Json.decided_convert (config : Config) (names : List String) {doc : Json.Document}
    (hdoc : doc.Reachable) :
    Decided names Json.Slot.literal (Json.requested config doc)
      (Json.convert config (.ofVocabulary names) doc) :=
  (decided_assign names _ _).of_map_eq (Json.map_lists_convert hdoc)

/-- What becomes of an XML document: without processing instructions, names decide; with one, it
fails at the first of them if it comes so far. -/
structure Xml.Decided (config : Config) (names : List String) (doc : Xml.Document) : Prop where
  plain : (∀ node ∈ (Xml.dialect config).visited doc, node.2.isInstruction = false) →
    Token.Decided names Xml.Slot.literal (Xml.requested config ((Xml.dialect config).visited doc))
      (Xml.convert config (.ofVocabulary names) doc)
  unwritable : (∃ node ∈ (Xml.dialect config).visited doc, node.2.isInstruction = true) →
    ∃ before id target data after,
      (Xml.dialect config).visited doc = before ++ (id, .instruction target data) :: after ∧
      (∀ node ∈ before, node.2.isInstruction = false) ∧
      Token.Decided names Xml.Slot.literal (Xml.requested config before)
        (assign names Xml.Slot.literal (Xml.requested config before)) ∧
      Xml.convert config (.ofVocabulary names) doc =
        (assign names Xml.Slot.literal (Xml.requested config before)).bind
          fun _ => .error (.structural id (.unwritable target))

theorem Xml.decided_convert (config : Config) (names : List String) {doc : Xml.Document}
    (hdoc : doc.Reachable) (htexts : Forest.BareAt Xml.Content.isText doc) :
    Xml.Decided config names doc where
  plain hwritable :=
    (decided_assign names _ _).of_map_eq (Xml.map_lists_convert hdoc htexts hwritable)
  unwritable hinstruction := by
    obtain ⟨before, id, target, data, after, hnodes, hbefore⟩ :=
      Xml.exists_first_instruction hinstruction
    exact ⟨before, id, target, data, after, hnodes, hbefore, decided_assign names _ _,
      Xml.convert_of_instruction hdoc htexts hnodes hbefore⟩

theorem Xml.Decided.ne_absent {doc : Xml.Document} (h : Xml.Decided config names doc)
    (id : NodeId) :
    Xml.convert config (.ofVocabulary names) doc ≠ .error (.structural id .absent) := by
  by_cases hplain : ∀ node ∈ (Xml.dialect config).visited doc, node.2.isInstruction = false
  · exact ne_absent_of_decided (h.plain hplain) id
  · simp only [not_forall, Bool.not_eq_false] at hplain
    obtain ⟨node, hnode, hinstruction⟩ := hplain
    obtain ⟨before, first, target, data, after, -, -, hdecided, heq⟩ :=
      h.unwritable ⟨node, hnode, hinstruction⟩
    rw [heq]
    -- It fails at the instruction, or as the nodes before it do.
    cases hassign : assign names Xml.Slot.literal (Xml.requested config before) with
    | ok book => exact nofun
    | error e =>
      obtain ⟨issued, rfl⟩ := hdecided.exhausted e hassign
      exact nofun

/-- Whether and how a conversion fails is decided by the number of different names and of different
texts that the nodes that are written ask names for. -/
theorem conversions_decided (config : Config) (names : List String) :
    (∀ doc : Html.Document, doc.Reachable →
      Forest.BareAt (fun entry => entry.content.isText) doc →
      Decided names Html.Slot.literal (Html.requested config doc)
        (Html.convert config (.ofVocabulary names) doc) ∧
      ∀ id, Html.convert config (.ofVocabulary names) doc ≠ .error (.structural id .absent)) ∧
    (∀ doc : Json.Document, doc.Reachable →
      Decided names Json.Slot.literal (Json.requested config doc)
        (Json.convert config (.ofVocabulary names) doc) ∧
      ∀ id, Json.convert config (.ofVocabulary names) doc ≠ .error (.structural id .absent)) ∧
    (∀ doc : Xml.Document, doc.Reachable → Forest.BareAt Xml.Content.isText doc →
      Xml.Decided config names doc ∧
      ∀ id, Xml.convert config (.ofVocabulary names) doc ≠ .error (.structural id .absent)) := by
  refine ⟨fun doc hdoc htexts => ?html, fun doc hdoc => ?json, fun doc hdoc htexts => ?xml⟩
  case html =>
    have hdecided := Html.decided_convert config names hdoc htexts
    exact ⟨hdecided, ne_absent_of_decided hdecided⟩
  case json =>
    have hdecided := Json.decided_convert config names hdoc
    exact ⟨hdecided, ne_absent_of_decided hdecided⟩
  case xml =>
    have hdecided := Xml.decided_convert config names hdoc htexts
    exact ⟨hdecided, hdecided.ne_absent⟩

/-- A paragraph with the class `Ann`: a second name, the only name `Ann`, and no name at all. -/
theorem paragraph_with_class_decided :
    let config : Config := { html := { simplifyClasses := true } }
    let doc : Html.Document := List.foldl Html.Document.perform Forest.empty
      [.addRootElement "p" (.ofList [("class", "Ann")]), .addText "home", .attach 1 0]
    doc.Reachable ∧ Forest.BareAt (fun entry => entry.content.isText) doc ∧
      (∃ result, Html.convert config (.ofVocabulary ["Ann", "Ben"]) doc = .ok result) ∧
      (∃ issued, Html.convert config (.ofVocabulary ["Ann"]) doc = .error (.exhausted issued)) ∧
      ∃ issued, Html.convert config (.ofVocabulary []) doc = .error (.exhausted issued) := by
  intro config doc
  have hdoc : doc.Reachable := ⟨Forest.empty, _, rfl, rfl⟩
  have htexts : Forest.BareAt (fun entry : Html.Entry => entry.content.isText) doc := by
    intro id entry hentry _
    match id with
    | 0 => cases hentry; contradiction
    | 1 => rfl
    | id + 2 => cases hentry
  have hroots : doc.rootIds = [0] := Forest.rootIds_of_roots rfl
  have hkeys : Html.requested config doc = [.classes "Ann"] := by
    have hvisited : (Html.dialect config doc).visited doc =
        Tree.visitedEach (Html.dialect config doc).skips ([0].filterMap doc.subtree?) := by
      rw [← hroots]; rfl
    rw [Html.requested, hvisited]
    rfl
  have hdecided := fun names => ((conversions_decided config names).1 doc hdoc htexts).1
  rw [hkeys] at hdecided
  refine ⟨hdoc, htexts, (hdecided _).spare (by decide), ?_, (hdecided _).scarce (by decide)⟩
  obtain ⟨earlier, last, rest, book, name, hsplit, -, -, hassign, hleft, hend⟩ :=
    (hdecided ["Ann"]).tight (by decide) (by decide)
  -- The class list is the only text, so the name is left when it comes, and it is the text itself.
  cases earlier with
  | nil =>
    cases hsplit
    cases hassign
    have hname : "Ann" = name := (hleft "Ann").mp ⟨List.mem_singleton_self _, List.not_mem_nil⟩
    have hown : "Ann" = Html.Slot.literal (.classes "Ann") := rfl
    rwa [← hname, if_pos hown] at hend
  | cons first others => cases others <;> cases hsplit

end TreeNotation
