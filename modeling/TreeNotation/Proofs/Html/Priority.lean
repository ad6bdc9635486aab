import TreeNotation.Proofs.Html.Links
import TreeNotation.Proofs.Html.Named
import TreeNotation.Proofs.Writing.Pullback

/-!
# Attributes of the Highest Tier

Which attributes of an element are kept depends on all of its attributes, but on no other element.
So it does not matter whether they are reduced while a document is written or before.

- **Tiers**: `leading` is the tier that is kept; what `select` keeps is told by `Reduces`, and
  `reduces_select` collects the lemmas on it;
- **Documents**: `Document.filtered` reduces the attributes of all elements, and
  `filtered_foldl_perform` says that the document could as well have been grown from reduced ones;
- **Conversions**: `convert_prioritizing`, and `reducing_attributes_first` for all of this together.
-/

namespace TreeNotation

open Writing (Attributes)

/-! ## Section 1: Tiers -/

namespace AttributeTiers

/-- The tier whose attributes are kept: the primary one if it has any of them. -/
def leading (tiers : AttributeTiers) (attributes : Attributes) : OrderedSet String :=
  if (tiers.ofTier tiers.primary attributes).isEmpty then tiers.secondary else tiers.primary

/-- Whether a name counts for one of the tiers. -/
def ranks (tiers : AttributeTiers) (name : String) : Bool :=
  !tiers.drops name && (tiers.primary.contains name || tiers.secondary.contains name)

variable {tiers : AttributeTiers} {tier : OrderedSet String} {attributes other : Attributes}

theorem select_eq :
    tiers.select attributes = tiers.ofTier (tiers.leading attributes) attributes := by
  unfold select leading
  dsimp only
  split <;> rfl

theorem entries_ofTier : (tiers.ofTier tier attributes).entries =
    attributes.entries.filter fun a => !tiers.drops a.1 && tier.contains a.1 := rfl

theorem mem_entries_ofTier {a : String × String} :
    a ∈ (tiers.ofTier tier attributes).entries ↔
      a ∈ attributes.entries ∧ tiers.drops a.1 = false ∧ a.1 ∈ tier := by
  simp [entries_ofTier, List.mem_filter]

theorem ofTier_ofTier :
    tiers.ofTier tier (tiers.ofTier tier attributes) = tiers.ofTier tier attributes := by
  apply OrderedMap.ext_entries
  simp only [entries_ofTier, List.filter_filter, Bool.and_self]

/-- It does not matter by which of two tiers attributes are filtered first. -/
theorem ofTier_comm (tier' : OrderedSet String) :
    tiers.ofTier tier (tiers.ofTier tier' attributes) =
      tiers.ofTier tier' (tiers.ofTier tier attributes) := by
  apply OrderedMap.ext_entries
  simp only [entries_ofTier, List.filter_filter, Bool.and_comm]

theorem ofTier_of_isEmpty (h : attributes.isEmpty = true) :
    (tiers.ofTier tier attributes).isEmpty = true := by
  have hentries : attributes.entries = [] := List.isEmpty_iff.mp h
  rw [OrderedMap.isEmpty, entries_ofTier, hentries]
  rfl

/-- The attributes that are kept have the tier of all of them. -/
theorem leading_select : tiers.leading (tiers.select attributes) = tiers.leading attributes := by
  rw [select_eq]
  by_cases hempty : (tiers.ofTier tiers.primary attributes).isEmpty = true
  · have hleading : tiers.leading attributes = tiers.secondary := if_pos hempty
    rw [hleading]
    -- What is left by the secondary tier has no primary attributes either.
    refine if_pos ?_
    rw [ofTier_comm]
    exact ofTier_of_isEmpty hempty
  · have hleading : tiers.leading attributes = tiers.primary := if_neg hempty
    rw [hleading]
    refine if_neg ?_
    rwa [ofTier_ofTier]

theorem select_select : tiers.select (tiers.select attributes) = tiers.select attributes := by
  rw [select_eq, leading_select, select_eq, ofTier_ofTier]

theorem mem_leading_iff {a : String × String} (h : a ∈ attributes.entries)
    (hkept : tiers.drops a.1 = false) : a.1 ∈ tiers.leading attributes ↔
      a.1 ∈ tiers.primary ∨ a.1 ∈ tiers.secondary ∧
        ∀ b ∈ attributes.entries, tiers.drops b.1 = false → b.1 ∉ tiers.primary := by
  unfold leading
  split
  next hempty =>
    have hnone : ∀ b ∈ attributes.entries, tiers.drops b.1 = false → b.1 ∉ tiers.primary := by
      intro b hb hbkept hprimary
      have hmem := mem_entries_ofTier.mpr ⟨hb, hbkept, hprimary⟩
      have hentries : (tiers.ofTier tiers.primary attributes).entries = [] :=
        List.isEmpty_iff.mp hempty
      rw [hentries] at hmem
      cases hmem
    exact ⟨fun hsecondary => .inr ⟨hsecondary, hnone⟩,
      fun hor => hor.elim (fun hprimary => absurd hprimary (hnone a h hkept)) And.left⟩
  next hsome =>
    refine ⟨.inl, fun hor => hor.elim id fun ⟨_, hnone⟩ => absurd ?_ hsome⟩
    rw [OrderedMap.isEmpty, List.isEmpty_iff, List.eq_nil_iff_forall_not_mem]
    intro b hb
    obtain ⟨hb, hbkept, hprimary⟩ := mem_entries_ofTier.mp hb
    exact hnone b hb hbkept hprimary

theorem mem_entries_select {a : String × String} :
    a ∈ (tiers.select attributes).entries ↔
      a ∈ attributes.entries ∧ tiers.drops a.1 = false ∧
        (a.1 ∈ tiers.primary ∨ a.1 ∈ tiers.secondary ∧
          ∀ b ∈ attributes.entries, tiers.drops b.1 = false → b.1 ∉ tiers.primary) := by
  rw [select_eq, mem_entries_ofTier]
  constructor
  · rintro ⟨h, hkept, hleading⟩
    exact ⟨h, hkept, (mem_leading_iff h hkept).mp hleading⟩
  · rintro ⟨h, hkept, hor⟩
    exact ⟨h, hkept, (mem_leading_iff h hkept).mpr hor⟩

/-- Attributes that count for no tier make no difference to those of a tier. -/
theorem ofTier_congr (htier : ∀ name ∈ tier, name ∈ tiers.primary ∨ name ∈ tiers.secondary)
    (h : attributes.entries.filter (fun a => tiers.ranks a.1) =
      other.entries.filter fun a => tiers.ranks a.1) :
    tiers.ofTier tier attributes = tiers.ofTier tier other := by
  have hranks : ∀ m : Attributes, (tiers.ofTier tier m).entries =
      (m.entries.filter fun a => tiers.ranks a.1).filter fun a =>
        !tiers.drops a.1 && tier.contains a.1 := by
    intro m
    rw [entries_ofTier, List.filter_filter]
    refine List.filter_congr fun a _ => ?_
    -- What counts for the tier counts for one of the two.
    rw [Bool.eq_iff_iff]
    simp only [ranks, Bool.and_eq_true, Bool.or_eq_true, OrderedSet.contains_iff]
    exact ⟨fun ⟨hkept, hmem⟩ => ⟨⟨hkept, hmem⟩, hkept, htier a.1 hmem⟩, And.left⟩
  apply OrderedMap.ext_entries
  rw [hranks, hranks, h]

theorem select_congr (h : attributes.entries.filter (fun a => tiers.ranks a.1) =
      other.entries.filter fun a => tiers.ranks a.1) :
    tiers.select attributes = tiers.select other := by
  unfold select
  rw [ofTier_congr (fun _ => .inl) h, ofTier_congr (fun _ => .inr) h]

/-- A name that is dropped or in neither tier counts for none. -/
theorem ranks_eq_false {name : String} (h : name ∈ tiers.ignored ∨ isData name = true ∨
      isHandler name = true ∨ name ∉ tiers.primary ∧ name ∉ tiers.secondary) :
    tiers.ranks name = false := by
  rw [Bool.eq_false_iff]
  intro hranks
  simp only [ranks, drops, Bool.and_eq_true, Bool.or_eq_true, OrderedSet.contains_iff,
    Bool.not_eq_true', Bool.or_eq_false_iff] at hranks
  obtain ⟨⟨⟨hignored, hdata⟩, hhandler⟩, htier⟩ := hranks
  rcases h with h | h | h | ⟨hprimary, hsecondary⟩
  · rw [OrderedSet.contains_iff.mpr h] at hignored
    cases hignored
  · rw [hdata] at h
    cases h
  · rw [hhandler] at h
    cases h
  · exact htier.elim hprimary hsecondary

/-- Attributes are reduced to those of the highest tier of which there are any. -/
structure Reduces (tiers : AttributeTiers) (reduce : Attributes → Attributes) : Prop where
  idempotent : ∀ attributes, reduce (reduce attributes) = reduce attributes
  /-- What is kept has its value and its place. -/
  sublist : ∀ attributes, (reduce attributes).entries.Sublist attributes.entries
  /-- Primary attributes are kept unless they are dropped, and secondary ones are if no primary
  attribute is. -/
  mem_iff : ∀ attributes, ∀ a, a ∈ (reduce attributes).entries ↔
    a ∈ attributes.entries ∧ tiers.drops a.1 = false ∧
      (a.1 ∈ tiers.primary ∨ a.1 ∈ tiers.secondary ∧
        ∀ b ∈ attributes.entries, tiers.drops b.1 = false → b.1 ∉ tiers.primary)
  /-- Beside a primary attribute there are only primary ones. -/
  unmixed : ∀ attributes, ∀ a ∈ (reduce attributes).entries, a.1 ∈ tiers.primary →
    ∀ b ∈ (reduce attributes).entries, b.1 ∈ tiers.primary
  /-- An attribute that is dropped or in no tier makes no difference, wherever it stands. -/
  indifferent : ∀ attributes other : Attributes, ∀ before name value after,
    attributes.entries = before ++ (name, value) :: after → other.entries = before ++ after →
      name ∈ tiers.ignored ∨ isData name = true ∨ isHandler name = true ∨
        name ∉ tiers.primary ∧ name ∉ tiers.secondary →
      reduce attributes = reduce other
  /-- Nor do any number of them. -/
  congr : ∀ attributes other : Attributes,
    attributes.entries.filter (fun a => tiers.ranks a.1) =
        other.entries.filter (fun a => tiers.ranks a.1) → reduce attributes = reduce other

theorem reduces_select (tiers : AttributeTiers) : tiers.Reduces tiers.select where
  idempotent _ := select_select
  sublist _ := by
    rw [select_eq, entries_ofTier]
    exact List.filter_sublist
  mem_iff _ _ := mem_entries_select
  unmixed attributes a ha hprimary b hb := by
    obtain ⟨ha, hkept, -⟩ := mem_entries_select.mp ha
    obtain ⟨-, -, hor⟩ := mem_entries_select.mp hb
    exact hor.elim id fun hsecondary => absurd hprimary (hsecondary.2 a ha hkept)
  indifferent attributes other before name value after hwith hwithout hname := by
    apply select_congr
    rw [hwith, hwithout, List.filter_append, List.filter_append, List.filter_cons,
      ranks_eq_false hname]
    rfl
  congr _ _ := select_congr

end AttributeTiers

namespace Html

open Token (Supply)
open Writing.Dialect (comap convertWith_relabel)

variable {tiers : AttributeTiers}

/-! ## Section 2: Documents with reduced attributes -/

/-- The node with its attributes reduced. -/
def Content.filtered (tiers : AttributeTiers) : Content → Content
  | .text payload => .text payload
  | .element tag attributes => .element tag (tiers.select attributes)

/-- What a node holds, with its attributes reduced. -/
def Entry.filtered (tiers : AttributeTiers) (entry : Entry) : Entry :=
  { entry with content := entry.content.filtered tiers }

/-- The operation with the attributes of the element that it creates reduced. -/
def Operation.filtered (tiers : AttributeTiers) : Operation → Operation
  | .addElement tag attributes => .addElement tag (tiers.select attributes)
  | .addRootElement tag attributes => .addRootElement tag (tiers.select attributes)
  | .addText text => .addText text
  | .markRoot id => .markRoot id
  | .attach child parent => .attach child parent

theorem isText_filtered (content : Content) : (content.filtered tiers).isText = content.isText := by
  cases content <;> rfl

namespace Document

/-- The document with the attributes of all elements reduced. -/
def filtered (tiers : AttributeTiers) (doc : Document) : Document :=
  doc.relabel (Entry.filtered tiers)

theorem filtered_empty : filtered tiers Forest.empty = Forest.empty := by
  simp [filtered, Forest.relabel, Forest.empty]

theorem modifyEntry_filtered (doc : Document) (id : NodeId) {change : Entry → Entry}
    (h : ∀ entry, (change entry).filtered tiers = change (entry.filtered tiers)) :
    (doc.modifyEntry id change).filtered tiers = (doc.filtered tiers).modifyEntry id change := by
  refine Forest.ext_node? (fun other => ?_) rfl rfl
  unfold filtered modifyEntry
  rw [Forest.node?_relabel, Forest.node?_modify, Forest.node?_modify, Forest.node?_relabel]
  split
  case isTrue =>
    cases doc.node? other with
    | none => rfl
    | some node => simp [Node.relabel, h]
  case isFalse => rfl

/-- Links and counts do not look at attributes. -/
theorem relink_filtered (doc : Document) (parent : NodeId) :
    (doc.relink parent).filtered tiers = (doc.filtered tiers).relink parent := by
  have hlinks : ∀ (places : List (NodeId × Option NodeId × Option NodeId)) (doc : Document),
      filtered tiers (places.foldl link doc) = places.foldl link (doc.filtered tiers) := by
    intro places
    induction places with
    | nil => intro doc; rfl
    | cons place places ih =>
      intro doc
      have hlink : (doc.link place).filtered tiers = (doc.filtered tiers).link place :=
        modifyEntry_filtered doc place.1 fun _ => rfl
      rw [List.foldl_cons, List.foldl_cons, ih, hlink]
  have hchildren : (doc.filtered tiers).children parent = doc.children parent :=
    Forest.children_relabel doc parent
  have helement : (doc.filtered tiers).isElement = doc.isElement := by
    funext id
    unfold isElement filtered
    rw [Forest.label?_relabel]
    cases doc.label? id with
    | none => rfl
    | some entry => exact congrArg Bool.not (isText_filtered entry.content)
  unfold relink
  rw [hchildren, helement]
  dsimp only
  rw [← hlinks]
  exact modifyEntry_filtered _ parent fun _ => rfl

theorem attach_filtered (doc : Document) (child parent : NodeId) :
    (doc.filtered tiers).attach child parent =
      (doc.attach child parent).map (filtered tiers) := by
  have hattach := Forest.attach_relabel (g := Entry.filtered tiers) doc child parent
  rw [attach_eq, attach_eq]
  unfold filtered
  rw [hattach]
  cases Forest.attach doc child parent with
  | error e => rfl
  | ok result =>
    obtain ⟨left, attached⟩ := result
    have hsettled : settled (filtered tiers attached) parent left =
        filtered tiers (settled attached parent left) := by
      unfold settled
      rw [relink_filtered]
      cases left with
      | none => rfl
      | some old =>
        have hold : relink (filtered tiers attached) old = filtered tiers (relink attached old) :=
          (relink_filtered attached old).symm
        exact congrArg (fun doc => relink doc parent) hold
    exact congrArg Except.ok hsettled

theorem perform_filtered (doc : Document) (op : Operation) :
    (doc.perform op).filtered tiers = (doc.filtered tiers).perform (op.filtered tiers) := by
  cases op with
  | addElement tag attributes => exact (Forest.push_relabel doc _).symm
  | addRootElement tag attributes => exact (Forest.pushRoot_relabel doc _).symm
  | addText text => exact (Forest.push_relabel doc _).symm
  | markRoot id => exact (Forest.perform_markRoot_relabel doc id).symm
  | attach child parent =>
    rw [perform_attach_eq, Operation.filtered, perform_attach_eq, attach_filtered]
    cases doc.attach child parent <;> rfl

/-- To reduce all attributes of a document is to grow it from reduced ones. -/
theorem filtered_foldl_perform (doc : Document) (ops : List Operation) :
    filtered tiers (ops.foldl perform doc) =
      (ops.map (Operation.filtered tiers)).foldl perform (doc.filtered tiers) := by
  induction ops generalizing doc with
  | nil => rfl
  | cons op ops ih => rw [List.foldl_cons, List.map_cons, List.foldl_cons, ih, perform_filtered]

end Document

/-! ## Section 3: Conversions -/

/-- The configuration with attributes reduced or not. -/
def prioritizing (config : Config) (prioritize : Bool) : Config :=
  { config with html := { config.html with prioritizeAttributes := prioritize } }

/-- A node of which the attributes are reduced is written like one with reduced attributes. -/
theorem own_prioritizing (config : Config) (content : Content) :
    own (prioritizing config true).html content =
      own (prioritizing config false).html (content.filtered config.html.tiers) := by
  cases content <;> rfl

theorem skips_prioritizing (config : Config) (content : Content) :
    skips (prioritizing config false).html (content.filtered config.html.tiers) =
      skips (prioritizing config true).html content := by
  cases content <;> rfl

theorem dialect_prioritizing (config : Config) (doc : Document) :
    dialect (prioritizing config true) doc =
      (dialect (prioritizing config false) (doc.filtered config.html.tiers)).comap
        (Entry.filtered config.html.tiers) := by
  unfold dialect comap
  rw [Writing.Dialect.mk.injEq]
  refine ⟨rfl, ?_, ?_, ?_, ?_⟩
  · exact funext fun entry => (skips_prioritizing config entry.content).symm
  · exact funext fun entry => (isText_filtered entry.content).symm
  · exact funext fun _ => funext fun entry => own_prioritizing config entry.content
  · funext id
    -- Elements are counted by their tags, so as many are written beside a node.
    have hskipTags : (prioritizing config false).html.skipTags =
        (prioritizing config true).html.skipTags := rfl
    have hsiblings := writtenSiblings_relabelAt hskipTags
      (g := fun _ => Entry.filtered config.html.tiers)
      (fun _ entry => isText_filtered entry.content)
      (fun _ entry => skips_prioritizing config entry.content) (fun _ _ => rfl) doc id
    rw [Forest.relabelAt_const] at hsiblings
    exact congrArg (fun count => decide (0 < count)) hsiblings.symm

theorem convert_prioritizing (config : Config) (supply : Supply) (doc : Document) :
    convert (prioritizing config true) supply doc =
      convert (prioritizing config false) supply (doc.filtered config.html.tiers) := by
  unfold convert
  rw [dialect_prioritizing]
  exact (convertWith_relabel tables supply doc).symm

/-- Attributes are reduced to those of the highest tier, whatever the tiers are, and to write a
document with its attributes reduced on the way is to reduce the attributes of all its elements and
to write it then, with no difference to the notation, the tables or the failure. The document with
reduced attributes is the one that the same operations lead to with attributes reduced first. -/
theorem reducing_attributes_first (config : Config) :
    config.html.tiers.Reduces config.html.tiers.select ∧
      (∀ supply doc, convert (prioritizing config true) supply doc =
        convert (prioritizing config false) supply (doc.filtered config.html.tiers)) ∧
      ∀ ops : List Operation,
        Document.filtered config.html.tiers (ops.foldl Document.perform Forest.empty) =
          (ops.map (Operation.filtered config.html.tiers)).foldl Document.perform Forest.empty := by
  refine ⟨AttributeTiers.reduces_select _, convert_prioritizing config, fun ops => ?_⟩
  rw [Document.filtered_foldl_perform, Document.filtered_empty]

/-- A name in two tiers, one that is also dropped, and an event handler. -/
example :
    let tiers : AttributeTiers :=
      { primary := .ofList ["id", "name"], secondary := .ofList ["name", "alt", "type"]
        ignored := .ofList ["alt"] }
    (tiers.select (.ofList [("type", "a"), ("onblur", "b"), ("name", "c"), ("alt", "d")])).entries =
      [("name", "c")] := by
  decide

end Html

end TreeNotation
