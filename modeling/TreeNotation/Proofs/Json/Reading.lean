import TreeNotation.Json.Dialect
import TreeNotation.Proofs.Json.Encoding
import TreeNotation.Proofs.Text.Escaping
import TreeNotation.Proofs.Writing.Lines

/-!
# Reading Indented JSON Notation Back

Without any names, the indented notation of a value determines the value. Keys are written as they
stand, so they must not break the line; strings are escaped, so they cannot.

- **Nodes**: `Content.spell` is the text of a node, and `contentOf_eq_of_spell_eq` reads it back;
- **Lines**: `lined_treeNest`; each node has a line of its own;
- **Values**: `eq_of_treeNest_eq`, by the recursion of the value;
- **Main result**: `convert_ofValue_text_eq_iff`.
-/

namespace TreeNotation.Json

open Token (Supply)
open Writing (Conversion Dialect IsLine Layout Nest braced treeNest treeNests)

/-! ## Section 1: Single nodes -/

/-- The text of a node by itself, with no name in it. -/
def Content.spell : Content → String
  | .object => "obj"
  | .array => "arr"
  | .property key => "prop[" ++ key ++ "]"
  | .leaf .string payload => braced "str" (Text.escapeString payload)
  | .leaf .number payload => braced "num" payload
  | .leaf .boolean payload => braced "bool" payload
  | .leaf .null _ => "null"

theorem own_eq_spell {options : JsonOptions} (hkeys : options.simplifyKeys = false)
    (hstrings : options.simplifyLongStrings = false) (content : Content) :
    own options content = pure content.spell := by
  cases content with
  | object => rfl
  | array => rfl
  | property key => simp [own, writeKey, hkeys, Content.spell]
  | leaf type payload => cases type <;> simp [own, writeString, hstrings, Content.spell]

theorem Content.spell_ne_empty (content : Content) : content.spell ≠ "" := by
  cases content with
  | object => simp [spell]
  | array => simp [spell]
  | property key => simp [spell]
  | leaf type payload => cases type <;> simp [spell, braced]

/-- Payloads in braces behind the same word are told apart. -/
theorem braced_inj {word payload payload' : String}
    (h : braced word payload = braced word payload') :
    payload = payload' := by
  simpa [braced] using h

theorem spell_property_inj {key key' : String}
    (h : (Content.property key).spell = (Content.property key').spell) : key = key' := by
  simpa [Content.spell] using h

theorem toList_braced (word payload : String) :
    (braced word payload).toList = word.toList ++ '\x7b' :: (payload.toList ++ ['\x7d']) := by
  simp [braced]

/-- The text of a node tells what the node of a value is. -/
theorem contentOf_eq_of_spell_eq {v w : Value}
    (h : (Document.contentOf v).spell = (Document.contentOf w).spell) :
    Document.contentOf v = Document.contentOf w := by
  have hchars := congrArg String.toList h
  cases v <;> cases w <;>
    simp only [Document.contentOf, Content.spell, toList_braced] at h hchars ⊢
  case bool.bool => rw [braced_inj h]
  case number.number => rw [braced_inj h]
  case string.string => rw [Text.escapeString_injective (braced_inj h)]
  -- Texts of nodes of different kinds begin with different words.
  all_goals simp at hchars

/-! ## Section 2: Nodes on lines of their own -/

/-- A node stands on one line if its key or payload does, as a payload of a string always does. -/
def Content.OneLine : Content → Prop
  | .property key => '\n' ∉ key.toList
  | .leaf .string _ => True
  | .leaf _ payload => '\n' ∉ payload.toList
  | _ => True

theorem isLine_of_ends {head : List Char} (first last : Char) (hfirst : head.head? = some first)
    (hlast : head.getLast? = some last) (hspace : first ≠ ' ') (hdown : last ≠ '>')
    (hbeside : last ≠ '+') (hbreak : '\n' ∉ head) : IsLine head where
  ne_nil := by
    rintro rfl
    cases hfirst
  head?_ne := by
    rw [hfirst]
    simpa using hspace
  not_break := hbreak
  getLast?_ne c hc := by
    rw [hlast, Option.some.injEq] at hc
    exact ⟨hc ▸ hdown, hc ▸ hbeside⟩

theorem isLine_braced {word : List Char} (first : Char) {payload : String}
    (hfirst : word.head? = some first) (hspace : first ≠ ' ') (hword : '\n' ∉ word)
    (hpayload : '\n' ∉ payload.toList) :
    IsLine (word ++ '\x7b' :: (payload.toList ++ ['\x7d'])) := by
  have hhead : (word ++ '\x7b' :: (payload.toList ++ ['\x7d'])).head? = some first := by
    simp [List.head?_append, hfirst]
  have hlast : (word ++ '\x7b' :: (payload.toList ++ ['\x7d'])).getLast? = some '\x7d' := by
    simp [List.getLast?_append, List.getLast?_cons]
  apply isLine_of_ends first '\x7d' hhead hlast hspace (by simp) (by simp)
  simp [hword, hpayload]

/-- The text of a node fills a line. -/
theorem isLine_spell {content : Content} (h : content.OneLine) : IsLine content.spell.toList := by
  cases content with
  | object =>
    exact isLine_of_ends 'o' 'j' rfl rfl (by simp) (by simp) (by simp) (by simp [Content.spell])
  | array =>
    exact isLine_of_ends 'a' 'r' rfl rfl (by simp) (by simp) (by simp) (by simp [Content.spell])
  | property key =>
    have hkey : '\n' ∉ key.toList := h
    have hchars : (Content.property key).spell.toList =
        ['p', 'r', 'o', 'p', '['] ++ (key.toList ++ [']']) := by
      simp [Content.spell]
    have hlast : (Content.property key).spell.toList.getLast? = some ']' := by
      rw [hchars]
      simp [List.getLast?_cons]
    have hfirst : (Content.property key).spell.toList.head? = some 'p' := by
      rw [hchars]
      rfl
    apply isLine_of_ends 'p' ']' hfirst hlast (by simp) (by simp) (by simp)
    rw [hchars]
    simp [hkey]
  | leaf type payload =>
    cases type with
    | string =>
      rw [Content.spell, toList_braced]
      exact isLine_braced 's' rfl (by simp) (by simp) (Text.not_mem_escapeString payload)
    | number =>
      rw [Content.spell, toList_braced]
      exact isLine_braced 'n' rfl (by simp) (by simp) h
    | boolean =>
      rw [Content.spell, toList_braced]
      exact isLine_braced 'b' rfl (by simp) (by simp) h
    | null =>
      rw [Content.spell]
      exact isLine_of_ends 'n' 'l' rfl rfl (by simp) (by simp) (by simp) (by simp)

/-- The node of a value stands on one line. -/
theorem oneLine_contentOf (value : Value) : (Document.contentOf value).OneLine := by
  cases value with
  | null => simp [Document.contentOf, Content.OneLine]
  | bool value => cases value <;> simp [Document.contentOf, Content.OneLine]
  | number number =>
    -- A number is made of plain characters, and a line break is none of them.
    intro h
    have hplain := number.plain '\n' h
    cases hplain
  | string value => trivial
  | array items => trivial
  | object members => trivial

namespace Value

/-- No key of an object in the value breaks the line. -/
inductive KeysOnOneLine : Value → Prop where
  | null : KeysOnOneLine .null
  | bool (value : Bool) : KeysOnOneLine (.bool value)
  | number (number : Number) : KeysOnOneLine (.number number)
  | string (value : String) : KeysOnOneLine (.string value)
  | array {items : List Value} (hitems : ∀ item ∈ items, KeysOnOneLine item) :
      KeysOnOneLine (.array items)
  | object {members : List (String × Value)} (hkeys : ∀ member ∈ members, '\n' ∉ member.1.toList)
      (hvalues : ∀ member ∈ members, KeysOnOneLine member.2) : KeysOnOneLine (.object members)

end Value

/-! ## Section 3: Values -/

/-- The text of the node that an entry of a forest holds. -/
def Entry.spell (entry : Entry) : String := entry.content.spell

open Document (treeOf treesOfItems treesOfMembers)

/-- The nest of a value has the text of the value itself as its head. -/
theorem treeNest_treeOf (id : NodeId) (index : Option Nat) (value : Value) :
    treeNest Entry.spell (treeOf id index value) =
      .node (Document.contentOf value).spell.toList
        (treeNests Entry.spell (treeOf id index value).children) := by
  cases value <;> rfl

theorem lined_of_childless {id : NodeId} {index : Option Nat} (value : Value)
    (hchildless : (treeOf id index value).children = []) :
    (treeNest Entry.spell (treeOf id index value)).Lined := by
  rw [treeNest_treeOf, hchildless]
  exact .node (isLine_spell (oneLine_contentOf value)) (by simp [treeNests])

mutual

/-- Each node of a value has a line of its own. -/
theorem lined_treeNest : ∀ (value : Value) (id : NodeId) (index : Option Nat),
    value.KeysOnOneLine → (treeNest Entry.spell (treeOf id index value)).Lined
  | .array items, id, index, .array hitems => by
    rw [treeNest_treeOf]
    exact .node (isLine_spell (oneLine_contentOf _)) (lined_treesOfItems items (id + 1) 0 hitems)
  | .object members, id, index, .object hkeys hvalues => by
    rw [treeNest_treeOf]
    exact .node (isLine_spell (oneLine_contentOf _))
      (lined_treesOfMembers members (id + 1) hkeys hvalues)
  | .null, _, _, _ => lined_of_childless _ rfl
  | .bool _, _, _, _ => lined_of_childless _ rfl
  | .number _, _, _, _ => lined_of_childless _ rfl
  | .string _, _, _, _ => lined_of_childless _ rfl

theorem lined_treesOfItems : ∀ (items : List Value) (id : NodeId) (index : Nat),
    (∀ item ∈ items, item.KeysOnOneLine) →
      ∀ member ∈ treeNests Entry.spell (treesOfItems id index items), member.Lined
  | [], _, _, _, member, hmember => by
    rw [treesOfItems, treeNests] at hmember
    cases hmember
  | item :: items, id, index, hitems, member, hmember => by
    rw [treesOfItems, treeNests] at hmember
    rcases List.mem_cons.mp hmember with rfl | hmember
    · exact lined_treeNest item id (some index) (hitems item List.mem_cons_self)
    · exact lined_treesOfItems items _ (index + 1)
        (fun other hother => hitems other (List.mem_cons_of_mem _ hother)) member hmember

theorem lined_treesOfMembers : ∀ (members : List (String × Value)) (id : NodeId),
    (∀ member ∈ members, '\n' ∉ member.1.toList) →
      (∀ member ∈ members, member.2.KeysOnOneLine) →
        ∀ member ∈ treeNests Entry.spell (treesOfMembers id members), member.Lined
  | [], _, _, _, member, hmember => by
    rw [treesOfMembers, treeNests] at hmember
    cases hmember
  | (key, value) :: members, id, hkeys, hvalues, member, hmember => by
    rw [treesOfMembers, treeNests] at hmember
    rcases List.mem_cons.mp hmember with rfl | hmember
    · -- Below the property stands its value and nothing else.
      rw [treeNest]
      refine .node (isLine_spell (hkeys _ List.mem_cons_self)) fun below hbelow => ?_
      rw [treeNests, treeNests] at hbelow
      obtain rfl := List.mem_singleton.mp hbelow
      exact lined_treeNest value (id + 1) none (hvalues _ List.mem_cons_self)
    · exact lined_treesOfMembers members _
        (fun other hother => hkeys other (List.mem_cons_of_mem _ hother))
        (fun other hother => hvalues other (List.mem_cons_of_mem _ hother)) member hmember

end

/-- The nests of two values give away what is on top and what is below. -/
theorem contentOf_eq_of_treeNest_eq {v w : Value} {id id' : NodeId} {index index' : Option Nat}
    (h : treeNest Entry.spell (treeOf id index v) = treeNest Entry.spell (treeOf id' index' w)) :
    Document.contentOf v = Document.contentOf w ∧
      treeNests Entry.spell (treeOf id index v).children =
        treeNests Entry.spell (treeOf id' index' w).children := by
  rw [treeNest_treeOf, treeNest_treeOf, Nest.node.injEq] at h
  exact ⟨contentOf_eq_of_spell_eq (String.toList_injective h.1), h.2⟩

/-- Values other than arrays and objects are told apart by their own nodes. -/
theorem eq_of_contentOf_eq {v w : Value} (h : Document.contentOf v = Document.contentOf w)
    (harray : ∀ items, v ≠ .array items) (hobject : ∀ members, v ≠ .object members) : v = w := by
  cases v <;> cases w <;> simp only [Document.contentOf] at h
  case bool.bool value value' =>
    cases value <;> cases value' <;> simp at h ⊢
  case number.number number number' =>
    obtain ⟨text, plain⟩ := number
    obtain ⟨text', plain'⟩ := number'
    simp only [Content.leaf.injEq, true_and] at h
    subst h
    rfl
  case string.string => simpa using h
  case array.array items _ => exact absurd rfl (harray items)
  case object.object members _ => exact absurd rfl (hobject members)
  all_goals simp at h ⊢

mutual

/-- Values with the same nests are the same. -/
theorem eq_of_treeNest_eq : ∀ (v w : Value) (id id' : NodeId) (index index' : Option Nat),
    treeNest Entry.spell (treeOf id index v) = treeNest Entry.spell (treeOf id' index' w) → v = w
  | .array items, w, _, _, _, _, h => by
    obtain ⟨hcontent, hbelow⟩ := contentOf_eq_of_treeNest_eq h
    cases w with
    | array others => rw [eq_of_treesOfItems_eq items others _ _ _ _ hbelow]
    | _ => simp [Document.contentOf] at hcontent
  | .object members, w, _, _, _, _, h => by
    obtain ⟨hcontent, hbelow⟩ := contentOf_eq_of_treeNest_eq h
    cases w with
    | object others => rw [eq_of_treesOfMembers_eq members others _ _ hbelow]
    | _ => simp [Document.contentOf] at hcontent
  | .null, _, _, _, _, _, h =>
    eq_of_contentOf_eq (contentOf_eq_of_treeNest_eq h).1 (by simp) (by simp)
  | .bool _, _, _, _, _, _, h =>
    eq_of_contentOf_eq (contentOf_eq_of_treeNest_eq h).1 (by simp) (by simp)
  | .number _, _, _, _, _, _, h =>
    eq_of_contentOf_eq (contentOf_eq_of_treeNest_eq h).1 (by simp) (by simp)
  | .string _, _, _, _, _, _, h =>
    eq_of_contentOf_eq (contentOf_eq_of_treeNest_eq h).1 (by simp) (by simp)

theorem eq_of_treesOfItems_eq : ∀ (items others : List Value) (id id' : NodeId) (index index' : Nat),
    treeNests Entry.spell (treesOfItems id index items) =
      treeNests Entry.spell (treesOfItems id' index' others) → items = others
  | [], [], _, _, _, _, _ => rfl
  | [], other :: others, _, _, _, _, h => by cases h
  | item :: items, [], _, _, _, _, h => by cases h
  | item :: items, other :: others, id, id', index, index', h => by
    rw [treesOfItems, treesOfItems, treeNests, treeNests, List.cons.injEq] at h
    rw [eq_of_treeNest_eq item other _ _ _ _ h.1, eq_of_treesOfItems_eq items others _ _ _ _ h.2]

theorem eq_of_treesOfMembers_eq : ∀ (members others : List (String × Value)) (id id' : NodeId),
    treeNests Entry.spell (treesOfMembers id members) =
      treeNests Entry.spell (treesOfMembers id' others) → members = others
  | [], [], _, _, _ => rfl
  | [], other :: others, _, _, h => by cases h
  | member :: members, [], _, _, h => by cases h
  | (key, value) :: members, (key', value') :: others, id, id', h => by
    rw [treesOfMembers, treesOfMembers, treeNests, treeNests, treeNest, treeNest, List.cons.injEq,
      Nest.node.injEq] at h
    obtain ⟨⟨hkey, hvalue⟩, hothers⟩ := h
    have hbelow := (List.cons.inj hvalue).1
    rw [spell_property_inj (String.toList_injective hkey),
      eq_of_treeNest_eq value value' _ _ _ _ hbelow,
      eq_of_treesOfMembers_eq members others _ _ hothers]

end

/-! ## Section 4: Indented notation -/

/-- Without any names, a value is written as its nest over several lines. -/
theorem convert_ofValue {config : Config} (hindent : config.indent = true)
    (hkeys : config.json.simplifyKeys = false) (hstrings : config.json.simplifyLongStrings = false)
    (supply : Supply) (value : Value) :
    ∃ doc result, Document.ofValue value = .ok doc ∧ convert config supply doc = .ok result ∧
      result.text = String.ofList
        ((treeNest Entry.spell (treeOf 0 none value)).lines config.indentWidth 0) := by
  obtain ⟨doc, hdoc, hwell, -, htrees, -⟩ := Document.exists_ofValue value
  have hplain : (dialect config).Plain Entry.spell :=
    { own_eq := fun _ entry => own_eq_spell hkeys hstrings entry.content
      own_ne := fun entry => entry.content.spell_ne_empty
      skips_eq := fun _ => rfl
      inlines_eq := fun _ => rfl
      encloses_eq := fun _ => rfl }
  have hlayout : (dialect config).layout = .indented config.indentWidth := by
    show config.layout = _
    rw [Config.layout, if_pos hindent]
  have hrun : (dialect config).convert doc = pure (String.ofList
      ((treeNest Entry.spell (treeOf 0 none value)).lines config.indentWidth 0)) := by
    rw [Dialect.convert_eq hwell, htrees, hplain.renderEach_eq hlayout, pure_bind, treeNests,
      treeNests, List.map_singleton, Layout.join_singleton]
  refine ⟨doc, ⟨_, tables (Token.Ledger.ofSupply supply)⟩, hdoc, ?_, rfl⟩
  apply Dialect.convertWith_eq_ok_iff.mpr
  exact ⟨_, Token.Ledger.ofSupply supply, by rw [hrun]; rfl, rfl⟩

/-- Indented notation loses nothing: two values whose keys stand on one line are written alike only
if they are the same, whatever the indentation, and both of them are written. -/
theorem convert_ofValue_text_eq_iff {config : Config} (hindent : config.indent = true)
    (hkeys : config.json.simplifyKeys = false) (hstrings : config.json.simplifyLongStrings = false)
    (supply : Supply) {v w : Value} (hv : v.KeysOnOneLine) (hw : w.KeysOnOneLine) :
    ∃ doc doc' result result', Document.ofValue v = .ok doc ∧ Document.ofValue w = .ok doc' ∧
      convert config supply doc = .ok result ∧ convert config supply doc' = .ok result' ∧
        (result.text = result'.text ↔ v = w) := by
  obtain ⟨doc, result, hdoc, hresult, htext⟩ :=
    convert_ofValue hindent hkeys hstrings supply v
  obtain ⟨doc', result', hdoc', hresult', htext'⟩ :=
    convert_ofValue hindent hkeys hstrings supply w
  refine ⟨doc, doc', result, result', hdoc, hdoc', hresult, hresult', ?_, ?_⟩
  · intro heq
    rw [htext, htext'] at heq
    have hnests := Nest.lines_injective config.one_le_indentWidth (lined_treeNest v 0 none hv)
      (lined_treeNest w 0 none hw) (String.ofList_inj.mp heq)
    exact eq_of_treeNest_eq v w 0 0 none none hnests
  · rintro rfl
    rw [htext, htext']

/-- An object whose key and string hold the signs of the notation, beside one with the members that
its notation seems to have. -/
theorem convert_signs_in_keys :
    let v : Value := .object [("a]+prop[b", .string "+\nnull"), ("c", .array [])]
    let w : Value := .object [("a", .string "+"), ("b", .null), ("c", .array [])]
    v.KeysOnOneLine ∧ w.KeysOnOneLine ∧
      ∃ doc doc' result result', Document.ofValue v = .ok doc ∧ Document.ofValue w = .ok doc' ∧
        convert { indent := true } .standard doc = .ok result ∧
        convert { indent := true } .standard doc' = .ok result' ∧
          (result.text = result'.text ↔ v = w) := by
  intro v w
  have hv : v.KeysOnOneLine := by
    refine .object (by simp) fun member hmember => ?_
    simp only [List.mem_cons, List.not_mem_nil, or_false] at hmember
    rcases hmember with rfl | rfl
    · exact .string _
    · exact .array (by simp)
  have hw : w.KeysOnOneLine := by
    refine .object (by simp) fun member hmember => ?_
    simp only [List.mem_cons, List.not_mem_nil, or_false] at hmember
    rcases hmember with rfl | rfl | rfl
    · exact .string _
    · exact .null
    · exact .array (by simp)
  exact ⟨hv, hw, convert_ofValue_text_eq_iff rfl rfl rfl .standard hv hw⟩

end TreeNotation.Json
