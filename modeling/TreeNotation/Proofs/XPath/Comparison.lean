import TreeNotation.Proofs.XPath.Restorers

/-!
# One Comparison in a Path

A path in which one predicate compares an attribute with a string literal, and which holds no other
literal. Whatever the literal holds, it may look like a predicate or like a step: as long as there
are no quotes in it, the searches for the shapes find this one literal only.

- **Searches**: `Shape.replace_literal_alone`, one search changes the literal or nothing, and
  `foldl_replace_alone`, at most one of the searches changes it;
- **Paths**: `Comparison`, whose literal does not matter for its steps (`Comparison.split_path`);
- **Restoring**: `Comparison.restore_path` puts a value in the place of its name, and
  `Comparison.restore_path_of_apart`, a comparison of another attribute stays as it is.
-/

namespace TreeNotation.XPath

open Text (isBlank)

/-! ## Section 1: Searches for a literal on its own -/

/-- A text with a string literal in it. -/
def around (before : List Char) (quote : Char) (after content : List Char) : List Char :=
  before ++ quote :: content ++ quote :: after

namespace Shape

variable {shape : Shape} {lookup : List Char → Option (List Char)}

/-- An occurrence takes two quotes. -/
theorem match?_eq_none_of_countP (hshape : shape.Regular) {cs : List Char}
    (h : cs.countP isQuote < 2) : shape.match? cs = none := by
  rw [Option.eq_none_iff_forall_ne_some]
  intro found hfound
  obtain ⟨u, q, content, v, rest, -, hquote, -, -, rfl, -⟩ := (match?_eq_some_iff hshape).mp hfound
  simp only [List.countP_append, List.countP_cons, hquote, if_true] at h
  omega

theorem replace_of_countP (hshape : shape.Regular) {cs : List Char} (h : cs.countP isQuote < 2) :
    shape.replace lookup cs = cs := by
  have hskips : shape.Skips cs [] := by
    rintro v w rfl -
    apply match?_eq_none_of_countP hshape
    rw [List.countP_append] at h
    rw [List.append_nil]
    omega
  have hcopied := hskips.replace_append lookup
  rwa [List.append_nil, show shape.replace lookup [] = [] by rw [replace], List.append_nil]
    at hcopied

theorem countP_eq_zero {cs : List Char} (h : ∀ c ∈ cs, isQuote c = false) :
    cs.countP isQuote = 0 :=
  List.countP_eq_zero.mpr fun c hc => by simp [h c hc]

theorem put_cons (hshape : shape.Regular) {c quote : Char} {before content after : List Char}
    (hquote : isQuote quote = true) (hcontent : ∀ c ∈ content, isQuote c = false)
    (hmatch : shape.match? (around (c :: before) quote after content) = none) :
    shape.put lookup (c :: before) after content = shape.put lookup before after content := by
  have hframes : shape.frames (c :: before) after = shape.frames before after := by
    rw [Bool.eq_iff_iff, frames_iff, frames_iff]
    refine and_congr_left ?_
    rintro ⟨v, ⟨rest, rfl⟩, hv⟩
    constructor
    · rintro ⟨u, hsuffix, hu⟩
      rcases List.suffix_cons_iff.mp hsuffix with rfl | hsuffix
      · -- The whole text would be an occurrence.
        have hsome := (match?_eq_some_iff hshape).mpr ⟨c :: before, quote, content, v, rest, hu,
          hquote, fun hmem => ne_of_isQuote hquote (hcontent quote hmem) rfl, hv, rfl, rfl⟩
        rw [around] at hmatch
        rw [hmatch] at hsome
        cases hsome
      · exact ⟨u, hsuffix, hu⟩
    · rintro ⟨u, hsuffix, hu⟩
      exact ⟨u, List.suffix_cons_iff.mpr (.inr hsuffix), hu⟩
  rw [put, put, hframes]

/-- If a text has one literal, the search for a shape changes it if it stands in the shape, and
changes nothing else. -/
theorem replace_around (hshape : shape.Regular) {before after content : List Char} {quote : Char}
    (hbefore : ∀ c ∈ before, isQuote c = false) (hafter : ∀ c ∈ after, isQuote c = false)
    (hcontent : ∀ c ∈ content, isQuote c = false) (hquote : isQuote quote = true) :
    shape.replace lookup (around before quote after content) =
      around before quote after (shape.put lookup before after content) := by
  have hmem : quote ∉ content := fun hmem => ne_of_isQuote hquote (hcontent quote hmem) rfl
  -- The induction is on the text before the literal, where an occurrence may begin.
  induction before with
  | nil =>
    -- Nothing can stand before the literal, so it stands in no shape.
    have hframes : shape.frames [] after = false := by
      rw [Bool.eq_false_iff, ne_eq, frames_iff]
      rintro ⟨⟨u, hu, hspells⟩, -⟩
      obtain rfl := List.suffix_nil.mp hu
      exact absurd (hshape.at_mem [] hspells) List.not_mem_nil
    have hnone : shape.match? (quote :: (content ++ quote :: after)) = none := by
      rw [Option.eq_none_iff_forall_ne_some]
      intro found hfound
      have hplain : ∀ c ∈ ([] : List Char), isQuote c = false := by simp
      obtain ⟨hspells, -⟩ := match?_literal hshape hplain hquote hmem hfound
      exact absurd (hshape.at_mem [] hspells) List.not_mem_nil
    have hrest : (content ++ quote :: after).countP isQuote < 2 := by
      simp [List.countP_append, countP_eq_zero hcontent, countP_eq_zero hafter, hquote]
    rw [put, hframes, around, List.nil_append, List.cons_append, replace_cons_of_match? hnone,
      replace_of_countP hshape hrest]
    rfl
  | cons c before ih =>
    obtain ⟨-, hbefore'⟩ := List.forall_mem_cons.mp hbefore
    cases hmatch : shape.match? (around (c :: before) quote after content) with
    | none =>
      rw [put_cons hshape hquote hcontent hmatch]
      exact (replace_cons_of_match? hmatch).trans (congrArg (c :: ·) (ih hbefore'))
    | some found =>
      obtain ⟨hopening, closing, hclosing, rfl, hfound⟩ :=
        match?_literal hshape hbefore hquote hmem hmatch
      have hframes : shape.frames (c :: before) (closing ++ found.rest) = true :=
        frames_iff.mpr ⟨⟨_, List.suffix_rfl, hopening⟩, closing, ⟨_, rfl⟩, hclosing⟩
      have hrest : found.rest.countP isQuote < 2 := by
        rw [countP_eq_zero fun c hc => hafter c (List.mem_append.mpr (.inr hc))]
        exact Nat.zero_lt_two
      rw [replace_of_match? hmatch, replace_of_countP hshape hrest, put, hframes, hfound]
      simp [around]

end Shape

section Searches

variable {shapes : List Shape} {lookup : List Char → Option (List Char)}
  {before after content : List Char} {quote : Char}

theorem foldl_replace_around_of_forall (hregular : ∀ shape ∈ shapes, shape.Regular)
    (hbefore : ∀ c ∈ before, isQuote c = false) (hafter : ∀ c ∈ after, isQuote c = false)
    (hcontent : ∀ c ∈ content, isQuote c = false) (hquote : isQuote quote = true)
    (hframes : ∀ shape ∈ shapes, shape.frames before after = false) :
    shapes.foldl (fun cs shape => shape.replace lookup cs) (around before quote after content) =
      around before quote after content := by
  induction shapes with
  | nil => rfl
  | cons shape shapes ih =>
    obtain ⟨hshape, hregular'⟩ := List.forall_mem_cons.mp hregular
    obtain ⟨hnot, hframes'⟩ := List.forall_mem_cons.mp hframes
    rw [List.foldl_cons, Shape.replace_around hshape hbefore hafter hcontent hquote, Shape.put, hnot]
    exact ih hregular' hframes'

/-- A literal that stands in one shape is changed by the search for that one, and what has been put
in its place stays. -/
theorem foldl_replace_around (hregular : ∀ shape ∈ shapes, shape.Regular)
    (hexclude : shapes.Pairwise Shape.Excludes) (hbefore : ∀ c ∈ before, isQuote c = false)
    (hafter : ∀ c ∈ after, isQuote c = false) (hcontent : ∀ c ∈ content, isQuote c = false)
    (hquote : isQuote quote = true) {shape : Shape} (hshape : shape ∈ shapes)
    (hframes : shape.frames before after = true) {value : List Char}
    (hvalue : ∀ c ∈ value, isQuote c = false) (hlookup : lookup content = some value) :
    shapes.foldl (fun cs shape => shape.replace lookup cs) (around before quote after content) =
      around before quote after value := by
  obtain ⟨earlier, later, rfl⟩ := List.append_of_mem hshape
  obtain ⟨hearlier, hregular'⟩ := List.forall_mem_append.mp hregular
  obtain ⟨hfound, hlater⟩ := List.forall_mem_cons.mp hregular'
  obtain ⟨-, hpairwise, hacross⟩ := List.pairwise_append.mp hexclude
  have hafterwards := (List.pairwise_cons.mp hpairwise).1
  -- The literal stands in none of the shapes before and after.
  have hnot : ∀ other ∈ earlier, other.frames before after = false := fun other hother =>
    Bool.eq_false_iff.mpr fun h => hacross other hother shape List.mem_cons_self before after
      ⟨h, hframes⟩
  have hnot' : ∀ other ∈ later, other.frames before after = false := fun other hother =>
    Bool.eq_false_iff.mpr fun h => hafterwards other hother before after ⟨hframes, h⟩
  have hput : shape.put lookup before after content = value := by
    rw [Shape.put, if_pos hframes, hlookup, Option.getD_some]
  rw [List.foldl_append, List.foldl_cons,
    foldl_replace_around_of_forall hearlier hbefore hafter hcontent hquote hnot,
    Shape.replace_around hfound hbefore hafter hcontent hquote, hput,
    foldl_replace_around_of_forall hlater hbefore hafter hvalue hquote hnot']

end Searches

/-! ## Section 2: Spellings without brackets and slashes -/

/-- Nothing but a quote, a bracket or a slash agrees with one. -/
theorem inert_of_spells {pieces : List Piece} {cs : List Char} (h : spells pieces cs = true)
    (hwords : ∀ text, Piece.word text ∈ pieces → Inert text) : Inert cs := by
  have hnot : ∀ mark, (isQuote mark || mark == '/' || mark == '[' || mark == ']') = true →
      mark ∉ cs := by
    intro mark hmark
    have hinert : ∀ text, Piece.word text ∈ pieces → mark ∉ text := by
      intro text htext hmem
      have hchar := hwords text htext mark hmem
      simp [hchar] at hmark
    simp only [isQuote, Bool.or_eq_true, beq_iff_eq] at hmark
    rcases hmark with (((rfl | rfl) | rfl) | rfl) | rfl <;>
      exact not_mem_of_spells h rfl (by decide) hinert
  intro c hc
  refine ⟨?_, ?_, ?_, ?_⟩
  · exact Bool.eq_false_iff.mpr fun hquote => hnot c (by simp [hquote]) hc
  · rintro rfl; exact hnot _ rfl hc
  · rintro rfl; exact hnot _ rfl hc
  · rintro rfl; exact hnot _ rfl hc

theorem inert_of_mem_shapes {name : String} (hname : Inert name.toList) {shape : Shape}
    (hshape : shape ∈ (AttributeMatcher.ofAttribute name).shapes) {text : List Char}
    (htext : Piece.word text ∈ shape.opening ++ shape.closing) : Inert text :=
  forall_mem_of_word (show Inert fixedChars by decide) hname hshape htext

/-! ## Section 3: Paths -/

/-- A path with a predicate that compares an attribute with a string literal, but for the content
of the literal. -/
structure Comparison where
  /-- The steps before the one with the predicate. -/
  before : List Char
  /-- The slashes before the step. -/
  separator : List Char
  /-- The node test of the step. -/
  tag : List Char
  /-- The predicate up to the literal. -/
  opening : List Char
  /-- The quotes around the literal. -/
  quote : Char
  /-- The predicate after the literal. -/
  closing : List Char
  /-- The steps after the one with the predicate. -/
  later : List Char

namespace Comparison

/-- The predicate of a comparison, in its brackets. -/
def predicate (c : Comparison) (content : List Char) : List Char :=
  around ('[' :: c.opening) c.quote (c.closing ++ [']']) content

/-- The path that compares with a text. -/
def path (c : Comparison) (content : String) : String :=
  String.ofList (c.before ++ (c.separator ++ (c.tag ++ c.predicate content.toList)) ++ c.later)

/-- The literal stands between quotes and is the only one of the path, and the step with the
predicate is told apart from the others by slashes. -/
structure WellFormed (c : Comparison) : Prop where
  before_plain : ∀ d ∈ c.before, isQuote d = false
  before_closed : Scope.outermost.afterAll c.before = .outermost
  before_ends : c.before.getLast? ≠ some '/'
  slashes : ∀ d ∈ c.separator, d = '/'
  separated : c.before = [] ∨ c.separator ≠ []
  tag_inert : Inert c.tag
  quote_isQuote : isQuote c.quote = true
  later_plain : ∀ d ∈ c.later, isQuote d = false
  later_begins : c.later = [] ∨ ∃ more, c.later = '/' :: more

/-- The predicate is one of the ten on an attribute. -/
def On (c : Comparison) (name : String) : Prop :=
  ∃ shape ∈ (AttributeMatcher.ofAttribute name).shapes,
    spells shape.opening c.opening = true ∧ spells shape.closing c.closing = true

variable {c : Comparison}

theorem On.exists_frames {name : String} (h : c.On name) :
    ∃ shape ∈ (AttributeMatcher.ofAttribute name).shapes,
      shape.frames ('[' :: c.opening) (c.closing ++ [']']) = true := by
  obtain ⟨shape, hshape, hopening, hclosing⟩ := h
  exact ⟨shape, hshape, frames_iff.mpr ⟨⟨_, List.suffix_cons _ _, hopening⟩, _,
    List.prefix_append _ _, hclosing⟩⟩

section Steps

variable {name : String} (hname : Inert name.toList) (hon : c.On name)
include hname hon

theorem On.inert : Inert c.opening ∧ Inert c.closing := by
  obtain ⟨shape, hshape, hopening, hclosing⟩ := hon
  constructor
  · exact inert_of_spells hopening fun text htext =>
      inert_of_mem_shapes hname hshape (List.mem_append.mpr (.inl htext))
  · exact inert_of_spells hclosing fun text htext =>
      inert_of_mem_shapes hname hshape (List.mem_append.mpr (.inr htext))

theorem On.plain : (∀ d ∈ '[' :: c.opening, isQuote d = false) ∧
    ∀ d ∈ c.closing ++ [']'], isQuote d = false := by
  obtain ⟨hopening, hclosing⟩ := hon.inert hname
  constructor
  · exact List.forall_mem_cons.mpr ⟨rfl, hopening.isQuote_eq⟩
  · exact List.forall_mem_append.mpr ⟨hclosing.isQuote_eq, by simp [isQuote]⟩

variable (hc : c.WellFormed)
include hc

/-- The literal does not matter for where the step ends. -/
theorem WellFormed.scan_step {content : List Char} (hcontent : ∀ d ∈ content, isQuote d = false) :
    Unbroken .outermost (c.tag ++ c.predicate content) ∧
      Scope.outermost.afterAll (c.tag ++ c.predicate content) = .outermost := by
  obtain ⟨hopens, hcloses⟩ := hon.inert hname
  have hmem : c.quote ∉ content := fun hmem =>
    ne_of_isQuote hc.quote_isQuote (hcontent c.quote hmem) rfl
  have hsplit : c.tag ++ c.predicate content = c.tag ++ (['['] ++ (c.opening ++
      ((c.quote :: content ++ [c.quote]) ++ (c.closing ++ [']'])))) := by
    simp [predicate, around]
  let inner : Scope := ⟨1, none⟩
  have htag : Scope.outermost.afterAll c.tag = .outermost := hc.tag_inert.afterAll_eq rfl
  have hopening : inner.afterAll c.opening = inner := hopens.afterAll_eq rfl
  have hliteral : inner.afterAll (c.quote :: content ++ [c.quote]) = inner :=
    Scope.afterAll_literal rfl hc.quote_isQuote hmem
  have hclosing : inner.afterAll c.closing = inner := hcloses.afterAll_eq rfl
  have hopen : Scope.outermost.afterAll ['['] = inner := rfl
  have hclose : inner.afterAll [']'] = .outermost := rfl
  rw [hsplit]
  constructor
  · refine unbroken_append_iff.mpr ⟨hc.tag_inert.unbroken _, ?_⟩
    rw [htag]
    refine unbroken_append_iff.mpr ⟨by simp [Unbroken], ?_⟩
    rw [hopen]
    refine unbroken_append_iff.mpr ⟨hopens.unbroken _, ?_⟩
    rw [hopening]
    refine unbroken_append_iff.mpr ⟨unbroken_literal rfl hc.quote_isQuote hmem, ?_⟩
    rw [hliteral]
    exact unbroken_append_iff.mpr ⟨hcloses.unbroken _, by simp [Unbroken]⟩
  · rw [Scope.afterAll_append, htag, Scope.afterAll_append, hopen, Scope.afterAll_append, hopening,
      Scope.afterAll_append, hliteral, Scope.afterAll_append, hclosing, hclose]

/-- The step with the predicate is one of the steps of the path, whatever the literal holds. -/
theorem WellFormed.split_path {content : String}
    (hcontent : ∀ d ∈ content.toList, isQuote d = false) :
    split (c.path content).toList =
      split c.before ++ ⟨c.separator, c.tag ++ c.predicate content.toList⟩ :: split c.later := by
  obtain ⟨hbreak, hscope⟩ := hc.scan_step hname hon hcontent
  have hne : c.tag ++ c.predicate content.toList ≠ [] := by simp [predicate, around]
  have hhead : (c.tag ++ c.predicate content.toList).head? ≠ some '/' := by
    cases htag : c.tag with
    | nil => simp [predicate, around]
    | cons d tag =>
      have hd := hc.tag_inert d (by simp [htag])
      simpa using hd.2.1
  have hstep : StepsOff c.separator (c.tag ++ c.predicate content.toList) c.later :=
    ⟨hc.slashes, by simp [hne], hhead, hbreak, hc.later_begins.imp id fun hslash =>
      ⟨hne, hslash, hscope⟩⟩
  have hsplit := split_of_next? (next?_of_stepsOff hstep)
  rw [path, String.toList_ofList, List.append_assoc, ← hsplit]
  rcases hc.separated with hbefore | hseparator
  · rw [hbefore, split_nil, List.nil_append, List.nil_append]
  · apply split_append hc.before_closed hc.before_ends
    obtain ⟨d, separator, hd⟩ := List.exists_cons_of_ne_nil hseparator
    obtain rfl : d = '/' := hc.slashes d (by simp [hd])
    exact .inr ⟨_, by rw [hd]; rfl⟩

end Steps

/-! ## Section 4: Restoring -/

section Restoring

variable {matcher : AttributeMatcher} {tag : Option String}
  {lookup : List Char → Option (List Char)}

/-- Steps without literals stay as they are. -/
theorem flatMap_restoreStep_of_plain (hregular : ∀ shape ∈ matcher.shapes, shape.Regular)
    {path : List Char} (hpath : ∀ d ∈ path, isQuote d = false) :
    (split path).flatMap (restoreStep matcher tag lookup) = path := by
  have hstep : ∀ step ∈ split path, restoreStep matcher tag lookup step = step.toChars := by
    intro step hstep
    have hplain : (NodeTest.ofStep step.text).predicates.countP isQuote < 2 := by
      rw [Shape.countP_eq_zero]
      · exact Nat.zero_lt_two
      · intro d hd
        apply hpath
        rw [← flatten_split path, List.mem_flatMap]
        refine ⟨step, hstep, List.mem_append.mpr (.inr ?_)⟩
        rw [← NodeTest.ofStep_append step.text]
        exact List.mem_append.mpr (.inr hd)
    have hsame : matcher.substituteChars lookup (NodeTest.ofStep step.text).predicates =
        (NodeTest.ofStep step.text).predicates := by
      unfold AttributeMatcher.substituteChars
      exact List.foldlRecOn _ _ (motive := fun cs => cs = _) rfl fun cs hcs shape hshape => by
        rw [hcs, Shape.replace_of_countP (hregular shape hshape) hplain]
    simp only [restoreStep, hsame, ite_self, Step.toChars, List.append_assoc,
      NodeTest.ofStep_append]
  rw [List.flatMap_congr hstep, flatten_split]

/-- The path of a comparison is restored by restoring its predicate. -/
theorem restoreChars_path (hregular : ∀ shape ∈ matcher.shapes, shape.Regular)
    {name : String} (hname : Inert name.toList) (hc : c.WellFormed) (hon : c.On name)
    {content content' : String} (hcontent : ∀ d ∈ content.toList, isQuote d = false)
     (hrestored : (if (NodeTest.ofStep c.tag).concerns tag then
      matcher.substituteChars lookup (c.predicate content.toList)
      else c.predicate content.toList) = c.predicate content'.toList) :
    restoreChars matcher tag lookup (c.path content).toList = (c.path content').toList := by
  have hbare : NodeTest.ofStep (c.tag ++ []) = _ :=
    NodeTest.ofStep_of_inert hc.tag_inert (by simp)
  have hfull : NodeTest.ofStep (c.tag ++ c.predicate content.toList) = _ :=
    NodeTest.ofStep_of_inert hc.tag_inert (by simp [predicate, around])
  have hstep : restoreStep matcher tag lookup ⟨c.separator, c.tag ++ c.predicate content.toList⟩ =
      c.separator ++ (c.tag ++ c.predicate content'.toList) := by
    rw [List.append_nil] at hbare
    rw [← hrestored, hbare, restoreStep, hfull, List.append_assoc]
    rfl
  rw [restoreChars, hc.split_path hname hon hcontent, List.flatMap_append, List.flatMap_cons, hstep,
    flatMap_restoreStep_of_plain hregular hc.before_plain,
    flatMap_restoreStep_of_plain hregular hc.later_plain, path, String.toList_ofList]
  simp only [List.append_assoc]

/-- A restorer puts the value in the place of its name, whatever the value looks like. -/
theorem restore_path {r : Restorer} (hr : r.Faithful) {name : String} (hname : Inert name.toList)
    (hmark : ')' ∉ name.toList) (hc : c.WellFormed) (hon : c.On name)
    (hconcerned : (NodeTest.ofStep c.tag).concerns tag = true) {map : OrderedMap String String}
    {token value : String} (hentry : map.get? token = some value)
    (htoken : ∀ d ∈ token.toList, isQuote d = false)
    (hvalue : ∀ d ∈ value.toList, isQuote d = false) :
    (r.restore (c.path token) tag name map).1 = c.path value := by
  have hregular : ∀ shape ∈ (AttributeMatcher.ofAttribute name).shapes, shape.Regular :=
    fun shape hshape => regular_of_unquoted hname.isQuote_eq hshape
  have hexclude := pairwise_excludes_of_not_mem hmark
  have hlookup : AttributeMatcher.lookup map token.toList = some value.toList := by
    rw [AttributeMatcher.lookup, String.ofList_toList, hentry]
    rfl
  obtain ⟨hbegins, hends⟩ := hon.plain hname
  obtain ⟨shape, hshape, hframes⟩ := hon.exists_frames
  have hpredicate : (AttributeMatcher.ofAttribute name).substituteChars
      (AttributeMatcher.lookup map) (c.predicate token.toList) = c.predicate value.toList :=
    foldl_replace_around hregular hexclude hbegins hends htoken hc.quote_isQuote hshape hframes
      hvalue hlookup
  have hempty : map.isEmpty = false := by
    have hmem := OrderedMap.get?_eq_some_iff.mp hentry
    exact List.isEmpty_eq_false_iff.mpr (List.ne_nil_of_mem hmem)
  apply String.toList_inj.mp
  rw [hr.restore_toList (c.path token) tag name hempty]
  exact restoreChars_path hregular hname hc hon htoken (by rw [if_pos hconcerned, hpredicate])

/-- A comparison of another attribute stays as it is, even if the literal is a name. -/
theorem restore_path_of_apart {r : Restorer} (hr : r.Faithful) {name other : String}
    (hname : Inert name.toList) (hmark : ')' ∉ name.toList) (hother : Inert other.toList)
    (hmark' : ')' ∉ other.toList)
    (hapart : Apart (trace ('@' :: name.toList)) (trace ('@' :: other.toList)))
    (hc : c.WellFormed) (hon : c.On name) (map : OrderedMap String String) {content : String}
    (hcontent : ∀ d ∈ content.toList, isQuote d = false) :
    (r.restore (c.path content) tag other map).1 = c.path content := by
  have hregular : ∀ shape ∈ (AttributeMatcher.ofAttribute other).shapes, shape.Regular :=
    fun shape hshape => regular_of_unquoted hother.isQuote_eq hshape
  obtain ⟨hbegins, hends⟩ := hon.plain hname
  obtain ⟨shape, hshape, hframes⟩ := hon.exists_frames
  have hnot : ∀ shape' ∈ (AttributeMatcher.ofAttribute other).shapes,
      shape'.frames ('[' :: c.opening) (c.closing ++ [']']) = false := by
    intro shape' hshape'
    have hexclude := excludes_of_apart_names hmark hmark' hapart hshape hshape'
    exact Bool.eq_false_iff.mpr fun h => hexclude _ _ ⟨hframes, h⟩
  have hpredicate : (AttributeMatcher.ofAttribute other).substituteChars
      (AttributeMatcher.lookup map) (c.predicate content.toList) = c.predicate content.toList :=
    foldl_replace_around_of_forall hregular hbegins hends hcontent hc.quote_isQuote hnot
  cases hempty : map.isEmpty with
  | true => rw [Restorer.restore, if_pos hempty]
  | false =>
    apply String.toList_inj.mp
    rw [hr.restore_toList (c.path content) tag other hempty]
    exact restoreChars_path hregular hname hc hon hcontent (by rw [hpredicate, ite_self])

end Restoring

end Comparison

end TreeNotation.XPath
