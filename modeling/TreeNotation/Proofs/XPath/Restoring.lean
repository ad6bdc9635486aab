import Mathlib.Data.List.Pairwise
import TreeNotation.Proofs.XPath.Shapes
import TreeNotation.Proofs.XPath.Steps
import TreeNotation.XPath.Restorer

/-!
# Restoring as One Change

The search for one shape after the other, each in what the last one has left, changes every literal
at most once, and all of them could be changed at once.

- **Literals**: `changeLiterals`, one change of the literals of a text, and `foldl_replace_text`;
- **Steps**: `Step.update` and `changeStep`; a changed step reads as it was (`Step.readsAs_update`),
  and `restoreStep_eq_of_admits` says when restoring a step is a change of it;
- **Paths**: `changePath`, with `restoreChars_eq_changePath` and `split_changePath`.
-/

namespace TreeNotation.XPath

variable {shapes : List Shape} {lookup : List Char → Option (List Char)} {tag : Option String}

/-! ## Section 1: Literals -/

/-- What becomes of the content of a literal: if the literal stands in one of some shapes, what
`lookup` has for it. -/
def putAny (shapes : List Shape) (lookup : List Char → Option (List Char))
    (before after content : List Char) : List Char :=
  if shapes.any fun shape => shape.frames before after then (lookup content).getD content
  else content

/-- A text with the contents of its literals changed all at once, where they stand in one of some
shapes. -/
def changeLiterals (shapes : List Shape) (lookup : List Char → Option (List Char))
    (cs : List Char) : List Char :=
  ((Cut.ofChars cs).update (putAny shapes lookup)).text

/-- No value holds a quote or an at sign. -/
def PlainValues (lookup : List Char → Option (List Char)) : Prop :=
  ∀ content value, lookup content = some value → ∀ c ∈ value, isQuote c = false ∧ c ≠ '@'

theorem putAny_cases (shapes : List Shape) (lookup : List Char → Option (List Char))
    (before after content : List Char) :
    putAny shapes lookup before after content = content ∨
      lookup content = some (putAny shapes lookup before after content) := by
  unfold putAny
  split
  case isTrue =>
    cases hvalue : lookup content with
    | none => exact Or.inl rfl
    | some value => exact Or.inr rfl
  case isFalse => exact Or.inl rfl

theorem PlainValues.not_mem_putAny (hlookup : PlainValues lookup) {mark : Char}
    (hmark : isQuote mark = true ∨ mark = '@') {before after content : List Char}
    (h : mark ∉ content) : mark ∉ putAny shapes lookup before after content := by
  rcases putAny_cases shapes lookup before after content with heq | hvalue
  · rwa [heq]
  · intro hmem
    obtain ⟨hquote, hat⟩ := hlookup content _ hvalue mark hmem
    rcases hmark with hmark | hmark
    · rw [hquote] at hmark
      cases hmark
    · exact hat hmark

theorem PlainValues.sound_update (hlookup : PlainValues lookup) {k : Cut} (hk : k.Sound) :
    (k.update (putAny shapes lookup)).Sound :=
  hk.update fun _ _ _ _ hquote => hlookup.not_mem_putAny (.inl hquote)

/-- Plain values may be put into literals without at signs. -/
theorem PlainValues.admits (hlookup : PlainValues lookup) {k : Cut} (hk : k.Sound)
    (hclear : k.Holds ('@' ∉ ·)) : k.Admits ('@' ∉ ·) (putAny shapes lookup) := by
  induction k with
  | last stretch unclosed => trivial
  | literal stretch quote content rest ih =>
    obtain ⟨-, hquote, hcontent, hrest⟩ := hk
    obtain ⟨hliteral, hothers⟩ := hclear
    simp only [List.mem_append, List.mem_cons, List.not_mem_nil, or_false, not_or] at hliteral
    obtain ⟨⟨hne, hat⟩, -⟩ := hliteral
    refine ⟨hlookup.not_mem_putAny (.inl hquote) hcontent, ?_, ih hrest hothers⟩
    have hvalue : '@' ∉ putAny shapes lookup stretch rest.stretch content :=
      hlookup.not_mem_putAny (.inr rfl) hat
    simp only [List.mem_append, List.mem_cons, List.not_mem_nil, or_false, not_or]
    exact ⟨⟨hne, hvalue⟩, hne⟩

theorem putAny_perm {shapes' : List Shape} (h : shapes.Perm shapes') :
    putAny shapes lookup = putAny shapes' lookup := by
  funext before after content
  rw [putAny, putAny, h.any_eq]

/-- Some of the shapes change a literal as all of them do, or not at all. -/
theorem putAny_subset {done : List Shape} (h : done ⊆ shapes) (before after content : List Char) :
    putAny done lookup before after content = content ∨
      putAny done lookup before after content = putAny shapes lookup before after content := by
  cases hdone : done.any fun shape => shape.frames before after with
  | false => exact .inl (by rw [putAny, hdone]; rfl)
  | true =>
    obtain ⟨shape, hshape, hframes⟩ := List.any_eq_true.mp hdone
    have hall : (shapes.any fun shape => shape.frames before after) = true :=
      List.any_eq_true.mpr ⟨shape, h hshape, hframes⟩
    exact .inr (by rw [putAny, putAny, hdone, hall])

/-- A literal that stands in one shape stands in no other one, so a value that is put in stays. -/
theorem put_putAny {done : List Shape} {shape : Shape}
    (hexclude : ∀ other ∈ done, other.Excludes shape) (before after content : List Char) :
    shape.put lookup before after (putAny done lookup before after content) =
      putAny (done ++ [shape]) lookup before after content := by
  by_cases hframes : shape.frames before after = true
  · -- No value has been put in before.
    have hothers : (done.any fun other => other.frames before after) = false := by
      rw [List.any_eq_false]
      intro other hother hboth
      exact hexclude other hother before after ⟨hboth, hframes⟩
    simp [putAny, Shape.put, hframes, hothers]
  · rw [Bool.not_eq_true] at hframes
    simp [putAny, Shape.put, hframes]

/-- No quote of a text comes right after what opens one of the shapes. -/
def Quiet (shapes : List Shape) (cs : List Char) : Prop := ∀ shape ∈ shapes, ¬ shape.Opens cs

/-- Without at signs no shape is opened. -/
theorem quiet_of_not_mem (hregular : ∀ shape ∈ shapes, shape.Regular) {cs : List Char}
    (hcs : '@' ∉ cs) : Quiet shapes cs :=
  fun shape hshape => Shape.not_opens_of_not_mem (hregular shape hshape) hcs

/-- Searching for the rest of some shapes, after searches have changed the literals that stand in
the others, is one change of all literals. -/
theorem foldl_replace_update (hregular : ∀ shape ∈ shapes, shape.Regular)
    (hexclude : shapes.Pairwise Shape.Excludes) {k : Cut} (hk : k.Sound)
    (hquiet : k.Holds (Quiet shapes)) (hadmits : k.Admits (Quiet shapes) (putAny shapes lookup))
    {done todo : List Shape} (hsplit : done ++ todo = shapes) :
    todo.foldl (fun cs shape => shape.replace lookup cs) (k.update (putAny done lookup)).text =
      (k.update (putAny shapes lookup)).text := by
  -- The induction is on the searches that are to come; the text is always a change of the one cut.
  induction todo generalizing done with
  | nil => rw [← hsplit, List.append_nil, List.foldl_nil]
  | cons shape todo ih =>
    have hmem : shape ∈ shapes := by simp [← hsplit]
    have hsubset : done ⊆ shapes := fun other hother => by simp [← hsplit, hother]
    have hdone : k.Admits (Quiet shapes) (putAny done lookup) := by
      apply Cut.Admits.of_cases [fun _ _ content => content, putAny shapes lookup]
      · simpa using ⟨Cut.admits_id hk hquiet, hadmits⟩
      · intro before after content
        simpa using putAny_subset hsubset before after content
    have hsearch : shape.replace lookup (k.update (putAny done lookup)).text =
        ((k.update (putAny done lookup)).update (shape.put lookup)).text :=
      Shape.replace_text (hregular shape hmem) (hdone.sound hk)
        ((hdone.holds hquiet).imp fun _ h => h shape hmem)
    have hfirst : ∀ other ∈ done, other.Excludes shape := by
      rw [← hsplit, List.pairwise_append] at hexclude
      exact fun other hother => hexclude.2.2 other hother shape List.mem_cons_self
    rw [List.foldl_cons, hsearch, Cut.update_update, Cut.update_congr (put_putAny hfirst)]
    apply ih
    rw [← hsplit, ← List.append_cons]

/-- Searching for one shape after the other is one change of all literals. -/
theorem foldl_replace_text (hregular : ∀ shape ∈ shapes, shape.Regular)
    (hexclude : shapes.Pairwise Shape.Excludes) {k : Cut} (hk : k.Sound)
    (hquiet : k.Holds (Quiet shapes)) (hadmits : k.Admits (Quiet shapes) (putAny shapes lookup)) :
    shapes.foldl (fun cs shape => shape.replace lookup cs) k.text =
      (k.update (putAny shapes lookup)).text := by
  have hsame : ∀ before after content, putAny [] lookup before after content = content :=
    fun _ _ _ => rfl
  have hsearch := foldl_replace_update hregular hexclude hk hquiet hadmits (List.nil_append shapes)
  rwa [Cut.update_of_forall hsame] at hsearch

/-- If no literal holds an at sign, the search for the shapes changes all literals at once. -/
theorem substituteChars_eq_changeLiterals {matcher : AttributeMatcher}
    (hregular : ∀ shape ∈ matcher.shapes, shape.Regular)
    (hexclude : matcher.shapes.Pairwise Shape.Excludes) (hlookup : PlainValues lookup)
    {cs : List Char} (hclear : (Cut.ofChars cs).Holds ('@' ∉ ·)) :
    matcher.substituteChars lookup cs = changeLiterals matcher.shapes lookup cs := by
  have hquiet : ∀ ds, '@' ∉ ds → Quiet matcher.shapes ds := fun _ => quiet_of_not_mem hregular
  have hsound := Cut.sound_ofChars cs
  have hone := foldl_replace_text hregular hexclude hsound (hclear.imp hquiet)
    ((hlookup.admits hsound hclear).imp hquiet)
  rwa [Cut.text_ofChars] at hone

/-! ## Section 2: Steps -/

/-- A step with the literals in its predicates changed, if it is for the element in question. -/
def changeStep (shapes : List Shape) (tag : Option String)
    (lookup : List Char → Option (List Char)) (step : Step) : Step :=
  let test := NodeTest.ofStep step.text
  let predicates :=
    if test.concerns tag then changeLiterals shapes lookup test.predicates else test.predicates
  ⟨step.separator, test.head ++ predicates⟩

namespace Step

/-- The predicates of a step, cut at their literals. -/
def cut (step : Step) : Cut := Cut.ofChars (NodeTest.ofStep step.text).predicates

/-- A step with the contents of the literals in its predicates changed. -/
def update (change : List Char → List Char → List Char → List Char) (step : Step) : Step :=
  ⟨step.separator, (NodeTest.ofStep step.text).head ++ (step.cut.update change).text⟩

variable {change : List Char → List Char → List Char → List Char}

theorem sound_cut (step : Step) : step.cut.Sound := Cut.sound_ofChars _

theorem head_append_text_cut (step : Step) :
    (NodeTest.ofStep step.text).head ++ step.cut.text = step.text := by
  rw [cut, Cut.text_ofChars, NodeTest.ofStep_append]

theorem update_of_forall (h : ∀ before after content, change before after content = content)
    (step : Step) : step.update change = step := by
  rw [update, Cut.update_of_forall h, head_append_text_cut]

/-- A changed step has the node test that it had. -/
theorem ofStep_update (change : List Char → List Char → List Char → List Char) (step : Step) :
    NodeTest.ofStep (step.update change).text =
      { NodeTest.ofStep step.text with predicates := (step.cut.update change).text } := by
  apply NodeTest.ofStep_append_of_head?
  rw [Cut.head?_text_update, cut, Cut.text_ofChars]

theorem cut_update {step : Step} (h : (step.cut.update change).Sound) :
    (step.update change).cut = step.cut.update change := by
  rw [cut, ofStep_update, Cut.ofChars_text h]

/-- Changes one after the other are one change. -/
theorem update_update {step : Step} (h : (step.cut.update change).Sound)
    (change' : List Char → List Char → List Char → List Char) :
    (step.update change).update change' =
      step.update fun before after content =>
        change' before after (change before after content) := by
  rw [update, cut_update h, ofStep_update, Cut.update_update]
  rfl

/-- The predicates of a step begin outside of literals, and so do not end within one that its node
test has begun. -/
theorem predicates_cases (text : List Char) :
    (NodeTest.ofStep text).predicates = [] ∨
      (Scope.outermost.afterAll (NodeTest.ofStep text).head).quote = none :=
  (cutPredicates_cases .outermost text).imp id And.right

theorem readsAs_update {step : Step} (h : (step.cut.update change).Sound) :
    ReadsAs (step.update change).text step.text := by
  have htext := step.head_append_text_cut
  have hhead : (step.cut.update change).text.head? = step.cut.text.head? :=
    Cut.head?_text_update step.cut
  rcases predicates_cases step.text with hnil | hscope
  · -- Without predicates nothing is changed.
    have hcut : step.cut.text = [] := by rw [cut, Cut.text_ofChars, hnil]
    rw [hcut, List.head?_nil, List.head?_eq_none_iff, ← hcut] at hhead
    rw [update, hhead, htext]
    exact .refl _
  · obtain ⟨hscan, hbreak⟩ := Cut.scan_update step.sound_cut h hscope
    have hreads : ReadsAs ((NodeTest.ofStep step.text).head ++ (step.cut.update change).text)
        ((NodeTest.ofStep step.text).head ++ step.cut.text) := by
      refine ⟨?_, ?_, ?_⟩
      · rw [unbroken_append_iff, unbroken_append_iff, hbreak]
        exact id
      · rw [Scope.afterAll_append, Scope.afterAll_append, hscan]
      · rw [List.head?_append, List.head?_append, hhead]
    rwa [htext] at hreads

end Step

theorem changeStep_eq (shapes : List Shape) (tag : Option String)
    (lookup : List Char → Option (List Char)) (step : Step) :
    changeStep shapes tag lookup step =
      if (NodeTest.ofStep step.text).concerns tag then step.update (putAny shapes lookup)
      else step := by
  unfold changeStep
  dsimp only
  split
  case isTrue => rfl
  case isFalse => rw [NodeTest.ofStep_append]

/-- If no quote in a literal, as it is or as it is going to be, comes right after what opens a
shape, then restoring a step changes its literals. -/
theorem restoreStep_eq_of_admits {matcher : AttributeMatcher}
    (hregular : ∀ shape ∈ matcher.shapes, shape.Regular)
    (hexclude : matcher.shapes.Pairwise Shape.Excludes) {step : Step}
    (h : (NodeTest.ofStep step.text).concerns tag = true →
      step.cut.Holds (Quiet matcher.shapes) ∧
        step.cut.Admits (Quiet matcher.shapes) (putAny matcher.shapes lookup)) :
    restoreStep matcher tag lookup step =
      (changeStep matcher.shapes tag lookup step).toChars := by
  simp only [restoreStep, changeStep, Step.toChars, List.append_assoc]
  split
  case isTrue hconcerned =>
    obtain ⟨hquiet, hadmits⟩ := h hconcerned
    have hone := foldl_replace_text hregular hexclude step.sound_cut hquiet hadmits
    rw [Step.cut, Cut.text_ofChars] at hone
    rw [AttributeMatcher.substituteChars, hone, changeLiterals]
  case isFalse => rfl

theorem clear_cut {step : Step} (h : AtOutside .outermost step.text) :
    step.cut.Holds ('@' ∉ ·) := by
  rw [← NodeTest.ofStep_append step.text, atOutside_append_iff] at h
  -- The node test ends outside of literals, so its scope is one to begin with.
  rcases Step.predicates_cases step.text with hnil | hscope
  · rw [Step.cut, hnil, Cut.ofChars]
    exact List.not_mem_nil
  · refine Cut.clear_of_atOutside step.sound_cut hscope ?_
    rw [Step.cut, Cut.text_ofChars]
    exact h.2

theorem restoreStep_eq {matcher : AttributeMatcher}
    (hregular : ∀ shape ∈ matcher.shapes, shape.Regular)
    (hexclude : matcher.shapes.Pairwise Shape.Excludes) (hlookup : PlainValues lookup) {step : Step}
    (hstep : AtOutside .outermost step.text) :
    restoreStep matcher tag lookup step =
      (changeStep matcher.shapes tag lookup step).toChars := by
  have hquiet : ∀ cs, '@' ∉ cs → Quiet matcher.shapes cs := fun _ => quiet_of_not_mem hregular
  apply restoreStep_eq_of_admits hregular hexclude
  intro _
  have hclear := clear_cut hstep
  exact ⟨hclear.imp hquiet, (hlookup.admits step.sound_cut hclear).imp hquiet⟩

theorem readsAs_changeStep (hlookup : PlainValues lookup) (step : Step) :
    ReadsAs (changeStep shapes tag lookup step).text step.text := by
  rw [changeStep_eq]
  split
  case isTrue => exact Step.readsAs_update (hlookup.sound_update step.sound_cut)
  case isFalse => exact .refl _

theorem ofStep_changeStep (shapes : List Shape) (tag : Option String)
    (lookup : List Char → Option (List Char)) (step : Step) :
    (NodeTest.ofStep (changeStep shapes tag lookup step).text).name =
        (NodeTest.ofStep step.text).name ∧
      (NodeTest.ofStep (changeStep shapes tag lookup step).text).head =
        (NodeTest.ofStep step.text).head := by
  rw [changeStep_eq]
  split
  case isTrue => rw [Step.ofStep_update]; exact ⟨rfl, rfl⟩
  case isFalse => exact ⟨rfl, rfl⟩

/-! ## Section 3: Paths -/

/-- A path with its literals changed all at once. -/
def changePath (shapes : List Shape) (tag : Option String) (lookup : List Char → Option (List Char))
    (path : List Char) : List Char :=
  (split path).flatMap fun step => (changeStep shapes tag lookup step).toChars

theorem changePath_perm {shapes' : List Shape} (h : shapes.Perm shapes') (path : List Char) :
    changePath shapes tag lookup path = changePath shapes' tag lookup path := by
  simp only [changePath, changeStep, changeLiterals, putAny_perm h]

theorem changePath_of_forall (h : ∀ content, lookup content = none) (path : List Char) :
    changePath shapes tag lookup path = path := by
  have hsame : ∀ step, changeStep shapes tag lookup step = step := by
    intro step
    rw [changeStep_eq]
    split
    case isTrue =>
      apply Step.update_of_forall
      intro before after content
      simp [putAny, h]
    case isFalse => rfl
  simp only [changePath, hsame, flatten_split]

/-- No step of a path begins inside of a literal. -/
theorem atOutside_of_mem_split {path : List Char} (h : AtOutside .outermost path) :
    ∀ step ∈ split path, AtOutside .outermost step.text := by
  fun_induction split path with
  | case1 =>
    intro step hstep
    cases hstep
  | case2 path step rest hnext ih =>
    have hsteps := stepsOff_of_next? hnext
    rw [← next?_append hnext, Step.toChars, atOutside_append_iff, atOutside_append_iff,
      Scope.afterAll_append, Scope.afterAll_slashes hsteps.separator_eq _ rfl] at h
    obtain ⟨⟨-, hstep⟩, hrest⟩ := h
    intro other hother
    rcases List.mem_cons.mp hother with rfl | hother
    · exact hstep
    · -- The next step begins in the outermost scope, or there is none.
      rcases hsteps.rest_cases with rfl | ⟨-, -, hscope⟩
      · rw [split_nil] at hother
        cases hother
      · rw [hscope] at hrest
        exact ih hrest other hother

/-- Restoring a path by one search after the other changes all its literals at once. -/
theorem restoreChars_eq_changePath {matcher : AttributeMatcher}
    (hregular : ∀ shape ∈ matcher.shapes, shape.Regular)
    (hexclude : matcher.shapes.Pairwise Shape.Excludes) (hlookup : PlainValues lookup)
    {path : List Char} (hpath : AtOutside .outermost path) :
    restoreChars matcher tag lookup path = changePath matcher.shapes tag lookup path :=
  List.flatMap_congr fun step hstep =>
    restoreStep_eq hregular hexclude hlookup (atOutside_of_mem_split hpath step hstep)

theorem split_changePath (hlookup : PlainValues lookup) (path : List Char) :
    split (changePath shapes tag lookup path) =
      (split path).map (changeStep shapes tag lookup) :=
  split_flatMap (changeStep shapes tag lookup) (fun _ => rfl) fun step _ =>
    readsAs_changeStep hlookup step

end TreeNotation.XPath
