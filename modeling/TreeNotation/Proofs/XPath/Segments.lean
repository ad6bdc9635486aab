import TreeNotation.Proofs.XPath.Steps

/-!
# Paths as Rows of Steps

Reading the steps of a path and writing steps one after the other undo each other. Every path is one
row of steps that could have been read, and every such row is read back as it is.

- **Rows**: `Segmented` says of a row of steps what a reader makes sure of, and `segmented_split` that
  it does;
- **Reading back**: `split_of_segmented`, by the induction over the row;
- **Offsets**: `isValid_of_mem_cutOffsets`; in bytes, no cut goes through a character;
- **Main result**: `split_bijective`.
-/

namespace TreeNotation.XPath

/-! ## Section 1: Rows of steps -/

/-- A row of steps that does not leave open where a step ends. -/
structure Segmented (steps : List Step) : Prop where
  /-- A separator is a run of slashes. -/
  slashes : ∀ step ∈ steps, ∀ c ∈ step.separator, c = '/'
  /-- Every step but the first one is separated from the one before it. -/
  separated : ∀ step ∈ steps.tail, step.separator ≠ []
  /-- Every step but the last one has a text. -/
  texts : ∀ step ∈ steps.dropLast, step.text ≠ []
  /-- No text has a slash outside of brackets and string literals. -/
  unbroken : ∀ step ∈ steps, Unbroken .outermost step.text
  /-- Every text but the last one closes its brackets and string literals. -/
  closed : ∀ step ∈ steps.dropLast, Scope.outermost.afterAll step.text = .outermost
  /-- No step is empty. -/
  filled : ∀ step ∈ steps, step.toChars ≠ []

instance decidableUnbroken (scope : Scope) : (cs : List Char) → Decidable (Unbroken scope cs)
  | [] => isTrue trivial
  | c :: cs =>
    have : Decidable (Unbroken (scope.after c) cs) := decidableUnbroken (scope.after c) cs
    inferInstanceAs (Decidable (¬ (scope = .outermost ∧ c = '/') ∧ Unbroken (scope.after c) cs))

theorem segmented_nil : Segmented [] := by
  constructor <;> simp

/-- An unbroken text does not begin with a slash. -/
theorem head?_ne_of_unbroken {text : List Char} (h : Unbroken .outermost text) :
    text.head? ≠ some '/' := by
  cases text with
  | nil => simp
  | cons c text =>
    intro hc
    exact h.1 ⟨rfl, Option.some.inj hc⟩

namespace Segmented

variable {step : Step} {rest : List Step}

theorem tail (h : Segmented (step :: rest)) : Segmented rest where
  slashes other hother := h.slashes other (List.mem_cons_of_mem step hother)
  separated other hother := h.separated other (List.mem_of_mem_tail hother)
  texts other hother := by
    cases rest with
    | nil => cases hother
    | cons next rest => exact h.texts other (List.mem_cons_of_mem step hother)
  unbroken other hother := h.unbroken other (List.mem_cons_of_mem step hother)
  closed other hother := by
    cases rest with
    | nil => cases hother
    | cons next rest => exact h.closed other (List.mem_cons_of_mem step hother)
  filled other hother := h.filled other (List.mem_cons_of_mem step hother)

/-- The first step of a row is the first one that a reader cuts off. -/
theorem stepsOff (h : Segmented (step :: rest)) :
    StepsOff step.separator step.text (rest.flatMap Step.toChars) where
  separator_eq := h.slashes step List.mem_cons_self
  ne_nil := h.filled step List.mem_cons_self
  head?_ne := head?_ne_of_unbroken (h.unbroken step List.mem_cons_self)
  unbroken := h.unbroken step List.mem_cons_self
  rest_cases := by
    cases rest with
    | nil => exact .inl rfl
    | cons next rest =>
      -- The step is not the last one, and the next one begins with its separator.
      have hmem : step ∈ (step :: next :: rest).dropLast := List.mem_cons_self
      refine .inr ⟨h.texts step hmem, ?_, h.closed step hmem⟩
      obtain ⟨c, more, hseparator⟩ :=
        List.exists_cons_of_ne_nil (h.separated next List.mem_cons_self)
      have hc : c = '/' :=
        h.slashes next (List.mem_cons_of_mem step List.mem_cons_self) c (by simp [hseparator])
      rw [List.flatMap_cons, Step.toChars, hseparator, hc]
      exact ⟨_, rfl⟩

/-- A step that a reader cuts off can be put in front of the row of what is left. -/
theorem cons (hsteps : StepsOff step.separator step.text (rest.flatMap Step.toChars))
    (h : Segmented rest) : Segmented (step :: rest) := by
  -- If there is another step, it is separated from this one, which has a text and is closed.
  have hnext : ∀ next ∈ rest.head?, next.separator ≠ [] ∧ step.text ≠ [] ∧
      Scope.outermost.afterAll step.text = .outermost := by
    intro next hnext
    obtain ⟨others, rfl⟩ := List.head?_eq_some_iff.mp hnext
    have hfilled := h.filled next List.mem_cons_self
    rw [List.flatMap_cons] at hsteps
    rcases hsteps.rest_cases with hnil | ⟨htext, ⟨more, hmore⟩, hclosed⟩
    · exact absurd (List.append_eq_nil_iff.mp hnil).1 hfilled
    · refine ⟨fun hseparator => ?_, htext, hclosed⟩
      rw [Step.toChars, hseparator, List.nil_append] at hfilled hmore
      obtain ⟨c, text, hc⟩ := List.exists_cons_of_ne_nil hfilled
      rw [hc, List.cons_append, List.cons.injEq] at hmore
      exact head?_ne_of_unbroken (h.unbroken next List.mem_cons_self) (by rw [hc, hmore.1]; rfl)
  constructor
  case slashes => exact List.forall_mem_cons.mpr ⟨hsteps.separator_eq, h.slashes⟩
  case unbroken => exact List.forall_mem_cons.mpr ⟨hsteps.unbroken, h.unbroken⟩
  case filled => exact List.forall_mem_cons.mpr ⟨hsteps.ne_nil, h.filled⟩
  case separated =>
    cases rest with
    | nil => simp
    | cons next rest => exact List.forall_mem_cons.mpr ⟨(hnext next rfl).1, h.separated⟩
  case texts =>
    cases rest with
    | nil => simp
    | cons next rest => exact List.forall_mem_cons.mpr ⟨(hnext next rfl).2.1, h.texts⟩
  case closed =>
    cases rest with
    | nil => simp
    | cons next rest => exact List.forall_mem_cons.mpr ⟨(hnext next rfl).2.2, h.closed⟩

end Segmented

/-- The steps of a path are a row of steps. -/
theorem segmented_split (path : List Char) : Segmented (split path) := by
  fun_induction split path with
  | case1 path h => exact segmented_nil
  | case2 path step rest h ih =>
    refine Segmented.cons ?_ ih
    rw [flatten_split]
    exact stepsOff_of_next? h

/-! ## Section 2: Reading back -/

/-- A row of steps is read back from the path that it makes up. -/
theorem split_of_segmented {steps : List Step} (h : Segmented steps) :
    split (steps.flatMap Step.toChars) = steps := by
  -- The induction is on the row, whose first step is the one that is cut off.
  induction steps with
  | nil => exact split_nil
  | cons step rest ih =>
    rw [List.flatMap_cons, Step.toChars, split_of_next? (next?_of_stepsOff h.stepsOff), ih h.tail]

/-- A path has no more steps than characters. -/
theorem length_split_le (path : List Char) : (split path).length ≤ path.length := by
  fun_induction split path with
  | case1 path h => exact Nat.zero_le _
  | case2 path step rest h ih =>
    have hrest := length_rest_lt h
    rw [List.length_cons]
    omega

/-! ## Section 3: Offsets -/

/-- The number of bytes of a text. -/
def byteLength (cs : List Char) : Nat := (String.ofList cs).utf8ByteSize

theorem byteLength_append (cs ds : List Char) :
    byteLength (cs ++ ds) = byteLength cs + byteLength ds := by
  rw [byteLength, String.ofList_append, String.utf8ByteSize_append]
  rfl

/-- Where in a path steps are cut, in bytes, if the first one begins at `offset`: before the
separator of a step, between its separator and its text, and after the last text. -/
def cutOffsets (offset : Nat) : List Step → List Nat
  | [] => [offset]
  | step :: rest =>
    offset :: (offset + byteLength step.separator) ::
      cutOffsets (offset + byteLength step.toChars) rest

/-- A text that comes first in another one ends between two characters of it. -/
theorem isValid_byteLength (cs ds : List Char) :
    String.Pos.Raw.IsValid (String.ofList (cs ++ ds)) ⟨byteLength cs⟩ := by
  rw [String.Pos.Raw.isValid_ofList]
  exact ⟨cs.length, by rw [List.take_left]; rfl⟩

/-- No cut goes through a character. -/
theorem isValid_of_mem_cutOffsets (before : List Char) (steps : List Step) :
    ∀ offset ∈ cutOffsets (byteLength before) steps,
      String.Pos.Raw.IsValid (String.ofList (before ++ steps.flatMap Step.toChars)) ⟨offset⟩ := by
  -- The induction is on the steps, each of which comes before the cuts of the others.
  induction steps generalizing before with
  | nil =>
    intro offset hoffset
    obtain rfl := List.mem_singleton.mp hoffset
    exact isValid_byteLength before _
  | cons step rest ih =>
    intro offset hoffset
    rw [List.flatMap_cons]
    rcases List.mem_cons.mp hoffset with rfl | hoffset
    · exact isValid_byteLength before _
    rcases List.mem_cons.mp hoffset with rfl | hoffset
    · rw [Step.toChars, List.append_assoc, ← List.append_assoc, ← byteLength_append]
      exact isValid_byteLength (before ++ step.separator) _
    · rw [← byteLength_append] at hoffset
      rw [← List.append_assoc]
      exact ih (before ++ step.toChars) offset hoffset

/-! ## Section 4: Main result -/

/-- Reading a path takes no more steps than it has characters, cuts it between characters only, and
gives the one row of steps that makes up the path; and every row of steps is read back from the path
that it makes up. -/
theorem split_bijective :
    (∀ path : String,
      (split path.toList).length ≤ path.length ∧
      (∀ offset ∈ cutOffsets 0 (split path.toList), String.Pos.Raw.IsValid path ⟨offset⟩) ∧
      (split path.toList).flatMap Step.toChars = path.toList ∧
      Segmented (split path.toList)) ∧
    ∀ steps, Segmented steps → split (steps.flatMap Step.toChars) = steps := by
  refine ⟨fun path => ⟨?_, ?_, flatten_split path.toList, segmented_split path.toList⟩,
    fun steps => split_of_segmented⟩
  · rw [← String.length_toList]
    exact length_split_le path.toList
  · have hvalid := isValid_of_mem_cutOffsets [] (split path.toList)
    rwa [List.nil_append, flatten_split, String.ofList_toList] at hvalid

/-- In the first step a slash stands between brackets, and in the last one behind an open bracket and
an open quote. -/
theorem split_slashes_inside :
    let steps : List Step :=
      [⟨"".toList, "été".toList⟩, ⟨"//".toList, "p[a/b]]".toList⟩, ⟨"/".toList, "i['ü/".toList⟩]
    Segmented steps ∧ split (steps.flatMap Step.toChars) = steps := by
  intro steps
  have h : Segmented steps := by
    constructor
    case slashes => simp [steps]
    all_goals decide
  exact ⟨h, split_bijective.2 steps h⟩

end TreeNotation.XPath
