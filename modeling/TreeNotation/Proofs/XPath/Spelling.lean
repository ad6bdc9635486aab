import Mathlib.Data.List.Infix
import TreeNotation.Proofs.Text.Folding
import TreeNotation.Proofs.XPath.Literals

/-!
# Spellings of Shapes

Which texts spell the parts of a shape, said without saying how they are taken from a text, and that
taking them from the start of a text finds exactly these.

- **Spellings**: `spells` tries all ways to cut a text; `Shape.frames` says that a literal stands in
  a shape, from the text before it and the text after it;
- **Traces**: `trace_of_spells`, all that spells a shape is the same but for blanks and case; so a
  literal can stand in two shapes only if the trace of one ends with that of the other;
- **Reading**: `spells_of_takePieces?` and `takePieces?_of_spells`; taking blanks as long as there
  are any loses nothing if what comes next is no blank (`Separated`).
-/

namespace TreeNotation.XPath

open Text (isBlank fold)

/-! ## Section 1: Spellings -/

/-- Whether a text spells parts of a shape, one after the other, each in some stretch of it. -/
def spells : List Piece → List Char → Bool
  | [], cs => cs.isEmpty
  | .word text :: pieces, cs =>
    (cs.take text.length).map fold == text.map fold && spells pieces (cs.drop text.length)
  | .blanks :: pieces, cs =>
    (List.range (cs.length + 1)).any fun n => (cs.take n).all isBlank && spells pieces (cs.drop n)

/-- Whether a literal stands in a shape: the text before it ends with what opens the shape, and the
text after it begins with what closes it. -/
def Shape.frames (shape : Shape) (before after : List Char) : Bool :=
  before.tails.any (spells shape.opening) && after.inits.any (spells shape.closing)

theorem spells_nil_iff {cs : List Char} : spells [] cs = true ↔ cs = [] := by
  simp [spells]

theorem spells_word_iff {text : List Char} {pieces : List Piece} {cs : List Char} :
    spells (.word text :: pieces) cs = true ↔
      ∃ first rest, cs = first ++ rest ∧ first.map fold = text.map fold ∧
        spells pieces rest = true := by
  simp only [spells, Bool.and_eq_true, beq_iff_eq]
  constructor
  · intro hcase
    obtain ⟨hword, hrest⟩ := hcase
    exact ⟨cs.take text.length, cs.drop text.length, (List.take_append_drop _ cs).symm, hword,
      hrest⟩
  · intro h
    obtain ⟨first, rest, rfl, hword, hrest⟩ := h
    -- Folding keeps the length, so the word is as long as what spells it.
    have hlength : text.length = first.length := by
      simpa using (congrArg List.length hword).symm
    rw [hlength, List.take_left, List.drop_left]
    exact ⟨hword, hrest⟩

theorem spells_blanks_iff {pieces : List Piece} {cs : List Char} :
    spells (.blanks :: pieces) cs = true ↔
      ∃ first rest, cs = first ++ rest ∧ (∀ c ∈ first, isBlank c = true) ∧
        spells pieces rest = true := by
  simp only [spells, List.any_eq_true, List.mem_range, Bool.and_eq_true, List.all_eq_true]
  constructor
  · intro h
    obtain ⟨n, -, hblank, hrest⟩ := h
    exact ⟨cs.take n, cs.drop n, (List.take_append_drop n cs).symm, hblank, hrest⟩
  · intro h
    obtain ⟨first, rest, rfl, hblank, hrest⟩ := h
    have hlength : first.length < (first ++ rest).length + 1 := by
      rw [List.length_append]
      omega
    refine ⟨first.length, hlength, ?_⟩
    rw [List.take_left, List.drop_left]
    exact ⟨hblank, hrest⟩

/-- A text is cut into three parts by either cut first. -/
theorem exists_append_append_iff {P Q R : List Char → Prop} {cs : List Char} :
    (∃ u rest, cs = u ++ rest ∧ P u ∧ ∃ v w, rest = v ++ w ∧ Q v ∧ R w) ↔
      ∃ first w, cs = first ++ w ∧ (∃ u v, first = u ++ v ∧ P u ∧ Q v) ∧ R w := by
  constructor
  · intro h
    obtain ⟨u, _, rfl, hu, v, w, rfl, hv, hw⟩ := h
    exact ⟨u ++ v, w, by simp, ⟨u, v, rfl, hu, hv⟩, hw⟩
  · intro h
    obtain ⟨_, w, rfl, ⟨u, v, rfl, hu, hv⟩, hw⟩ := h
    exact ⟨u, v ++ w, by simp, hu, v, w, rfl, hv, hw⟩

theorem spells_append_iff {ps qs : List Piece} {cs : List Char} :
    spells (ps ++ qs) cs = true ↔
      ∃ first rest, cs = first ++ rest ∧ spells ps first = true ∧ spells qs rest = true := by
  -- The induction is on the first parts; both sides cut the text at the same places.
  induction ps generalizing cs with
  | nil => simp [spells_nil_iff]
  | cons piece ps ih =>
    cases piece with
    | word text =>
      simp only [List.cons_append, spells_word_iff, ih]
      exact exists_append_append_iff
    | blanks =>
      simp only [List.cons_append, spells_blanks_iff, ih]
      exact exists_append_append_iff

theorem frames_iff {shape : Shape} {before after : List Char} :
    shape.frames before after = true ↔
      (∃ u, u <:+ before ∧ spells shape.opening u = true) ∧
        ∃ v, v <+: after ∧ spells shape.closing v = true := by
  simp [Shape.frames, List.mem_tails, List.mem_inits]

/-! ## Section 2: Traces -/

/-- What matters of a text that spells a shape: its characters without the blanks, folded. -/
def trace (cs : List Char) : List Char := (cs.filter fun c => !isBlank c).map fold

/-- The trace of whatever spells a part of a shape. -/
def Piece.trace : Piece → List Char
  | .word text => XPath.trace text
  | .blanks => []

theorem trace_append (cs ds : List Char) : trace (cs ++ ds) = trace cs ++ trace ds := by
  simp [trace]

theorem trace_eq_nil {cs : List Char} (h : ∀ c ∈ cs, isBlank c = true) : trace cs = [] := by
  simpa [trace] using h

/-- Blanks can be told after folding. -/
theorem trace_eq_filter_map (cs : List Char) :
    trace cs = (cs.map fold).filter fun c => !isBlank c := by
  unfold trace
  rw [List.filter_map]
  simp [Function.comp_def, Text.isBlank_fold]

theorem trace_of_spells {pieces : List Piece} {cs : List Char} (h : spells pieces cs = true) :
    trace cs = pieces.flatMap Piece.trace := by
  induction pieces generalizing cs with
  | nil => rw [spells_nil_iff.mp h]; rfl
  | cons piece pieces ih =>
    cases piece with
    | word text =>
      obtain ⟨first, rest, rfl, hword, hrest⟩ := spells_word_iff.mp h
      rw [trace_append, ih hrest, trace_eq_filter_map first, hword, ← trace_eq_filter_map]
      rfl
    | blanks =>
      obtain ⟨first, rest, rfl, hblank, hrest⟩ := spells_blanks_iff.mp h
      rw [trace_append, ih hrest, trace_eq_nil hblank]
      rfl

/-- The trace of whatever opens a shape. -/
def Shape.trace (shape : Shape) : List Char := shape.opening.flatMap Piece.trace

/-- If a literal stands in two shapes, the text before it ends with the traces of both. -/
theorem suffix_or_suffix_of_frames {shape other : Shape} {before after : List Char}
    (h : shape.frames before after = true) (h' : other.frames before after = true) :
    shape.trace <:+ other.trace ∨ other.trace <:+ shape.trace := by
  obtain ⟨⟨u, hu, hspells⟩, -⟩ := frames_iff.mp h
  obtain ⟨⟨v, hv, hspells'⟩, -⟩ := frames_iff.mp h'
  rw [Shape.trace, Shape.trace, ← trace_of_spells hspells, ← trace_of_spells hspells']
  have htrace : ∀ {u v : List Char}, u <:+ v → trace u <:+ trace v :=
    fun hsuffix => (hsuffix.filter _).map _
  exact (List.suffix_or_suffix_of_suffix hu hv).imp htrace htrace

/-! ## Section 3: Taking what is spelled -/

theorem takeWord?_eq_some_iff {text cs taken rest : List Char} :
    takeWord? text cs = some (taken, rest) ↔
      cs = taken ++ rest ∧ taken.map fold = text.map fold := by
  induction text generalizing cs taken rest with
  | nil =>
    simp only [takeWord?, Option.some.injEq, Prod.mk.injEq, List.map_nil, List.map_eq_nil_iff]
    constructor
    · intro hcase
      obtain ⟨rfl, rfl⟩ := hcase
      exact ⟨rfl, rfl⟩
    · intro hcase
      obtain ⟨rfl, rfl⟩ := hcase
      exact ⟨rfl, rfl⟩
  | cons w text ih =>
    cases cs with
    | nil =>
      simp only [takeWord?, reduceCtorEq, List.map_cons, false_iff, not_and]
      intro h
      obtain ⟨rfl, rfl⟩ := List.append_eq_nil_iff.mp h.symm
      simp
    | cons c cs =>
      rw [takeWord?]
      -- The first characters agree up to case, or nothing is taken and nothing could be.
      by_cases hsame : Text.sameFold w c = true
      · simp only [if_pos hsame, Option.map_eq_some_iff, Prod.exists, Prod.mk.injEq, ih]
        constructor
        · intro hcase
          obtain ⟨taken', _, ⟨rfl, hword⟩, rfl, rfl⟩ := hcase
          exact ⟨rfl, by rw [List.map_cons, List.map_cons, hword, eq_of_beq hsame]⟩
        · intro hcase
          obtain ⟨hcs, hword⟩ := hcase
          cases taken with
          | nil => simp at hword
          | cons t taken =>
            obtain ⟨rfl, rfl⟩ := List.cons.inj hcs
            exact ⟨taken, rest, ⟨rfl, (List.cons.inj hword).2⟩, rfl, rfl⟩
      · simp only [if_neg hsame, reduceCtorEq, false_iff, not_and]
        intro hcs hword
        cases taken with
        | nil => simp at hword
        | cons t taken =>
          obtain ⟨rfl, -⟩ := List.cons.inj hcs
          exact hsame (beq_iff_eq.mpr (List.cons.inj hword).1.symm)

theorem takePieces?_cons_eq_some_iff {piece : Piece} {pieces : List Piece}
    {cs taken rest : List Char} :
    takePieces? (piece :: pieces) cs = some (taken, rest) ↔
      ∃ first middle others, piece.take? cs = some (first, middle) ∧
        takePieces? pieces middle = some (others, rest) ∧ taken = first ++ others := by
  simp only [takePieces?, Option.bind_eq_bind, Option.bind_eq_some_iff, Prod.exists,
    Option.pure_def, Option.some.injEq, Prod.mk.injEq]
  constructor
  · intro h
    obtain ⟨first, middle, hfirst, others, _, hothers, rfl, rfl⟩ := h
    exact ⟨first, middle, others, hfirst, hothers, rfl⟩
  · intro h
    obtain ⟨first, middle, others, hfirst, hothers, rfl⟩ := h
    exact ⟨first, middle, hfirst, others, rest, hothers, rfl, rfl⟩

theorem spells_of_takePieces? {pieces : List Piece} {cs taken rest : List Char}
    (h : takePieces? pieces cs = some (taken, rest)) : spells pieces taken = true := by
  -- The induction is on the parts, each of which has taken a stretch of the text.
  induction pieces generalizing cs taken with
  | nil =>
    cases h
    rfl
  | cons piece pieces ih =>
    obtain ⟨first, middle, others, hfirst, hothers, rfl⟩ := takePieces?_cons_eq_some_iff.mp h
    cases piece with
    | word text =>
      exact spells_word_iff.mpr
        ⟨first, others, rfl, (takeWord?_eq_some_iff.mp hfirst).2, ih hothers⟩
    | blanks =>
      cases hfirst
      exact spells_blanks_iff.mpr
        ⟨_, others, rfl, fun c hc => List.all_eq_true.mp List.all_takeWhile c hc, ih hothers⟩

/-- A text does not begin with a blank. -/
def Firm (cs : List Char) : Prop := ∀ c ∈ cs.head?, isBlank c = false

/-- Whatever spells the parts and has `rest` after it does not begin with a blank. -/
def BeginsFirm (rest : List Char) : List Piece → Prop
  | [] => Firm rest
  | .word (w :: _) :: _ => isBlank w = false
  | _ => False

/-- What comes after blanks does not begin with a blank. -/
def Separated (rest : List Char) : List Piece → Prop
  | [] => True
  | .word _ :: pieces => Separated rest pieces
  | .blanks :: pieces => BeginsFirm rest pieces ∧ Separated rest pieces

theorem firm_of_beginsFirm {pieces : List Piece} {rest : List Char} (hfirm : BeginsFirm rest pieces)
    {cs : List Char} (h : spells pieces cs = true) : Firm (cs ++ rest) := by
  cases pieces with
  | nil => rw [spells_nil_iff.mp h]; exact hfirm
  | cons piece pieces =>
    cases piece with
    | blanks => exact hfirm.elim
    | word text =>
      cases text with
      | nil => exact hfirm.elim
      | cons w text =>
        obtain ⟨first, others, rfl, hword, -⟩ := spells_word_iff.mp h
        cases first with
        | nil => simp at hword
        | cons c first =>
          intro c' hc'
          cases hc'
          have hsame : Text.sameFold w c = true := beq_iff_eq.mpr (List.cons.inj hword).1.symm
          rw [← Text.isBlank_eq_of_sameFold hsame]
          exact hfirm

/-- Blanks that are taken as long as there are any end where a firm text begins. -/
theorem takePieces?_of_spells {pieces : List Piece} {cs rest : List Char}
    (hsep : Separated rest pieces) (h : spells pieces cs = true) :
    takePieces? pieces (cs ++ rest) = some (cs, rest) := by
  -- The induction is on the parts; what is left of the text begins with what spells the next.
  induction pieces generalizing cs with
  | nil => rw [spells_nil_iff.mp h]; rfl
  | cons piece pieces ih =>
    rw [takePieces?_cons_eq_some_iff]
    cases piece with
    | word text =>
      obtain ⟨first, others, rfl, hword, hothers⟩ := spells_word_iff.mp h
      refine ⟨first, others ++ rest, others, ?_, ih hsep hothers, rfl⟩
      exact takeWord?_eq_some_iff.mpr ⟨by simp, hword⟩
    | blanks =>
      obtain ⟨first, others, rfl, hblank, hothers⟩ := spells_blanks_iff.mp h
      obtain ⟨hnext, hsep⟩ := hsep
      have hfirm : Firm (others ++ rest) := firm_of_beginsFirm hnext hothers
      refine ⟨first, others ++ rest, others, ?_, ih hsep hothers, rfl⟩
      obtain ⟨htake, hdrop⟩ := cut_append hblank hfirm
      rw [Piece.take?, List.append_assoc, htake, hdrop]

end TreeNotation.XPath
