import TreeNotation.Proofs.Text.Occurrence
import TreeNotation.Proofs.XPath.Restoring
import TreeNotation.Proofs.XPath.Unknown

/-!
# Texts Searched Together

When the search of two texts put together finds what the searches of the two find.

- **Tails**: a text without quotes behind another one is copied, whatever the name of the attribute
  is (`substituteChars_append_tail`), if no occurrence can reach into it (`Tail`);
- **Cuts**: `Cut.followedBy`, the literals of one text and those of the next;
- **Marks**: a mark that is in no shape keeps two texts apart (`substituteChars_append_mark`), if no
  literal is left open before it.
-/

namespace TreeNotation.XPath

open Text (isBlank prefix_append_cons_iff suffix_append_cons_iff)

variable {lookup : List Char → Option (List Char)}

/-! ## Section 1: Tails -/

/-- No occurrence of one of the ten shapes reaches into a text: it holds no quotes and begins
neither with a blank nor with a parenthesis. -/
structure Tail (tail : List Char) : Prop where
  plain : ∀ c ∈ tail, isQuote c = false
  head : ∀ c ∈ tail.head?, isBlank c = false ∧ c ≠ ')'

section Tails

variable {tail : List Char}

theorem Tail.firm (h : Tail tail) : Firm tail := fun c hc => (h.head c hc).1

/-- Either a text ends before the tail, or it reaches into it. -/
theorem reaches_cases {xs ys cs : List Char} (h : xs ++ ys = cs ++ tail) :
    (∃ rest, ys = rest ++ tail) ∨ ∃ shared, shared ≠ [] ∧ shared <:+ xs ∧ shared <+: tail := by
  rcases List.append_eq_append_iff.mp h with ⟨rest, -, hys⟩ | ⟨shared, hxs, htail⟩
  · exact .inl ⟨rest, hys⟩
  · cases shared with
    | nil => exact .inl ⟨[], htail.symm⟩
    | cons c shared =>
      exact .inr ⟨c :: shared, List.cons_ne_nil c shared, ⟨cs, hxs.symm⟩, ⟨ys, htail.symm⟩⟩

theorem Piece.take?_append_iff (htail : Firm tail) {piece : Piece} {cs taken rest : List Char} :
    piece.take? (cs ++ tail) = some (taken, rest ++ tail) ↔
      piece.take? cs = some (taken, rest) := by
  cases piece with
  | word text =>
    rw [take?, take?, takeWord?_eq_some_iff, takeWord?_eq_some_iff, ← List.append_assoc,
      List.append_left_inj]
  | blanks =>
    -- The blanks end at the same place, as the tail does not begin with one.
    have hstop : Firm (cs.dropWhile isBlank ++ tail) := by
      intro c hc
      cases hdrop : cs.dropWhile isBlank with
      | nil =>
        rw [hdrop, List.nil_append] at hc
        exact htail c hc
      | cons d rest =>
        rw [hdrop] at hc
        cases hc
        simpa [hdrop] using List.head?_dropWhile_not isBlank cs
    have hblank : ∀ c ∈ cs.takeWhile isBlank, isBlank c = true := fun c hc =>
      List.all_eq_true.mp List.all_takeWhile c hc
    obtain ⟨htake, hdrop⟩ := cut_append hblank hstop
    rw [← List.append_assoc, List.takeWhile_append_dropWhile] at htake hdrop
    rw [take?, take?, htake, hdrop, Option.some.injEq, Option.some.injEq, Prod.mk.injEq,
      Prod.mk.injEq, List.append_left_inj]

theorem takePieces?_append_iff (htail : Firm tail) {pieces : List Piece}
    {cs taken rest : List Char} :
    takePieces? pieces (cs ++ tail) = some (taken, rest ++ tail) ↔
      takePieces? pieces cs = some (taken, rest) := by
  induction pieces generalizing cs taken with
  | nil => simp [takePieces?]
  | cons piece pieces ih =>
    rw [takePieces?_cons_eq_some_iff, takePieces?_cons_eq_some_iff]
    constructor
    · rintro ⟨first, middle, others, hfirst, hothers, rfl⟩
      -- What the other parts leave is what the first one leaves at the end.
      have hmiddle := takePieces?_append hothers
      rw [← List.append_assoc] at hmiddle
      rw [← hmiddle] at hfirst hothers
      exact ⟨first, others ++ rest, others, (Piece.take?_append_iff htail).mp hfirst,
        ih.mp hothers, rfl⟩
    · rintro ⟨first, middle, others, hfirst, hothers, rfl⟩
      exact ⟨first, middle ++ tail, others, (Piece.take?_append_iff htail).mpr hfirst,
        ih.mpr hothers, rfl⟩

theorem takeLiteral?_append_iff {cs content rest : List Char} {quote : Char} :
    takeLiteral? (cs ++ tail) = some (quote, content, rest ++ tail) ↔
      takeLiteral? cs = some (quote, content, rest) := by
  rw [takeLiteral?_eq_some_iff, takeLiteral?_eq_some_iff, ← List.cons_append, ← List.append_assoc,
    List.append_left_inj]

namespace Shape

variable {shape : Shape}

/-- At most blanks and a parenthesis close an occurrence. -/
def ClosesShort (shape : Shape) : Prop :=
  ∀ v, spells shape.closing v = true → ∀ c ∈ v, isBlank c = true ∨ c = ')'

theorem match?_append_iff (htail : Firm tail) {cs before content after rest : List Char} :
    shape.match? (cs ++ tail) = some ⟨before, content, after, rest ++ tail⟩ ↔
      shape.match? cs = some ⟨before, content, after, rest⟩ := by
  simp only [match?, Option.bind_eq_bind, Option.bind_eq_some_iff, Prod.exists, Option.pure_def,
    Option.some.injEq, Occurrence.mk.injEq]
  constructor
  · rintro ⟨u, cs₁, hopening, quote, content, cs₂, hliteral, v, _, hclosing, rfl, rfl, rfl, rfl⟩
    -- The tail is left from the end back to the start.
    have hcs₂ := takePieces?_append hclosing
    rw [← List.append_assoc] at hcs₂
    rw [← hcs₂] at hliteral hclosing
    have hcs₁ := takeLiteral?_append hliteral
    rw [← List.cons_append, ← List.append_assoc] at hcs₁
    rw [← hcs₁] at hopening hliteral
    exact ⟨u, _, (takePieces?_append_iff htail).mp hopening, quote, content, _,
      takeLiteral?_append_iff.mp hliteral, v, rest, (takePieces?_append_iff htail).mp hclosing,
      rfl, rfl, rfl, rfl⟩
  · rintro ⟨u, cs₁, hopening, quote, content, cs₂, hliteral, v, _, hclosing, rfl, rfl, rfl, rfl⟩
    exact ⟨u, cs₁ ++ tail, (takePieces?_append_iff htail).mpr hopening, quote, content, cs₂ ++ tail,
      takeLiteral?_append_iff.mpr hliteral, v, _, (takePieces?_append_iff htail).mpr hclosing,
      rfl, rfl, rfl, rfl⟩

/-- An occurrence ends before the tail. -/
theorem exists_rest_eq_append (hshape : shape.ClosesShort) (htail : Tail tail) {cs : List Char}
    {found : Occurrence} (h : shape.match? (cs ++ tail) = some found) :
    ∃ rest, found.rest = rest ++ tail := by
  simp only [match?, Option.bind_eq_bind, Option.bind_eq_some_iff, Prod.exists, Option.pure_def,
    Option.some.injEq] at h
  obtain ⟨u, cs₁, hopening, quote, content, cs₂, hliteral, v, rest, hclosing, rfl⟩ := h
  obtain ⟨rfl, hquote, -⟩ := takeLiteral?_eq_some_iff.mp hliteral
  have htext := takePieces?_append hopening
  rw [List.append_cons, ← List.append_assoc] at htext
  rcases reaches_cases htext with ⟨between, rfl⟩ | ⟨shared, hne, hsuffix, hbegins⟩
  · rcases reaches_cases (takePieces?_append hclosing) with
      ⟨more, hmore⟩ | ⟨shared, hne, hsuffix, hbegins⟩
    · exact ⟨more, hmore⟩
    · -- What closes the occurrence does not begin the tail.
      obtain ⟨c, shared, rfl⟩ := List.exists_cons_of_ne_nil hne
      obtain ⟨later, rfl⟩ := hbegins
      obtain ⟨hblank, hmark⟩ := htail.head c rfl
      rcases hshape v (spells_of_takePieces? hclosing) c (hsuffix.subset List.mem_cons_self) with
        hclose | hclose
      · rw [hblank] at hclose
        cases hclose
      · exact absurd hclose hmark
  · -- The quote that closes the literal is not in the tail.
    have hlast : quote ∈ shared := by
      obtain ⟨front, hfront⟩ := hsuffix
      have hquote' := congrArg List.getLast? hfront
      rw [List.getLast?_append_of_ne_nil _ hne, ← List.append_assoc, List.getLast?_concat]
        at hquote'
      exact List.mem_of_getLast? hquote'
    exact absurd rfl (ne_of_isQuote hquote (htail.plain quote (hbegins.subset hlast)))

theorem replace_append_tail (hshape : shape.ClosesShort) (htail : Tail tail) (cs : List Char) :
    shape.replace lookup (cs ++ tail) = shape.replace lookup cs ++ tail := by
  -- The induction is on the search of the first text; the tail holds no literal.
  fun_induction replace shape lookup cs with
  | case1 => exact (unknown_of_plain htail.plain).replace shape
  | case2 c cs found hfound ih =>
    have hmatch := (match?_append_iff htail.firm).mpr hfound
    rw [replace_of_match? hmatch, ih]
    simp
  | case3 c cs hnone ih =>
    have hmatch : shape.match? (c :: (cs ++ tail)) = none := by
      rw [Option.eq_none_iff_forall_ne_some]
      intro found hfound
      rw [← List.cons_append] at hfound
      obtain ⟨rest, hrest⟩ := exists_rest_eq_append hshape htail hfound
      obtain ⟨before, content, after, _⟩ := found
      subst hrest
      rw [(match?_append_iff htail.firm).mp hfound] at hnone
      cases hnone
    rw [List.cons_append, replace_cons_of_match? hmatch, ih, List.cons_append]

end Shape

theorem closesShort_of_mem_shapes {name : String} {shape : Shape}
    (h : shape ∈ (AttributeMatcher.ofAttribute name).shapes) : shape.ClosesShort :=
  fun _ hv => closing_char_of_cases (closing_cases_of_mem_shapes h) hv

/-- A tail is copied. -/
theorem substituteChars_append_tail {matcher : AttributeMatcher}
    (hshapes : ∀ shape ∈ matcher.shapes, shape.ClosesShort) (htail : Tail tail) (cs : List Char) :
    matcher.substituteChars lookup (cs ++ tail) = matcher.substituteChars lookup cs ++ tail := by
  obtain ⟨name, shapes⟩ := matcher
  -- The induction is on the searches, each of which leaves the tail as it is.
  induction shapes generalizing cs with
  | nil => rfl
  | cons shape shapes ih =>
    obtain ⟨hshape, hothers⟩ := List.forall_mem_cons.mp hshapes
    have hfirst : shape.replace lookup (cs ++ tail) = shape.replace lookup cs ++ tail :=
      Shape.replace_append_tail hshape htail cs
    rw [AttributeMatcher.substituteChars, List.foldl_cons, hfirst]
    exact ih (shape.replace lookup cs) hothers

end Tails

/-! ## Section 2: Cuts one after the other -/

namespace Cut

/-- No literal is left open. -/
def Closed : Cut → Prop
  | .last _ unclosed => unclosed = []
  | .literal _ _ _ rest => rest.Closed

/-- A cut with no literal left open, and another one behind it. -/
def followedBy : Cut → Cut → Cut
  | .last stretch _, next => next.prepend stretch
  | .literal stretch quote content rest, next => .literal stretch quote content (rest.followedBy next)

theorem text_followedBy {k : Cut} (h : k.Closed) (next : Cut) :
    (k.followedBy next).text = k.text ++ next.text := by
  induction k with
  | last stretch unclosed =>
    obtain rfl : unclosed = [] := h
    rw [followedBy, text_prepend, text, List.append_nil]
  | literal stretch quote content rest ih =>
    rw [followedBy, text, ih h, text]
    simp

theorem Sound.followedBy {k next : Cut} (hk : k.Sound) (hnext : next.Sound) :
    (k.followedBy next).Sound := by
  induction k with
  | last stretch unclosed => exact hnext.prepend hk.1
  | literal stretch quote content rest ih =>
    obtain ⟨hstretch, hquote, hcontent, hrest⟩ := hk
    exact ⟨hstretch, hquote, hcontent, ih hrest⟩

theorem ofChars_append_of_closed {cs : List Char} (h : (ofChars cs).Closed) (ds : List Char) :
    ofChars (cs ++ ds) = (ofChars cs).followedBy (ofChars ds) := by
  have hsound := (sound_ofChars cs).followedBy (sound_ofChars ds)
  rw [← ofChars_text hsound, text_followedBy h, text_ofChars, text_ofChars]

theorem ofChars_cons {c : Char} (hc : isQuote c = false) (cs : List Char) :
    ofChars (c :: cs) = (ofChars cs).prepend [c] := by
  have hplain : ∀ d ∈ [c], isQuote d = false := by simpa using hc
  exact ofChars_append hplain cs

theorem ofChars_of_plain {cs : List Char} (hcs : ∀ c ∈ cs, isQuote c = false) :
    ofChars cs = .last cs [] := by
  have hcut := ofChars_append hcs []
  rwa [List.append_nil, ofChars, prepend, List.append_nil] at hcut

theorem holds_prepend_iff {P : List Char → Prop} {k : Cut} {before : List Char} :
    (k.prepend before).Holds P ↔ k.Holds P := by
  cases k <;> rfl

theorem Holds.followedBy {P : List Char → Prop} {k next : Cut} (hk : k.Holds P)
    (hnext : next.Holds P) : (k.followedBy next).Holds P := by
  induction k with
  | last stretch unclosed => exact holds_prepend_iff.mpr hnext
  | literal stretch quote content rest ih => exact ⟨hk.1, ih hk.2⟩

theorem closed_update_iff {change : List Char → List Char → List Char → List Char} {k : Cut} :
    (k.update change).Closed ↔ k.Closed := by
  induction k with
  | last stretch unclosed => rfl
  | literal stretch quote content rest ih => exact ih

/-- A text that ends outside of literals leaves none open. -/
theorem closed_of_afterAll {k : Cut} (hk : k.Sound) {scope : Scope} (hscope : scope.quote = none)
    (h : (scope.afterAll k.text).quote = none) : k.Closed := by
  induction k generalizing scope with
  | last stretch unclosed =>
    obtain ⟨hstretch, rfl | ⟨quote, body, rfl, hquote, hbody⟩⟩ := hk
    · rfl
    · -- The quote that is not closed is open at the end.
      have hmiddle := Scope.quote_afterAll_of_plain hscope hstretch
      have hopen : Scope.afterAll ⟨(scope.afterAll stretch).depth, some quote⟩ body =
          ⟨(scope.afterAll stretch).depth, some quote⟩ := Scope.afterAll_content hbody
      rw [Scope.afterAll] at hopen
      rw [text, Scope.afterAll_append, Scope.afterAll, List.foldl_cons,
        Scope.after_quote hmiddle hquote, hopen] at h
      cases h
  | literal stretch quote content rest ih =>
    obtain ⟨hstretch, hquote, hcontent, hrest⟩ := hk
    have hmiddle := Scope.quote_afterAll_of_plain hscope hstretch
    rw [text_literal, Scope.afterAll_append, Scope.afterAll_append,
      Scope.afterAll_literal hmiddle hquote hcontent] at h
    exact ih hrest hmiddle h

end Cut

/-! ## Section 3: Marks -/

/-- A mark is in no text that opens or closes the shape. -/
structure Shape.Lacks (shape : Shape) (mark : Char) : Prop where
  opening : ∀ u, spells shape.opening u = true → mark ∉ u
  closing : ∀ v, spells shape.closing v = true → mark ∉ v

namespace Shape.Lacks

variable {shape : Shape} {mark : Char}

theorem frames_append_left (h : shape.Lacks mark) (far before after : List Char) :
    shape.frames (far ++ mark :: before) after = shape.frames before after := by
  rw [Bool.eq_iff_iff, frames_iff, frames_iff]
  refine and_congr_left fun _ => exists_congr fun u => ?_
  exact and_congr_left fun hu => suffix_append_cons_iff (h.opening u hu)

theorem frames_append_right (h : shape.Lacks mark) (before after later : List Char) :
    shape.frames before (after ++ mark :: later) = shape.frames before after := by
  rw [Bool.eq_iff_iff, frames_iff, frames_iff]
  refine and_congr_right fun _ => exists_congr fun v => ?_
  exact and_congr_left fun hv => prefix_append_cons_iff (h.closing v hv)

end Shape.Lacks

/-- The vertical bar and the opening bracket are in no shape, unless they are in the name. -/
theorem lacks_of_mem_shapes {name : String} {mark : Char} (hmark : mark = '|' ∨ mark = '[')
    (hname : mark ∉ name.toList) {shape : Shape}
    (h : shape ∈ (AttributeMatcher.ofAttribute name).shapes) : shape.Lacks mark := by
  have hfixed : ∀ c ∈ fixedChars, c ≠ mark := by
    rintro c hc rfl
    rcases hmark with rfl | rfl
    · exact absurd hc (by decide)
    · exact absurd hc (by decide)
  have hwords : ∀ text, Piece.word text ∈ shape.opening ++ shape.closing → mark ∉ text :=
    fun text htext hmem => forall_mem_of_word (P := (· ≠ mark)) hfixed
      (fun c hc heq => hname (heq ▸ hc)) h htext mark hmem rfl
  have hspelled : ∀ {pieces cs}, pieces ⊆ shape.opening ++ shape.closing →
      spells pieces cs = true → mark ∉ cs := by
    intro pieces cs hsub hcs
    rcases hmark with rfl | rfl
    · exact not_mem_of_spells hcs rfl (by decide) fun text htext => hwords text (hsub htext)
    · exact not_mem_of_spells hcs rfl (by decide) fun text htext => hwords text (hsub htext)
  exact ⟨fun u hu => hspelled (List.subset_append_left _ _) hu,
    fun v hv => hspelled (List.subset_append_right _ _) hv⟩

theorem putAny_congr {shapes : List Shape} {before after before' after' : List Char}
    (h : ∀ shape ∈ shapes, shape.frames before after = shape.frames before' after')
    (content : List Char) :
    putAny shapes lookup before after content = putAny shapes lookup before' after' content := by
  have hany : (shapes.any fun shape => shape.frames before after) =
      shapes.any fun shape => shape.frames before' after' := by
    rw [Bool.eq_iff_iff, List.any_eq_true, List.any_eq_true]
    exact exists_congr fun shape => and_congr_right fun hshape => by rw [h shape hshape]
  rw [putAny, putAny, hany]

section Marks

variable {shapes : List Shape} {mark : Char} (hlacks : ∀ shape ∈ shapes, shape.Lacks mark)

include hlacks

theorem putAny_append_left (far before after content : List Char) :
    putAny shapes lookup (far ++ mark :: before) after content =
      putAny shapes lookup before after content :=
  putAny_congr (fun shape hshape => (hlacks shape hshape).frames_append_left far before after)
    content

theorem putAny_append_right (before after later content : List Char) :
    putAny shapes lookup before (after ++ mark :: later) content =
      putAny shapes lookup before after content :=
  putAny_congr (fun shape hshape => (hlacks shape hshape).frames_append_right before after later)
    content

/-- Literals are changed in the same way behind a mark. -/
theorem Cut.update_prepend_mark (far : List Char) (k : Cut) :
    (k.prepend (far ++ [mark])).update (putAny shapes lookup) =
      (k.update (putAny shapes lookup)).prepend (far ++ [mark]) := by
  cases k with
  | last stretch unclosed => rfl
  | literal stretch quote content rest =>
    simp [prepend, update, putAny_append_left hlacks]

/-- Literals are changed in the same way on the two sides of a mark. -/
theorem Cut.update_followedBy_mark (k next : Cut) :
    (k.followedBy (next.prepend [mark])).update (putAny shapes lookup) =
      (k.update (putAny shapes lookup)).followedBy
        ((next.update (putAny shapes lookup)).prepend [mark]) := by
  induction k with
  | last stretch unclosed =>
    rw [followedBy, prepend_prepend, update_prepend_mark hlacks, update, followedBy,
      prepend_prepend]
  | literal stretch quote content rest ih =>
    have hput :
        putAny shapes lookup stretch (rest.followedBy (next.prepend [mark])).stretch content =
          putAny shapes lookup stretch rest.stretch content := by
      cases rest with
      | last more unclosed =>
        rw [followedBy, stretch_prepend, stretch_prepend]
        exact putAny_append_right hlacks stretch more next.stretch content
      | literal more quote' content' rest' => rfl
    rw [followedBy, update, ih, hput, update, followedBy]

theorem changeLiterals_append_mark (hmark : isQuote mark = false) {cs : List Char}
    (hcs : (Cut.ofChars cs).Closed) (ds : List Char) :
    changeLiterals shapes lookup (cs ++ mark :: ds) =
      changeLiterals shapes lookup cs ++ mark :: changeLiterals shapes lookup ds := by
  rw [changeLiterals, Cut.ofChars_append_of_closed hcs, Cut.ofChars_cons hmark,
    Cut.update_followedBy_mark hlacks, Cut.text_followedBy (Cut.closed_update_iff.mpr hcs),
    Cut.text_prepend]
  rfl

end Marks

/-- Texts are searched on their own on the two sides of a mark. -/
theorem substituteChars_append_mark {matcher : AttributeMatcher}
    (hregular : ∀ shape ∈ matcher.shapes, shape.Regular)
    (hexclude : matcher.shapes.Pairwise Shape.Excludes) (hlookup : PlainValues lookup)
    {mark : Char} (hlacks : ∀ shape ∈ matcher.shapes, shape.Lacks mark)
    (hmark : isQuote mark = false) {cs ds : List Char} (hclosed : (Cut.ofChars cs).Closed)
    (hcs : (Cut.ofChars cs).Holds ('@' ∉ ·)) (hds : (Cut.ofChars ds).Holds ('@' ∉ ·)) :
    matcher.substituteChars lookup (cs ++ mark :: ds) =
      matcher.substituteChars lookup cs ++ mark :: matcher.substituteChars lookup ds := by
  have hboth : (Cut.ofChars (cs ++ mark :: ds)).Holds ('@' ∉ ·) := by
    rw [Cut.ofChars_append_of_closed hclosed, Cut.ofChars_cons hmark]
    exact hcs.followedBy (Cut.holds_prepend_iff.mpr hds)
  rw [substituteChars_eq_changeLiterals hregular hexclude hlookup hboth,
    substituteChars_eq_changeLiterals hregular hexclude hlookup hcs,
    substituteChars_eq_changeLiterals hregular hexclude hlookup hds,
    changeLiterals_append_mark hlacks hmark hclosed]

end TreeNotation.XPath
