import TreeNotation.XPath.Predicate

/-!
# Texts Cut at Their Literals

A text of predicates is a row of stretches with string literals between them. What changes the
contents of literals only is told from the stretches around each.

- **Cuts**: `Cut` with `Cut.text` for what was cut, and `Cut.ofChars`, which cuts a text;
- **Well-formedness**: `Cut.Sound`, quotes are where the cut says; `Cut.Holds`, something is true of
  all literals;
- **Changes**: `Cut.update` changes the contents; one change after another is one change. What a
  change has to do for both to stay true is `Cut.Admits`.
-/

namespace TreeNotation.XPath

/-! ## Section 1: Cuts -/

/-- A text cut at its string literals. -/
inductive Cut where
  /-- A stretch outside of literals and, after it, nothing or a quote that is not closed with all
  that follows it. -/
  | last (stretch unclosed : List Char)
  /-- A stretch outside of literals, a literal after it, and what comes after that. -/
  | literal (stretch : List Char) (quote : Char) (content : List Char) (rest : Cut)
  deriving Repr, DecidableEq

/-- What is taken as long as a test holds ends where it fails for the first time. -/
theorem cut_append {test : Char → Bool} {first rest : List Char}
    (hfirst : ∀ c ∈ first, test c = true) (hrest : ∀ c ∈ rest.head?, test c = false) :
    (first ++ rest).takeWhile test = first ∧ (first ++ rest).dropWhile test = rest := by
  rw [List.takeWhile_append_of_pos hfirst, List.dropWhile_append_of_pos hfirst]
  cases rest with
  | nil => simp
  | cons c rest =>
    have hc := hrest c rfl
    simp [hc]

theorem takeLiteral?_eq_some_iff {cs content rest : List Char} {quote : Char} :
    takeLiteral? cs = some (quote, content, rest) ↔
      cs = quote :: content ++ quote :: rest ∧ isQuote quote = true ∧ quote ∉ content := by
  constructor
  · intro h
    refine ⟨(takeLiteral?_append h).symm, ?_⟩
    cases cs with
    | nil => cases h
    | cons q cs =>
      simp only [takeLiteral?] at h
      split at h
      case isTrue hquote =>
        split at h
        case h_1 =>
          cases h
          refine ⟨hquote, fun hmem => ?_⟩
          simpa using List.all_eq_true.mp List.all_takeWhile _ hmem
        case h_2 => cases h
      case isFalse => cases h
  · intro h
    obtain ⟨rfl, hquote, hcontent⟩ := h
    -- The content ends at its quote, as it does not hold one.
    have hne : ∀ c ∈ content, decide (c ≠ quote) = true := fun c hc =>
      decide_eq_true fun heq => hcontent (heq ▸ hc)
    have hstop : ∀ c ∈ (quote :: rest).head?, decide (c ≠ quote) = false := by
      intro c hc
      cases hc
      simp
    obtain ⟨htake, hdrop⟩ := cut_append hne hstop
    rw [List.cons_append, takeLiteral?, if_pos hquote, hdrop, htake]

namespace Cut

/-- The text that was cut. -/
def text : Cut → List Char
  | .last stretch unclosed => stretch ++ unclosed
  | .literal stretch quote content rest => stretch ++ quote :: content ++ quote :: rest.text

/-- The text before the first literal. -/
def stretch : Cut → List Char
  | .last stretch _ => stretch
  | .literal stretch _ _ _ => stretch

/-- The cut of a text with more of it at the start, outside of literals. -/
def prepend (before : List Char) : Cut → Cut
  | .last stretch unclosed => .last (before ++ stretch) unclosed
  | .literal stretch quote content rest => .literal (before ++ stretch) quote content rest

/-- Cuts a text at its literals, from left to right. -/
def ofChars : List Char → Cut
  | [] => .last [] []
  | c :: cs =>
    if isQuote c then
      match _h : takeLiteral? (c :: cs) with
      | some (quote, content, rest) => .literal [] quote content (ofChars rest)
      | none => .last [] (c :: cs)
    else prepend [c] (ofChars cs)
termination_by cs => cs.length
decreasing_by
  · have happend := congrArg List.length (takeLiteral?_append _h)
    simp only [List.length_append, List.length_cons] at happend
    simp only [List.length_cons]
    omega
  · simp

/-- Changes the contents of the literals, each by the stretches before it and after it. -/
def update (change : List Char → List Char → List Char → List Char) : Cut → Cut
  | .last stretch unclosed => .last stretch unclosed
  | .literal stretch quote content rest =>
    .literal stretch quote (change stretch rest.stretch content) (rest.update change)

/-! ## Section 2: Well-formed cuts -/

/-- The quotes of a text are where its cut says. -/
def Sound : Cut → Prop
  | .last stretch unclosed =>
    (∀ c ∈ stretch, isQuote c = false) ∧
      (unclosed = [] ∨ ∃ quote body, unclosed = quote :: body ∧ isQuote quote = true ∧ quote ∉ body)
  | .literal stretch quote content rest =>
    (∀ c ∈ stretch, isQuote c = false) ∧ isQuote quote = true ∧ quote ∉ content ∧ rest.Sound

/-- `P` is true of every literal with its quotes, even of one that is not closed. -/
def Holds (P : List Char → Prop) : Cut → Prop
  | .last _ unclosed => P unclosed
  | .literal _ quote content rest => P (quote :: content ++ [quote]) ∧ rest.Holds P

@[simp]
theorem text_prepend (before : List Char) (k : Cut) :
    (k.prepend before).text = before ++ k.text := by
  cases k <;> simp [prepend, text]

@[simp]
theorem stretch_prepend (before : List Char) (k : Cut) :
    (k.prepend before).stretch = before ++ k.stretch := by
  cases k <;> rfl

@[simp]
theorem prepend_nil (k : Cut) : k.prepend [] = k := by
  cases k <;> rfl

theorem exists_text_eq (k : Cut) : ∃ tail, k.text = k.stretch ++ tail := by
  cases k with
  | last stretch unclosed => exact ⟨unclosed, rfl⟩
  | literal stretch quote content rest =>
    exact ⟨quote :: content ++ quote :: rest.text, by simp [text, Cut.stretch]⟩

theorem Sound.not_isQuote {k : Cut} (hk : k.Sound) : ∀ c ∈ k.stretch, isQuote c = false := by
  cases k with
  | last stretch unclosed => exact hk.1
  | literal stretch quote content rest => exact hk.1

theorem Sound.prepend {k : Cut} (hk : k.Sound) {before : List Char}
    (hbefore : ∀ c ∈ before, isQuote c = false) : (k.prepend before).Sound := by
  have hboth : ∀ c ∈ before ++ k.stretch, isQuote c = false := by
    intro c hc
    rcases List.mem_append.mp hc with hc | hc
    · exact hbefore c hc
    · exact hk.not_isQuote c hc
  cases k with
  | last stretch unclosed => exact ⟨hboth, hk.2⟩
  | literal stretch quote content rest => exact ⟨hboth, hk.2⟩

theorem text_ofChars (cs : List Char) : (ofChars cs).text = cs := by
  fun_induction ofChars cs with
  -- The induction is on the cutting, literal after literal.
  | case1 => rfl
  | case2 c cs _ quote content rest htake ih =>
    rw [text, ih]
    exact takeLiteral?_append htake
  | case3 => rfl
  | case4 c cs _ ih => rw [text_prepend, ih]; rfl

theorem prepend_prepend (before more : List Char) (k : Cut) :
    (k.prepend more).prepend before = k.prepend (before ++ more) := by
  cases k <;> simp [prepend]

theorem ofChars_append {stretch : List Char} (hstretch : ∀ c ∈ stretch, isQuote c = false)
    (cs : List Char) : ofChars (stretch ++ cs) = (ofChars cs).prepend stretch := by
  induction stretch with
  | nil => rw [prepend_nil, List.nil_append]
  | cons c stretch ih =>
    obtain ⟨hc, hrest⟩ := List.forall_mem_cons.mp hstretch
    rw [List.cons_append, ofChars, hc, if_neg Bool.false_ne_true, ih hrest, prepend_prepend]
    rfl

theorem ofChars_of_literal {quote : Char} {content : List Char} (hquote : isQuote quote = true)
    (hcontent : quote ∉ content) (rest : List Char) :
    ofChars (quote :: content ++ quote :: rest) = .literal [] quote content (ofChars rest) := by
  have htake : takeLiteral? (quote :: (content ++ quote :: rest)) = some (quote, content, rest) :=
    takeLiteral?_eq_some_iff.mpr ⟨rfl, hquote, hcontent⟩
  rw [List.cons_append, ofChars, if_pos hquote]
  split
  case h_1 quote' content' rest' hsome =>
    rw [htake] at hsome
    cases hsome
    rfl
  case h_2 hnone =>
    rw [htake] at hnone
    cases hnone

theorem ofChars_of_not_literal {quote : Char} {body : List Char} (hquote : isQuote quote = true)
    (hbody : quote ∉ body) : ofChars (quote :: body) = .last [] (quote :: body) := by
  rw [ofChars, if_pos hquote]
  split
  case h_1 quote' content rest hsome =>
    -- A literal would end with a second quote.
    obtain ⟨heq, -, -⟩ := takeLiteral?_eq_some_iff.mp hsome
    obtain ⟨rfl, rfl⟩ := List.cons.inj heq
    exact absurd (by simp) hbody
  case h_2 => rfl

theorem sound_ofChars (cs : List Char) : (ofChars cs).Sound := by
  fun_induction ofChars cs with
  | case1 => exact ⟨by simp, Or.inl rfl⟩
  | case2 c cs _ quote content rest htake ih =>
    obtain ⟨-, hquote, hcontent⟩ := takeLiteral?_eq_some_iff.mp htake
    exact ⟨by simp, hquote, hcontent, ih⟩
  | case3 c cs hquote htake =>
    refine ⟨by simp, Or.inr ⟨c, cs, rfl, hquote, fun hmem => ?_⟩⟩
    -- The first quote of its kind would close the literal.
    obtain ⟨content, rest, rfl, hcontent⟩ := List.eq_append_cons_of_mem hmem
    have hclosed : takeLiteral? (c :: (content ++ c :: rest)) = some (c, content, rest) :=
      takeLiteral?_eq_some_iff.mpr ⟨rfl, hquote, hcontent⟩
    rw [hclosed] at htake
    cases htake
  | case4 c cs hquote ih =>
    -- A character before the first literal is no quote.
    apply ih.prepend
    intro d hd
    rw [List.mem_singleton.mp hd]
    exact Bool.eq_false_iff.mpr hquote

theorem Holds.imp {P Q : List Char → Prop} (himp : ∀ cs, P cs → Q cs) {k : Cut} (hk : k.Holds P) :
    k.Holds Q := by
  induction k with
  | last stretch unclosed => exact himp _ hk
  | literal stretch quote content rest ih => exact ⟨himp _ hk.1, ih hk.2⟩

/-- A text is cut in one way. -/
theorem ofChars_text {k : Cut} (hk : k.Sound) : ofChars k.text = k := by
  induction k with
  | last stretch unclosed =>
    obtain ⟨hstretch, hunclosed⟩ := hk
    rw [text, ofChars_append hstretch]
    rcases hunclosed with rfl | ⟨quote, body, rfl, hquote, hbody⟩
    · rw [ofChars, prepend, List.append_nil]
    · rw [ofChars_of_not_literal hquote hbody, prepend, List.append_nil]
  | literal stretch quote content rest ih =>
    obtain ⟨hstretch, hquote, hcontent, hrest⟩ := hk
    rw [text, List.append_assoc, ofChars_append hstretch, ofChars_of_literal hquote hcontent,
      ih hrest, prepend, List.append_nil]

/-! ## Section 3: Changing contents -/

variable {change : List Char → List Char → List Char → List Char} {P : List Char → Prop}

/-- Every literal is still one after the change, and `P` is true of it. -/
def Admits (P : List Char → Prop) (change : List Char → List Char → List Char → List Char) :
    Cut → Prop
  | .last _ _ => True
  | .literal stretch quote content rest =>
    quote ∉ change stretch rest.stretch content ∧
      P (quote :: change stretch rest.stretch content ++ [quote]) ∧ rest.Admits P change

@[simp]
theorem stretch_update (k : Cut) : (k.update change).stretch = k.stretch := by
  cases k <;> rfl

theorem update_congr {change' : List Char → List Char → List Char → List Char}
    (h : ∀ before after content, change before after content = change' before after content)
    (k : Cut) : k.update change = k.update change' := by
  have heq : change = change' := by
    funext before after content
    exact h before after content
  rw [heq]

theorem update_update (change' : List Char → List Char → List Char → List Char) (k : Cut) :
    (k.update change).update change' =
      k.update fun before after content =>
        change' before after (change before after content) := by
  -- A change leaves the stretches, so the next one sees the same text around each literal.
  induction k with
  | last stretch unclosed => rfl
  | literal stretch quote content rest ih => simp only [update, stretch_update, ih]

/-- The text keeps its first character, a quote or one before the first literal. -/
theorem head?_text_update (k : Cut) : (k.update change).text.head? = k.text.head? := by
  cases k with
  | last stretch unclosed => rfl
  | literal stretch quote content rest => cases stretch <;> rfl

/-- Contents without quotes may be put in. -/
theorem Sound.update {k : Cut} (hk : k.Sound)
    (hchange : ∀ before after content quote, isQuote quote = true → quote ∉ content →
      quote ∉ change before after content) : (k.update change).Sound := by
  induction k with
  | last stretch unclosed => exact hk
  | literal stretch quote content rest ih =>
    obtain ⟨hstretch, hquote, hcontent, hrest⟩ := hk
    exact ⟨hstretch, hquote, hchange _ _ _ quote hquote hcontent, ih hrest⟩

theorem update_of_forall (h : ∀ before after content, change before after content = content)
    (k : Cut) : k.update change = k := by
  induction k with
  | last stretch unclosed => rfl
  | literal stretch quote content rest ih => rw [update, h, ih]

/-- A text may stay as it is. -/
theorem admits_id {k : Cut} (hk : k.Sound) (hP : k.Holds P) :
    k.Admits P fun _ _ content => content := by
  induction k with
  | last stretch unclosed => trivial
  | literal stretch quote content rest ih =>
    exact ⟨hk.2.2.1, hP.1, ih hk.2.2.2 hP.2⟩

/-- What a change admits after another one, both together admit. -/
theorem admits_update_iff (change' : List Char → List Char → List Char → List Char) {k : Cut} :
    (k.update change).Admits P change' ↔
      k.Admits P fun before after content =>
        change' before after (change before after content) := by
  induction k with
  | last stretch unclosed => exact Iff.rfl
  | literal stretch quote content rest ih => simp only [update, Admits, stretch_update, ih]

namespace Admits

variable {k : Cut}

theorem sound (h : k.Admits P change) (hk : k.Sound) : (k.update change).Sound := by
  induction k with
  | last stretch unclosed => exact hk
  | literal stretch quote content rest ih =>
    obtain ⟨hstretch, hquote, -, hrest⟩ := hk
    exact ⟨hstretch, hquote, h.1, ih h.2.2 hrest⟩

theorem holds (h : k.Admits P change) (hP : k.Holds P) : (k.update change).Holds P := by
  induction k with
  | last stretch unclosed => exact hP
  | literal stretch quote content rest ih => exact ⟨h.2.1, ih h.2.2 hP.2⟩

theorem imp {Q : List Char → Prop} (himp : ∀ cs, P cs → Q cs) (h : k.Admits P change) :
    k.Admits Q change := by
  induction k with
  | last stretch unclosed => trivial
  | literal stretch quote content rest ih => exact ⟨h.1, himp _ h.2.1, ih h.2.2⟩

/-- Where a change does to each literal what one of some others does, it may be made if these
may. -/
theorem of_cases (changes : List (List Char → List Char → List Char → List Char))
    (h : ∀ other ∈ changes, k.Admits P other)
    (hcases : ∀ before after content, ∃ other ∈ changes,
      change before after content = other before after content) : k.Admits P change := by
  induction k with
  | last stretch unclosed => trivial
  | literal stretch quote content rest ih =>
    obtain ⟨other, hother, heq⟩ := hcases stretch rest.stretch content
    obtain ⟨hquote, hliteral, -⟩ := h other hother
    refine ⟨?_, ?_, ih fun other hother => (h other hother).2.2⟩
    · rw [heq]; exact hquote
    · rw [heq]; exact hliteral

end Admits

end Cut

end TreeNotation.XPath
