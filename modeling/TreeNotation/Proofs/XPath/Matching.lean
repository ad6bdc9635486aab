import TreeNotation.Proofs.XPath.Literals
import TreeNotation.Proofs.XPath.Spelling

/-!
# Searching for a Shape

The search for a shape knows nothing of literals. Yet if no quote in a literal, nor the one that
closes it, comes right after what opens the shape, it changes exactly the literals that stand in the
shape: an occurrence begins outside of literals, and it cannot pass the next quote before its own
literal.

- **Regularity**: `Shape.Regular`, what the search relies on;
- **Occurrences**: `match?_eq_some_iff`, and `Shape.Opens`, without which there is none;
- **The search**: `Shape.Skips`, no occurrence begins in a stretch; `Shape.replace_text`, searching
  a text for a shape is one change of its cut.
-/

namespace TreeNotation.XPath

open Text (isBlank)

/-! ## Section 1: Regular shapes -/

/-- What the search for a shape relies on: the parts of the shape are taken as they are spelled,
what opens it holds an at sign and no quote, and cannot begin within what closes an occurrence. -/
structure Shape.Regular (shape : Shape) : Prop where
  take_opening : ∀ u rest, spells shape.opening u = true → Firm rest →
    takePieces? shape.opening (u ++ rest) = some (u, rest)
  take_closing : ∀ v rest, spells shape.closing v = true →
    takePieces? shape.closing (v ++ rest) = some (v, rest)
  not_isQuote : ∀ u, spells shape.opening u = true → ∀ c ∈ u, isQuote c = false
  at_mem : ∀ u, spells shape.opening u = true → '@' ∈ u
  head : ∀ c u, spells shape.opening (c :: u) = true → isBlank c = false ∧ c ≠ ')'
  closing_char : ∀ v, spells shape.closing v = true → ∀ c ∈ v, isBlank c = true ∨ c = ')'

theorem isBlank_of_isQuote {c : Char} (h : isQuote c = true) : isBlank c = false := by
  simp only [isQuote, Bool.or_eq_true, beq_iff_eq] at h
  rcases h with rfl | rfl <;> rfl

theorem Shape.Regular.closing_plain {shape : Shape} (hshape : shape.Regular) {closing : List Char}
    (h : spells shape.closing closing = true) : ∀ c ∈ closing, isQuote c = false := by
  intro c hc
  rw [Bool.eq_false_iff]
  intro hquote
  rcases hshape.closing_char closing h c hc with hblank | rfl
  · rw [isBlank_of_isQuote hquote] at hblank
    cases hblank
  · cases hquote

theorem ne_of_isQuote {c mark : Char} (h : isQuote c = true) (hmark : isQuote mark = false) :
    c ≠ mark := by
  rintro rfl
  rw [h] at hmark
  cases hmark

/-- Two ways to cut a text before its first quote are the same. -/
theorem append_quote_inj {u s x y : List Char} {q r : Char} (hu : ∀ c ∈ u, isQuote c = false)
    (hs : ∀ c ∈ s, isQuote c = false) (hq : isQuote q = true) (hr : isQuote r = true)
    (h : u ++ q :: x = s ++ r :: y) : u = s ∧ q = r ∧ x = y := by
  -- The induction is on the first text; no quote can stand where the other text goes on.
  induction u generalizing s with
  | nil =>
    cases s with
    | nil => exact ⟨rfl, List.cons.inj h⟩
    | cons d s =>
      obtain ⟨rfl, -⟩ := List.cons.inj h
      exact absurd rfl (ne_of_isQuote hq (hs q List.mem_cons_self))
  | cons c u ih =>
    cases s with
    | nil =>
      obtain ⟨rfl, -⟩ := List.cons.inj h
      exact absurd rfl (ne_of_isQuote hr (hu c List.mem_cons_self))
    | cons d s =>
      obtain ⟨rfl, htail⟩ := List.cons.inj h
      obtain ⟨rfl, hsame⟩ := ih (fun e he => hu e (List.mem_cons_of_mem c he))
        (fun e he => hs e (List.mem_cons_of_mem c he)) htail
      exact ⟨rfl, hsame⟩

namespace Shape

variable {shape : Shape} {lookup : List Char → Option (List Char)}

/-! ## Section 2: Occurrences -/

theorem match?_eq_some_iff (hshape : shape.Regular) {cs : List Char} {found : Occurrence} :
    shape.match? cs = some found ↔
      ∃ u q content v rest, spells shape.opening u = true ∧ isQuote q = true ∧ q ∉ content ∧
        spells shape.closing v = true ∧ cs = u ++ q :: content ++ q :: (v ++ rest) ∧
        found = ⟨u ++ [q], content, q :: v, rest⟩ := by
  simp only [match?, Option.bind_eq_bind, Option.bind_eq_some_iff, Prod.exists, Option.pure_def,
    Option.some.injEq]
  constructor
  · -- What has been taken spells the parts.
    intro h
    obtain ⟨u, _, hopening, q, content, _, hliteral, v, rest, hclosing, rfl⟩ := h
    obtain ⟨rfl, hquote, hcontent⟩ := takeLiteral?_eq_some_iff.mp hliteral
    refine ⟨u, q, content, v, rest, spells_of_takePieces? hopening, hquote, hcontent,
      spells_of_takePieces? hclosing, ?_, rfl⟩
    rw [← takePieces?_append hopening, ← takePieces?_append hclosing, List.append_assoc]
  · -- What spells the parts is taken, as a quote is no blank.
    intro h
    obtain ⟨u, q, content, v, rest, hu, hquote, hcontent, hv, rfl, rfl⟩ := h
    refine ⟨u, q :: content ++ q :: (v ++ rest), ?_, q, content, v ++ rest, ?_, v, rest,
      hshape.take_closing v rest hv, rfl⟩
    · rw [List.append_assoc]
      apply hshape.take_opening u _ hu
      intro c hc
      cases hc
      exact isBlank_of_isQuote hquote
    · exact takeLiteral?_eq_some_iff.mpr ⟨rfl, hquote, hcontent⟩

/-- Somewhere in a text a quote comes right after what opens the shape. -/
def Opens (shape : Shape) (cs : List Char) : Prop :=
  ∃ before u q after, cs = before ++ u ++ q :: after ∧ spells shape.opening u = true ∧
    isQuote q = true

theorem Opens.of_suffix {cs ds : List Char} (h : shape.Opens cs) (hsuffix : cs <:+ ds) :
    shape.Opens ds := by
  obtain ⟨before, u, q, after, rfl, hu, hq⟩ := h
  obtain ⟨more, rfl⟩ := hsuffix
  exact ⟨more ++ before, u, q, after, by simp only [List.append_assoc], hu, hq⟩

/-- A text without at signs opens no shape. -/
theorem not_opens_of_not_mem (hshape : shape.Regular) {cs : List Char} (hcs : '@' ∉ cs) :
    ¬ shape.Opens cs := by
  intro hopens
  obtain ⟨before, u, q, after, rfl, hu, -⟩ := hopens
  have hat := hshape.at_mem u hu
  exact hcs (by simp [hat])

theorem match?_eq_none_of_not_opens (hshape : shape.Regular) {cs : List Char}
    (h : ¬ shape.Opens cs) : shape.match? cs = none := by
  rw [Option.eq_none_iff_forall_ne_some]
  intro found hfound
  obtain ⟨u, q, content, v, rest, hu, hquote, -, -, rfl, -⟩ :=
    (match?_eq_some_iff hshape).mp hfound
  exact h ⟨[], u, q, _, List.append_assoc u (q :: content) _, hu, hquote⟩

/-- Up to a quote only the text before it and the quote itself can open an occurrence. -/
theorem match?_eq_none_before_quote (hshape : shape.Regular) {cs : List Char} {quote : Char}
    (hquote : isQuote quote = true) (h : ¬ shape.Opens (cs ++ [quote])) (more : List Char) :
    shape.match? (cs ++ quote :: more) = none := by
  rw [Option.eq_none_iff_forall_ne_some]
  intro found hfound
  obtain ⟨u, q, content, v, rest, hu, hq, -, -, htext, -⟩ := (match?_eq_some_iff hshape).mp hfound
  rw [List.append_assoc] at htext
  rcases List.append_eq_append_iff.mp htext with ⟨tail, rfl, htail⟩ | ⟨tail, rfl, htail⟩
  · cases tail with
    | nil =>
      -- The quote is the one that opens the literal of the occurrence.
      obtain ⟨rfl, -⟩ := List.cons.inj htail
      rw [List.append_nil] at hu
      exact h ⟨[], cs, quote, [], rfl, hu, hquote⟩
    | cons c tail =>
      -- What opens the occurrence would reach beyond a quote.
      obtain ⟨rfl, -⟩ := List.cons.inj htail
      exact ne_of_isQuote hquote (hshape.not_isQuote _ hu quote (by simp)) rfl
  · cases tail with
    | nil =>
      obtain ⟨rfl, -⟩ := List.cons.inj htail
      exact h ⟨[], u, q, [], by rw [List.append_nil, List.nil_append], hu, hq⟩
    | cons c tail =>
      obtain ⟨rfl, -⟩ := List.cons.inj htail
      exact h ⟨[], u, q, tail ++ [quote], List.append_assoc u (q :: tail) [quote], hu, hq⟩

/-! ## Section 3: The search -/

theorem replace_of_match? {cs : List Char} {found : Occurrence} (h : shape.match? cs = some found) :
    shape.replace lookup cs =
      found.before ++ (lookup found.content).getD found.content ++ found.after ++
        shape.replace lookup found.rest := by
  cases cs with
  | nil =>
    have := length_rest_lt h
    simp at this
  | cons c cs =>
    rw [replace]
    split
    case h_1 found' hfound =>
      cases hfound.symm.trans h
      rfl
    case h_2 hnone =>
      rw [hnone] at h
      cases h

theorem replace_cons_of_match? {c : Char} {cs : List Char} (h : shape.match? (c :: cs) = none) :
    shape.replace lookup (c :: cs) = c :: shape.replace lookup cs := by
  rw [replace]
  split
  case h_1 found' hfound =>
    rw [h] at hfound
    cases hfound
  case h_2 => rfl

/-- No occurrence begins in a text if `rest` comes after it. -/
def Skips (shape : Shape) (before rest : List Char) : Prop :=
  ∀ v w, before = v ++ w → w ≠ [] → shape.match? (w ++ rest) = none

theorem skips_nil (shape : Shape) (rest : List Char) : shape.Skips [] rest := by
  intro v w hvw hw
  exact absurd (List.append_eq_nil_iff.mp hvw.symm).2 hw

theorem Skips.snoc {before cs : List Char} {c : Char} (hbefore : shape.Skips before (c :: cs))
    (hmatch : shape.match? (c :: cs) = none) : shape.Skips (before ++ [c]) cs := by
  intro v w hvw hw
  rw [← List.dropLast_append_getLast hw, ← List.append_assoc] at hvw
  obtain ⟨hinner, hlast⟩ := List.append_inj' hvw rfl
  rw [← List.dropLast_append_getLast hw, ← hlast, List.append_assoc, List.singleton_append]
  -- An occurrence would begin with the new character or before it.
  by_cases hnil : w.dropLast = []
  · rw [hnil, List.nil_append]
    exact hmatch
  · exact hbefore v w.dropLast hinner hnil

/-- A stretch in which no occurrence begins is copied. -/
theorem Skips.replace_append {before rest : List Char} (h : shape.Skips before rest)
    (lookup : List Char → Option (List Char)) :
    shape.replace lookup (before ++ rest) = before ++ shape.replace lookup rest := by
  -- The induction is on the stretch, which is copied character by character.
  induction before with
  | nil => rfl
  | cons c before ih =>
    have hfirst := h [] (c :: before) rfl (List.cons_ne_nil c before)
    rw [List.cons_append] at hfirst
    rw [List.cons_append, replace_cons_of_match? hfirst, List.cons_append]
    congr 1
    apply ih
    intro v w hvw hw
    apply h (c :: v) w ?_ hw
    rw [hvw, List.cons_append]

/-- What becomes of the content of a literal that may stand in a shape. -/
def put (shape : Shape) (lookup : List Char → Option (List Char)) (before after : List Char)
    (content : List Char) : List Char :=
  if shape.frames before after then (lookup content).getD content else content

end Shape

namespace Cut

/-- What begins a text without a quote comes from its first stretch. -/
theorem exists_prepend {k : Cut} (hk : k.Sound) {before more : List Char}
    (hbefore : ∀ c ∈ before, isQuote c = false) (h : k.text = before ++ more) :
    ∃ rest : Cut, k = rest.prepend before ∧ rest.text = more ∧ rest.Sound ∧
      ∀ P, k.Holds P → rest.Holds P := by
  cases k with
  | last stretch unclosed =>
    rcases List.append_eq_append_iff.mp h with ⟨tail, rfl, hunclosed⟩ | ⟨tail, rfl, rfl⟩
    · cases tail with
      | nil =>
        refine ⟨.last [] unclosed, by simp [prepend], by simpa [text] using hunclosed,
          ⟨by simp, hk.2⟩, fun _ => id⟩
      | cons c tail =>
        -- The unclosed part begins with a quote.
        have hplain := hbefore c (by simp)
        rcases hk.2 with hnil | ⟨quote, body, hbody, hquote, -⟩
        · rw [hnil] at hunclosed; cases hunclosed
        · rw [hbody] at hunclosed
          obtain ⟨rfl, -⟩ := List.cons.inj hunclosed
          exact absurd rfl (ne_of_isQuote hquote hplain)
    · exact ⟨.last tail unclosed, rfl, rfl,
        ⟨fun c hc => hk.1 c (List.mem_append.mpr (Or.inr hc)), hk.2⟩, fun _ => id⟩
  | literal stretch quote content rest =>
    obtain ⟨hstretch, hquote, hcontent, hrest⟩ := hk
    rw [text, List.append_assoc] at h
    rcases List.append_eq_append_iff.mp h with ⟨tail, rfl, hmore⟩ | ⟨tail, rfl, rfl⟩
    · cases tail with
      | nil =>
        refine ⟨.literal [] quote content rest, by simp [prepend], ?_,
          ⟨by simp, hquote, hcontent, hrest⟩, fun _ => id⟩
        simpa [text] using hmore
      | cons c tail =>
        obtain ⟨rfl, -⟩ := List.cons.inj hmore
        exact absurd rfl (ne_of_isQuote hquote (hbefore quote (by simp)))
    · refine ⟨.literal tail quote content rest, rfl, by simp [text],
        ⟨fun c hc => hstretch c (List.mem_append.mpr (Or.inr hc)), hquote, hcontent, hrest⟩,
        fun _ => id⟩

end Cut

namespace Shape

variable {shape : Shape} {lookup : List Char → Option (List Char)}

theorem match?_last (hshape : shape.Regular) {stretch unclosed : List Char}
    (hk : (Cut.last stretch unclosed).Sound) : shape.match? (stretch ++ unclosed) = none := by
  rw [Option.eq_none_iff_forall_ne_some]
  intro found hfound
  obtain ⟨u, q, content, v, rest, hu, hquote, -, -, htext, -⟩ :=
    (match?_eq_some_iff hshape).mp hfound
  rw [List.append_assoc] at htext
  obtain ⟨hstretch, hnil | ⟨quote, body, rfl, hbody, hopen⟩⟩ := hk
  · -- There is no quote at all.
    rw [hnil, List.append_nil] at htext
    have hplain := hstretch q (by rw [htext]; simp)
    exact ne_of_isQuote hquote hplain rfl
  · obtain ⟨-, rfl, rfl⟩ :=
      append_quote_inj hstretch (hshape.not_isQuote u hu) hbody hquote htext
    exact hopen (by simp)

/-- An occurrence that begins before a literal ends right after it. -/
theorem match?_literal (hshape : shape.Regular) {stretch content after : List Char} {quote : Char}
    (hstretch : ∀ c ∈ stretch, isQuote c = false) (hquote : isQuote quote = true)
    (hcontent : quote ∉ content) {found : Occurrence}
    (h : shape.match? (stretch ++ quote :: content ++ quote :: after) = some found) :
    spells shape.opening stretch = true ∧ ∃ closing, spells shape.closing closing = true ∧
      after = closing ++ found.rest ∧
      found = ⟨stretch ++ [quote], content, quote :: closing, found.rest⟩ := by
  obtain ⟨u, q, content', v, rest, hu, hq, hcontent', hv, htext, rfl⟩ :=
    (match?_eq_some_iff hshape).mp h
  rw [List.append_assoc, List.append_assoc] at htext
  obtain ⟨rfl, rfl, hinner⟩ :=
    append_quote_inj hstretch (hshape.not_isQuote u hu) hquote hq htext
  -- Both literals begin at the same quote, so they are the same.
  have hliteral : takeLiteral? (quote :: content ++ quote :: after) =
      some (quote, content', v ++ rest) :=
    takeLiteral?_eq_some_iff.mpr ⟨congrArg (quote :: ·) hinner, hquote, hcontent'⟩
  rw [takeLiteral?_eq_some_iff.mpr ⟨rfl, hquote, hcontent⟩] at hliteral
  cases hliteral
  exact ⟨hu, v, hv, rfl, rfl⟩

/-- Nothing that closes an occurrence begins another one. -/
theorem skips_closing (hshape : shape.Regular) {closing : List Char}
    (hclosing : spells shape.closing closing = true) (more : List Char) :
    shape.Skips closing more := by
  intro v w hvw hw
  rw [Option.eq_none_iff_forall_ne_some]
  intro found hfound
  obtain ⟨u, q, content, _, rest, hu, -, -, -, htext, -⟩ := (match?_eq_some_iff hshape).mp hfound
  cases w with
  | nil => exact hw rfl
  | cons c w =>
    cases u with
    | nil => exact absurd (hshape.at_mem [] hu) List.not_mem_nil
    | cons d u =>
      -- The first character of an occurrence is neither a blank nor a parenthesis that closes.
      obtain ⟨rfl, -⟩ := List.cons.inj htext
      obtain ⟨hblank, hmark⟩ := hshape.head c u hu
      rcases hshape.closing_char closing hclosing c (by simp [hvw]) with hblank' | hmark'
      · rw [hblank] at hblank'; cases hblank'
      · exact hmark hmark'

theorem replace_last (hshape : shape.Regular) {stretch unclosed : List Char}
    (hk : (Cut.last stretch unclosed).Sound) (hquiet : ¬ shape.Opens unclosed) :
    shape.replace lookup (stretch ++ unclosed) = stretch ++ unclosed := by
  -- No occurrence begins in the literal that is not closed.
  have hunclosed : shape.replace lookup unclosed = unclosed := by
    have hskips : shape.Skips unclosed [] := by
      rintro v w rfl -
      rw [List.append_nil]
      exact match?_eq_none_of_not_opens hshape fun hopens => hquiet (hopens.of_suffix ⟨v, rfl⟩)
    have hcopied := hskips.replace_append lookup
    rwa [List.append_nil, show shape.replace lookup [] = [] by rw [replace], List.append_nil]
      at hcopied
  have hskips : shape.Skips stretch unclosed := by
    rintro v w rfl -
    exact match?_last hshape ⟨fun c hc => hk.1 c (by simp [hc]), hk.2⟩
  rw [hskips.replace_append, hunclosed]

/-- A literal with nothing before it is copied. -/
theorem replace_literal (hshape : shape.Regular) {content after : List Char} {quote : Char}
    (hquote : isQuote quote = true) (hquiet : ¬ shape.Opens (quote :: content ++ [quote])) :
    shape.replace lookup (quote :: content ++ quote :: after) =
      quote :: content ++ quote :: shape.replace lookup after := by
  have hsplit : ∀ tail, quote :: content ++ quote :: tail = (quote :: content ++ [quote]) ++ tail :=
    fun tail => by simp
  have hskips : shape.Skips (quote :: content ++ [quote]) after := by
    intro v w hvw hw
    -- Every end of the literal is a part of it and the closing quote.
    have hsuffix : w <:+ quote :: content ++ [quote] := ⟨v, hvw.symm⟩
    rw [← List.dropLast_append_getLast hw, ← List.append_assoc] at hvw
    obtain ⟨-, hlast⟩ := List.append_inj' hvw rfl
    have hend : w = w.dropLast ++ [quote] := by
      rw [hlast]
      exact (List.dropLast_append_getLast hw).symm
    rw [hend, List.append_assoc]
    apply match?_eq_none_before_quote hshape hquote
    rw [← hend]
    exact fun hopens => hquiet (hopens.of_suffix hsuffix)
  rw [hsplit after, hsplit (shape.replace lookup after), hskips.replace_append]

theorem put_eq_content (lookup : List Char → Option (List Char)) (hshape : shape.Regular)
    {before content : List Char} {quote : Char} {rest : Cut} (hquote : isQuote quote = true)
    (hcontent : quote ∉ content)
    (hbefore : shape.Skips before (Cut.literal [] quote content rest).text) :
    shape.put lookup before rest.stretch content = content := by
  unfold put
  rw [if_neg]
  intro hframes
  obtain ⟨⟨u, ⟨v, rfl⟩, hu⟩, closing, ⟨more, hmore⟩, hclosing⟩ := frames_iff.mp hframes
  -- If the literal stood in the shape, an occurrence would begin in the text before.
  have hne : u ≠ [] := List.ne_nil_of_mem (hshape.at_mem u hu)
  obtain ⟨tail, htail⟩ := rest.exists_text_eq
  have hmatch : shape.match? (u ++ (Cut.literal [] quote content rest).text) =
      some ⟨u ++ [quote], content, quote :: closing, more ++ tail⟩ := by
    refine (match?_eq_some_iff hshape).mpr
      ⟨u, quote, content, closing, more ++ tail, hu, hquote, hcontent, hclosing, ?_, rfl⟩
    simp [Cut.text, htail, ← hmore]
  rw [hbefore v u rfl hne] at hmatch
  cases hmatch

/-- A literal is reached, and nothing before it was an occurrence: it stands in no shape. -/
theorem append_replace_literal (hshape : shape.Regular) {before content : List Char} {quote : Char}
    {rest : Cut} (hquote : isQuote quote = true) (hcontent : quote ∉ content)
    (hquiet : ¬ shape.Opens (quote :: content ++ [quote]))
    (hbefore : shape.Skips before (Cut.literal [] quote content rest).text)
    (hlater : shape.replace lookup rest.text = (rest.update (shape.put lookup)).text) :
    before ++ shape.replace lookup (Cut.literal [] quote content rest).text =
      ((Cut.literal before quote content rest).update (shape.put lookup)).text := by
  have hput := put_eq_content lookup hshape hquote hcontent hbefore
  have htext : (Cut.literal [] quote content rest).text =
      quote :: content ++ quote :: rest.text := by simp [Cut.text]
  rw [htext, replace_literal hshape hquote hquiet, hlater]
  simp [Cut.update, Cut.text, hput]

/-- An occurrence is reached: its literal stands in the shape, and the search goes on after what
closes it. -/
theorem append_replace_found {before opening content closing : List Char} {quote : Char}
    {next : Cut} (hopening : spells shape.opening opening = true)
    (hclosing : spells shape.closing closing = true)
    (hmatch : shape.match? (opening ++ quote :: content ++ quote :: (closing ++ next.text)) =
      some ⟨opening ++ [quote], content, quote :: closing, next.text⟩)
    (hlater : closing ++ shape.replace lookup next.text =
      ((next.prepend closing).update (shape.put lookup)).text) :
    before ++ shape.replace lookup
        (opening ++ quote :: content ++ quote :: (closing ++ next.text)) =
      ((Cut.literal (before ++ opening) quote content (next.prepend closing)).update
        (shape.put lookup)).text := by
  have hframes : shape.frames (before ++ opening) (next.prepend closing).stretch = true :=
    frames_iff.mpr ⟨⟨opening, ⟨before, rfl⟩, hopening⟩,
      closing, ⟨next.stretch, by rw [Cut.stretch_prepend]⟩, hclosing⟩
  have hput : shape.put lookup (before ++ opening) (next.prepend closing).stretch content =
      (lookup content).getD content := if_pos hframes
  rw [replace_of_match? hmatch, Cut.update, Cut.text, hput, ← hlater]
  simp

/-- If no occurrence begins in a text that stands before a cut, the search of the cut, with that
text before it, is one change of its literals. -/
theorem append_replace_text (hshape : shape.Regular) {k : Cut} (hk : k.Sound)
    (hquiet : k.Holds fun cs => ¬ shape.Opens cs) {before : List Char}
    (hbefore : shape.Skips before k.text) :
    before ++ shape.replace lookup k.text =
      ((k.prepend before).update (shape.put lookup)).text := by
  -- The induction is on the length of what is still to be searched. The text before it has been
  -- passed: no occurrence begins there, but the opening of one may end there.
  induction hlength : k.text.length using Nat.strong_induction_on generalizing k before with
  | _ n ih =>
    subst hlength
    cases k with
    | last stretch unclosed =>
      rw [Cut.text, replace_last hshape hk hquiet]
      simp [Cut.prepend, Cut.update, Cut.text]
    | literal stretch quote content rest =>
      obtain ⟨hstretch, hquote, hcontent, hrest⟩ := hk
      cases stretch with
      | nil =>
        -- The search has come to the literal without finding an occurrence.
        have hlater : [] ++ shape.replace lookup rest.text =
            ((rest.prepend []).update (shape.put lookup)).text :=
          ih rest.text.length (by simp [Cut.text]; omega) hrest hquiet.2 (skips_nil shape _) rfl
        rw [Cut.prepend_nil, List.nil_append] at hlater
        rw [Cut.prepend, List.append_nil]
        exact append_replace_literal hshape hquote hcontent hquiet.1 hbefore hlater
      | cons c stretch =>
        let after := Cut.literal stretch quote content rest
        have htext : (Cut.literal (c :: stretch) quote content rest).text = c :: after.text := rfl
        cases hmatch : shape.match? (c :: after.text) with
        | none =>
          -- The character joins the text before.
          have hsound : after.Sound :=
            ⟨fun d hd => hstretch d (List.mem_cons_of_mem c hd), hquote, hcontent, hrest⟩
          have hlater : (before ++ [c]) ++ shape.replace lookup after.text =
              ((after.prepend (before ++ [c])).update (shape.put lookup)).text :=
            ih after.text.length (by rw [htext]; simp) hsound hquiet (hbefore.snoc hmatch) rfl
          rw [htext, replace_cons_of_match? hmatch]
          simpa [after, Cut.prepend] using hlater
        | some found =>
          -- The occurrence ends after its literal, and the search goes on from there.
          obtain ⟨hopening, closing, hclosing, hafter, hfound⟩ :=
            match?_literal hshape hstretch hquote hcontent hmatch
          obtain ⟨next, rfl, hnext, hnextsound, hkeeps⟩ :=
            Cut.exists_prepend hrest (hshape.closing_plain hclosing) hafter
          have hlater : closing ++ shape.replace lookup next.text =
              ((next.prepend closing).update (shape.put lookup)).text :=
            ih next.text.length (by simp [Cut.text]; omega) hnextsound (hkeeps _ hquiet.2)
              (skips_closing hshape hclosing next.text) rfl
          have hcs : (Cut.literal (c :: stretch) quote content (next.prepend closing)).text =
              c :: stretch ++ quote :: content ++ quote :: (closing ++ next.text) := by
            simp [Cut.text]
          rw [← htext, hcs, hfound, ← hnext] at hmatch
          rw [hcs]
          exact append_replace_found hopening hclosing hmatch hlater

/-- The search of a text for a shape changes the literals that stand in the shape and nothing
else. -/
theorem replace_text (hshape : shape.Regular) {k : Cut} (hk : k.Sound)
    (hquiet : k.Holds fun cs => ¬ shape.Opens cs) :
    shape.replace lookup k.text = (k.update (shape.put lookup)).text := by
  have hsearch : [] ++ shape.replace lookup k.text =
      ((k.prepend []).update (shape.put lookup)).text :=
    append_replace_text hshape hk hquiet (skips_nil shape k.text)
  rwa [Cut.prepend_nil, List.nil_append] at hsearch

end Shape

end TreeNotation.XPath
