import Mathlib.Data.List.Basic

/-!
# Reading Back Up to a Delimiter

A piece of text can be told from what follows it if it holds none of the characters that what
follows may begin with, or if it can be read in some other way that stops there.

- **Stretches**: `append_inj_of_ends`, for a piece without delimiters;
- **Pieces**: `Reads` says that pieces of some kind can be read back in front of a delimiter;
- **Rows**: `Reads.flatMap`, for pieces one after the other, each behind a separator.
-/

namespace TreeNotation.Text

/-! ## Section 1: Stretches -/

/-- The text is empty, or it begins with a character that satisfies `p`. -/
def Ends (p : Char → Bool) : List Char → Prop
  | [] => True
  | c :: _ => p c = true

theorem ends_cons {p : Char → Bool} {c : Char} (h : p c = true) (cs : List Char) :
    Ends p (c :: cs) := h

theorem Ends.mono {p q : Char → Bool} {cs : List Char} (h : Ends p cs)
    (hpq : ∀ c, p c = true → q c = true) : Ends q cs := by
  cases cs with
  | nil => trivial
  | cons c cs => exact hpq c h

/-- A stretch without delimiters is all that comes before the first delimiter. -/
theorem append_inj_of_ends {p : Char → Bool} {xs ys rs ss : List Char}
    (hxs : ∀ c ∈ xs, p c = false) (hys : ∀ c ∈ ys, p c = false) (hrs : Ends p rs)
    (hss : Ends p ss) (h : xs ++ rs = ys ++ ss) : xs = ys ∧ rs = ss := by
  -- The induction is on the one stretch; the other one cannot end earlier or later.
  induction xs generalizing ys with
  | nil =>
    cases ys with
    | nil => exact ⟨rfl, h⟩
    | cons d ys =>
      rw [List.nil_append] at h
      subst h
      have hd : p d = true := hrs
      rw [hys d List.mem_cons_self] at hd
      cases hd
  | cons c xs ih =>
    cases ys with
    | nil =>
      rw [List.nil_append] at h
      subst h
      have hc : p c = true := hss
      rw [hxs c List.mem_cons_self] at hc
      cases hc
    | cons d ys =>
      rw [List.cons_append, List.cons_append, List.cons.injEq] at h
      obtain ⟨rfl, h⟩ := h
      obtain ⟨rfl, hrest⟩ := ih (fun e he => hxs e (List.mem_cons_of_mem _ he))
        (fun e he => hys e (List.mem_cons_of_mem _ he)) h
      exact ⟨rfl, hrest⟩

theorem beq_eq_false_of_not_mem {d : Char} {cs : List Char} (h : d ∉ cs) :
    ∀ c ∈ cs, (c == d) = false :=
  fun _ hc => beq_false_of_ne fun heq => h (heq ▸ hc)

/-! ## Section 2: Pieces -/

variable {α : Type}

/-- The text of `a` can be told from the texts of the things that satisfy `good`, and from what
follows it, in front of what `p` lets follow. -/
def Reads (p : Char → Bool) (good : α → Prop) (text : α → List Char) (a : α) : Prop :=
  ∀ b rs ss, good b → Ends p rs → Ends p ss → text a ++ rs = text b ++ ss → a = b ∧ rs = ss

/-- Things can be read back one after the other if a separator stands before each of them. -/
theorem Reads.flatMap {p : Char → Bool} {good : α → Prop} {text : α → List Char} {separator : Char}
    (hseparator : p separator = true) {as bs : List α} {rs ss : List Char}
    (has : ∀ a ∈ as, Reads p good text a) (hbs : ∀ b ∈ bs, good b)
    (hrs : Ends p rs) (hss : Ends p ss) (hrs' : rs.head? ≠ some separator)
    (hss' : ss.head? ≠ some separator)
    (h : (as.flatMap fun a => separator :: text a) ++ rs =
      (bs.flatMap fun b => separator :: text b) ++ ss) : as = bs ∧ rs = ss := by
  induction as generalizing bs with
  | nil =>
    cases bs with
    | nil => exact ⟨rfl, h⟩
    | cons b bs =>
      subst h
      exact absurd rfl hrs'
  | cons a as ih =>
    cases bs with
    | nil =>
      subst h
      exact absurd rfl hss'
    | cons b bs =>
      simp only [List.flatMap_cons, List.cons_append, List.append_assoc, List.cons.injEq,
        true_and] at h
      -- Behind the first piece there is a separator or the end.
      have hends : ∀ (l : List α) {ts : List Char}, Ends p ts →
          Ends p ((l.flatMap fun a => separator :: text a) ++ ts) := by
        intro l ts hts
        cases l with
        | nil => exact hts
        | cons c l => exact hseparator
      obtain ⟨rfl, hrest⟩ := has a List.mem_cons_self b _ _ (hbs b List.mem_cons_self)
        (hends as hrs) (hends bs hss) h
      obtain ⟨rfl, hlast⟩ := ih (fun c hc => has c (List.mem_cons_of_mem _ hc))
        (fun c hc => hbs c (List.mem_cons_of_mem _ hc)) hrest
      exact ⟨rfl, hlast⟩

/-- A row with a separator between two pieces, behind one more separator. -/
theorem cons_intercalate (separator : Char) {items : List (List Char)} (h : items ≠ []) :
    separator :: [separator].intercalate items = items.flatMap fun item => separator :: item := by
  induction items with
  | nil => exact absurd rfl h
  | cons item rest ih =>
    cases rest with
    | nil => simp [List.intercalate]
    | cons next rest =>
      have hrest := ih (by simp)
      rw [List.flatMap_cons, ← hrest]
      simp [List.intercalate]

end TreeNotation.Text
