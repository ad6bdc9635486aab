import TreeNotation.Proofs.Token.Assignment

/-!
# Steps Replayed with Names in Place

A step of a conversion finds out the names that it writes while it runs. Once all names are known,
another step can write the same without asking for any.

- **Growth**: `Ledger.Within` says that a key that has a name keeps it, and `Grows` that a step only
  ever adds keys;
- **Replay**: `Replays final x y` says that `y` writes, without a look at the books, what `x` writes
  on its way to the books `final`; `Replays.bind` puts steps together, and `replays_inPlace` says
  what the name in the place of a text is.
-/

namespace TreeNotation.Token

variable {κ β γ : Type} [DecidableEq κ]

/-! ## Section 1: Growth -/

/-- Every name in the one books is the name of the same key in the other. -/
def Ledger.Within (ledger final : Ledger κ) : Prop :=
  ∀ key token, ledger.table.get? key = some token → final.table.get? key = some token

theorem Ledger.Within.refl (ledger : Ledger κ) : ledger.Within ledger := fun _ _ h => h

theorem Ledger.Within.trans {first second third : Ledger κ} (h : first.Within second)
    (h' : second.Within third) : first.Within third :=
  fun key token hget => h' key token (h key token hget)

/-- A step that keeps all names that have been given. -/
def Grows (x : Rendering κ β) : Prop := ∀ start, Keeps (Ledger.Within start) x

theorem Grows.within {x : Rendering κ β} (h : Grows x) {ledger after : Ledger κ} {b : β}
    (hrun : x ledger = .ok b after) : ledger.Within after := by
  have hafter := h ledger ledger (.refl ledger)
  unfold Attempt.after at hafter
  rwa [hrun] at hafter

theorem grows_request (key : κ) (text : String) : Grows (Ledger.request key text) := by
  intro start ledger hstart
  rcases Ledger.after_request ledger key text with hsame | ⟨token, -, -, hnew, hafter⟩
  · rw [hsame]
    exact hstart
  · -- The key that is entered had no name before.
    rw [hafter]
    intro other name hother
    have hold := hstart other name hother
    have hne : key ≠ other := by
      rintro rfl
      rw [Substitution.get?, hnew] at hold
      cases hold
    rw [Substitution.get?, OrderedMap.get?_insert, if_neg hne]
    exact hold

theorem grows_pure (b : β) : Grows (pure b : Rendering κ β) := fun _ => keeps_pure b

theorem Grows.bind {x : Rendering κ β} {f : β → Rendering κ γ} (hx : Grows x)
    (hf : ∀ b, Grows (f b)) : Grows (x >>= f) :=
  fun start => keeps_bind (hx start) fun b => hf b start

theorem Grows.map {x : Rendering κ β} (hx : Grows x) (f : β → γ) :
    Grows (do let b ← x; return f b) :=
  hx.bind fun b => grows_pure (f b)

theorem grows_inPlace {literal : κ → String} (plain : β) (write : String → β) (key? : Option κ) :
    Grows (inPlace literal plain write key?) := by
  cases key? with
  | none => exact grows_pure plain
  | some key => exact (grows_request key (literal key)).map write

/-- The name that a request gives is in the books after it. -/
theorem get?_of_request {key : κ} {text token : String} {ledger after : Ledger κ}
    (h : Ledger.request key text ledger = .ok token after) :
    after.table.get? key = some token := by
  cases hget : ledger.table.get? key with
  | some name =>
    rw [Ledger.request_of_get? hget] at h
    cases h
    exact hget
  | none =>
    rw [Ledger.request_of_not_get? hget] at h
    split at h <;> cases h
    rw [Substitution.get?, OrderedMap.get?_insert, if_pos rfl]

/-! ## Section 2: Replay -/

/-- Whenever `x` succeeds and its books grow into `final`, the step `y` gives the same and needs no
books. -/
def Replays (final : Ledger κ) (x y : Rendering κ β) : Prop :=
  ∀ ledger b after, x ledger = .ok b after → after.Within final → y = pure b

variable {final : Ledger κ}

theorem replays_pure (b : β) : Replays final (pure b) (pure b) := by
  intro ledger c after h _
  cases h
  rfl

theorem Replays.bind {x y : Rendering κ β} {f g : β → Rendering κ γ} (hx : Replays final x y)
    (hgrows : ∀ b, Grows (f b)) (hf : ∀ b, y = pure b → Replays final (f b) (g b)) :
    Replays final (x >>= f) (y >>= g) := by
  intro ledger c after h hfinal
  obtain ⟨b, mid, hfirst, hsecond⟩ := bind_eq_ok_iff.mp h
  -- The names that the first step has seen are those of the books at the end.
  have hmid := (hgrows b).within hsecond
  have hy := hx ledger b mid hfirst (hmid.trans hfinal)
  have hg := hf b hy mid c after hsecond hfinal
  rw [hy, pure_bind, hg]

theorem Replays.map {x y : Rendering κ β} (hx : Replays final x y) (f : β → γ) :
    Replays final (do let b ← x; return f b) (do let b ← y; return f b) :=
  hx.bind (fun b => grows_pure (f b)) fun b _ => replays_pure (f b)

/-- After a step that is known to give one thing only, that thing can be counted on. -/
theorem Replays.after {x : Rendering κ β} {b : β} {f : β → Rendering κ γ} {y : Rendering κ γ}
    (hx : Replays final x (pure b)) (hgrows : ∀ b, Grows (f b)) (hf : Replays final (f b) y) :
    Replays final (x >>= f) y := by
  have hboth : Replays final (x >>= f) (pure b >>= fun _ => y) := by
    apply hx.bind hgrows
    intro c hc
    rwa [← pure_injective hc]
  rwa [pure_bind] at hboth

theorem Replays.mapM {ι : Type} {f : ι → Rendering κ γ} {value : ι → γ} (items : List ι)
    (hgrows : ∀ item, Grows (f item)) (hf : ∀ item, Replays final (f item) (pure (value item))) :
    Replays final (items.mapM f) (pure (items.map value)) := by
  induction items with
  | nil => exact replays_pure []
  | cons item items ih =>
    rw [List.mapM_cons, List.map_cons]
    apply (hf item).after
    · intro first
      have hrest : Grows (items.mapM f) := fun start => keeps_mapM fun item _ => hgrows item start
      exact hrest.map _
    · apply ih.after
      · exact fun rest => grows_pure _
      · exact replays_pure _

/-- What is written with the name of a key is known once the books are. -/
theorem replays_inPlace {literal : κ → String} (plain : β) (write : String → β) (key? : Option κ) :
    Replays final (inPlace literal plain write key?)
      (pure ((key?.bind final.table.get?).elim plain write)) := by
  cases key? with
  | none => exact replays_pure plain
  | some key =>
    intro ledger b after h hfinal
    obtain ⟨token, mid, hrequest, hpure⟩ := bind_eq_ok_iff.mp h
    cases hpure
    rw [Option.bind_some, hfinal key token (get?_of_request hrequest)]
    rfl

/-- A name that is written like the text in whose place it stands is read in its place. -/
theorem replays_inPlace_getD {literal : κ → String} (text : String) (write : String → β)
    (key? : Option κ) :
    Replays final (inPlace literal (write text) write key?)
      (pure (write ((key?.bind final.table.get?).getD text))) := by
  have hvalue : (key?.bind final.table.get?).elim (write text) write =
      write ((key?.bind final.table.get?).getD text) := by
    cases key?.bind final.table.get? <;> rfl
  rw [← hvalue]
  exact replays_inPlace (write text) write key?

end TreeNotation.Token
