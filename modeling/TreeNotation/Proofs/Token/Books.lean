import Mathlib.Algebra.GroupWithZero.Nat
import Mathlib.Data.List.Nodup
import TreeNotation.Token.Ledger

/-!
# Sound Books

What stays true of a ledger whatever is requested from it, and what the tables that are read off it
say.

- **Invariant**: `Ledger.Sound`, kept by every request (`Ledger.Sound.request`);
- **Steps**: `Keeps` says that a step of a conversion keeps a property of the ledger, also when it
  fails half-way; `Closed` says what it takes to prove such a thing of all steps;
- **Tables**: `Ledger.Sound.faithful`, what the table of one category of keys promises.
-/

namespace TreeNotation.Token

/-! ## Section 1: What a step keeps -/

section Keeping

variable {κ β γ : Type}

/-- A step after which `P` is true of the ledger if it was true before, also if the step fails. -/
def Keeps (P : Ledger κ → Prop) (x : Rendering κ β) : Prop :=
  ∀ ledger, P ledger → P (x.after ledger)

theorem bind_eq_ok_iff {x : Rendering κ β} {f : β → Rendering κ γ} {ledger after : Ledger κ}
    {c : γ} :
    (x >>= f) ledger = .ok c after ↔ ∃ b mid, x ledger = .ok b mid ∧ f b mid = .ok c after := by
  simp only [bind, EStateM.bind]
  cases x ledger <;> simp

theorem pure_injective {b c : β} (h : (pure b : Rendering κ β) = pure c) : b = c := by
  have hrun := congrFun h default
  cases hrun
  rfl

variable {P : Ledger κ → Prop}

theorem keeps_pure (b : β) : Keeps P (pure b : Rendering κ β) := fun _ h => h

theorem keeps_throw (e : Error) : Keeps P (throw e : Rendering κ β) := fun _ h => h

theorem keeps_bind {x : Rendering κ β} {f : β → Rendering κ γ} (hx : Keeps P x)
    (hf : ∀ b, Keeps P (f b)) : Keeps P (x >>= f) := by
  intro ledger h
  have hafter := hx ledger h
  unfold Attempt.after at hafter ⊢
  simp only [bind, EStateM.bind]
  -- After a failure of the first step the second one is not made.
  cases hrun : x ledger with
  | ok b after =>
    rw [hrun] at hafter
    exact hf b after hafter
  | error e after =>
    rw [hrun] at hafter
    exact hafter

/-- A property that a step has if it is put together from steps that have it. -/
structure Closed (C : ∀ {β : Type}, Rendering κ β → Prop) : Prop where
  pure : ∀ {β : Type} (b : β), C (pure b : Rendering κ β)
  throw : ∀ {β : Type} (e : Error), C (throw e : Rendering κ β)
  bind : ∀ {β γ : Type} {x : Rendering κ β} {f : β → Rendering κ γ},
    C x → (∀ b, C (f b)) → C (x >>= f)

theorem Closed.mapM {C : ∀ {β : Type}, Rendering κ β → Prop} (hC : Closed C)
    {f : β → Rendering κ γ} {items : List β} (hf : ∀ b ∈ items, C (f b)) :
    C (items.mapM f) := by
  induction items with
  | nil => exact hC.pure []
  | cons item items ih =>
    rw [List.mapM_cons]
    apply hC.bind (hf item List.mem_cons_self)
    intro first
    apply hC.bind (ih fun b hb => hf b (List.mem_cons_of_mem _ hb))
    intro rest
    exact hC.pure _

theorem closed_keeps (P : Ledger κ → Prop) : Closed (Keeps P) :=
  ⟨keeps_pure, keeps_throw, keeps_bind⟩

theorem keeps_mapM {f : β → Rendering κ γ} {items : List β} (hf : ∀ b ∈ items, Keeps P (f b)) :
    Keeps P (items.mapM f) :=
  (closed_keeps P).mapM hf

end Keeping

/-! ## Section 2: Sound books -/

namespace Ledger

variable {κ : Type}

/-- The names in the books come from the vocabulary `names`, no two keys have the same one, none of
them is still available, and none is the text in whose place it is written. -/
structure Sound (names : List String) (literal : κ → String) (ledger : Ledger κ) : Prop where
  nodup_tokens : (ledger.table.tokens.entries.map Prod.snd).Nodup
  mem_names : ∀ entry ∈ ledger.table.tokens.entries, entry.2 ∈ names
  ne_literal : ∀ entry ∈ ledger.table.tokens.entries, entry.2 ≠ literal entry.1
  not_available : ∀ entry ∈ ledger.table.tokens.entries, entry.2 ∉ ledger.supply.available
  available_names : ∀ name ∈ ledger.supply.available, name ∈ names
  issued_eq : ledger.supply.issued = ledger.table.size

theorem Sound.ofVocabulary (names : List String) (literal : κ → String) :
    (ofSupply (.ofVocabulary names) : Ledger κ).Sound names literal where
  nodup_tokens := List.nodup_nil
  mem_names _ h := absurd h List.not_mem_nil
  ne_literal _ h := absurd h List.not_mem_nil
  not_available _ h := absurd h List.not_mem_nil
  available_names _ h := OrderedSet.mem_ofList.mp h
  issued_eq := rfl

/-- The books have names for no keys but those that satisfy `p`. -/
def HoldsOnly (p : κ → Bool) (ledger : Ledger κ) : Prop :=
  ∀ entry ∈ ledger.table.tokens.entries, p entry.1 = true

theorem holdsOnly_ofSupply (p : κ → Bool) (a : Supply) : (ofSupply a : Ledger κ).HoldsOnly p :=
  fun _ hentry => absurd hentry List.not_mem_nil

variable {names : List String} {literal : κ → String}

section Requests

variable [DecidableEq κ]

theorem Sound.mem_of_get? {ledger : Ledger κ} (hs : ledger.Sound names literal) {key : κ}
    {token : String} (h : ledger.table.get? key = some token) : token ∈ names :=
  hs.mem_names (key, token) (OrderedMap.get?_eq_some_iff.mp h)

/-- What a request does to the books: nothing, or it enters a new key under a drawn name. -/
theorem after_request (ledger : Ledger κ) (key : κ) (text : String) :
    (request key text).after ledger = ledger ∨
      ∃ token, token ∈ ledger.supply.available ∧ token ≠ text ∧
        ledger.table.tokens.get? key = none ∧
        (request key text).after ledger =
          ⟨⟨ledger.supply.available.erase token, ledger.supply.issued + 1⟩,
            ⟨ledger.table.tokens.insert key token⟩⟩ := by
  cases hget : ledger.table.get? key with
  | some token =>
    -- A key that has a name keeps it.
    left
    rw [Attempt.after, request_of_get? hget]
  | none =>
    rw [Attempt.after, request_of_not_get? hget]
    cases hfind : ledger.supply.available.toList.find? fun name => name ≠ text with
    | none => exact .inl rfl
    | some token =>
      have hallowed := List.find?_some hfind
      exact .inr ⟨token, List.mem_of_find?_eq_some hfind, by simpa using hallowed, hget, rfl⟩

/-- Drawing a name for a new key keeps the books sound. -/
theorem Sound.enter {ledger : Ledger κ} (hs : ledger.Sound names literal) {key : κ}
    {token : String} (havailable : token ∈ ledger.supply.available) (hne : token ≠ literal key)
    (hnew : ledger.table.tokens.get? key = none) :
    Sound names literal (⟨⟨ledger.supply.available.erase token, ledger.supply.issued + 1⟩,
      ⟨ledger.table.tokens.insert key token⟩⟩ : Ledger κ) := by
  have hkey := OrderedMap.get?_eq_none_iff.mp hnew
  have hentries := OrderedMap.entries_insert_of_not_mem hkey token
  -- The entries are the old ones and the new one.
  have hcases : ∀ entry ∈ (ledger.table.tokens.insert key token).entries,
      entry ∈ ledger.table.tokens.entries ∨ entry = (key, token) := by
    intro entry hentry
    rw [hentries, List.mem_append, List.mem_singleton] at hentry
    exact hentry
  have herase : ∀ name, name ∈ ledger.supply.available.erase token ↔
      name ≠ token ∧ name ∈ ledger.supply.available := by
    intro name
    rw [OrderedSet.mem_def, OrderedSet.toList_erase, ledger.supply.available.nodup.mem_erase_iff]
    rfl
  refine ⟨?_, ?_, ?_, ?_, ?_, ?_⟩
  · -- The new name was available, and no name in the books is.
    rw [hentries, List.map_append, List.map_singleton]
    apply List.nodup_append.mpr
    refine ⟨hs.nodup_tokens, by simp, ?_⟩
    rintro name hname other hother rfl
    obtain ⟨entry, hentry, rfl⟩ := List.mem_map.mp hname
    exact hs.not_available entry hentry (List.mem_singleton.mp hother ▸ havailable)
  · intro entry hentry
    rcases hcases entry hentry with hold | rfl
    · exact hs.mem_names entry hold
    · exact hs.available_names token havailable
  · intro entry hentry
    rcases hcases entry hentry with hold | rfl
    · exact hs.ne_literal entry hold
    · exact hne
  · -- The new name is taken out of those available.
    intro entry hentry hmem
    obtain ⟨hdiffer, hmem⟩ := (herase entry.2).mp hmem
    rcases hcases entry hentry with hold | rfl
    · exact hs.not_available entry hold hmem
    · exact hdiffer rfl
  · intro name hname
    exact hs.available_names name ((herase name).mp hname).2
  · show ledger.supply.issued + 1 = (ledger.table.tokens.insert key token).entries.length
    rw [hentries, List.length_append, hs.issued_eq]
    rfl

/-- A request keeps the books sound, whether it fails or not. -/
theorem keeps_sound_request (key : κ) :
    Keeps (Sound names literal) (request key (literal key)) := by
  intro ledger hs
  rcases after_request ledger key (literal key) with hsame | ⟨token, hav, hne, hnew, hafter⟩
  · rw [hsame]; exact hs
  · rw [hafter]; exact hs.enter hav hne hnew

/-- A request enters its own key and no other one. -/
theorem keeps_holdsOnly_request {p : κ → Bool} {key : κ} (hkey : p key = true) (text : String) :
    Keeps (HoldsOnly p) (request key text) := by
  intro ledger hp
  rcases after_request ledger key text with hsame | ⟨token, -, -, hnew, hafter⟩
  · rw [hsame]; exact hp
  · rw [hafter]
    intro entry hentry
    rw [OrderedMap.entries_insert_of_not_mem (OrderedMap.get?_eq_none_iff.mp hnew),
      List.mem_append, List.mem_singleton] at hentry
    rcases hentry with hold | rfl
    · exact hp entry hold
    · exact hkey

end Requests

/-! ## Section 3: Tables -/

/-- What the table of one category of keys promises. `literal` is the text in whose place a name is
written, and `forward` says which name an original has been given. -/
structure Faithful {ν : Type} (names : List String) (literal : ν → String)
    (forward : ν → Option String) (table : OrderedMap String ν) : Prop where
  mem_names : ∀ token ∈ table.keys, token ∈ names
  nodup_originals : (table.entries.map Prod.snd).Nodup
  ne_literal : ∀ entry ∈ table.entries, entry.1 ≠ literal entry.2
  /-- Turning the forward map round neither loses an entry nor makes one up. -/
  get?_iff : ∀ token original, table.get? token = some original ↔ forward original = some token

/-- Names that stand in for one key each are the keys of the map that is turned round. -/
theorem Sound.entries_reversed {ledger : Ledger κ} (hs : ledger.Sound names literal) :
    ledger.table.reversed.entries = ledger.table.tokens.entries.map Prod.swap := by
  apply OrderedMap.entries_ofList
  rw [List.map_map]
  exact hs.nodup_tokens

theorem Sound.size_reversed {ledger : Ledger κ} (hs : ledger.Sound names literal) :
    ledger.table.reversed.size = ledger.table.size := by
  rw [OrderedMap.size, hs.entries_reversed, List.length_map]
  rfl

/-- The entries of one category, each turned round. -/
theorem Sound.entries_dictionary {ledger : Ledger κ} (hs : ledger.Sound names literal) {ν : Type}
    (category : κ → Option ν) :
    (ledger.dictionary category).entries =
      ledger.table.tokens.entries.filterMap fun entry =>
        (category entry.1).map fun text => (entry.2, text) := by
  unfold dictionary
  rw [hs.entries_reversed, List.filterMap_map]
  apply OrderedMap.entries_ofList
  -- The names of one category are some of all names.
  have hkeys : ∀ l : List (κ × String),
      ((l.filterMap fun entry => (category entry.1).map fun text => (entry.2, text)).map
        Prod.fst).Sublist (l.map Prod.snd) := by
    intro l
    induction l with
    | nil => exact List.Sublist.refl _
    | cons entry l ih =>
      cases hcat : category entry.1 with
      | none => simpa [hcat] using ih.trans (List.sublist_cons_self _ _)
      | some text => simpa [hcat] using ih
  exact (hkeys _).nodup hs.nodup_tokens

theorem Sound.mem_dictionary_iff {ledger : Ledger κ} (hs : ledger.Sound names literal) {ν : Type}
    {category : κ → Option ν} {entry : String × ν} :
    entry ∈ (ledger.dictionary category).entries ↔
      ∃ key, (key, entry.1) ∈ ledger.table.tokens.entries ∧ category key = some entry.2 := by
  obtain ⟨token, original⟩ := entry
  rw [hs.entries_dictionary, List.mem_filterMap]
  constructor
  · intro h
    obtain ⟨⟨key, name⟩, hmem, hcat⟩ := h
    obtain ⟨text, htext, heq⟩ := Option.map_eq_some_iff.mp hcat
    cases heq
    exact ⟨key, hmem, htext⟩
  · intro h
    obtain ⟨key, hmem, hcat⟩ := h
    exact ⟨(key, token), hmem, by simp [hcat]⟩

/-- A category whose originals are told apart by their keys has a faithful table. -/
theorem Sound.faithful [DecidableEq κ] {ledger : Ledger κ} (hs : ledger.Sound names literal)
    {ν : Type} {category : κ → Option ν} (slot : ν → κ)
    (hslot : ∀ key original, category key = some original ↔ key = slot original) :
    Faithful names (fun original => literal (slot original))
      (fun original => ledger.table.get? (slot original)) (ledger.dictionary category) := by
  -- An original has one key, so its entry in the table is the one of that key in the books.
  have hmem : ∀ token original, (token, original) ∈ (ledger.dictionary category).entries ↔
      (slot original, token) ∈ ledger.table.tokens.entries := by
    intro token original
    rw [hs.mem_dictionary_iff]
    constructor
    · intro h
      obtain ⟨key, hkey, hcat⟩ := h
      rwa [(hslot key original).mp hcat] at hkey
    · intro h
      exact ⟨slot original, h, (hslot _ _).mpr rfl⟩
  refine ⟨?_, ?_, ?_, ?_⟩
  · intro token htoken
    obtain ⟨⟨name, original⟩, hentry, rfl⟩ := List.mem_map.mp htoken
    exact hs.mem_names (slot original, name) ((hmem name original).mp hentry)
  · -- The keys of the originals are different ones, hence so are the originals.
    have hkeys : ((ledger.dictionary category).entries.map fun entry => slot entry.2).Sublist
        (ledger.table.tokens.entries.map Prod.fst) := by
      rw [hs.entries_dictionary]
      induction ledger.table.tokens.entries with
      | nil => exact List.Sublist.refl _
      | cons entry l ih =>
        cases hcat : category entry.1 with
        | none => simpa [hcat] using ih.trans (List.sublist_cons_self _ _)
        | some text =>
          have := (hslot entry.1 text).mp hcat
          simpa [hcat, ← this] using ih
    have hnodup := hkeys.nodup ledger.table.tokens.nodup_keys
    rw [← Function.comp_def slot Prod.snd, ← List.map_map] at hnodup
    exact List.Nodup.of_map slot hnodup
  · rintro ⟨token, original⟩ hentry
    exact hs.ne_literal (slot original, token) ((hmem token original).mp hentry)
  · intro token original
    rw [OrderedMap.get?_eq_some_iff, hmem, Substitution.get?, OrderedMap.get?_eq_some_iff]

/-- A name of one category is no name of another. -/
theorem Sound.not_mem_keys_of_disjoint {ledger : Ledger κ} (hs : ledger.Sound names literal)
    {ν μ : Type} {category : κ → Option ν} {other : κ → Option μ}
    (hdisjoint : ∀ key, (category key).isSome → other key = none) {token : String}
    (htoken : token ∈ (ledger.dictionary category).keys) :
    token ∉ (ledger.dictionary other).keys := by
  intro hother
  obtain ⟨first, hfirst, rfl⟩ := List.mem_map.mp htoken
  obtain ⟨second, hsecond, heq⟩ := List.mem_map.mp hother
  obtain ⟨key, hkey, hcat⟩ := hs.mem_dictionary_iff.mp hfirst
  obtain ⟨key', hkey', hcat'⟩ := hs.mem_dictionary_iff.mp hsecond
  -- Both entries have the same name, so they are one entry.
  have hsame : (key', second.1) = (key, first.1) :=
    List.inj_on_of_nodup_map hs.nodup_tokens hkey' hkey heq
  rw [(Prod.mk.inj hsame).1, hdisjoint key (by rw [hcat]; rfl)] at hcat'
  cases hcat'

theorem Sound.size_dictionary {ledger : Ledger κ} (hs : ledger.Sound names literal) {ν : Type}
    (category : κ → Option ν) :
    (ledger.dictionary category).size =
      ledger.table.tokens.entries.countP fun entry => (category entry.1).isSome := by
  rw [OrderedMap.size, hs.entries_dictionary]
  induction ledger.table.tokens.entries with
  | nil => rfl
  | cons entry l ih => cases hcat : category entry.1 <;> simp [hcat, ih]

/-- The entries of all categories together are all entries, if every key has just one category. -/
theorem sum_countP_eq_size (ledger : Ledger κ) (tests : List (κ → Bool))
    (hone : ∀ key, tests.countP (fun test => test key) = 1) :
    (tests.map fun test => ledger.table.tokens.entries.countP fun entry => test entry.1).sum =
      ledger.table.size := by
  unfold Substitution.size OrderedMap.size
  induction ledger.table.tokens.entries with
  | nil => simp
  | cons entry l ih =>
    -- One more entry is counted by as many tests as its key passes, and that is one.
    have hstep : ∀ tests : List (κ → Bool),
        (tests.map fun test => (entry :: l).countP fun entry => test entry.1).sum =
          (tests.map fun test => l.countP fun entry => test entry.1).sum +
            tests.countP fun test => test entry.1 := by
      intro tests
      induction tests with
      | nil => rfl
      | cons test tests ih =>
        simp only [List.map_cons, List.sum_cons, List.countP_cons] at ih ⊢
        omega
    rw [hstep, ih, hone, List.length_cons]

end Ledger

end TreeNotation.Token
