import Mathlib.Data.List.Nodup
import TreeNotation.Proofs.Token.Books

/-!
# Names in the Order of Requests

Which name a key gets can be said without a supply: keys come one after the other, a key that comes
again keeps its name, and a new one gets the first name of the vocabulary that no other key has and
that is not the text in whose place it is written.

- **Assignment**: `assign`, that run over a list of keys, and `listing`, what it says of one category
  of keys;
- **Steps**: `Demands` says that a step of a conversion does to the books what some requests do, with
  failures in the place of some of them, and `Asks` that there are requests only; `demands_bind` and
  `asks_bind` put steps together;
- **Agreement**: `map_entries_of_asks`; a step that asks for some keys fills empty books with their
  assignment, or fails as it does.
-/

namespace TreeNotation.Token

variable {κ β γ : Type}

/-! ## Section 1: Assignment -/

section Assignment

variable [DecidableEq κ]

/-- The names of some keys and of one more, which gets the first name that none of them has and
that is not its own text. -/
def enter (names : List String) (literal : κ → String) (book : List (κ × String)) (key : κ) :
    Except Error (List (κ × String)) :=
  if key ∈ book.map Prod.fst then .ok book
  else match names.find? fun name => name ∉ book.map Prod.snd && name ≠ literal key with
    | some name => .ok (book ++ [(key, name)])
    | none => .error (.exhausted book.length)

/-- The names that keys get if they come in the order of the list. -/
def assign (names : List String) (literal : κ → String) (keys : List κ) :
    Except Error (List (κ × String)) :=
  keys.foldlM (enter names literal) []

end Assignment

/-- The names of the keys of one category, each with the text that it stands for. -/
def listing {ν : Type} (category : κ → Option ν) (book : List (κ × String)) : List (String × ν) :=
  book.filterMap fun entry => (category entry.1).map fun text => (entry.2, text)

/-! ## Section 2: What a step asks for -/

/-- The ledger after a step, unless it fails. -/
def books (x : Rendering κ β) (ledger : Ledger κ) : Except Error (Ledger κ) :=
  match x ledger with
  | .ok _ after => .ok after
  | .error e _ => .error e

section Asking

variable [DecidableEq κ]

/-- The ledger after a request for a key, or the failure that stands in the place of one. -/
def meet (literal : κ → String) (ledger : Ledger κ) : Except Error κ → Except Error (Ledger κ)
  | .ok key => books (Ledger.request key (literal key)) ledger
  | .error e => .error e

/-- The step does to the books what a list of requests does, and fails at the first of them that
fails or has a failure in its place. -/
def Demands (literal : κ → String) (x : Rendering κ β) (demands : List (Except Error κ)) : Prop :=
  ∀ ledger, books x ledger = demands.foldlM (meet literal) ledger

/-- The ledger after requests for keys one after the other. -/
def granted (literal : κ → String) (keys : List κ) (ledger : Ledger κ) :
    Except Error (Ledger κ) :=
  keys.foldlM (fun ledger key => books (Ledger.request key (literal key)) ledger) ledger

/-- The step does to the books what requests for `keys` do, and fails if they do. -/
def Asks (literal : κ → String) (x : Rendering κ β) (keys : List κ) : Prop :=
  ∀ ledger, books x ledger = granted literal keys ledger

variable {literal : κ → String}

theorem foldlM_meet_map_ok (keys : List κ) (ledger : Ledger κ) :
    (keys.map Except.ok).foldlM (meet literal) ledger = granted literal keys ledger := by
  rw [List.foldlM_map]
  rfl

/-- A step that asks for keys demands these and nothing else. -/
theorem demands_map_ok_iff {x : Rendering κ β} {keys : List κ} :
    Demands literal x (keys.map .ok) ↔ Asks literal x keys := by
  simp only [Demands, Asks, foldlM_meet_map_ok]

theorem demands_pure (b : β) : Demands literal (pure b) [] := fun _ => rfl

theorem demands_throw (e : Error) : Demands literal (throw e : Rendering κ β) [.error e] :=
  fun _ => rfl

theorem demands_bind {x : Rendering κ β} {f : β → Rendering κ γ}
    {demands demands' : List (Except Error κ)} (hx : Demands literal x demands)
    (hf : ∀ ledger b after, x ledger = .ok b after → Demands literal (f b) demands') :
    Demands literal (x >>= f) (demands ++ demands') := by
  intro ledger
  have hfirst := hx ledger
  unfold books at hfirst ⊢
  rw [List.foldlM_append, ← hfirst]
  simp only [bind, EStateM.bind]
  -- After a failure of the first step nothing more is demanded.
  cases hrun : x ledger with
  | ok b after => exact hf ledger b after hrun after
  | error e after => rfl

theorem demands_map {x : Rendering κ β} {f : β → γ} {demands : List (Except Error κ)}
    (hx : Demands literal x demands) : Demands literal (do let b ← x; return f b) demands := by
  have h := demands_bind hx fun _ b _ _ => demands_pure (f b)
  rwa [List.append_nil] at h

theorem asks_pure (b : β) : Asks literal (pure b) [] := fun _ => rfl

theorem asks_request (key : κ) : Asks literal (Ledger.request key (literal key)) [key] := by
  intro ledger
  unfold granted
  rw [List.foldlM_cons]
  cases books (Ledger.request key (literal key)) ledger <;> rfl

theorem asks_bind {x : Rendering κ β} {f : β → Rendering κ γ} {keys keys' : List κ}
    (hx : Asks literal x keys)
    (hf : ∀ ledger b after, x ledger = .ok b after → Asks literal (f b) keys') :
    Asks literal (x >>= f) (keys ++ keys') := by
  rw [← demands_map_ok_iff] at hx ⊢
  rw [List.map_append]
  apply demands_bind hx
  intro ledger b after hrun
  exact demands_map_ok_iff.mpr (hf ledger b after hrun)

theorem asks_map {x : Rendering κ β} {f : β → γ} {keys : List κ} (hx : Asks literal x keys) :
    Asks literal (do let b ← x; return f b) keys := by
  have h := asks_bind hx fun _ b _ _ => asks_pure (f b)
  rwa [List.append_nil] at h

theorem asks_mapM {f : β → Rendering κ γ} {keysOf : β → List κ}
    (hf : ∀ b, Asks literal (f b) (keysOf b)) (items : List β) :
    Asks literal (items.mapM f) (items.flatMap keysOf) := by
  induction items with
  | nil => exact asks_pure []
  | cons item items ih =>
    rw [List.mapM_cons, List.flatMap_cons]
    apply asks_bind (hf item)
    intro _ first _ _
    exact asks_map ih

/-- Writes the name that stands in for a key, or something plain if there is no key. -/
def inPlace (literal : κ → String) (plain : β) (write : String → β) : Option κ → Rendering κ β
  | some key => do
    let token ← Ledger.request key (literal key)
    return write token
  | none => pure plain

/-- What is true of the request for the key, if there is one, is true of writing its name. -/
theorem closed_inPlace {C : ∀ {β : Type}, Rendering κ β → Prop} (hC : Closed C) {key? : Option κ}
    (h : ∀ key, key? = some key → C (Ledger.request key (literal key))) (plain : β)
    (write : String → β) : C (inPlace literal plain write key?) := by
  cases key? with
  | none => exact hC.pure plain
  | some key => exact hC.bind (h key rfl) fun token => hC.pure (write token)

theorem asks_inPlace (plain : β) (write : String → β) (key? : Option κ) :
    Asks literal (inPlace literal plain write key?) key?.toList := by
  cases key? with
  | none => exact asks_pure plain
  | some key => exact asks_map (asks_request key)

end Asking

/-! ## Section 3: Supplies and vocabularies -/

theorem find?_foldl_insert (names : List String) (s : OrderedSet String)
    (allowed : String → Bool) :
    (names.foldl OrderedSet.insert s).toList.find? allowed =
      (s.toList ++ names).find? allowed := by
  induction names generalizing s with
  | nil => rw [List.foldl_nil, List.append_nil]
  | cons name names ih =>
    rw [List.foldl_cons, ih, List.find?_append, List.find?_append]
    by_cases hmem : name ∈ s
    · -- A name that comes again is found at its first position, if anywhere.
      rw [OrderedSet.insert_of_mem hmem, List.find?_cons]
      cases hfound : s.toList.find? allowed with
      | some found => rfl
      | none =>
        have hrefused := List.find?_eq_none.mp hfound name hmem
        simp only [hrefused, Option.none_or]
    · rw [OrderedSet.toList_insert_of_not_mem hmem, List.find?_append, List.find?_cons,
        List.find?_cons]
      cases s.toList.find? allowed <;> cases allowed name <;> simp

/-- Names that are put into a set come after those that are there, each at its first position. -/
theorem toList_foldl_insert (names : List String) (s : OrderedSet String) :
    (names.foldl OrderedSet.insert s).toList =
      s.toList ++ (names.filter fun name => name ∉ s).eraseDups := by
  induction names generalizing s with
  | nil => simp
  | cons name names ih =>
    rw [List.foldl_cons, ih]
    by_cases hmem : name ∈ s
    · simp [OrderedSet.insert_of_mem hmem, hmem]
    · -- A new name comes after those that are there, and where it comes again it is left out.
      have hkept : (names.filter fun other => other ∉ s.insert name) =
          (names.filter fun other => other ∉ s).filter fun other => !(other == name) := by
        rw [List.filter_filter]
        refine List.filter_congr fun other _ => ?_
        by_cases hother : other = name <;> simp [hother]
      rw [hkept, OrderedSet.toList_insert_of_not_mem hmem, List.filter_cons,
        if_pos (decide_eq_true hmem), List.eraseDups_cons, List.append_assoc]
      rfl

theorem exists_toList_foldl_insert (names : List String) (s : OrderedSet String) :
    ∃ rest, (names.foldl OrderedSet.insert s).toList = s.toList ++ rest :=
  ⟨_, toList_foldl_insert names s⟩

theorem toList_foldl_insert_of_nodup {names : List String} {s : OrderedSet String}
    (h : (s.toList ++ names).Nodup) :
    (names.foldl OrderedSet.insert s).toList = s.toList ++ names := by
  induction names generalizing s with
  | nil => rw [List.foldl_nil, List.append_nil]
  | cons name names ih =>
    have hnew : name ∉ s := fun hmem =>
      (List.nodup_append.mp h).2.2 name hmem name List.mem_cons_self rfl
    have htoList := OrderedSet.toList_insert_of_not_mem hnew
    have hsplit : s.toList ++ name :: names = (s.insert name).toList ++ names := by
      rw [htoList, List.append_assoc, List.singleton_append]
    rw [List.foldl_cons, hsplit]
    exact ih (hsplit ▸ h)

/-- The names that a vocabulary begins with, if all are different, are those handed out first. -/
theorem Supply.ofVocabulary_append {first : List String} (hfirst : first.Nodup)
    (names : List String) :
    ∃ rest nodup, Supply.ofVocabulary (first ++ names) = ⟨⟨first ++ rest, nodup⟩, 0⟩ := by
  have hbegin : (first.foldl OrderedSet.insert OrderedSet.empty).toList = first :=
    toList_foldl_insert_of_nodup hfirst
  obtain ⟨rest, hrest⟩ :=
    exists_toList_foldl_insert names (first.foldl OrderedSet.insert OrderedSet.empty)
  rw [← List.foldl_append, hbegin] at hrest
  have hnodup : (first ++ rest).Nodup := hrest ▸ (OrderedSet.ofList (first ++ names)).nodup
  have havailable : OrderedSet.ofList (first ++ names) = ⟨first ++ rest, hnodup⟩ :=
    OrderedSet.ext_toList hrest
  exact ⟨rest, hnodup, by rw [Supply.ofVocabulary, havailable]⟩

/-- The first name of a vocabulary is the first name that is handed out. -/
theorem Supply.ofVocabulary_cons (first : String) (names : List String) :
    ∃ rest nodup, Supply.ofVocabulary (first :: names) = ⟨⟨first :: rest, nodup⟩, 0⟩ :=
  Supply.ofVocabulary_append (List.nodup_singleton first) names

/-- The first names of the standard vocabulary are the first ones that are handed out. -/
theorem Supply.standard_eq_cons_cons :
    ∃ rest nodup, Supply.standard = ⟨⟨"James" :: "Mary" :: rest, nodup⟩, 0⟩ := by
  have hvocabulary : vocabulary = ["James", "Mary"] ++ vocabulary.drop 2 := rfl
  have hnodup : ["James", "Mary"].Nodup := by decide
  unfold Supply.standard
  rw [hvocabulary]
  exact Supply.ofVocabulary_append hnodup (vocabulary.drop 2)

theorem Supply.standard_eq_cons :
    ∃ rest nodup, Supply.standard = ⟨⟨"James" :: rest, nodup⟩, 0⟩ := by
  obtain ⟨rest, nodup, hstandard⟩ := Supply.standard_eq_cons_cons
  exact ⟨"Mary" :: rest, nodup, hstandard⟩

namespace Ledger

/-- The books hold the names `book`, and the names that are left are those of the vocabulary that
are not in it. -/
structure Agrees (names : List String) (ledger : Ledger κ) (book : List (κ × String)) : Prop where
  entries_eq : ledger.table.tokens.entries = book
  find?_eq : ∀ allowed : String → Bool, ledger.supply.available.toList.find? allowed =
    names.find? fun name => name ∉ book.map Prod.snd && allowed name
  issued_eq : ledger.supply.issued = book.length

theorem Agrees.ofVocabulary (names : List String) :
    Agrees names (ofSupply (.ofVocabulary names) : Ledger κ) [] where
  entries_eq := rfl
  find?_eq allowed := by
    have hfind := find?_foldl_insert names OrderedSet.empty allowed
    simpa [ofSupply, Supply.ofVocabulary, OrderedSet.ofList, OrderedSet.empty] using hfind
  issued_eq := rfl

variable [DecidableEq κ] {names : List String} {ledger : Ledger κ} {book : List (κ × String)}

/-- A name that is handed out is no longer among those that are left. -/
theorem Agrees.enter (h : Agrees names ledger book) {key : κ} {name : String}
    (hnew : ledger.table.tokens.get? key = none) :
    Agrees names (⟨⟨ledger.supply.available.erase name, ledger.supply.issued + 1⟩,
      ⟨ledger.table.tokens.insert key name⟩⟩ : Ledger κ) (book ++ [(key, name)]) where
  entries_eq := by
    rw [OrderedMap.entries_insert_of_not_mem (OrderedMap.get?_eq_none_iff.mp hnew), h.entries_eq]
  find?_eq allowed := by
    rw [OrderedSet.toList_erase, ledger.supply.available.nodup.erase_eq_filter,
      List.find?_filter, h.find?_eq]
    congr 1
    funext other
    have hmem : other ∈ (book ++ [(key, name)]).map Prod.snd ↔
        other ∈ book.map Prod.snd ∨ other = name := by
      rw [List.map_append, List.mem_append, List.map_singleton, List.mem_singleton]
    simp only [hmem]
    by_cases hother : other = name <;> simp [hother]
  issued_eq := by rw [List.length_append, h.issued_eq]; rfl

/-- A request enters a key as an assignment does. -/
theorem Agrees.request (h : Agrees names ledger book) (literal : κ → String) (key : κ) :
    match Token.enter names literal book key with
    | .ok book' => ∃ after, books (Ledger.request key (literal key)) ledger = .ok after ∧
        Agrees names after book'
    | .error e => books (Ledger.request key (literal key)) ledger = .error e := by
  have hkeys : book.map Prod.fst = ledger.table.tokens.keys := by rw [← h.entries_eq]; rfl
  unfold Token.enter books
  cases hget : ledger.table.get? key with
  | some token =>
    have hmem : key ∈ ledger.table.tokens.keys := by
      by_contra hnot
      rw [Substitution.get?, OrderedMap.get?_eq_none_iff.mpr hnot] at hget
      cases hget
    rw [hkeys, if_pos hmem, request_of_get? hget]
    exact ⟨ledger, rfl, h⟩
  | none =>
    have hnot := OrderedMap.get?_eq_none_iff.mp hget
    rw [hkeys, if_neg hnot, request_of_not_get? hget, h.find?_eq]
    -- Both look for the same name.
    cases names.find? fun name => name ∉ book.map Prod.snd && name ≠ literal key with
    | some name => exact ⟨_, rfl, h.enter hget⟩
    | none => rw [h.issued_eq]

/-- Requests one after the other come to what the assignment of their keys says. -/
theorem Agrees.granted (h : Agrees names ledger book) (literal : κ → String) (keys : List κ) :
    (Token.granted literal keys ledger).map (fun after => after.table.tokens.entries) =
      keys.foldlM (Token.enter names literal) book := by
  -- The induction is on the keys, and the books agree before each of them.
  induction keys generalizing ledger book with
  | nil => exact congrArg Except.ok h.entries_eq
  | cons key keys ih =>
    have hstep := h.request literal key
    unfold Token.granted
    rw [List.foldlM_cons, List.foldlM_cons]
    cases henter : Token.enter names literal book key with
    | ok book' =>
      rw [henter] at hstep
      obtain ⟨after, hafter, hagrees⟩ := hstep
      rw [hafter]
      exact ih hagrees
    | error e =>
      rw [henter] at hstep
      rw [hstep]
      rfl

end Ledger

/-- A step that asks for some keys fills empty books with the assignment of these keys, or fails as
the assignment does. -/
theorem map_entries_of_asks [DecidableEq κ] {literal : κ → String} {x : Rendering κ β}
    {keys : List κ} (h : Asks literal x keys) (names : List String) :
    (books x (Ledger.ofSupply (.ofVocabulary names))).map
        (fun after => after.table.tokens.entries) =
      assign names literal keys := by
  rw [h]
  exact (Ledger.Agrees.ofVocabulary names).granted literal keys

end TreeNotation.Token
