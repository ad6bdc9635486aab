import Mathlib.Data.Finset.Card
import Mathlib.Data.Finset.Dedup
import Mathlib.Logic.Function.Basic
import TreeNotation.Proofs.Token.Assignment

/-!
# Registries

One supply serves any number of substitutions, whose keys may be of different kinds, and it hands
out names beside them. Requests come in any order and some of them fail.

- **Requests**: `Registry.serving`, with `answer` and `perform` for what it comes to; `serving_eq` says
  in one equation what becomes of a request, and `clean_serving` that one that fails changes nothing;
- **Steps**: `Served`, what one request does to the supply and to the substitutions;
- **Runs**: `performAll` and `drawnAll`; `available_performAll` says which names are left and in
  which order, and `requests_served_in_order` puts runs and steps together.
-/

namespace TreeNotation.Token

/-! ## Section 1: The names of a vocabulary -/

/-- A supply begins with the names of its vocabulary, each at its first position. -/
theorem Supply.toList_ofVocabulary (names : List String) :
    (Supply.ofVocabulary names).available.toList = names.eraseDups := by
  have hempty : (names.filter fun name => name ∉ (OrderedSet.empty : OrderedSet String)) = names :=
    List.filter_eq_self.mpr fun name _ => decide_eq_true List.not_mem_nil
  have htoList := toList_foldl_insert names OrderedSet.empty
  rw [hempty] at htoList
  exact htoList

/-! ## Section 2: Requests -/

/-- A supply and the substitutions that it serves; those with number `i` have keys in `κ i`. -/
structure Registry {ι : Type} (κ : ι → Type) where
  supply : Supply
  table : (i : ι) → Substitution (κ i)

/-- What a registry may be asked for. -/
inductive Request {ι : Type} (κ : ι → Type) where
  /-- The next name. -/
  | next
  /-- The next name that differs from `literal`. -/
  | nextUnlike (literal : String)
  /-- The name of a key in one of the substitutions, written in the place of `literal`. -/
  | substitute (i : ι) (key : κ i) (literal : String)

namespace Request

variable {ι : Type} {κ : ι → Type}

/-- The key that is to have a name, with the substitution it is a key of. -/
def entry? : Request κ → Option ((i : ι) × κ i)
  | .substitute i key _ => some ⟨i, key⟩
  | _ => none

/-- Whether a name may be drawn for a request. -/
def allows : Request κ → String → Bool
  | .next, _ => true
  | .nextUnlike literal, name => name ≠ literal
  | .substitute _ _ literal, name => name ≠ literal

end Request

namespace Registry

variable {ι : Type} {κ : ι → Type} [DecidableEq ι] [∀ i, DecidableEq (κ i)]

/-- The registry over a vocabulary in which no key has a name. -/
def ofVocabulary (names : List String) : Registry κ :=
  ⟨Supply.ofVocabulary names, fun _ => Substitution.empty⟩

/-- The name of a key. -/
def name? (r : Registry κ) (entry : (i : ι) × κ i) : Option String :=
  (r.table entry.1).get? entry.2

/-- What is done for a request. A substitution and the supply are the books of a request for a key;
what becomes of them is put back. -/
def serving : Request κ → Attempt (Registry κ) String
  | .next => Supply.drawNext.onPart supply fun r a => { r with supply := a }
  | .nextUnlike literal =>
    (Supply.drawUnlike literal).onPart supply fun r a => { r with supply := a }
  | .substitute i key literal =>
    (Ledger.request key literal).onPart (fun r => ⟨r.supply, r.table i⟩) fun r ledger =>
      ⟨ledger.supply, Function.update r.table i ledger.table⟩

/-- What a request is answered with, with the registry after it unless it fails. -/
def answer (r : Registry κ) (q : Request κ) : Except Error (String × Registry κ) :=
  (serving q).outcome r

/-- The registry after a request, whether it has failed or not. -/
def perform (r : Registry κ) (q : Request κ) : Registry κ := (serving q).after r

/-- The registry after requests one after the other. -/
def performAll (r : Registry κ) (qs : List (Request κ)) : Registry κ := qs.foldl perform r

/-- The name that a key has already for which a name is requested. -/
def known? (r : Registry κ) (q : Request κ) : Option String := q.entry?.bind r.name?

/-- The registry after `name` has been drawn for a request. -/
def draw (r : Registry κ) (q : Request κ) (name : String) : Registry κ where
  supply := ⟨r.supply.available.erase name, r.supply.issued + 1⟩
  table :=
    match q with
    | .substitute i key _ => Function.update r.table i ⟨(r.table i).tokens.insert key name⟩
    | _ => r.table

/-! ## Section 3: What becomes of a request -/

/-- A key keeps its name; otherwise the first name that is left and allowed is drawn. -/
theorem serving_eq (q : Request κ) (r : Registry κ) :
    serving q r =
      match r.known? q with
      | some token => .ok token r
      | none =>
        match r.supply.available.toList.find? q.allows with
        | some name => .ok name (r.draw q name)
        | none => .error (.exhausted r.supply.issued) r := by
  cases q with
  | next =>
    have hknown : r.known? .next = none := rfl
    have hallows : (Request.next : Request κ).allows = fun _ => true := rfl
    rw [hknown, hallows, serving, Attempt.onPart, Supply.drawNext, Supply.draw_eq]
    cases r.supply.available.toList.find? fun _ => true <;> rfl
  | nextUnlike literal =>
    have hknown : r.known? (.nextUnlike literal) = none := rfl
    have hallows : (Request.nextUnlike literal : Request κ).allows =
      fun name => decide (name ≠ literal) := rfl
    rw [hknown, hallows, serving, Attempt.onPart, Supply.drawUnlike, Supply.draw_eq]
    cases r.supply.available.toList.find? fun name => name ≠ literal <;> rfl
  | substitute i key literal =>
    have hknown : r.known? (.substitute i key literal) = (r.table i).get? key := rfl
    have hallows : (Request.substitute i key literal : Request κ).allows =
      fun name => decide (name ≠ literal) := rfl
    -- A substitution that has not changed is put back as it was.
    have hback : (⟨r.supply, Function.update r.table i (r.table i)⟩ : Registry κ) = r := by
      rw [Function.update_eq_self]
    rw [hknown, hallows, serving, Attempt.onPart]
    cases hget : (r.table i).get? key with
    | some token =>
      rw [Ledger.request_of_get? hget]
      exact congrArg (EStateM.Result.ok token) hback
    | none =>
      rw [Ledger.request_of_not_get? hget]
      cases r.supply.available.toList.find? fun name => name ≠ literal with
      | some name => rfl
      | none => exact congrArg (EStateM.Result.error _) hback

/-- A request writes nothing before its name has been drawn. -/
theorem clean_serving (q : Request κ) : (serving q).Clean := by
  cases q with
  | next => exact (Supply.clean_draw _).onPart fun _ => rfl
  | nextUnlike literal => exact (Supply.clean_draw _).onPart fun _ => rfl
  | substitute i key literal =>
    exact (Ledger.clean_request key literal).onPart fun r => by rw [Function.update_eq_self]

theorem answer_eq (r : Registry κ) (q : Request κ) :
    r.answer q =
      match r.known? q with
      | some token => .ok (token, r)
      | none =>
        match r.supply.available.toList.find? q.allows with
        | some name => .ok (name, r.draw q name)
        | none => .error (.exhausted r.supply.issued) := by
  rw [answer, Attempt.outcome, serving_eq]
  cases r.known? q with
  | some token => rfl
  | none => cases r.supply.available.toList.find? q.allows <;> rfl

/-! ## Section 4: One request -/

/-- The name that is drawn for a request; none is for a key that has one, or if the request
fails. -/
def drawn? (r : Registry κ) (q : Request κ) : Option String :=
  match r.known? q, r.answer q with
  | none, .ok (name, _) => some name
  | _, _ => none

theorem drawn?_eq (r : Registry κ) (q : Request κ) :
    r.drawn? q =
      match r.known? q with
      | some _ => none
      | none => r.supply.available.toList.find? q.allows := by
  unfold drawn?
  rw [answer_eq]
  cases r.known? q with
  | some token => rfl
  | none => cases r.supply.available.toList.find? q.allows <;> rfl

theorem drawn?_eq_some_iff {r : Registry κ} {q : Request κ} {name : String} :
    r.drawn? q = some name ↔
      r.known? q = none ∧ r.supply.available.toList.find? q.allows = some name := by
  rw [drawn?_eq]
  cases r.known? q <;> simp

/-- A request does nothing to a registry but draw its name. -/
theorem perform_eq (r : Registry κ) (q : Request κ) :
    r.perform q =
      match r.drawn? q with
      | some name => r.draw q name
      | none => r := by
  rw [perform, Attempt.after, serving_eq, drawn?_eq]
  cases r.known? q with
  | some token => rfl
  | none => cases r.supply.available.toList.find? q.allows <;> rfl

/-- The key of a request is given the name that is drawn, and every other key keeps its own. -/
theorem name?_draw (r : Registry κ) (q : Request κ) (name : String) (entry : (i : ι) × κ i) :
    (r.draw q name).name? entry = if q.entry? = some entry then some name else r.name? entry := by
  cases q with
  | next => rfl
  | nextUnlike literal => rfl
  | substitute i key literal =>
    obtain ⟨j, other⟩ := entry
    show (Function.update r.table i ⟨(r.table i).tokens.insert key name⟩ j).get? other =
      if some (⟨i, key⟩ : (i : ι) × κ i) = some ⟨j, other⟩ then some name
      else (r.table j).get? other
    by_cases hj : j = i
    · subst hj
      rw [Function.update_self, Substitution.get?, OrderedMap.get?_insert]
      by_cases hkey : key = other
      · rw [if_pos hkey, if_pos (by rw [hkey])]
      · rw [if_neg hkey, if_neg]
        · rfl
        · intro heq
          cases heq
          exact hkey rfl
    · rw [Function.update_of_ne hj, if_neg]
      intro heq
      cases heq
      exact hj rfl

/-- How a registry serves a request. -/
structure Served (r : Registry κ) (q : Request κ) : Prop where
  /-- A key that has a name keeps it and nothing is drawn, whether names are left or not. -/
  of_known : ∀ token, r.known? q = some token → r.answer q = .ok (token, r)
  /-- Otherwise the first name that is allowed is drawn. Those before it stay available, in their
  places, and only the key of the request is given the name. -/
  of_allowed : ∀ before name rest, r.known? q = none →
    r.supply.available.toList = before ++ name :: rest →
    (∀ other ∈ before, q.allows other = false) → q.allows name = true →
    ∃ after, r.answer q = .ok (name, after) ∧
      after.supply.available.toList = before ++ rest ∧
      after.supply.issued = r.supply.issued + 1 ∧
      ∀ entry, after.name? entry = if q.entry? = some entry then some name else r.name? entry
  /-- A request fails if a name is to be drawn and none that is left is allowed. -/
  eq_error_iff : ∀ e, r.answer q = .error e ↔
    r.known? q = none ∧ (∀ name ∈ r.supply.available, q.allows name = false) ∧
      e = .exhausted r.supply.issued
  /-- A request that fails changes nothing. -/
  of_error : ∀ e, r.answer q = .error e → r.perform q = r

theorem served (r : Registry κ) (q : Request κ) : r.Served q where
  of_known token h := by rw [answer_eq, h]
  of_allowed before name rest hknown htoList hbefore hname := by
    have hfind : r.supply.available.toList.find? q.allows = some name := by
      refine List.find?_eq_some_iff_append.mpr ⟨hname, before, rest, htoList, fun other h => ?_⟩
      rw [hbefore other h]; rfl
    have hnot : name ∉ before := by
      intro hmem
      rw [hbefore name hmem] at hname
      cases hname
    refine ⟨r.draw q name, by rw [answer_eq, hknown, hfind], ?_, rfl, name?_draw r q name⟩
    show r.supply.available.toList.erase name = before ++ rest
    rw [htoList, List.erase_append_right _ hnot, List.erase_cons_head]
  eq_error_iff e := by
    rw [answer_eq]
    cases r.known? q with
    | some token => simp
    | none =>
      cases hfind : r.supply.available.toList.find? q.allows with
      | some name =>
        have hname := List.find?_some hfind
        have hmem := List.mem_of_find?_eq_some hfind
        refine iff_of_false (by simp) fun hnone => ?_
        rw [hnone.2.1 name hmem] at hname
        cases hname
      | none =>
        have hnone : ∀ name ∈ r.supply.available, q.allows name = false :=
          fun name hname => Bool.eq_false_iff.mpr (List.find?_eq_none.mp hfind name hname)
        constructor
        · intro h
          cases h
          exact ⟨rfl, hnone, rfl⟩
        · rintro ⟨-, -, rfl⟩
          rfl
  of_error e h := by
    rw [perform, (clean_serving q).after_eq, ← answer, h]

/-! ## Section 5: Runs of requests -/

/-- The names that are drawn for requests made one after the other. -/
def drawnAll (r : Registry κ) : List (Request κ) → List String
  | [] => []
  | q :: qs => (r.drawn? q).toList ++ (r.perform q).drawnAll qs

/-- Where a registry over the vocabulary `names` stands when the names `drawn` have been drawn. -/
structure Stands (names drawn : List String) (r : Registry κ) : Prop where
  nodup_drawn : drawn.Nodup
  mem_names : ∀ name ∈ drawn, name ∈ names
  /-- What is left stands in the order of the vocabulary. -/
  available_eq : r.supply.available.toList = names.eraseDups.filter fun name => name ∉ drawn
  issued_eq : r.supply.issued = drawn.length
  name?_mem : ∀ entry name, r.name? entry = some name → name ∈ drawn
  /-- No two keys have one name, also if they are keys of different substitutions. -/
  name?_injective : ∀ entry other name,
    r.name? entry = some name → r.name? other = some name → entry = other

variable {names drawn : List String} {r : Registry κ}

omit [DecidableEq ι] in
theorem Stands.ofVocabulary (names : List String) :
    (ofVocabulary names : Registry κ).Stands names [] where
  nodup_drawn := List.nodup_nil
  mem_names _ h := absurd h List.not_mem_nil
  available_eq := by
    show (Supply.ofVocabulary names).available.toList = _
    rw [Supply.toList_ofVocabulary]
    exact (List.filter_eq_self.mpr fun name _ => decide_eq_true List.not_mem_nil).symm
  issued_eq := rfl
  name?_mem _ _ h := by cases h
  name?_injective _ _ _ h := by cases h

omit [DecidableEq ι] in
theorem Stands.mem_available_iff (h : r.Stands names drawn) {name : String} :
    name ∈ r.supply.available ↔ name ∈ names ∧ name ∉ drawn := by
  rw [OrderedSet.mem_def, h.available_eq, List.mem_filter, List.mem_eraseDups, decide_eq_true_iff]

omit [DecidableEq ι] in
/-- Every name of the vocabulary has been issued or is left. -/
theorem Stands.issued_add_remaining (h : r.Stands names drawn) :
    r.supply.issued + r.supply.remaining = names.toFinset.card := by
  have hnodup : (drawn ++ r.supply.available.toList).Nodup := by
    refine List.nodup_append.mpr ⟨h.nodup_drawn, r.supply.available.nodup, ?_⟩
    intro name hname other hother heq
    exact (h.mem_available_iff.mp hother).2 (heq ▸ hname)
  have hnames : names.toFinset = (drawn ++ r.supply.available.toList).toFinset := by
    ext name
    rw [List.mem_toFinset, List.mem_toFinset, List.mem_append, ← OrderedSet.mem_def,
      h.mem_available_iff]
    constructor
    · intro hname
      by_cases hdrawn : name ∈ drawn
      · exact .inl hdrawn
      · exact .inr ⟨hname, hdrawn⟩
    · intro hname
      exact hname.elim (h.mem_names name) And.left
  rw [hnames, List.toFinset_card_of_nodup hnodup, List.length_append, h.issued_eq]
  rfl

/-- Drawing a name that is left moves it to those that have been drawn. -/
theorem Stands.draw (h : r.Stands names drawn) {q : Request κ} {name : String}
    (hname : name ∈ r.supply.available) : (r.draw q name).Stands names (drawn ++ [name]) := by
  obtain ⟨hmem, hnew⟩ := h.mem_available_iff.mp hname
  refine ⟨?_, ?_, ?_, ?_, ?_, ?_⟩
  · exact List.nodup_append.mpr ⟨h.nodup_drawn, List.nodup_singleton name, by
      intro other hother new hnew' heq
      rw [List.mem_singleton.mp hnew'] at heq
      exact hnew (heq ▸ hother)⟩
  · intro other hother
    rcases List.mem_append.mp hother with hold | heq
    · exact h.mem_names other hold
    · rwa [List.mem_singleton.mp heq]
  · show r.supply.available.toList.erase name = _
    rw [r.supply.available.nodup.erase_eq_filter, h.available_eq, List.filter_filter]
    refine List.filter_congr fun other _ => ?_
    by_cases hother : other = name <;> simp [hother]
  · rw [List.length_append, ← h.issued_eq]; rfl
  · intro entry other hentry
    rw [name?_draw] at hentry
    split at hentry
    · cases hentry
      exact List.mem_append_right _ (List.mem_singleton_self name)
    · exact List.mem_append_left _ (h.name?_mem entry other hentry)
  · -- A name that some key has has been drawn, so it is another one than the new name.
    intro entry other token hentry hother
    rw [name?_draw] at hentry hother
    split at hentry <;> split at hother
    · exact Option.some.inj (‹q.entry? = some entry›.symm.trans ‹q.entry? = some other›)
    · cases hentry
      exact absurd (h.name?_mem other name hother) hnew
    · cases hother
      exact absurd (h.name?_mem entry name hentry) hnew
    · exact h.name?_injective entry other token hentry hother

theorem Stands.perform (h : r.Stands names drawn) (q : Request κ) :
    (r.perform q).Stands names (drawn ++ (r.drawn? q).toList) := by
  rw [perform_eq]
  cases hdrawn : r.drawn? q with
  | some name =>
    exact h.draw (List.mem_of_find?_eq_some (drawn?_eq_some_iff.mp hdrawn).2)
  | none =>
    rw [Option.toList_none, List.append_nil]
    exact h

theorem Stands.performAll (h : r.Stands names drawn) (qs : List (Request κ)) :
    (r.performAll qs).Stands names (drawn ++ r.drawnAll qs) := by
  -- The induction is on the requests, and the registry stands as it should before each of them.
  induction qs generalizing r drawn with
  | nil => rwa [drawnAll, List.append_nil]
  | cons q qs ih =>
    rw [drawnAll, ← List.append_assoc]
    exact ih (h.perform q)

/-- A key that has a name has it after every further request. -/
theorem name?_perform {entry : (i : ι) × κ i} {token : String} (h : r.name? entry = some token)
    (q : Request κ) : (r.perform q).name? entry = some token := by
  rw [perform_eq]
  cases hdrawn : r.drawn? q with
  | none => exact h
  | some name =>
    rw [name?_draw, if_neg, h]
    -- A name is drawn only if the key of the request has none.
    intro hentry
    have hknown := (drawn?_eq_some_iff.mp hdrawn).1
    rw [known?, hentry, Option.bind_some, h] at hknown
    cases hknown

theorem name?_performAll {entry : (i : ι) × κ i} {token : String} (h : r.name? entry = some token)
    (qs : List (Request κ)) : (r.performAll qs).name? entry = some token := by
  induction qs generalizing r with
  | nil => exact h
  | cons q qs ih => exact ih (name?_perform h q)

/-- Whatever has been requested of a registry over a vocabulary, no name has been drawn twice, what
is left stands in the order of the vocabulary, and what has been issued and what is left make up
the vocabulary. Every further request is answered with the name of its key or else with the first
name that is left and allowed, or it fails and changes nothing; and keys keep their names. -/
theorem requests_served_in_order (names : List String) (requests : List (Request κ)) :
    let r : Registry κ := (ofVocabulary names).performAll requests
    r.Stands names ((ofVocabulary names : Registry κ).drawnAll requests) ∧
      r.supply.issued + r.supply.remaining = names.toFinset.card ∧
      (∀ q, r.Served q) ∧
      ∀ (later : List (Request κ)) (entry : (i : ι) × κ i) (token : String),
        r.name? entry = some token → (r.performAll later).name? entry = some token := by
  intro r
  have hstands := (Stands.ofVocabulary (κ := κ) names).performAll requests
  exact ⟨hstands, hstands.issued_add_remaining, r.served, fun later _ _ h =>
    name?_performAll h later⟩

/-- The name that is skipped goes to the next key, which keeps it when no other name is left. -/
theorem requests_served_when_exhausted :
    let r : Registry fun _ : Bool => String :=
      (ofVocabulary ["Ann", "Bob", "Ann"]).performAll
        [.nextUnlike "Ann", .substitute false "x" "y"]
    r.name? ⟨false, "x"⟩ = some "Ann" ∧
      r.answer (.substitute true "x" "x") = .error (.exhausted 2) ∧
      (r.performAll [.substitute true "x" "x"]).name? ⟨false, "x"⟩ = some "Ann" := by
  intro r
  obtain ⟨-, -, hserved, hkept⟩ := requests_served_in_order (κ := fun _ : Bool => String)
    ["Ann", "Bob", "Ann"] [.nextUnlike "Ann", .substitute false "x" "y"]
  have hname : r.name? ⟨false, "x"⟩ = some "Ann" := by decide
  have hempty : r.supply.available.toList = [] := by decide
  refine ⟨hname, ((hserved _).eq_error_iff _).mpr ⟨rfl, ?_, rfl⟩, hkept _ _ _ hname⟩
  intro name hmem
  rw [OrderedSet.mem_def] at hmem
  exact absurd (hempty ▸ hmem) List.not_mem_nil

end Registry

end TreeNotation.Token
