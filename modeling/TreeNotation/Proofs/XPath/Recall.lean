import Mathlib.Data.Finset.Card
import TreeNotation.Proofs.XPath.Restorers

/-!
# What Restorers Remember

The shapes that a restorer keeps show in nothing that it returns, only in their number: there are
as many as attributes it has been asked for, up to its capacity. Names that differ in the case of
ASCII letters count for one.

- **Answers**: `restore_eq_of_faithful`; a restorer returns what a new one returns;
- **Numbers**: `Remembers` says what is kept after some attributes have come up, and
  `Remembers.matcher` that one more attribute keeps it so, whether its shapes are at hand or not;
- **Main result**: `answers_eq_and_size_eq`, over all calls one after the other.
-/

namespace TreeNotation.XPath.Restorer

/-! ## Section 1: Answers -/

/-- What a restorer returns to a call. -/
def answer (r : Restorer) (call : Call) : String :=
  (r.restore call.path call.tag call.name call.map).1

/-- What a restorer returns to calls one after the other. -/
def answers (r : Restorer) : List Call → List String
  | [] => []
  | call :: calls => r.answer call :: (r.after call).answers calls

/-- Restorers that keep shapes at the keys of their attributes only return the same. -/
theorem answer_eq_of_faithful {r r' : Restorer} (h : r.Faithful) (h' : r'.Faithful) (call : Call) :
    r.answer call = r'.answer call := by
  unfold answer
  cases hmap : call.map.isEmpty with
  | true =>
    -- Neither of them looks at the path.
    unfold restore
    rw [if_pos hmap, if_pos hmap]
  | false =>
    rw [← String.toList_inj, h.restore_toList _ _ _ hmap, h'.restore_toList _ _ _ hmap]

theorem answers_eq_of_faithful {r fresh : Restorer} (h : r.Faithful) (hfresh : fresh.Faithful)
    (calls : List Call) : r.answers calls = calls.map fresh.answer := by
  -- The induction is on the calls; each of them leaves the restorer as it has to be.
  induction calls generalizing r with
  | nil => rfl
  | cons call calls ih =>
    have hafter : (r.after call).Faithful := h.after_restore call.path call.tag call.name call.map
    rw [answers, List.map_cons, answer_eq_of_faithful h hfresh, ih hafter]

/-! ## Section 2: Numbers -/

/-- The keys of the attributes that calls ask for, but for calls that have nothing to restore. -/
def keysOf (calls : List Call) : List String :=
  (calls.filter fun call => !call.map.isEmpty).map fun call => key call.name

/-- The restorer keeps shapes for some of the attributes that have come up, for each of them at most
once, and for as many as there is room for. -/
structure Remembers (capacity : Nat) (seen : Finset String) (r : Restorer) : Prop where
  capacity_eq : r.capacity = capacity
  nodup : (r.kept.map Prod.fst).Nodup
  mem_seen : ∀ entry ∈ r.kept, entry.1 ∈ seen
  length_eq : r.kept.length = min capacity seen.card

theorem remembers_ofCapacity (capacity : Nat) :
    Remembers (max 1 capacity) ∅ (ofCapacity capacity) where
  capacity_eq := rfl
  nodup := List.nodup_nil
  mem_seen := nofun
  length_eq := (Nat.min_zero _).symm

/-- Shapes that are used again change their place only. -/
theorem perm_of_find? {kept : List (String × AttributeMatcher)} (h : (kept.map Prod.fst).Nodup)
    {wanted : String} {entry : String × AttributeMatcher}
    (hentry : kept.find? (fun other => other.1 = wanted) = some entry) :
    (entry :: kept.filter fun other => other.1 ≠ wanted).Perm kept := by
  have hkey : entry.1 = wanted := by simpa using List.find?_some hentry
  have hmem := List.mem_of_find?_eq_some hentry
  -- No other entry is kept at this key.
  have herase : (kept.filter fun other => other.1 ≠ wanted) = kept.erase entry := by
    rw [(List.Nodup.of_map Prod.fst h).erase_eq_filter]
    apply List.filter_congr
    intro other hother
    have hinj : other.1 = wanted ↔ other = entry := by
      rw [← hkey]
      exact ⟨List.inj_on_of_nodup_map h hother hmem, congrArg Prod.fst⟩
    simp only [bne, ne_eq, decide_not, hinj, beq_eq_decide]
  rw [herase]
  exact (List.perm_cons_erase hmem).symm

namespace Remembers

variable {capacity : Nat} {seen : Finset String} {r : Restorer}

/-- If an attribute that has come up is not kept any more, fewer are kept than have come up. -/
theorem length_lt (h : Remembers capacity seen r) {wanted : String} (hseen : wanted ∈ seen)
    (hkept : wanted ∉ r.kept.map Prod.fst) : r.kept.length < seen.card := by
  have hsubset : (r.kept.map Prod.fst).toFinset ⊆ seen.erase wanted := by
    intro other hother
    rw [List.mem_toFinset] at hother
    obtain ⟨entry, hentry, rfl⟩ := List.mem_map.mp hother
    refine Finset.mem_erase.mpr ⟨?_, h.mem_seen entry hentry⟩
    rintro rfl
    exact hkept hother
  have hcard := Finset.card_le_card hsubset
  rw [List.toFinset_card_of_nodup h.nodup, List.length_map] at hcard
  exact hcard.trans_lt (Finset.card_erase_lt_of_mem hseen)

/-- One more attribute is remembered among those that have come up. -/
theorem matcher (h : Remembers capacity seen r) (name : String) :
    Remembers capacity (insert (key name) seen) (r.matcher name).2 := by
  unfold Restorer.matcher
  split
  case h_1 entry hentry =>
    -- The attribute is kept, so it has come up before.
    have hperm := perm_of_find? h.nodup hentry
    have hkey : entry.1 = key name := by simpa using List.find?_some hentry
    have hseen : key name ∈ seen := hkey ▸ h.mem_seen entry (List.mem_of_find?_eq_some hentry)
    rw [Finset.insert_eq_of_mem hseen]
    exact {
      capacity_eq := h.capacity_eq
      nodup := (hperm.map Prod.fst).nodup_iff.mpr h.nodup
      mem_seen := fun other hother => h.mem_seen other (hperm.mem_iff.mp hother)
      length_eq := hperm.length_eq.trans h.length_eq }
  case h_2 hnone =>
    have hnew : key name ∉ r.kept.map Prod.fst := by
      intro hmem
      obtain ⟨entry, hentry, hkey⟩ := List.mem_map.mp hmem
      simpa [hkey] using List.find?_eq_none.mp hnone entry hentry
    have hlength := h.length_eq
    constructor
    case capacity_eq => exact h.capacity_eq
    case nodup =>
      refine ((List.take_sublist _ _).map Prod.fst).nodup ?_
      exact List.nodup_cons.mpr ⟨hnew, h.nodup⟩
    case mem_seen =>
      intro other hother
      rcases List.mem_cons.mp (List.mem_of_mem_take hother) with rfl | hother
      · exact Finset.mem_insert_self _ seen
      · exact Finset.mem_insert_of_mem (h.mem_seen other hother)
    case length_eq =>
      rw [List.length_take, List.length_cons, h.capacity_eq]
      by_cases hseen : key name ∈ seen
      · -- The attribute had to make room for others, and now another one has to.
        have hlt := h.length_lt hseen hnew
        rw [Finset.insert_eq_of_mem hseen]
        omega
      · rw [Finset.card_insert_of_notMem hseen]
        omega

/-- After a call, its attribute has come up if there was anything to restore. -/
theorem after (h : Remembers capacity seen r) (call : Call) :
    Remembers capacity (seen ∪ (keysOf [call]).toFinset) (r.after call) := by
  unfold Restorer.after restore keysOf
  cases hmap : call.map.isEmpty with
  | true => simpa [hmap] using h
  | false => simpa [hmap, Finset.union_comm seen] using h.matcher call.name

theorem foldl_after (h : Remembers capacity seen r) (calls : List Call) :
    Remembers capacity (seen ∪ (keysOf calls).toFinset) (calls.foldl Restorer.after r) := by
  -- The induction is on the calls, whose attributes come up one after the other.
  induction calls generalizing seen r with
  | nil => simpa [keysOf] using h
  | cons call calls ih =>
    have hkeys : keysOf (call :: calls) = keysOf [call] ++ keysOf calls := by
      rw [keysOf, keysOf, keysOf, ← List.map_append, ← List.filter_append]
      rfl
    rw [List.foldl_cons, hkeys, List.toFinset_append, ← Finset.union_assoc]
    exact ih (h.after call)

end Remembers

/-! ## Section 3: Main result -/

/-- Whatever its capacity, a restorer returns to each of a row of calls what a new restorer returns
to that one, and afterwards it has shapes at hand for as many attributes as the calls have asked for,
names in lower case, up to its capacity. -/
theorem answers_eq_and_size_eq (capacity : Nat) (calls : List Call) :
    (∀ other, (ofCapacity capacity).answers calls = calls.map (ofCapacity other).answer) ∧
      (calls.foldl after (ofCapacity capacity)).size =
        min (max 1 capacity) (keysOf calls).toFinset.card := by
  constructor
  · intro other
    exact answers_eq_of_faithful (faithful_ofCapacity capacity) (faithful_ofCapacity other) calls
  · have h := ((remembers_ofCapacity capacity).foldl_after calls).length_eq
    rw [Finset.empty_union] at h
    exact h

/-- Two spellings of an attribute share the shapes that have been made for the first of them, and
count for one. -/
theorem spellings_share_shapes :
    let map := OrderedMap.ofList [("c1", "alpha beta")]
    let calls : List Call :=
      [⟨"//div[@CLASS='c1']", none, "CLASS", map⟩, ⟨"//p[@class='c1']", some "p", "class", map⟩,
        ⟨"//a[@href='c1']", none, "href", OrderedMap.empty⟩]
    ((standard.matcher "CLASS").2.matcher "class").1 = .ofAttribute "CLASS" ∧
      standard.answers calls =
        ["//div[@CLASS='alpha beta']", "//p[@class='alpha beta']", "//a[@href='c1']"] ∧
      (calls.foldl after standard).size = 1 := by
  intro map calls
  obtain ⟨hanswers, hsize⟩ := answers_eq_and_size_eq 16 calls
  refine ⟨by decide +kernel, (hanswers 16).trans (by decide +kernel), hsize.trans ?_⟩
  decide +kernel

end TreeNotation.XPath.Restorer
