/-!
# Runs of Case Pairs

Tables of characters and their partners in the other case. Partners mostly lie at one distance
over a run of evenly spaced code points, so a table lists runs instead of pairs.
-/

namespace TreeNotation.Text

/-- Code points from `first` to `last` in steps of `stride`, each with the partner at `offset`. -/
structure CaseRun where
  first : Nat
  last : Nat
  stride : Nat
  offset : Int

namespace CaseRun

/-- Whether the code point `n` belongs to the run. -/
def covers (run : CaseRun) (n : Nat) : Bool :=
  decide (run.first ≤ n) && decide (n ≤ run.last) && decide ((n - run.first) % run.stride = 0)

/-- The partner of a character in a table, the character itself if the table has none. -/
def apply (runs : List CaseRun) (c : Char) : Char :=
  match runs.find? fun run => run.covers c.toNat with
  | some run => Char.ofNat (c.toNat + run.offset).toNat
  | none => c

end CaseRun

end TreeNotation.Text
