import TreeNotation.Proofs.Json.Requests
import TreeNotation.Proofs.Token.Replay

/-!
# JSON Nodes with Names in Their Keys and Strings

Once the names are known they can be put into keys and strings, and the node is then written as it
stands: `Content.named` puts them in, and `replays_own` says that the node is written as it is with
the names asked for.
-/

namespace TreeNotation

/-- The options without any replacement by names. -/
def JsonOptions.spelledOut (options : JsonOptions) : JsonOptions :=
  { options with simplifyKeys := false, simplifyLongStrings := false }

namespace Json

open Token (Ledger Replays replays_inPlace_getD replays_pure)

/-- The node with a name in the place of the text that it stands for. -/
def Content.named (options : JsonOptions) (name? : Slot → Option String) : Content → Content
  | .property key => .property (((keySlot? options key).bind name?).getD key)
  | .leaf .string payload =>
    .leaf .string (((stringSlot? options payload).bind name?).getD payload)
  | content => content

variable {final : Ledger Slot}

theorem replays_writeKey (options : JsonOptions) (key : String) :
    Replays final (writeKey options key)
      (writeKey options.spelledOut (((keySlot? options key).bind final.table.get?).getD key)) := by
  rw [writeKey_eq]
  exact replays_inPlace_getD key id (keySlot? options key)

theorem replays_writeString (options : JsonOptions) (value : String) :
    Replays final (writeString options value)
      (writeString options.spelledOut
        (((stringSlot? options value).bind final.table.get?).getD value)) := by
  rw [writeString_eq]
  exact replays_inPlace_getD value id (stringSlot? options value)

/-- A node is written as it stands with the name of its text in its place. -/
theorem replays_own (options : JsonOptions) (content : Content) :
    Replays final (own options content)
      (own options.spelledOut (content.named options final.table.get?)) := by
  cases content with
  | object => exact replays_pure _
  | array => exact replays_pure _
  | property key => exact (replays_writeKey options key).map _
  | leaf type payload =>
    cases type with
    | string => exact (replays_writeString options payload).map _
    | number => exact replays_pure _
    | boolean => exact replays_pure _
    | null => exact replays_pure _

end Json

end TreeNotation
