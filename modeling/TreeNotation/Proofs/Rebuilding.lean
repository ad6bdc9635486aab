import TreeNotation.Proofs.Html.Growth
import TreeNotation.Proofs.Html.Requests
import TreeNotation.Proofs.Json.Requests
import TreeNotation.Proofs.Token.Replay
import TreeNotation.Proofs.Writing.Builds
import TreeNotation.Proofs.Xml.Requests

/-!
# Building a Tree Again

Once a tree has been written, it is written again with the same text at any later time: the books
only grow, so every name that the tree asks for is in them from then on, and none has to be drawn.

- **Steps**: `Lasts` says that a step which has succeeded succeeds again and changes nothing;
  `closed_lasts` puts such steps together, and `lasts_request` is the one that needs proof;
- **Any dialect**: `Repeatable`, for builds of any trees in between, failed ones included;
- **Formats**: `builds_repeatable`.
-/

namespace TreeNotation

open Token (Closed Grows Ledger Rendering Supply bind_eq_ok_iff get?_of_request grows_pure
  grows_request keeps_throw)
open Writing.Dialect (Call closed_build foldl_build_induction ledgerAfterBuilds)

/-! ## Section 1: Steps made again -/

namespace Token

variable {κ β γ : Type} [DecidableEq κ]

/-- A step that keeps all names, and gives again what it has given before wherever the books have
grown to since, without a change to them. -/
structure Lasts (x : Rendering κ β) : Prop where
  grows : Grows x
  again : ∀ ledger b after, x ledger = .ok b after → ∀ later, after.Within later →
    x later = .ok b later

theorem lasts_pure (b : β) : Lasts (pure b : Rendering κ β) where
  grows := grows_pure b
  again ledger c after hrun later _ := by
    cases hrun
    rfl

theorem lasts_throw (e : Error) : Lasts (throw e : Rendering κ β) where
  grows _ := keeps_throw e
  again ledger c after hrun := by cases hrun

theorem Lasts.bind {x : Rendering κ β} {f : β → Rendering κ γ} (hx : Lasts x)
    (hf : ∀ b, Lasts (f b)) : Lasts (x >>= f) where
  grows := hx.grows.bind fun b => (hf b).grows
  again ledger c after hrun later hlater := by
    obtain ⟨b, mid, hfirst, hrest⟩ := bind_eq_ok_iff.mp hrun
    -- What the first step has entered is still there after the second one.
    have hmid : mid.Within later := ((hf b).grows.within hrest).trans hlater
    have hagain := hx.again ledger b mid hfirst later hmid
    exact bind_eq_ok_iff.mpr ⟨b, later, hagain, (hf b).again mid c after hrest later hlater⟩

theorem closed_lasts : Closed (κ := κ) Lasts := ⟨lasts_pure, lasts_throw, Lasts.bind⟩

/-- A request that has been granted is granted again with the same name, and draws none. -/
theorem lasts_request (key : κ) (literal : String) : Lasts (Ledger.request key literal) where
  grows := grows_request key literal
  again ledger token after hrun later hlater := by
    have hknown := hlater key token (get?_of_request hrun)
    exact Ledger.request_of_get? hknown literal

end Token

/-! ## Section 2: Any dialect -/

namespace Writing.Dialect

variable {α κ : Type} [DecidableEq κ]

/-- A tree that has been built, whatever was built before, is built again with the same text after
any further builds, failed ones included, and the books stay as they are then: no name is issued,
so it does not matter if none is left. -/
def Repeatable (dialect : Forest α → Dialect α κ) (a : Supply) : Prop :=
  ∀ (before between : List (Call α)) (f : Forest α) (id : NodeId) (level : Nat) (text : String)
    (after : Ledger κ),
    (dialect f).build f id level (ledgerAfterBuilds dialect a before) = .ok text after →
      let later := ledgerAfterBuilds dialect a (before ++ ⟨f, id, level⟩ :: between)
      (dialect f).build f id level later = .ok text later

theorem repeatable_of_lasts {dialect : Forest α → Dialect α κ}
    (hown : ∀ f id label, Token.Lasts ((dialect f).own id label)) (a : Supply) :
    Repeatable dialect a := by
  intro before between f id level text after hbuild later
  have hlasts : Token.Lasts ((dialect f).build f id level) :=
    closed_build Token.closed_lasts (hown f) f id level
  -- The builds in between begin with the books that the first build has left.
  have hlater : later = between.foldl (fun ledger call =>
      ((dialect call.forest).build call.forest call.id call.level).after ledger) after := by
    have hafter : ((dialect f).build f id level).after (ledgerAfterBuilds dialect a before) =
        after := by
      rw [Attempt.after, hbuild]
    simp only [later, ledgerAfterBuilds, List.foldl_append, List.foldl_cons]
    rw [← hafter]
    rfl
  have hwithin : after.Within later := by
    rw [hlater]
    exact foldl_build_induction (.refl after) (fun f id label => (hown f id label).grows after) _
  exact hlasts.again _ text after hbuild later hwithin

end Writing.Dialect

/-! ## Section 3: The formats -/

/-- In every format and with any names, a tree that has been built once is built again with the same
text at any later time, and no name is issued for that. -/
theorem builds_repeatable (config : Config) (a : Supply) :
    Writing.Dialect.Repeatable (Html.dialect config) a ∧
    Writing.Dialect.Repeatable (fun _ => Xml.dialect config) a ∧
    Writing.Dialect.Repeatable (fun _ => Json.dialect config) a := by
  refine ⟨?html, ?xml, ?json⟩
  case html =>
    refine Writing.Dialect.repeatable_of_lasts (fun f id entry => ?_) a
    exact Html.closed_own Token.closed_lasts (fun slot _ => Token.lasts_request slot _) entry.content
  case xml =>
    refine Writing.Dialect.repeatable_of_lasts (fun f id content => ?_) a
    exact Xml.closed_own Token.closed_lasts (fun slot _ => Token.lasts_request slot _) id content
  case json =>
    refine Writing.Dialect.repeatable_of_lasts (fun f id entry => ?_) a
    exact Json.closed_own Token.closed_lasts (fun slot _ => Token.lasts_request slot _) entry.content

/-- The only name goes to the class of the first paragraph. The second paragraph fails for want of
another one, and the first is built again after it as it was before. -/
theorem first_paragraph_repeated :
    let config : Config := { html := { simplifyClasses := true } }
    let doc : Html.Document := List.foldl Html.Document.perform Forest.empty
      [.addRootElement "p" (.ofList [("class", "big")]),
        .addRootElement "p" (.ofList [("class", "small")])]
    let d := Html.dialect config doc
    let first := ledgerAfterBuilds (Html.dialect config) (.ofVocabulary ["Ann"]) [⟨doc, 0, 0⟩]
    let later := ledgerAfterBuilds (Html.dialect config) (.ofVocabulary ["Ann"])
      [⟨doc, 0, 0⟩, ⟨doc, 1, 0⟩]
    d.build doc 0 0 (Ledger.ofSupply (.ofVocabulary ["Ann"])) = .ok "p.Ann" first ∧
      d.build doc 1 0 first = .error (.exhausted 1) later ∧
      d.build doc 0 0 later = .ok "p.Ann" later := by
  intro config doc d first later
  have hfirst : d.build doc 0 0 (Ledger.ofSupply (.ofVocabulary ["Ann"])) = .ok "p.Ann" first := rfl
  have hsecond : d.build doc 1 0 first = .error (.exhausted 1) later := rfl
  obtain ⟨hhtml, -, -⟩ := builds_repeatable config (.ofVocabulary ["Ann"])
  exact ⟨hfirst, hsecond, hhtml [] [⟨doc, 1, 0⟩] doc 0 0 "p.Ann" first hfirst⟩

end TreeNotation
