import TreeNotation.Proofs.RoundTrip
import TreeNotation.Proofs.XPath.Passes

/-!
# The Order of the Passes

The paths of an HTML conversion are restored in three passes, for classes, for the targets of links
and for the sources of images. Each of them reads the originals that the passes before have put in.

- **Passes**: `htmlPasses`, which exclude each other (`pairwise_htmlPasses`);
- **Order**: `restoreAll_eq_restoreHtml`, no order gives another path if the steps are calm;
  `order_shows_in_quoted_target`, a target with quotes in it for which the order matters.
-/

namespace TreeNotation

open Token (Ledger Supply)
open Writing (Dialect)
open XPath (Calm Pass Restorer isQuote restoreHtml)

/-- The passes that restore a path of an HTML conversion, in their order. -/
def htmlPasses (tables : Html.Tables) : List Pass :=
  [⟨none, "class", tables.classes⟩, ⟨some "a", "href", tables.links⟩,
    ⟨some "img", "src", tables.images⟩]

variable {tables : Html.Tables}

theorem restoreHtml_eq (path : String) (tables : Html.Tables) :
    restoreHtml path tables = (Restorer.standard.restoreAll path (htmlPasses tables)).1 :=
  rfl

theorem map_name_htmlPasses (tables : Html.Tables) :
    (htmlPasses tables).map Pass.name = Html.replacedAttributes :=
  rfl

theorem name_mem_replacedAttributes {pass : Pass} (h : pass ∈ htmlPasses tables) :
    pass.name ∈ Html.replacedAttributes := by
  rw [← map_name_htmlPasses tables]
  exact List.mem_map_of_mem h

theorem regular_htmlPasses (tables : Html.Tables) : ∀ pass ∈ htmlPasses tables, pass.Regular := by
  intro pass hpass
  obtain ⟨hinert, hmark⟩ :=
    Html.replacedAttributes_plain pass.name (name_mem_replacedAttributes hpass)
  exact ⟨hinert.isQuote_eq, hmark⟩

theorem pairwise_htmlPasses (tables : Html.Tables) :
    (htmlPasses tables).Pairwise Pass.Excludes := by
  -- The passes are for different attributes.
  have hnames : (htmlPasses tables).Pairwise fun pass other => pass.name ≠ other.name := by
    rw [← List.pairwise_map, map_name_htmlPasses]
    decide
  refine hnames.imp_of_mem fun hpass hother hne => ?_
  exact Pass.excludes_of_apart_names (regular_htmlPasses tables _ hpass)
    (regular_htmlPasses tables _ hother)
    (Html.replacedAttributes_apart _ (name_mem_replacedAttributes hpass) _
      (name_mem_replacedAttributes hother) hne)

/-- Over a path with calm steps the passes may be run in any order, and by any restorer: in every
order they change the literals of the path at once, and nothing else of it. -/
theorem restoreAll_eq_restoreHtml {path : String}
    (hpath : ∀ step ∈ XPath.split path.toList, Calm (htmlPasses tables) step) {order : List Pass}
    (horder : order.Perm (htmlPasses tables)) {r : Restorer} (hr : r.Reachable) :
    (r.restoreAll path order).1 = restoreHtml path tables ∧
      (restoreHtml path tables).toList =
        XPath.updateSteps (XPath.changeAll (htmlPasses tables)) path.toList := by
  have hstandard : Restorer.standard.Faithful := Restorer.faithful_ofCapacity 16
  have hregular := regular_htmlPasses tables
  have hexclude := pairwise_htmlPasses tables
  constructor
  · rw [restoreHtml_eq, ← String.toList_inj, hr.faithful.restoreAll_toList,
      hstandard.restoreAll_toList]
    exact XPath.foldl_run_perm horder.symm hregular hexclude hpath
  · rw [restoreHtml_eq, hstandard.restoreAll_toList]
    exact XPath.foldl_run hregular hexclude hpath

/-- Originals without quotes and at signs, put back from the images to the classes. -/
theorem images_may_come_first :
    let tables : Html.Tables := ⟨.ofList [("James", "card wide")], .ofList [("Mary", "/next?a=b")],
      .ofList [("John", "a.png")]⟩
    let path := "//div[@class='James']/a[contains(@href, \"Mary\")]/img[@src='John']"
    (Restorer.standard.restoreAll path (htmlPasses tables).reverse).1 = restoreHtml path tables ∧
      (restoreHtml path tables).toList =
        XPath.updateSteps (XPath.changeAll (htmlPasses tables)) path.toList ∧
      restoreHtml path tables =
        "//div[@class='card wide']/a[contains(@href, \"/next?a=b\")]/img[@src='a.png']" := by
  intro tables path
  have hplain : ((htmlPasses tables).all fun pass => pass.map.entries.all fun entry =>
      entry.2.toList.all fun c => !isQuote c && c != '@') = true := by decide
  have hvalues : ∀ pass ∈ htmlPasses tables,
      XPath.PlainValues (XPath.AttributeMatcher.lookup pass.map) := by
    intro pass hpass
    apply Restorer.plainValues_lookup
    simpa using List.all_eq_true.mp hplain pass hpass
  have hpath : XPath.AtOutside .outermost path.toList := by decide
  have hcalm := XPath.calm_of_atOutside (regular_htmlPasses tables) hvalues hpath
  obtain ⟨horder, hchanged⟩ := restoreAll_eq_restoreHtml hcalm (List.reverse_perm _)
    ⟨Restorer.standard, [], ⟨16, rfl⟩, rfl⟩
  refine ⟨horder, hchanged, ?_⟩
  decide +kernel

/-- The target of a link holds the quote of the literal that it is put into, and after it a
comparison with the name of a class list, which only a later pass for classes restores. -/
theorem order_shows_in_quoted_target :
    let config : Config := { html := { simplifyClasses := true, simplifyRelativeLinks := true } }
    let doc : Html.Document := List.foldl Html.Document.perform Forest.empty
      [.addRootElement "a" (.ofList [("class", "card"), ("href", "x' or @class='James")])]
    let path := "//a[@href='Mary']"
    ∃ result, Html.convert config .standard doc = .ok result ∧
      restoreHtml path result.tables = "//a[@href='x' or @class='James']" ∧
      ∃ order, order.Perm (htmlPasses result.tables) ∧
        (Restorer.standard.restoreAll path order).1 = "//a[@href='x' or @class='card']" ∧
        (Restorer.standard.restoreAll path order).1 ≠ restoreHtml path result.tables := by
  intro config doc path
  obtain ⟨rest, nodup, hstandard⟩ := Supply.standard_eq_cons_cons
  have hroots : doc.rootIds = [0] := Forest.rootIds_of_roots rfl
  have hrun : ∃ text after, (Html.dialect config doc).convert doc (Ledger.ofSupply .standard) =
      .ok text after ∧ Html.tables after = ⟨.ofList [("James", "card")],
        .ofList [("Mary", "x' or @class='James")], .empty⟩ := by
    unfold Dialect.convert
    rw [hroots, hstandard]
    exact ⟨_, _, rfl, rfl⟩
  obtain ⟨text, after, hrun, htables⟩ := hrun
  have hconvert : Html.convert config .standard doc = .ok ⟨text, Html.tables after⟩ :=
    Dialect.convertWith_eq_ok_iff.mpr ⟨text, after, hrun, rfl⟩
  have hclasses : restoreHtml path (Html.tables after) = "//a[@href='x' or @class='James']" := by
    rw [htables]
    decide +kernel
  have hreverse : (Restorer.standard.restoreAll path (htmlPasses (Html.tables after)).reverse).1 =
      "//a[@href='x' or @class='card']" := by
    rw [htables]
    decide +kernel
  refine ⟨_, hconvert, hclasses, _, List.reverse_perm _, hreverse, ?_⟩
  rw [hreverse, hclasses]
  decide

/-- A literal of the path that looks like a predicate shows the order as well, without a quote in any
original. -/
example :
    let tables : Html.Tables := ⟨.ofList [("James", "@href=")], .ofList [("Mary", "/next")], .empty⟩
    let path := "//a[\"@class='James'Mary'\"]"
    restoreHtml path tables = "//a[\"@class='@href='/next'\"]" ∧
      (Restorer.standard.restoreAll path (htmlPasses tables).reverse).1 =
        "//a[\"@class='@href='Mary'\"]" := by
  decide +kernel

end TreeNotation
