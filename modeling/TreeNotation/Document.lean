import TreeNotation.Html.Dialect
import TreeNotation.Json.Dialect
import TreeNotation.Xml.Dialect

/-!
# Documents

Documents of any format and their conversion.

- `Format.ofName` is the format that goes by a name;
- `Document.convert` writes a document with the standard vocabulary, `Document.convertWith` with
  the names of a supply.
-/

namespace TreeNotation

/-- The formats of documents. -/
inductive Format where
  | html
  | json
  | xml
  deriving Repr, DecidableEq, Inhabited

namespace Format

/-- The name of a format. -/
def name : Format → String
  | .html => "html"
  | .json => "json"
  | .xml => "xml"

/-- The format that goes by a name, in upper or lower case; HTML if there is none. -/
def ofName (name : String) : Format :=
  match String.ofList (name.toList.map Char.toLower) with
  | "json" => .json
  | "xml" => .xml
  | _ => .html

end Format

/-- A document of any format. -/
inductive Document where
  | html (doc : Html.Document)
  | json (doc : Json.Document)
  | xml (doc : Xml.Document)

/-- The tables of a conversion from any format. -/
inductive Tables where
  | html (tables : Html.Tables)
  | json (tables : Json.Tables)
  | xml (tables : Xml.Tables)

/-- The format that tables come from. -/
def Tables.format : Tables → Format
  | .html _ => .html
  | .json _ => .json
  | .xml _ => .xml

namespace Document

/-- The format of a document. -/
def format : Document → Format
  | .html _ => .html
  | .json _ => .json
  | .xml _ => .xml

/-- The notation of a document, with the names of a supply. -/
def convertWith (config : Config) (supply : Token.Supply) :
    Document → Except Error (Writing.Conversion Tables)
  | .html doc => do
    let result ← Html.convert config supply doc
    return ⟨result.text, .html result.tables⟩
  | .json doc => do
    let result ← Json.convert config supply doc
    return ⟨result.text, .json result.tables⟩
  | .xml doc => do
    let result ← Xml.convert config supply doc
    return ⟨result.text, .xml result.tables⟩

/-- The notation of a document, with the standard vocabulary. -/
def convert (config : Config) (doc : Document) : Except Error (Writing.Conversion Tables) :=
  convertWith config .standard doc

end Document

end TreeNotation
