import TreeNotation.Config.Basic
import TreeNotation.Config.Check
import TreeNotation.Config.Reader
import TreeNotation.Decimal.Binary
import TreeNotation.Decimal.Shortest
import TreeNotation.Document
import TreeNotation.Error
import TreeNotation.Forest.Basic
import TreeNotation.Forest.Outline
import TreeNotation.Forest.Tree
import TreeNotation.Html.Dialect
import TreeNotation.Html.Document
import TreeNotation.Html.Priority
import TreeNotation.Json.Dialect
import TreeNotation.Json.Document
import TreeNotation.Json.Number
import TreeNotation.Json.Raw
import TreeNotation.Json.Value
import TreeNotation.Ordered.Map
import TreeNotation.Ordered.Set
import TreeNotation.Proofs.Conversion
import TreeNotation.Proofs.Forest.Ancestry
import TreeNotation.Proofs.Forest.Correspondence
import TreeNotation.Proofs.Forest.Growth
import TreeNotation.Proofs.Forest.Relabelling
import TreeNotation.Proofs.Forest.Trees
import TreeNotation.Proofs.Forest.Unfolding
import TreeNotation.Proofs.Forest.WellFormed
import TreeNotation.Proofs.Html.Counts
import TreeNotation.Proofs.Html.Links
import TreeNotation.Proofs.Html.Growth
import TreeNotation.Proofs.Html.Requests
import TreeNotation.Proofs.Json.Growth
import TreeNotation.Proofs.Json.Requests
import TreeNotation.Proofs.Tables
import TreeNotation.Proofs.Text.Folding
import TreeNotation.Proofs.Token.Assignment
import TreeNotation.Proofs.Token.Books
import TreeNotation.Proofs.Token.Exhaustion
import TreeNotation.Proofs.Writing.Alike
import TreeNotation.Proofs.Writing.Builds
import TreeNotation.Proofs.XPath.Literals
import TreeNotation.Proofs.XPath.Matching
import TreeNotation.Proofs.XPath.Restorers
import TreeNotation.Proofs.XPath.Restoring
import TreeNotation.Proofs.XPath.Shapes
import TreeNotation.Proofs.XPath.Spelling
import TreeNotation.Proofs.XPath.Steps
import TreeNotation.Proofs.Xml.Growth
import TreeNotation.Proofs.Xml.Requests
import TreeNotation.Text.Blank
import TreeNotation.Text.CaseFold
import TreeNotation.Text.CaseRun
import TreeNotation.Text.Escape
import TreeNotation.Text.Lowercase
import TreeNotation.Token.Ledger
import TreeNotation.Token.Substitution
import TreeNotation.Token.Supply
import TreeNotation.Token.Vocabulary
import TreeNotation.Writing.Attribute
import TreeNotation.Writing.Dialect
import TreeNotation.Writing.Layout
import TreeNotation.XPath.Predicate
import TreeNotation.XPath.Restorer
import TreeNotation.XPath.Step
import TreeNotation.Xml.Dialect
import TreeNotation.Xml.Document
import TreeNotation.Proofs.Writing.Requests
import TreeNotation.Proofs.Html.Named
import TreeNotation.Proofs.Json.Named
import TreeNotation.Proofs.Naming
import TreeNotation.Proofs.Exhaustion
import TreeNotation.Proofs.Relabelling
import TreeNotation.Proofs.Html.Decoding
import TreeNotation.Proofs.Forest.Planting
import TreeNotation.Proofs.Writing.Lines
import TreeNotation.Proofs.Json.Encoding
import TreeNotation.Proofs.Json.Reading
import TreeNotation.Proofs.Json.Recovery
import TreeNotation.Proofs.RawTexts
import TreeNotation.Proofs.RoundTrip
import TreeNotation.Proofs.Pruning
import TreeNotation.Proofs.XPath.Passes
import TreeNotation.Proofs.PassOrder
import TreeNotation.Proofs.XPath.Segments
import TreeNotation.Proofs.XPath.Recall
import TreeNotation.Proofs.Html.Compact
import TreeNotation.Proofs.Writing.Rows
import TreeNotation.Proofs.Writing.Indentation
import TreeNotation.Proofs.Indentation
import TreeNotation.Proofs.Token.Registry
import TreeNotation.Proofs.Token.Extension
import TreeNotation.Proofs.Extension
import TreeNotation.Proofs.Forest.Attaching
import TreeNotation.Proofs.Attaching
import TreeNotation.Proofs.Skipping
import TreeNotation.Proofs.Rebuilding
import TreeNotation.Proofs.Html.Siblings
import TreeNotation.Proofs.Writing.Rendering
import TreeNotation.Proofs.Characters
import TreeNotation.Proofs.Writing.Operators
import TreeNotation.Proofs.Operators
import TreeNotation.Proofs.Writing.Occurrence
import TreeNotation.Proofs.Xml.Comments
import TreeNotation.Proofs.Forest.Outline
import TreeNotation.Proofs.Outlines
import TreeNotation.Proofs.Text.Layout
import TreeNotation.Proofs.XPath.Unknown
import TreeNotation.Proofs.XPath.Joining
import TreeNotation.Proofs.XPath.Unions
import TreeNotation.Proofs.Text.Payload
import TreeNotation.Proofs.Writing.Brackets
import TreeNotation.Proofs.Writing.Pullback
import TreeNotation.Proofs.Html.Priority
import TreeNotation.Proofs.Checking
import TreeNotation.Proofs.Writing.Recursion
import TreeNotation.Proofs.Termination
