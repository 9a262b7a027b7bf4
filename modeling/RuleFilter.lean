import RuleFilter.Host.Tree
import RuleFilter.Main
import RuleFilter.Proofs.Binary64.Positional
import RuleFilter.Proofs.Rule.Shape
import RuleFilter.Record.Hook
import RuleFilter.Proofs.Text.Class
import RuleFilter.Proofs.Token.Scan
import RuleFilter.Proofs.Token.Append
import RuleFilter.Proofs.Rule.Lexemes
import RuleFilter.Proofs.Reading.Canonical
import RuleFilter.Proofs.Rule.RoundTrip
import RuleFilter.Proofs.Reading.Grammar
import RuleFilter.Proofs.Sql.Name
import RuleFilter.Proofs.Predicate.Text
import RuleFilter.Proofs.Predicate.Threaded
import RuleFilter.Proofs.Sql.Places
import RuleFilter.Proofs.Predicate.Places
import RuleFilter.Proofs.Predicate.Alike
import RuleFilter.Proofs.Sql.Like
import RuleFilter.Proofs.Sql.Truth
import RuleFilter.Proofs.Sql.Fragment
import RuleFilter.Proofs.Sql.Items
import RuleFilter.Proofs.Sql.Scan
import RuleFilter.Proofs.Sql.Written
import RuleFilter.Proofs.Predicate.Reading
import RuleFilter.Proofs.Rule.Compile
import RuleFilter.Proofs.Rule.Meaning
import RuleFilter.Proofs.Reading.Derived
import RuleFilter.Proofs.Reading.Accepted
import RuleFilter.Proofs.Reading.Depth
import RuleFilter.Proofs.Rule.Canonical
import RuleFilter.Proofs.Rule.Payload
import RuleFilter.Proofs.Rule.Encoding
import RuleFilter.Proofs.Rule.Exchange
import RuleFilter.Proofs.Binary64.Whole
import RuleFilter.Proofs.Schema.Value
import RuleFilter.Proofs.Rule.Mismatch
import RuleFilter.Proofs.Rule.Parameters
import RuleFilter.Proofs.Predicate.Collapse
import RuleFilter.Proofs.Rule.Stored
import RuleFilter.Proofs.Rule.Limits
import RuleFilter.Proofs.Rule.Joined
import RuleFilter.Proofs.Predicate.Structure
import RuleFilter.Proofs.Sql.Literal
import RuleFilter.Proofs.Sql.Unnumbered
import RuleFilter.Proofs.Predicate.Dialects
import RuleFilter.Proofs.Predicate.Qualified
import RuleFilter.Proofs.Record.Escaped
import RuleFilter.Proofs.Rule.Readable
import RuleFilter.Proofs.Record.Chain
import RuleFilter.Proofs.Record.Localized
import RuleFilter.Proofs.Schema.Index
import RuleFilter.Proofs.Schema.Document
import RuleFilter.Proofs.Schema.Filterable
import RuleFilter.Proofs.Schema.Restriction
import RuleFilter.Schema.Decode
import RuleFilter.Proofs.Schema.Decode
import RuleFilter.Proofs.Schema.Exchange
import RuleFilter.Proofs.Record.Filled
import RuleFilter.Proofs.Record.Sequence
import RuleFilter.Proofs.Record.Numbered
import RuleFilter.Proofs.Record.Independent
import RuleFilter.Proofs.Text.Entity
import RuleFilter.Proofs.Text.Replace
import RuleFilter.Proofs.Record.Encoded
import RuleFilter.Proofs.Record.Translated
import RuleFilter.Proofs.Entries
import RuleFilter.Proofs.Form.Precedence
import RuleFilter.Proofs.Form.Fixed
import RuleFilter.Proofs.Rule.Recovered
import RuleFilter.Proofs.Rule.Refusal
import RuleFilter.Proofs.Json.Structure
import RuleFilter.Proofs.Json.Numeral
import RuleFilter.Proofs.Json.Scan
import RuleFilter.Proofs.Json.Written
import RuleFilter.Proofs.Json.Value
import RuleFilter.Proofs.Settings.Document
import RuleFilter.Proofs.Settings.Layers
import RuleFilter.Proofs.Settings.Sections
import RuleFilter.Proofs.Token.Located
import RuleFilter.Proofs.Reading.Complaint
import RuleFilter.Proofs.Reading.Machine
import RuleFilter.Proofs.Reading.Bounds
import RuleFilter.Proofs.Reading.Run
import RuleFilter.Proofs.Rule.Fault
import RuleFilter.Proofs.Rule.Offence
import RuleFilter.Proofs.Reading.Respelled
import RuleFilter.Proofs.Rule.Respelled
import RuleFilter.Proofs.Binary64.Exact
import RuleFilter.Proofs.Token.Number
import RuleFilter.Proofs.Token.Tile
import RuleFilter.Proofs.Command.Source
import RuleFilter.Proofs.Host.Path
import RuleFilter.Proofs.Rule.Named
import RuleFilter.Proofs.Rule.Integer
