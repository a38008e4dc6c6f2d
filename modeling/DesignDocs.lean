import DesignDocs.Analyzer
import DesignDocs.Decimal.Shortest
import DesignDocs.Document.Basic
import DesignDocs.Document.Draft
import DesignDocs.Document.Rewrite
import DesignDocs.Document.Script
import DesignDocs.Document.Search
import DesignDocs.Document.Validity
import DesignDocs.Document.View
import DesignDocs.Error.Basic
import DesignDocs.Error.Kind
import DesignDocs.Error.Origin
import DesignDocs.Files.Entry
import DesignDocs.Files.Load
import DesignDocs.Files.Path
import DesignDocs.Files.Tree
import DesignDocs.Files.Walk
import DesignDocs.Index.Basic
import DesignDocs.Index.Body
import DesignDocs.Index.Draft
import DesignDocs.Index.Field
import DesignDocs.Index.Listing
import DesignDocs.Index.SortOrder
import DesignDocs.Index.Validity
import DesignDocs.Json.Basic
import DesignDocs.Json.Fault
import DesignDocs.Json.Number
import DesignDocs.Json.Numeral
import DesignDocs.Json.Quoted
import DesignDocs.Json.Reader
import DesignDocs.Json.Record
import DesignDocs.Json.Render
import DesignDocs.Json.Source
import DesignDocs.Json.Token
import DesignDocs.Json.Variant
import DesignDocs.NamedMap
import DesignDocs.Selector.Basic
import DesignDocs.Selector.Expression
import DesignDocs.Selector.Parse
import DesignDocs.Text.Blank
import DesignDocs.Text.Concealed
import DesignDocs.Text.Quoted
import DesignDocs.Text.Utf8
import DesignDocs.Wire
import DesignDocs.Proofs.Except
import DesignDocs.Proofs.Json.Tokens
import DesignDocs.Proofs.Json.Source
import DesignDocs.Proofs.Json.Lexeme
import DesignDocs.Proofs.Json.Spelling
import DesignDocs.Proofs.Json.Codec
import DesignDocs.Proofs.Json.Equality
import DesignDocs.Proofs.Json.Record
import DesignDocs.Proofs.Analyzer
import DesignDocs.Proofs.Json.Steady
import DesignDocs.Proofs.Document.View
import DesignDocs.Proofs.Document.Rewrite
import DesignDocs.Proofs.Document.Search
import DesignDocs.Proofs.Document.Basic
import DesignDocs.Proofs.Document.RoundTrip
import DesignDocs.Proofs.Index.Body
import DesignDocs.Proofs.Index.Basic
import DesignDocs.Proofs.Index.RoundTrip
import DesignDocs.Proofs.Agreement
import DesignDocs.Proofs.Document.Content
import DesignDocs.Proofs.Json.Kind
import DesignDocs.Proofs.Json.Confined
import DesignDocs.Proofs.Kinds
import DesignDocs.Proofs.History
import DesignDocs.Proofs.Document.Section
import DesignDocs.Proofs.Document.Draft
import DesignDocs.Proofs.Index.Draft
import DesignDocs.Proofs.Json.Members
import DesignDocs.Proofs.Document.Repeats
import DesignDocs.Proofs.Json.Permuted
import DesignDocs.Proofs.Json.Given
import DesignDocs.Proofs.Json.Format
import DesignDocs.Proofs.Json.Layout
import DesignDocs.Proofs.Json.Described
import DesignDocs.Proofs.Format.Analyzer
import DesignDocs.Proofs.Format.Document
import DesignDocs.Proofs.Format.Index
import DesignDocs.Proofs.Format.Value
import DesignDocs.Proofs.MemberOrder
import DesignDocs.Proofs.Writers
import DesignDocs.Proofs.Json.Parts
import DesignDocs.Proofs.Document.Rewritten
import DesignDocs.Proofs.Index.Rewritten
import DesignDocs.Proofs.Files.Path
import DesignDocs.Proofs.Files.Tree
import DesignDocs.Proofs.Files.Walk
import DesignDocs.Proofs.Files.Directory
import DesignDocs.Proofs.Json.Depth
import DesignDocs.Proofs.Document.Depth
import DesignDocs.Proofs.Index.Depth
import DesignDocs.Proofs.Files.Saved
import DesignDocs.Proofs.Json.Illegible
import DesignDocs.Proofs.Text.Trim
import DesignDocs.Proofs.Document.Reducer
import DesignDocs.Proofs.Json.Parse
import DesignDocs.Proofs.Selector.Parse
import DesignDocs.Proofs.Selector.Keyed
import DesignDocs.Proofs.Selector.Accepted
import DesignDocs.Proofs.Selector.Expression
import DesignDocs.Proofs.Selector.Denotation
import DesignDocs.Proofs.Index.FieldSpec
import DesignDocs.Proofs.Json.Replaced
import DesignDocs.Proofs.Index.Misfit
import DesignDocs.Proofs.Json.Appended
import DesignDocs.Proofs.Json.Inserted
import DesignDocs.Proofs.Index.RepeatedKey
import DesignDocs.Proofs.AnalyzerPlaces
import DesignDocs.Proofs.Index.Payload
import DesignDocs.Proofs.Index.Typed
import DesignDocs.Proofs.Document.Interleaved
import DesignDocs.Proofs.Document.Failure
import DesignDocs.Proofs.Document.Rebuilt
import DesignDocs.Proofs.Selector.Padded
import DesignDocs.Proofs.Index.Spellings
import DesignDocs.Proofs.Index.Listing
