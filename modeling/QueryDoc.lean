import QueryDoc.OrderedMap
import QueryDoc.Decimal
import QueryDoc.Binary64
import QueryDoc.Binary64.Shortest
import QueryDoc.Character
import QueryDoc.Text
import QueryDoc.Value
import QueryDoc.Node
import QueryDoc.Node.Text
import QueryDoc.Node.Equality
import QueryDoc.Operation
import QueryDoc.Source.Lexeme
import QueryDoc.Source.Mask
import QueryDoc.Grammar.BlockString
import QueryDoc.Grammar.QuotedString
import QueryDoc.Grammar.Token
import QueryDoc.Canonical
import QueryDoc.Json.Reader
import QueryDoc.Stored.Reader
import QueryDoc.Stored.Writer
import QueryDoc.Proofs.Character
import QueryDoc.Proofs.Source.Form
import QueryDoc.Proofs.Source.Cut
import QueryDoc.Proofs.Source.Places
import QueryDoc.Proofs.Source.Placeholder
import QueryDoc.Proofs.Source.Masking
import QueryDoc.Proofs.Grammar.Number
import QueryDoc.Proofs.Grammar.Form
import QueryDoc.Proofs.Grammar.Agreement
import QueryDoc.Proofs.Grammar.Exact
import QueryDoc.Proofs.Grammar.Derivation
import QueryDoc.Proofs.Grammar.Soundness
import QueryDoc.Proofs.Grammar.Completeness
import QueryDoc.Proofs.Source.Pieces
import QueryDoc.Proofs.Grammar.Literals
import QueryDoc.Proofs.Source.Touching
import QueryDoc.Proofs.Source.Unmasking
import QueryDoc.Proofs.Grammar.Filling
import QueryDoc.Proofs.Grammar.Executable
import QueryDoc.Proofs.Grammar.Reading
import QueryDoc.Proofs.Acceptance
import QueryDoc.Proofs.Grammar.Spelling
import QueryDoc.Proofs.Grammar.Restoring
import QueryDoc.Proofs.Grammar.Joining
import QueryDoc.Proofs.Grammar.Strings
import QueryDoc.Proofs.Grammar.Printing
import QueryDoc.Proofs.Canonicalization
import QueryDoc.Proofs.Source.Layout
import QueryDoc.Proofs.Value
import QueryDoc.Proofs.Document
import QueryDoc.Proofs.Rendering
import QueryDoc.Proofs.Restoration
import QueryDoc.Proofs.Grammar.Reprinting
import QueryDoc.Proofs.Bytes
import QueryDoc.Proofs.OrderedMap
import QueryDoc.Proofs.Tree
import QueryDoc.Proofs.Fragments
import QueryDoc.Proofs.Building
import QueryDoc.Proofs.Reordering
import QueryDoc.Proofs.Source.Placing
import QueryDoc.Proofs.Grammar.ObjectValue
import QueryDoc.Proofs.Grammar.Renaming
import QueryDoc.Proofs.Grammar.Shown
import QueryDoc.Proofs.Parsed
import QueryDoc.Proofs.Printed
import QueryDoc.Proofs.Idempotence
import QueryDoc.Proofs.StringValues
import QueryDoc.Proofs.Decimal
import QueryDoc.Proofs.Binary64.Rounding
import QueryDoc.Proofs.Binary64.Reading
import QueryDoc.Proofs.Value.Tokens
import QueryDoc.Proofs.Value.Readability
import QueryDoc.Proofs.Json.Reading
import QueryDoc.Proofs.Stored.Structures
import QueryDoc.Proofs.Stored.RoundTrip
import QueryDoc.Proofs.Replay.Edits
import QueryDoc.Proofs.Replay.Calls
import QueryDoc.Proofs.Source.Bytes
import QueryDoc.Proofs.Source.Gaps
import QueryDoc.Proofs.Source.Splicing
import QueryDoc.Proofs.Grammar.NormalForm
import QueryDoc.Proofs.Binary64.Notation
import QueryDoc.Proofs.Value.FloatLiteral
import QueryDoc.Proofs.Context
import QueryDoc.Proofs.Surroundings
import QueryDoc.Proofs.Conditions
