import BraceTemplate.Compiled.Decode
import BraceTemplate.Compiled.Encode
import BraceTemplate.Decimal.Binary64
import BraceTemplate.Decimal.Numeral
import BraceTemplate.Decimal.Shortest
import BraceTemplate.Digest.Sha256
import BraceTemplate.Engine.Basic
import BraceTemplate.Engine.Cache
import BraceTemplate.Engine.Config
import BraceTemplate.Error
import BraceTemplate.Expr.Eval
import BraceTemplate.Expr.Fault
import BraceTemplate.Expr.Operator
import BraceTemplate.Expr.Postfix
import BraceTemplate.Expr.Token
import BraceTemplate.Json.Basic
import BraceTemplate.Json.Decode
import BraceTemplate.Json.Double
import BraceTemplate.Json.Parser
import BraceTemplate.Json.Token
import BraceTemplate.Proofs.Compiled.Results
import BraceTemplate.Proofs.Compiled.RoundTrip
import BraceTemplate.Proofs.Compiled.Storable
import BraceTemplate.Proofs.Decimal.Digits
import BraceTemplate.Proofs.Decimal.Doubles
import BraceTemplate.Proofs.Engine.History
import BraceTemplate.Proofs.Engine.Loading
import BraceTemplate.Proofs.Engine.Sessions
import BraceTemplate.Proofs.Expr.Accepting
import BraceTemplate.Proofs.Expr.Bindings
import BraceTemplate.Proofs.Expr.Identity
import BraceTemplate.Proofs.Expr.Infix
import BraceTemplate.Proofs.Expr.Pointing
import BraceTemplate.Proofs.Expr.Quoting
import BraceTemplate.Proofs.Expr.Refusing
import BraceTemplate.Proofs.Expr.Spacing
import BraceTemplate.Proofs.Expr.Spelling
import BraceTemplate.Proofs.Expr.Stack
import BraceTemplate.Proofs.Expr.Tiling
import BraceTemplate.Proofs.Json.Decoding
import BraceTemplate.Proofs.Json.Printing
import BraceTemplate.Proofs.Json.Reading
import BraceTemplate.Proofs.Source.Depth
import BraceTemplate.Proofs.Table
import BraceTemplate.Proofs.Template.Backslashes
import BraceTemplate.Proofs.Template.Bodies
import BraceTemplate.Proofs.Template.Calling
import BraceTemplate.Proofs.Template.Changes
import BraceTemplate.Proofs.Template.Coherence
import BraceTemplate.Proofs.Template.Comments
import BraceTemplate.Proofs.Template.Compiling
import BraceTemplate.Proofs.Template.Composing
import BraceTemplate.Proofs.Template.Cutting
import BraceTemplate.Proofs.Template.Cycles
import BraceTemplate.Proofs.Template.Descent
import BraceTemplate.Proofs.Template.Escaping
import BraceTemplate.Proofs.Template.Expressions
import BraceTemplate.Proofs.Template.Growth
import BraceTemplate.Proofs.Template.Hosting
import BraceTemplate.Proofs.Template.Including
import BraceTemplate.Proofs.Template.Insertion
import BraceTemplate.Proofs.Template.Locating
import BraceTemplate.Proofs.Template.Marking
import BraceTemplate.Proofs.Template.Naming
import BraceTemplate.Proofs.Template.Numbering
import BraceTemplate.Proofs.Template.OpenPaths
import BraceTemplate.Proofs.Template.Outline
import BraceTemplate.Proofs.Template.Placeholders
import BraceTemplate.Proofs.Template.Placing
import BraceTemplate.Proofs.Template.Printing
import BraceTemplate.Proofs.Template.Reading
import BraceTemplate.Proofs.Template.Recovery
import BraceTemplate.Proofs.Template.Rendering
import BraceTemplate.Proofs.Template.Repeating
import BraceTemplate.Proofs.Template.Reusing
import BraceTemplate.Proofs.Template.Setting
import BraceTemplate.Proofs.Template.Showing
import BraceTemplate.Proofs.Template.Splitting
import BraceTemplate.Proofs.Template.Terminating
import BraceTemplate.Proofs.Template.Tracing
import BraceTemplate.Proofs.Template.Validating
import BraceTemplate.Proofs.Value.Comparing
import BraceTemplate.Source.FileTree
import BraceTemplate.Source.Loader
import BraceTemplate.Source.Path
import BraceTemplate.Table
import BraceTemplate.Template.Basic
import BraceTemplate.Template.Compile
import BraceTemplate.Template.Compiler
import BraceTemplate.Template.Cut
import BraceTemplate.Template.Lemmas
import BraceTemplate.Template.Marker
import BraceTemplate.Template.Piece
import BraceTemplate.Template.Placeholder
import BraceTemplate.Template.Render
import BraceTemplate.Text.Blank
import BraceTemplate.Text.Line
import BraceTemplate.Value.Basic
import BraceTemplate.Value.Compare
import BraceTemplate.Value.OfJson
