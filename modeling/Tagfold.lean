import Tagfold.CharClass.Basic
import Tagfold.Expr.Dump
import Tagfold.Grammar
import Tagfold.Json.Language
import Tagfold.Proofs.Tag.Registry
import Tagfold.Proofs.Text.Utf8
import Tagfold.Rule.Reducer
import Tagfold.Token.LexiconFile
import Tagfold.Proofs.Rule.Compilation
import Tagfold.Proofs.Reduction.Matching
import Tagfold.Proofs.Decimal.Literal
import Tagfold.Proofs.Reduction.Run
import Tagfold.Proofs.Json.Folding
import Tagfold.Proofs.Json.Reading
import Tagfold.Proofs.Json.Recognition
import Tagfold.Proofs.Token.Splitting
import Tagfold.Proofs.Json.Printing
import Tagfold.Proofs.Json.Lexemes
import Tagfold.Proofs.Json.Acceptance
import Tagfold.Proofs.Json.String
import Tagfold.Proofs.Decimal.Shortest
import Tagfold.Proofs.Json.Number
import Tagfold.Proofs.Json.RoundTrip
import Tagfold.Proofs.Reduction.Iteration
import Tagfold.Proofs.Reduction.Naming
import Tagfold.Proofs.Token.Places
import Tagfold.Proofs.Token.Blanks
import Tagfold.Proofs.Json.Diagnosis
import Tagfold.Proofs.Json.Whitespace
import Tagfold.Proofs.Token.Relocation
import Tagfold.Proofs.Token.Comments
import Tagfold.Proofs.Token.Openings
import Tagfold.Proofs.Token.Positions
import Tagfold.Proofs.Token.Tiling
import Tagfold.Proofs.Tag.History
import Tagfold.Proofs.Grammar.Closure
import Tagfold.Proofs.Grammar.Attribution
import Tagfold.Proofs.Reduction.Equivariance
import Tagfold.Proofs.Json.Layout
import Tagfold.Proofs.Rule.Numbers
import Tagfold.Proofs.Reduction.Candidates
import Tagfold.Proofs.Reduction.Ambiguity
import Tagfold.Proofs.Reduction.Termination
import Tagfold.Proofs.Json.Termination
import Tagfold.Proofs.Token.Escapes
import Tagfold.Proofs.Json.Literals
import Tagfold.Proofs.Json.Reducers
import Tagfold.Proofs.Decimal.Nearest
import Tagfold.Proofs.Json.Integers
import Tagfold.Proofs.Json.Fractions
import Tagfold.Proofs.Json.Members
import Tagfold.Proofs.Json.Values
import Tagfold.Proofs.Json.Keys
import Tagfold.Proofs.Source.Lines
import Tagfold.Proofs.Source.Positions
import Tagfold.Proofs.Source.Joining
import Tagfold.Proofs.Token.Earliest
import Tagfold.Proofs.Grammar.Leaves
import Tagfold.Proofs.Expr.Walk
import Tagfold.Proofs.Expr.Equality
import Tagfold.Proofs.Expr.Dump
import Tagfold.Proofs.Token.Endings
import Tagfold.Proofs.Token.Buffered
