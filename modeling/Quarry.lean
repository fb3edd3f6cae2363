import Quarry.Binding
import Quarry.Binding.Columns
import Quarry.Catalog
import Quarry.DataType
import Quarry.Error
import Quarry.Evaluation
import Quarry.Expr
import Quarry.Expr.Display
import Quarry.Expr.Equality
import Quarry.Expr.Traversal
import Quarry.Expr.Typing
import Quarry.Folding
import Quarry.Identifier
import Quarry.Materializer
import Quarry.Materializer.Cache
import Quarry.Nomination
import Quarry.Number.Binary64
import Quarry.Number.Decimal
import Quarry.Number.Scaled
import Quarry.Operator
import Quarry.Provider
import Quarry.Query
import Quarry.Reader
import Quarry.Reader.Enumeration
import Quarry.RowSource
import Quarry.RowSource.Memory
import Quarry.Session
import Quarry.Settings
import Quarry.Sql.Command
import Quarry.Sql.Layout
import Quarry.Sql.Literal
import Quarry.Sql.Scalar
import Quarry.Text.Blank
import Quarry.Text.Case
import Quarry.Text.CaseData
import Quarry.Text.Jaro
import Quarry.Text.Json
import Quarry.Value
import Quarry.Value.Cast
import Quarry.Value.Conversion
import Quarry.Proofs.Nomination
import Quarry.Proofs.Columns
import Quarry.Proofs.Derivation
import Quarry.Proofs.Folding
import Quarry.Proofs.Resolution
import Quarry.Proofs.Preservation
import Quarry.Proofs.Correlation
import Quarry.Proofs.Lexical
import Quarry.Proofs.Writability
import Quarry.Proofs.Severity
import Quarry.Proofs.Materialization
import Quarry.Proofs.Safety
import Quarry.Proofs.Serving
import Quarry.Proofs.Translation
import Quarry.Proofs.Literals
import Quarry.Proofs.Quoting
import Quarry.Proofs.Conditions
import Quarry.Proofs.Uniqueness
import Quarry.Proofs.Sites
import Quarry.Proofs.Joins
import Quarry.Proofs.Marking
import Quarry.Proofs.Existence
import Quarry.Proofs.Reading
import Quarry.Proofs.Starting
import Quarry.Proofs.CacheKeys
import Quarry.Proofs.Transparency
import Quarry.Proofs.Cursors
import Quarry.Proofs.Commands
import Quarry.Proofs.Restoration
import Quarry.Proofs.Comments
import Quarry.Proofs.Interpretation
import Quarry.Proofs.NormalForm
import Quarry.Proofs.FreshNames
import Quarry.Proofs.Grammar
import Quarry.Proofs.Grouping
import Quarry.Proofs.Naming
import Quarry.Proofs.Indentation
import Quarry.Proofs.Integers
import Quarry.Proofs.Numerals
import Quarry.Proofs.WholeNumbers
