import SnippetConsole.Json.Values
import SnippetConsole.Outcome
import SnippetConsole.CommandLine
import SnippetConsole.Main
import SnippetConsole.Proofs.Run.Layout
import SnippetConsole.Proofs.Statement.Semicolons
import SnippetConsole.Proofs.Statement.FirstToken
import SnippetConsole.Proofs.Run.NoiseParts
import SnippetConsole.Proofs.Run.Concatenation
import SnippetConsole.Proofs.Run.Limits
import SnippetConsole.Proofs.Run.Literals
import SnippetConsole.Proofs.Machine.Frame
import SnippetConsole.Proofs.Machine.InPlace
import SnippetConsole.Proofs.Expr.Mentions
import SnippetConsole.Proofs.Run.Output
import SnippetConsole.Proofs.Machine.Commutation
import SnippetConsole.Proofs.Token.Spacing
import SnippetConsole.Proofs.Expr.Kinds
import SnippetConsole.Proofs.Statement.Spacing
import SnippetConsole.Proofs.Statement.Grammar
import SnippetConsole.Proofs.Statement.Forms
import SnippetConsole.Proofs.Statement.Nested
import SnippetConsole.Proofs.Token.Cover
import SnippetConsole.Proofs.Run.Accounting
import SnippetConsole.Proofs.Expr.Numeric
import SnippetConsole.Proofs.Expr.Budget
import SnippetConsole.Proofs.Expr.Joining
import SnippetConsole.Proofs.Expr.Appending
import SnippetConsole.Proofs.Expr.Holes
import SnippetConsole.Proofs.Machine.Sizes
import SnippetConsole.Proofs.Expr.Overrun
import SnippetConsole.Proofs.Machine.Updates
import SnippetConsole.Proofs.Expr.Intermediate
import SnippetConsole.Proofs.Statement.Order
import SnippetConsole.Proofs.Token.Unclosed
import SnippetConsole.Proofs.Decimal.Whole
import SnippetConsole.Proofs.Expr.SlotText
import SnippetConsole.Proofs.Expr.Calls
import SnippetConsole.Proofs.Expr.Unnamed
import SnippetConsole.Proofs.Run.SlotLines
import SnippetConsole.Proofs.Statement.Division
import SnippetConsole.Proofs.Run.LineTable
import SnippetConsole.Proofs.Json.RoundTrip
