import Boogie.Source.LineTable
import Boogie.Text.Blank
import Boogie.Text.Printable
import Boogie.Text.Quoted
import Boogie.Text.Numeral
import Boogie.Token.KindSet
import Boogie.Name
import Boogie.Token.Basic
import Boogie.Token.Lexeme
import Boogie.Token.Scan
import Boogie.Conditional
import Boogie.Diagnostic.Terminal
import Boogie.Literal.Basic
import Boogie.Tree.Decl
import Boogie.Grammar.Basic
import Boogie.Grammar.Variable
import Boogie.Grammar.Cmd
import Boogie.Grammar.Expr
import Boogie.Grammar.Stmt
import Boogie.Grammar.Decl
import Boogie.Reading
import Boogie.Layout.Expr
import Boogie.Layout.Emitter
import Boogie.Layout.Decl
import Boogie.Command.Run
import Boogie.Main
import Boogie.Proofs.Tree.Spans
import Boogie.Proofs.Built.Program
import Boogie.Proofs.Gate
import Boogie.Proofs.Recovery
import Boogie.Proofs.Printed.Pieces
import Boogie.Proofs.Token.Numbers
import Boogie.Proofs.Source.Places
import Boogie.Proofs.Source.Lookup
import Boogie.Proofs.Token.Layout
import Boogie.Proofs.Token.Lossless
import Boogie.Proofs.Termination
import Boogie.Proofs.Token.Local
import Boogie.Proofs.Token.Relaid
import Boogie.Proofs.Relaid
import Boogie.Proofs.Grammar.Reads
import Boogie.Proofs.Derived.Expr
import Boogie.Proofs.Derived.Accepted
import Boogie.Proofs.Grammar.Finds
import Boogie.Proofs.Derived.Found
import Boogie.Proofs.Operators
import Boogie.Proofs.Printed.Names
import Boogie.Proofs.Tree.Induction
import Boogie.Proofs.Literal.Decimal
import Boogie.Proofs.Printed.Literals
import Boogie.Proofs.Printed.Nodes
import Boogie.Proofs.Printed.Texts
import Boogie.Proofs.Printed.Printable
import Boogie.Proofs.Printed.Flows
import Boogie.Proofs.Printed.Whole
import Boogie.Proofs.Printed.Same
import Boogie.Proofs.Printed.Inline
import Boogie.Proofs.Printed.Accepted
import Boogie.Proofs.Printed.Lines
import Boogie.Proofs.Printed.Directives
import Boogie.Proofs.Reread.Lists
import Boogie.Proofs.Reread.Ty
import Boogie.Proofs.Escapes
import Boogie.Proofs.Derived.Grown
import Boogie.Proofs.Selection
import Boogie.Proofs.Reports
import Boogie.Proofs.Chained
import Boogie.Proofs.Reread.Operands
import Boogie.Proofs.Printed.Streamed
import Boogie.Proofs.Token.OneLine
import Boogie.Proofs.Located
import Boogie.Proofs.Reread.Groups
import Boogie.Proofs.Reread.Cmd
import Boogie.Proofs.Reread.Expr
import Boogie.Proofs.Reread.Stmt
import Boogie.Proofs.Reread.Decl
import Boogie.Proofs.Reread.Program
import Boogie.Proofs.RoundTrip.Program
import Boogie.Proofs.RoundTrip.Expr
import Boogie.Proofs.RoundTrip.Groups
import Boogie.Proofs.Derived.Ty
import Boogie.Proofs.Blocks
import Boogie.Proofs.Extract.Ranged
import Boogie.Proofs.Extract.Expr
import Boogie.Proofs.Extract.Stmt
import Boogie.Proofs.Extract.Program
import Boogie.Proofs.Extract.Bounds
import Boogie.Proofs.Definition
import Boogie.Proofs.Parameters
import Boogie.Proofs.Positional
import Boogie.Proofs.Parens.Needed
import Boogie.Proofs.Stray.Program
import Boogie.Proofs.Renamed.Program
import Boogie.Proofs.Literal.Scanned
import Boogie.Proofs.Printed.Numbers
import Boogie.Proofs.Printed.Refused
import Boogie.Proofs.Arguments
import Boogie.Proofs.Token.Nested
import Boogie.Proofs.Grammar.Indexed
import Boogie.Proofs.Nesting.Outermost
import Boogie.Proofs.Nesting.Stretch
import Boogie.Proofs.Nesting.Lays
import Boogie.Proofs.Nesting.Held
import Boogie.Proofs.Nesting.Expr
import Boogie.Proofs.Nesting.Stmt
import Boogie.Proofs.Nesting.Program
import Boogie.Proofs.Nesting.Source
