import LoxSyntax.Comparison
import LoxSyntax.Expr.Description
import LoxSyntax.Expr.PrefixText
import LoxSyntax.Expr.Record
import LoxSyntax.Main
import LoxSyntax.Parse.Operation
import LoxSyntax.Proofs.Parse.Blame
import LoxSyntax.Proofs.Lexical.Division
import LoxSyntax.Proofs.Lexical.Numeral
import LoxSyntax.Proofs.Parse.Acceptance
import LoxSyntax.Reporter.Use
import LoxSyntax.Scan.Operation
import LoxSyntax.Proofs.Run.RoundTrip
import LoxSyntax.Proofs.Parse.Access
import LoxSyntax.Proofs.Scan.Stepwise
import LoxSyntax.Proofs.Scan.Writing
import LoxSyntax.Proofs.Run.Totality
import LoxSyntax.Proofs.Scan.History
import LoxSyntax.Proofs.Run.Session
import LoxSyntax.Proofs.Parse.History
import LoxSyntax.Proofs.Run.Strictness
import LoxSyntax.Proofs.Run.FileInput
import LoxSyntax.Proofs.Run.JsonOutput
import LoxSyntax.Proofs.Run.Accounting
import LoxSyntax.Proofs.Scan.LineNumbers
import LoxSyntax.Proofs.Expr.PrefixText
import LoxSyntax.Proofs.Grammar.Limit
import LoxSyntax.Proofs.Parse.Nesting
import LoxSyntax.Proofs.Scan.Concatenation
import LoxSyntax.Proofs.Scan.Resumption
import LoxSyntax.Proofs.Scan.Extension
import LoxSyntax.Proofs.Scan.Trivia
import LoxSyntax.Proofs.Grammar.Locality
import LoxSyntax.Proofs.Parse.Locality
import LoxSyntax.Proofs.Parse.Substitution
import LoxSyntax.Proofs.Expr.Equality
import LoxSyntax.Proofs.Expr.Lines
import LoxSyntax.Proofs.Expr.Printing
import LoxSyntax.Proofs.Expr.Description
import LoxSyntax.Proofs.Run.Termination
