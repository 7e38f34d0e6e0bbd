import TypedLambda.Source.Walk
import TypedLambda.Parser.Named
import TypedLambda.Main
import TypedLambda.Proofs.TypeSafety
import TypedLambda.Proofs.Precedence.Table
import TypedLambda.Proofs.Grammar.Completeness
import TypedLambda.Proofs.Grammar.ViablePrefix
import TypedLambda.Proofs.RoundTrip
import TypedLambda.Proofs.Substitution.Closures
import TypedLambda.Proofs.Termination
import TypedLambda.Proofs.Layout
import TypedLambda.Proofs.Parser.Progress
import TypedLambda.Proofs.Parser.Reports
import TypedLambda.Proofs.ParseErrors
import TypedLambda.Proofs.Renaming
import TypedLambda.Proofs.OutcomeLines
import TypedLambda.Proofs.Typing.FirstFault
import TypedLambda.Proofs.SessionOrder
import TypedLambda.Proofs.Source.Places
import TypedLambda.Proofs.Parser.Places
import TypedLambda.Proofs.Evaluation.LazyBranches
import TypedLambda.Proofs.Typing.FreeVariables
import TypedLambda.Proofs.Evaluation.Erasure
import TypedLambda.Proofs.Evaluation.Arithmetic
import TypedLambda.Proofs.Evaluation.Overflow
import TypedLambda.Proofs.Grammar.Types
import TypedLambda.Proofs.Grammar.Parentheses
import TypedLambda.Proofs.Composition
import TypedLambda.Proofs.Grammar.Stopping
import TypedLambda.Proofs.Parser.Choice
import TypedLambda.Proofs.Parser.Translation
