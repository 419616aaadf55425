import ExprFront.Arena.Invariant
import ExprFront.CommandLine.Run
import ExprFront.Main
import ExprFront.Proofs.Arena.Checked
import ExprFront.Proofs.Arena.Histories
import ExprFront.Proofs.Faultless
import ExprFront.Proofs.Grouping.Arranged
import ExprFront.Proofs.Grouping.MappedBack
import ExprFront.Proofs.Grouping.Terms
import ExprFront.Proofs.Phrase.Subtrees
import ExprFront.Proofs.Reread
import ExprFront.Proofs.ScopeLines
import ExprFront.Proofs.Session.Beyond
import ExprFront.Proofs.Session.Compact
import ExprFront.Proofs.Session.Excerpt
import ExprFront.Proofs.Session.Limits
import ExprFront.Proofs.Session.Longest
import ExprFront.Proofs.Session.Metered
import ExprFront.Proofs.Session.Reused
import ExprFront.Proofs.Session.Routes
import ExprFront.Proofs.Session.Valued
import ExprFront.Proofs.SourceText
import ExprFront.Proofs.Token.Located
import ExprFront.Proofs.Token.Quoted
import ExprFront.Proofs.Token.Sliced
import ExprFront.Proofs.Token.Spaced
import ExprFront.Vocabulary.Reference
