import Naskah.Main
import Naskah.Proofs.Grammar.Basic
import Naskah.Proofs.Grammar.Words
import Naskah.Proofs.Parser.Step
import Naskah.Proofs.Grammar.ExpressionComplete
import Naskah.Proofs.Grammar.StatementComplete
import Naskah.Proofs.Parser.Reads
import Naskah.Proofs.Grammar.ExpressionSound
import Naskah.Proofs.Grammar.StatementSound
import Naskah.Proofs.Grammar.Exact
import Naskah.Proofs.Grammar.FirstError
import Naskah.Proofs.Alike.Parser
import Naskah.Proofs.Alike.Machine
import Naskah.Proofs.Alike.Run
import Naskah.Proofs.Session.Diagnostics
import Naskah.Proofs.Token.Lines
import Naskah.Proofs.Session.Reformat
import Naskah.Proofs.Machine.Depth
import Naskah.Proofs.Session.Entries
import Naskah.Proofs.Grammar.Segment
import Naskah.Proofs.Grammar.Recovery
import Naskah.Proofs.Machine.Discipline
import Naskah.Proofs.Scope.Frame
import Naskah.Proofs.Scope.Names
import Naskah.Proofs.Scope.Nesting
import Naskah.Proofs.Machine.Conduct
import Naskah.Proofs.Session.Runs
import Naskah.Proofs.Session.Returns
import Naskah.Proofs.Grammar.Fitting
import Naskah.Proofs.Session.Faults
import Naskah.Proofs.Session.Reports
import Naskah.Proofs.Session.Cut
import Naskah.Proofs.Grammar.Braces
import Naskah.Proofs.Session.Prompt
import Naskah.Proofs.Machine.Trace
import Naskah.Proofs.Session.CutOff
import Naskah.Proofs.Session.OutputLines
import Naskah.Proofs.Scope.Tree
import Naskah.Proofs.Session.Unmentioned
import Naskah.Proofs.Token.Munch
import Naskah.Proofs.Token.Spaced
import Naskah.Proofs.Grammar.Longest
import Naskah.Proofs.Parser.Manner
import Naskah.Proofs.Parser.Blame
import Naskah.Proofs.Parser.Bounds
import Naskah.Proofs.Grammar.Beginnings
import Naskah.Proofs.Parser.Ending
import Naskah.Proofs.Parser.Attempt
import Naskah.Proofs.Parser.Termination
import Naskah.Proofs.Scope.Writing
import Naskah.Proofs.Session.Groups
import Naskah.Proofs.Grammar.Matching
import Naskah.Proofs.Parser.Stack
import Naskah.Proofs.Parser.Stray
