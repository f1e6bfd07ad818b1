import CaptureLint.Command.Run
import CaptureLint.Proofs.Capture.Interpolation
import CaptureLint.Proofs.Capture.Items
import CaptureLint.Proofs.Capture.Recognition
import CaptureLint.Proofs.Capture.Signature
import CaptureLint.Proofs.Capture.WholeNames
import CaptureLint.Proofs.Command.Once
import CaptureLint.Proofs.Command.Verdict
import CaptureLint.Proofs.Lint.Accounting
import CaptureLint.Proofs.Lint.Logging
import CaptureLint.Proofs.Lint.Names
import CaptureLint.Proofs.Lint.Placement
import CaptureLint.Proofs.Lint.Statements
import CaptureLint.Proofs.Report.RoundTrip
import CaptureLint.Proofs.Report.Terminal
import CaptureLint.Proofs.Rule.Position
import CaptureLint.Proofs.Structure.FunctionBodies
import CaptureLint.Proofs.Structure.Members
import CaptureLint.Proofs.Structure.Traversal
import CaptureLint.Proofs.Suppression.Marks
import CaptureLint.Proofs.Suppression.Writing
import CaptureLint.Proofs.Text.WordSearch
import CaptureLint.Proofs.Token.Coverage
import CaptureLint.Proofs.Token.OneLine
import CaptureLint.Proofs.Token.Reading
import CaptureLint.Proofs.Walk.Selection
