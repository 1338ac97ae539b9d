import Pseudocode.Main
import Pseudocode.Proofs.CSource.Formats
import Pseudocode.Proofs.CSource.Scopes
import Pseudocode.Proofs.Comments
import Pseudocode.Proofs.Expression.Arguments
import Pseudocode.Proofs.Expression.Targets
import Pseudocode.Proofs.Expression.Conditions
import Pseudocode.Proofs.Flow.Rendering
import Pseudocode.Proofs.Flow.Steps
import Pseudocode.Proofs.Flow.Truncation
import Pseudocode.Proofs.Outputs
import Pseudocode.Proofs.Program.Attribution
import Pseudocode.Proofs.Program.Layout
import Pseudocode.Proofs.Program.Spacing
import Pseudocode.Proofs.Run.Cleared
import Pseudocode.Proofs.Run.Following
import Pseudocode.Proofs.Run.Writing
import Pseudocode.Proofs.Script.Indentation
import Pseudocode.Proofs.Session.Delivery
import Pseudocode.Proofs.Statement.Case
