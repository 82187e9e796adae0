import StackScript.Machine.Workbench
import StackScript.Main
import StackScript.Proofs.Lowering.Relocation
import StackScript.Proofs.Machine.Calls
import StackScript.Proofs.Machine.Heights
import StackScript.Proofs.Simulation.Programs
import StackScript.Proofs.Syntax.Completeness
import StackScript.Proofs.Token.Spelling
import StackScript.Proofs.Token.Splitting
import StackScript.Proofs.Syntax.Bare
import StackScript.Proofs.Syntax.Printing
import StackScript.Proofs.Syntax.Following
import StackScript.Proofs.Syntax.Prefixes
import StackScript.Proofs.Syntax.FirstError
import StackScript.Proofs.Machine.Keeping
import StackScript.Proofs.Machine.Output
import StackScript.Proofs.Session.Console
import StackScript.Proofs.Session.Compilation
import StackScript.Proofs.Session.Reports
import StackScript.Proofs.Machine.Agreement
import StackScript.Proofs.Machine.Adversary
import StackScript.Proofs.Machine.Onward
import StackScript.Proofs.Machine.Decoding
import StackScript.Proofs.Machine.Pending
import StackScript.Proofs.Machine.Chain
import StackScript.Proofs.Machine.Traces
import StackScript.Proofs.Draft.Forward
import StackScript.Proofs.Machine.Halting
import StackScript.Proofs.Machine.Leftovers
import StackScript.Proofs.Lowering.Outcomes
import StackScript.Proofs.Lowering.Renaming
import StackScript.Proofs.Machine.Widening
import StackScript.Proofs.Code.Tiling
import StackScript.Proofs.Code.Patching
import StackScript.Proofs.Token.Joining
import StackScript.Proofs.Syntax.Places
import StackScript.Proofs.Syntax.Concatenation
import StackScript.Proofs.Token.Scanning
import StackScript.Proofs.Token.Spacing
import StackScript.Proofs.Syntax.Layouts
import StackScript.Proofs.Listing.Lines
import StackScript.Proofs.Listing.Whole
import StackScript.Proofs.Syntax.Beginnings
import StackScript.Proofs.Lowering.Marking
import StackScript.Proofs.Pool.Interning
import StackScript.Proofs.Chunk.Scopes
import StackScript.Proofs.Syntax.Nesting
import StackScript.Proofs.Lowering.Nesting
import StackScript.Proofs.Session.Nesting
