import Formula.Text.Lines
import Formula.Semantics
import Formula.Semantics.Actions
import Formula.Semantics.Need
import Formula.Machine.Walk
import Formula.Syntax.Grammar
import Formula.Syntax.Printing
import Formula.Main
import Formula.Proofs.Generation
import Formula.Proofs.Stepping
import Formula.Proofs.Simulation
import Formula.Proofs.Preservation
import Formula.Proofs.Resources
import Formula.Proofs.Parsing.Completeness
import Formula.Proofs.Parsing.Acceptance
import Formula.Proofs.Lexing.Numbers
import Formula.Proofs.Lexing.Segmentation
import Formula.History
import Formula.Proofs.Keeping
import Formula.Proofs.Recompiling
import Formula.Proofs.Assignment
import Formula.Proofs.Lexing.Printing
import Formula.Proofs.Parsing.Printing
import Formula.Proofs.Parsing.Depth
import Formula.Proofs.Parsing.Locality
import Formula.Proofs.Parsing.Parentheses
import Formula.Proofs.Parsing.ViablePrefix
import Formula.Proofs.Length
import Formula.Places
import Formula.Proofs.Lexing.Places
import Formula.Syntax.Nodes
import Formula.Proofs.Parsing.Places
import Formula.Proofs.Places
import Formula.Host.Session
import Formula.Proofs.Session
import Formula.Coupling
import Formula.Host.Alike
import Formula.Proofs.Alike
import Formula.Token.Suffix
import Formula.Proofs.Lexing.Suffix
import Formula.Token.Rejection
import Formula.Proofs.Lexing.Rejection
import Formula.Quantities
import Formula.Proofs.Units
import Formula.Proofs.Linking
import Formula.Proofs.Quantities
import Formula.Proofs.Emission
import Formula.Proofs.Parsing.Literals
import Formula.Parser
import Formula.Proofs.Parsing.Limits
import Formula.Proofs.Parsing.Building
import Formula.Proofs.Parsing.Nesting
import Formula.Proofs.Walk
import Formula.Machine.Reservation
import Formula.Proofs.Reservation
import Formula.Arena.PostOrder
import Formula.Proofs.PostOrder
import Formula.Proofs.Listing
import Formula.Token.Joining
import Formula.Proofs.Lexing.Locality
import Formula.Proofs.Lexing.Joining
import Formula.Proofs.Lexing.Variants
import Formula.Machine.Resizing
import Formula.Proofs.Resizing
import Formula.Machine.Answers
import Formula.Proofs.Uses
import Formula.Proofs.Leftovers
import Formula.Proofs.Cells
import Formula.Proofs.Reliability
import Formula.CommandLine.Definition
import Formula.Proofs.CommandLine.Options
import Formula.Proofs.CommandLine.Definitions
import Formula.Text.Moves
import Formula.Proofs.Cursor
