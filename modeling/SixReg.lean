import SixReg.Main
import SixReg.Proofs.Transition
import SixReg.Proofs.Computation
import SixReg.Proofs.Symbol
import SixReg.Proofs.Semantics
import SixReg.Proofs.Tac.Semantics
import SixReg.Proofs.Tac.Locality
import SixReg.Proofs.Tac.Shape
import SixReg.Proofs.Tac.Translation
import SixReg.Proofs.Pool
import SixReg.Proofs.Assembly.Selection
import SixReg.Proofs.Assembly.Liveness
import SixReg.Proofs.Assembly.Layout
import SixReg.Proofs.Assembly.Lowerable
import SixReg.Proofs.Machine.Execution
import SixReg.Proofs.Machine.Encoding
import SixReg.Proofs.Machine.Decoding
import SixReg.Proofs.Assembly.Image
import SixReg.Proofs.Assembly.Simulation
import SixReg.Proofs.Scope.Events
import SixReg.Proofs.Scope
import SixReg.Proofs.Compile
import SixReg.Proofs.Pool.History
import SixReg.Proofs.Assembly.Safety
import SixReg.Proofs.Syntax.Grammar
import SixReg.Proofs.Syntax.Parse
import SixReg.Proofs.Syntax.Demand
import SixReg.Proofs.Tac.Buildable
import SixReg.Proofs.Tac.Pressure
import SixReg.Proofs.Assembly.Encodable
import SixReg.Proofs.Tac.Placement
import SixReg.Proofs.Tac.Discipline
import SixReg.Proofs.Tac.Capacity
import SixReg.Proofs.Accepted
import SixReg.Proofs.Assembly.Failure
import SixReg.Proofs.Rejected
import SixReg.Proofs.Machine.Limit
import SixReg.Proofs.Machine.Call
import SixReg.Proofs.Tac.Storage
import SixReg.Proofs.Syntax.Renaming
import SixReg.Proofs.Scope.Renaming
import SixReg.Proofs.Tac.Renaming
import SixReg.Proofs.Renaming
import SixReg.Proofs.Machine.Bounds
import SixReg.Proofs.Assembly.Allocation
import SixReg.Proofs.Registers
import SixReg.Proofs.Token.Spelling
import SixReg.Proofs.Syntax.Printing
import SixReg.Proofs.Assembly.Addresses
import SixReg.Proofs.Assembly.Listing
import SixReg.Proofs.Syntax.Offender
import SixReg.Proofs.Source.Line
import SixReg.Proofs.Token.Split
import SixReg.Proofs.Syntax.Height
import SixReg.Proofs.Tac.History
import SixReg.Proofs.Symbol.History
import SixReg.Proofs.Assembly.Reuse
import SixReg.Proofs.Assembly.Labels
import SixReg.Proofs.Syntax.Cursor
