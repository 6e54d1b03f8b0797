import Ruju.Types.Syntax
import Ruju.Types.Predicates
import Ruju.Types.AlphaEquiv
import Ruju.Types.Rename
import Ruju.Library.Simulation
import Ruju.Library.Stepping
import Ruju.Library.Search
import Ruju.Library.Linked
import Ruju.Subtype.Env
import Ruju.Subtype.Bounds
import Ruju.Subtype.Engine
import Ruju.Subtype.Rename
import Ruju.Subtype.Invariance
import Ruju.Subtype.Alpha
import Ruju.Subtype.Ground
import Ruju.Subtype.GroundRun
import Ruju.Subtype.Words
import Ruju.Subtype.Invariant
import Ruju.Subtype.Expansion
import Ruju.Gc.Heap
import Ruju.Gc.Allocator
import Ruju.Gc.Mark
import Ruju.Gc.Sweep
import Ruju.Gc.SweepBig
import Ruju.Gc.Collect
import Ruju.Gc.Run
import Ruju.Gc.Safety
import Ruju.Interp.Code
import Ruju.Interp.Eval
import Ruju.Library.Keeps
import Ruju.Interp.WellFormed
import Ruju.Library.Text
import Ruju.Loader.Parse
import Ruju.Interp.Boxes
import Ruju.Interp.Arith
import Ruju.Loader.Validation
import Ruju.Loader.Prelower
import Ruju.Loader.Readable
import Ruju.Loader.Printed
import Ruju.Loader.RoundTrip
import Ruju.Frontend.Syntax
import Ruju.Frontend.Lexer
import Ruju.Frontend.Parser
import Ruju.Frontend.ParserSafety
import Ruju.Frontend.Printed
import Ruju.Frontend.RoundTrip
import Ruju.Frontend.Lower
import Ruju.Frontend.Semantics
import Ruju.Frontend.Compile
import Ruju.Frontend.Registry
import Ruju.Frontend.Machine
import Ruju.Frontend.Simulation
import Ruju.Frontend.Statements
import Ruju.Frontend.Programs
import Ruju.Frontend.Toplevel
import Ruju.Frontend.NullFlow
import Ruju.Frontend.FloatExpr
import Ruju.Interp.Dispatch
import Ruju.Library.Placement
import Ruju.Storage.Types
import Ruju.Storage.Layout
import Ruju.Library.Bytes
import Ruju.Storage.Store
import Ruju.Storage.Arrays
import Ruju.Storage.Growth
import Ruju.Storage.ListModel
import Ruju.Storage.Globals
import Ruju.Storage.Fields
import Ruju.Gc.Buffers
import Ruju.Library.Maximal
import Ruju.Subtype.Unions
import Ruju.Subtype.Diagonal
import Ruju.Subtype.Decisions
import Ruju.Gc.Conservation
import Ruju.Library.Dominators
import Ruju.Library.Reducible
import Ruju.Relooper.Cfg
import Ruju.Relooper.Accept
import Ruju.Library.Structured
import Ruju.Relooper.Walk
import Ruju.Relooper.Correct
import Ruju.Relooper.Coverage
import Ruju.Aot.Emit
import Ruju.Aot.Slots
import Ruju.Aot.Checked
import Ruju.Aot.Wasm
import Ruju.Aot.Frames
