import Mathlib.Data.PNat.Defs
import Ruju.Loader.Parse

/-!
# The producer of the line format

`tools/prelower.jl`: lowered code as lines of text.  A form that the producer rejects
makes it fail with a message.  SSA values, slots and labels count from 1 here and from
0 in the format; inside a method body the slot `#self#` is dropped too.

Values that the producer cannot print occur only through the text that its message
shows of them.  A type constant is its name, as `nameof` gives it, with the parameters that
it has been given: `Vector{Int64}` is `Array` with two of them, and a type that its name
alone denotes has none.  A `Union` has no name, and `nameof` throws.
-/

namespace Ruju.Prelower

open Interp Text

/-- A constant in lowered code. -/
inductive Lit
  | bool (b : Bool)
  | int64 (n : Int64)
  | float64 (bits : UInt64)
  | nothing
  | symbol (s : String)
  | lineNumberNode
  | module (name : String)
  | function (name : String)
  | type (name : String) (params : List String)
  | other (repr type : String)
deriving DecidableEq

/-- An operand in lowered code. -/
inductive Arg
  | ssaValue (id : ℕ+)
  | slotNumber (id : ℕ+)
  | globalRef (name : String)
  | quoteNode (value : Lit)
  | lit (value : Lit)
deriving DecidableEq

/-- The left side of an assignment. -/
inductive Lhs
  | slotNumber (id : ℕ+)
  | other (repr : String)
deriving DecidableEq

/-- The right side of an assignment. -/
inductive Rhs
  | call (args : List Arg)
  | theException
  | expr (head : String)
  | arg (a : Arg)
deriving DecidableEq

/-- The name in a method declaration. -/
inductive MethodName
  | globalRef (name : String)
  | symbol (name : String)
  | other (repr : String)
deriving DecidableEq

/-- A statement of a `CodeInfo`.  A method definition holds the slot names and the
code of its body. -/
inductive Node
  | goto (label : ℕ+)
  | gotoIfNot (cond : Arg) (dest : ℕ+)
  | return (val : Option Arg)
  | enter (catchDest : ℕ+) (hasScope : Bool)
  | call (args : List Arg)
  | assign (lhs : Lhs) (rhs : Rhs)
  | leave (args : List Arg)
  | popException (arg : Arg)
  | theException
  | latestWorld
  | method1 (name : MethodName)
  | method3 (f sig : Arg) (slotnames : List String) (code : List Node)
  | methodExternal
  | expr (head : String)
  | value (arg : Arg)

/-- What `Meta.lower` gives for an expression of the file. -/
inductive Lowered
  | thunk (slotnames : List String) (code : List Node)
  | error (msg : String)
  | symbol (s : String)
  | lit (value : Lit)

/-- A line, and a result of the producer: a message, or something printed. -/
abbrev Line := List Char

/-! ### Operands -/

/-- `"$n"` for a number. -/
def num (n : Nat) : Line := Nat.toDigits 10 n

/-- `constop` -/
def constop : Lit → Except String Line
  | .bool b => .ok ("bool:".toList ++ if b then ['1'] else ['0'])
  | .int64 n => .ok ("int:".toList ++ showInt n.toInt)
  | .float64 bits => .ok ("f64:".toList ++ Nat.toDigits 16 bits.toNat)
  | .nothing => .ok "nothing".toList
  | .symbol s => .ok ("sym:".toList ++ s.toList)
  | .lineNumberNode => .ok "nothing".toList
  | .module _ => .ok "module".toList
  | .function name => .ok ("global:".toList ++ name.toList)
  -- `nameof` drops the parameters
  | .type name _ => .ok ("global:".toList ++ name.toList)
  | .other repr type => .error ("unsupported constant " ++ repr ++ " :: " ++ type)

/-- `op` -/
def op (shift : Nat) : Arg → Except String Line
  | .ssaValue id => .ok ("ssa:".toList ++ num (id - 1))
  | .slotNumber id =>
    if (id : Nat) < shift then
      .error "method body references #self# (unsupported until dispatch passes the callee)"
    else .ok ("slot:".toList ++ num (id - shift))
  | .globalRef name => .ok ("global:".toList ++ name.toList)
  | .quoteNode value => constop value
  | .lit value => constop value

/-- The operands of a call. -/
def ops (shift : Nat) : List Arg → Except String (List Line)
  | [] => .ok []
  | a :: args => do
    let w ← op shift a
    let ws ← ops shift args
    .ok (w :: ws)

/-! ### Statements -/

/-- An assignment. -/
def emitAssign (shift : Nat) : Lhs → Rhs → Except String Line
  | .other repr, _ => .error ("assignment to " ++ repr ++ " (expected a slot)")
  | .slotNumber id, rhs =>
    if (id : Nat) < shift then .error "assignment to #self#"
    else
      match rhs with
      | .call args => do
        let ws ← ops shift args
        .ok ("assigncall ".toList ++ num (id - shift) ++ [' '] ++ unwords ws)
      | .theException => .ok ("assigncaught ".toList ++ num (id - shift))
      | .expr head => .error ("assignment rhs :" ++ head ++ " (unsupported)")
      | .arg a => do
        let w ← op shift a
        .ok ("assign ".toList ++ num (id - shift) ++ [' '] ++ w)

/-- How many handlers a `leave` pops. -/
def leaveCount (args : List Arg) : Nat := args.countP fun a => a ≠ .lit .nothing

/-- The slot names start with `#self#`. -/
def hasSelf (slotnames : List String) : Bool := slotnames.head? == some "#self#"

/-- The statements that take one line: all but a method definition. -/
def emitLine (shift : Nat) : Node → Except String Line
  | .goto label => .ok ("goto ".toList ++ num (label - 1))
  | .gotoIfNot cond dest => do
    let w ← op shift cond
    .ok ("gotoifnot ".toList ++ w ++ [' '] ++ num (dest - 1))
  | .return none => .error "unreachable ReturnNode"
  | .return (some val) => do
    let w ← op shift val
    .ok ("return ".toList ++ w)
  | .enter catchDest hasScope =>
    if hasScope then .error "scoped EnterNode (unsupported)"
    else .ok ("enter ".toList ++ num (catchDest - 1))
  | .call args => do
    let ws ← ops shift args
    .ok ("call ".toList ++ unwords ws)
  | .assign lhs rhs => emitAssign shift lhs rhs
  | .leave args => .ok ("leave ".toList ++ num (leaveCount args))
  | .popException arg => do
    let w ← op shift arg
    .ok ("pop_exception ".toList ++ w)
  | .theException => .ok "the_exception".toList
  | .latestWorld => .ok "latestworld".toList
  | .method1 (.globalRef name) => .ok ("method1 ".toList ++ name.toList)
  | .method1 (.symbol name) => .ok ("method1 ".toList ++ name.toList)
  | .method1 (.other repr) => .error ("method declaration of " ++ repr)
  | .method3 _ _ _ _ => .error "3-arg :method without inline CodeInfo"
  | .methodExternal => .error "3-arg :method without inline CodeInfo"
  | .expr head => .error ("unsupported lowered form Expr(:" ++ head ++ ", ...)")
  | .value arg => do
    let w ← op shift arg
    .ok ("value ".toList ++ w)

/-- The line of a method definition whose body took `n` lines. -/
def emitMethodHead (shift : Nat) (f sig : Arg) (slotnames : List String) (n : Nat) :
    Except String Line :=
  if hasSelf slotnames then do
    let fw ← op shift f
    let sw ← op shift sig
    .ok ("method3 ".toList ++ fw ++ [' '] ++ sw ++ [' '] ++ num (slotnames.length - 1) ++
      [' '] ++ num n)
  else .error ":method body without leading #self# slot"

mutual

/-- `emit_stmt` and `emit_expr`: the lines of a statement. -/
def emitStmt (shift : Nat) : Node → Except String (List Line)
  | .method3 f sig slotnames code => do
    -- the count that is printed is that of the lines
    let inner ← emitBody 2 code
    let head ← emitMethodHead shift f sig slotnames inner.length
    .ok (head :: inner)
  | node => (emitLine shift node).map fun l => [l]

/-- `emit_body` -/
def emitBody (shift : Nat) : List Node → Except String (List Line)
  | [] => .ok []
  | node :: code => do
    let first ← emitStmt shift node
    let rest ← emitBody shift code
    .ok (first ++ rest)

end

/-! ### Files -/

/-- The line `thunk <nslots> <nstmts>`. -/
def thunkHead (nslots nstmts : Nat) : Line :=
  "thunk ".toList ++ num nslots ++ [' '] ++ num nstmts

/-- The lines of one expression of the file. -/
def emitLowered : Lowered → Except String (List Line)
  | .thunk slotnames code => do
    let body ← emitBody 1 code
    .ok (thunkHead slotnames.length code.length :: body)
  | .error msg => .error ("lowering error: " ++ msg)
  | .symbol s =>
    .ok ["thunk 0 2".toList, "value global:".toList ++ s.toList, "return ssa:0".toList]
  | .lit value => do
    let w ← constop value
    .ok ["thunk 0 2".toList, "value ".toList ++ w, "return ssa:0".toList]

/-- The lines of all of them. -/
def emitAll : List Lowered → Except String (List Line)
  | [] => .ok []
  | e :: es => do
    let first ← emitLowered e
    let rest ← emitAll es
    .ok (first ++ rest)

/-- The header line, with the digits of the reference commit. -/
def headerLine (commit : List (Fin 16)) : Line :=
  "RUJU_LOWERED ".toList ++ num 1 ++ [' '] ++ commit.map fun d => d.val.digitChar

/-- `main`: the text that is printed. -/
def prelower (commit : List (Fin 16)) (exs : List Lowered) : Except String String :=
  (emitAll exs).map fun chunks => String.ofList (unlines (headerLine commit :: chunks))

end Ruju.Prelower
