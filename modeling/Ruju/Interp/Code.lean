/-!
# The interpreter's code

Lowered statements and operands, as `interp.rs` declares them.  `V` is the type of
values: a boxed constant is a value already.  Symbols are interned, so a symbol is
its text.
-/

namespace Ruju.Interp

/-- A builtin operation invoked by a call statement, without dispatch. -/
inductive Builtin
  | add | sub | mul | div | idiv | rem | and | or | xor | shl | shr | lshr
  | slt | sle | eq | egal
deriving DecidableEq, Repr

/-- The builtin types that source text can name. -/
inductive TypeId
  | any | number | real | integer | signed | unsigned | abstractFloat | bool
  | int8 | int16 | int32 | int64 | uint8 | uint16 | uint32 | uint64
  | float32 | float64 | char | nothing
deriving DecidableEq, Repr

/-- A type that source text can name.  The registry of structs never rebinds a name
to a different definition, so a struct type is given by its name. -/
inductive TypeRef
  | builtin (id : TypeId)
  | struct (name : String)
deriving DecidableEq, Repr

/-- A statement operand. -/
inductive Op (V : Type)
  | ssa (i : Nat)
  | slot (k : Nat)
  | int (c : Int)
  | float (bits : UInt64)
  | const (v : V)
  | global (sym : String)
deriving DecidableEq

/-- Reading the operand makes a box that is in no root. -/
def Op.isLiteral {V : Type} : Op V → Bool
  | .int _ | .float _ => true
  | _ => false

/-- A lowered statement; its result becomes the SSA value of its index.  The body of
a method definition is written out as its slot count and its code. -/
inductive Stmt (V : Type)
  | value (op : Op V)
  | call (b : Builtin) (args : List (Op V))
  | callGeneric (func : Nat) (args : List (Op V))
  | callValue (args : List (Op V))
  | assign (slot : Nat) (op : Op V)
  | assignCall (slot : Nat) (args : List (Op V))
  | assignGlobal (sym : String) (op : Op V)
  | goto (target : Nat)
  | gotoIfNot (cond : Op V) (target : Nat)
  | return (op : Op V)
  | new (ty : TypeRef) (args : List (Op V))
  | getField (op : Op V) (name : String)
  | setField (obj : Op V) (name : String) (rhs : Op V)
  | enter (catchIp : Nat)
  | leave (n : Nat)
  | throw (op : Op V)
  | arrayLit (args : List (Op V))
  | arrayRef (a idx : Op V)
  | arraySet (a idx rhs : Op V)
  | push (a v : Op V)
  | len (a : Op V)
  | isDefined (op : Op V)
  | methodFunc (sym : String)
  | methodDef (f sig : Op V) (nslots : Nat) (code : List (Stmt V))
  | caught
  | assignCaught (slot : Nat)
  | rethrow
  | latestWorld
  | popException (op : Op V)

/-- A lowered body: its number of slots, of which a method's arguments are the
leading ones, and its statements. -/
structure Body (V : Type) where
  nslots : Nat
  code : List (Stmt V)

end Ruju.Interp
