import Ruju.Interp.Code

/-!
# The source language

The syntax trees of `frontend.rs`: expressions without effects on variables, and
statements.  A float literal is its bits.
-/

namespace Ruju.Frontend

open Interp

inductive BinOp
  | add | sub | mul | div | idiv | rem | and | or | xor | shl | shr | ushr
  | lt | le | gt | ge | eq | egal
deriving DecidableEq, Repr

inductive Expr
  | int (n : Int)
  | float (bits : UInt64)
  | var (name : String)
  | bin (op : BinOp) (lhs rhs : Expr)
  /-- `name(args...)`: a struct constructor, or one of the forms with a name of their own. -/
  | call (name : String) (args : List Expr)
  /-- `base.name` -/
  | field (base : Expr) (name : String)
  /-- `[elems...]` -/
  | arrayLit (elems : List Expr)
  /-- `base[idx]` -/
  | index (base idx : Expr)

inductive SrcStmt
  | assign (name : String) (e : Expr)
  /-- `var.field = e` -/
  | fieldAssign (var field : String) (e : Expr)
  | expr (e : Expr)
  | ite (cond : Expr) (then_ else_ : List SrcStmt)
  | while (cond : Expr) (body : List SrcStmt)
  /-- `try body catch [var] handler end` -/
  | tryCatch (body : List SrcStmt) (var : Option String) (handler : List SrcStmt)
  /-- `try body finally cleanup end` -/
  | tryFinally (body cleanup : List SrcStmt)
  /-- `var[idx] = e` -/
  | indexAssign (var : String) (idx e : Expr)
  /-- `[mutable] struct name; field[::Type]...; end` -/
  | structDef (name : String) (mutabl : Bool) (fields : List (String × Option String))

/-- `binop`: the builtin, and whether the operands are swapped. -/
def binop : BinOp → Builtin × Bool
  | .add => (.add, false)
  | .sub => (.sub, false)
  | .mul => (.mul, false)
  | .div => (.div, false)
  | .idiv => (.idiv, false)
  | .rem => (.rem, false)
  | .and => (.and, false)
  | .or => (.or, false)
  | .xor => (.xor, false)
  | .shl => (.shl, false)
  | .shr => (.shr, false)
  | .ushr => (.lshr, false)
  | .lt => (.slt, false)
  | .le => (.sle, false)
  -- `a > b` is `b < a`
  | .gt => (.slt, true)
  | .ge => (.sle, true)
  | .eq => (.eq, false)
  | .egal => (.egal, false)

/-- The arguments of a binary builtin, given the values or operands of the two sides. -/
def binArgs {α : Type} (op : BinOp) (a b : α) : List α :=
  if (binop op).2 then [b, a] else [a, b]

end Ruju.Frontend
