import Ruju.Frontend.Lower

/-!
# What a source program means

A big-step semantics of the syntax trees, with nothing of the interpreter's frame,
handlers or exception stack in it.  Primitive operations are the interpreter's own, and
among them is `Prims.keep`: where the code holds the box of a literal in no root, the
operation is carried out on what is found there.  With `Prims.rooted` primitives, whose
boxes are all kept, this is the meaning of the program by itself.

An expression is evaluated from left to right; it reads variables and changes the heap,
and ends with a value or an exception.  A statement may change variables too, and may
run for ever: a loop gets `fuel` rounds, and a statement that needs more has no result
with this fuel.

`escaped` tells of an exception that it was raised inside a catch clause or went
through a finally clause.  It is carried along only; nothing depends on it.
-/

namespace Ruju.Frontend

open Interp

/-- An exception on its way. -/
structure Raised (V : Type) where
  exc : V
  escaped : Bool

/-- The variables and the heap. -/
structure Env (V H : Type) where
  vars : String → V
  heap : H

/-- `name = v` -/
def Env.assign {V H : Type} (env : Env V H) (name : String) (v : V) : Env V H :=
  { env with vars := fun x => if x = name then v else env.vars x }

@[simp]
theorem Env.assign_self {V H : Type} (env : Env V H) (name : String) (v : V) :
    (env.assign name v).vars name = v := if_pos rfl

theorem Env.assign_of_ne {V H : Type} {env : Env V H} {name x : String} {v : V} (h : x ≠ name) :
    (env.assign name v).vars x = env.vars x := if_neg h

/-- The evaluation of a statement: out of fuel, or an exception or a result, with the
variables and the heap after it. -/
abbrev SrcM (V H : Type) := ExceptT (Raised V) (StateT (Env V H) Option)

section Semantics

variable {V H : Type} [DecidableEq V] (P : Prims V H) (structs : List StructDef)

/-! ### Expressions -/

/-- An exception from nowhere. -/
def throwHeap {α : Type} (e : V) : HeapOp V H α := fun h => (.error e, h)

/-- Whether the value of an expression is the box of a literal. -/
def Expr.isLiteral : Expr → Bool
  | .int _ | .float _ => true
  | _ => false

/-- A call, with its arguments evaluated; each comes with whether it is a literal. -/
def Callee.apply : Callee → List (Bool × V) → HeapOp V H V
  | .throw, [v] => throwHeap v.2
  | .push, [a, v] => do
    let a ← P.keep a.1 v.1 a.2
    P.push a v.2
    pure a
  | .length, [a] => P.arrayLenOp a.2
  | .new ty, vals => P.wrapMsg (P.newStruct ty (structDef structs ty) (vals.map (·.2)))
  | _, vals => P.arrayLit (vals.map (·.2))

mutual

/-- The value of an expression. -/
def evalExpr (vars : String → V) : Expr → HeapOp V H V
  | .int n => pure (P.boxInt n)
  | .float bits => pure (P.boxFloat bits)
  | .var name => pure (vars name)
  | .bin op lhs rhs => do
    let a ← evalExpr vars lhs
    let b ← evalExpr vars rhs
    P.apply (binop op).1 (binArgs op a b)
  | .call name args =>
    match callee structs name args.length with
    | .error msg => P.error msg
    | .ok f => do
      let vals ← evalExprs vars args
      f.apply P structs ((args.map Expr.isLiteral).zip vals)
  | .field base name => do
    let v ← evalExpr vars base
    P.getField v name
  | .arrayLit elems => do
    let vals ← evalExprs vars elems
    P.arrayLit vals
  | .index base idx => do
    let a ← evalExpr vars base
    let i ← evalExpr vars idx
    let a ← P.keep base.isLiteral idx.isLiteral a
    P.arrayRef a i

/-- The values of arguments, from left to right. -/
def evalExprs (vars : String → V) : List Expr → HeapOp V H (List V)
  | [] => pure []
  | e :: es => do
    let v ← evalExpr vars e
    let vs ← evalExprs vars es
    pure (v :: vs)

end

/-! ### Statements -/

/-- An operation on the heap, as part of a statement. -/
def liftHeap {α : Type} (f : HeapOp V H α) : SrcM V H α := fun env =>
  match f env.heap with
  | (.ok a, h) => some (.ok a, { env with heap := h })
  | (.error e, h) => some (.error ⟨e, false⟩, { env with heap := h })

/-- An expression, as part of a statement. -/
def expr (e : Expr) : SrcM V H V := fun env => liftHeap (evalExpr P structs env.vars e) env

/-- `name = v` -/
def setVar (name : String) (v : V) : SrcM V H Unit := fun env => some (.ok (), env.assign name v)

/-- The value of a condition. -/
def truth (v : V) : SrcM V H Bool := fun env => some (.ok (P.unboxBool v env.heap), env)

/-- `while`, for at most `fuel` rounds. -/
def loop (cond : SrcM V H Bool) (body : SrcM V H Unit) : Nat → SrcM V H Unit
  | 0 => fun _ => none
  | fuel + 1 => do
    if ← cond then
      body
      loop cond body fuel

/-- `try body catch`: the handler gets the exception that ended the body, and an
exception that leaves it has escaped. -/
def catching (body : SrcM V H Unit) (handler : V → SrcM V H Unit) : SrcM V H Unit := fun env =>
  match body env with
  | some (.error r, env') =>
    match handler r.exc env' with
    | some (.error r', env'') => some (.error ⟨r'.exc, true⟩, env'')
    | result => result
  | result => result

/-- `try body finally`: the cleanup runs after the body, whichever way it ended, and an
exception of the body goes on after it. -/
def finalizing (body cleanup : SrcM V H Unit) : SrcM V H Unit := fun env =>
  match body env with
  | some (.ok (), env') => cleanup env'
  | some (.error r, env') =>
    match cleanup env' with
    | some (.ok (), env'') => some (.error ⟨r.exc, true⟩, env'')
    | some (.error r', env'') => some (.error ⟨r'.exc, true⟩, env'')
    | none => none
  | none => none

/-- `catch name` -/
def bindCaught : Option String → V → SrcM V H Unit
  | none, _ => pure ()
  | some name, e => setVar name e

/-- Without the value. -/
def discard {α : Type} (m : SrcM V H α) : SrcM V H Unit := do
  let _ ← m
  pure ()

mutual

/-- A statement, with its value if it has one.  A struct definition does nothing when
it is executed. -/
def evalStmt (fuel : Nat) : SrcStmt → SrcM V H (Option V)
  | .assign name e => do
    let v ← expr P structs e
    setVar name v
    pure (some v)
  | .fieldAssign var field e => do
    let rhs ← expr P structs e
    let obj ← expr P structs (.var var)
    liftHeap (P.setField obj field rhs)
    pure (some rhs)
  | .expr e => do
    let v ← expr P structs e
    pure (some v)
  | .indexAssign var idx e => do
    let i ← expr P structs idx
    let rhs ← expr P structs e
    let a ← expr P structs (.var var)
    let i ← liftHeap (P.keep idx.isLiteral e.isLiteral i)
    liftHeap (P.arraySet a i rhs)
    pure (some rhs)
  | .ite cond then_ else_ => do
    let v ← expr P structs cond
    if ← truth P v then
      discard (evalBlock fuel then_)
    else
      discard (evalBlock fuel else_)
    pure none
  | .while cond body => do
    loop (do let v ← expr P structs cond; truth P v) (discard (evalBlock fuel body)) fuel
    pure none
  | .tryCatch body var handler => do
    catching (discard (evalBlock fuel body)) fun e => do
      bindCaught var e
      discard (evalBlock fuel handler)
    pure none
  | .tryFinally body cleanup => do
    finalizing (discard (evalBlock fuel body)) (discard (evalBlock fuel cleanup))
    pure none
  | .structDef _ _ _ => pure none

/-- The statements in order; the value is the last one's. -/
def evalBlock (fuel : Nat) : List SrcStmt → SrcM V H (Option V)
  | [] => pure none
  | [s] => evalStmt fuel s
  | s :: stmts => do
    let _ ← evalStmt fuel s
    evalBlock fuel stmts

end

theorem evalBlock_cons (fuel : Nat) (s t : SrcStmt) (stmts : List SrcStmt) :
    evalBlock P structs fuel (s :: t :: stmts) = (do
      let _ ← evalStmt P structs fuel s
      evalBlock P structs fuel (t :: stmts)) := by
  rw [evalBlock]
  exact List.cons_ne_nil t stmts

/-! ### Programs -/

/-- The statements of a program in order.  A struct definition makes its name known to
the statements behind it. -/
def evalProgram (fuel : Nat) : List StructDef → List SrcStmt → SrcM V H (Option V)
  | _, [] => pure none
  | structs, .structDef name mutabl fields :: stmts =>
    match declare structs name mutabl fields with
    | .ok structs' => evalProgram fuel structs' stmts
    | .error msg => liftHeap (P.error msg)
  | structs, [s] => evalStmt P structs fuel s
  | structs, s :: stmts => do
    let _ ← evalStmt P structs fuel s
    evalProgram fuel structs stmts

end Semantics

end Ruju.Frontend
