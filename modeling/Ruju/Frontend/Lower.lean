import Ruju.Frontend.Syntax
import Ruju.Interp.Eval

/-!
# Lowering

`Lower` of `frontend.rs`: source statements become interpreter statements, with jumps
that are emitted first and patched when their target is known.

Slots are numbered in the order in which variables are first met, so the map from
names to slots is the list of the names.  A struct definition takes effect when it is
lowered; the registry stays changed if the lowering fails later.
-/

namespace Ruju.Frontend

open Interp

/-! ### Types by name -/

/-- The builtin tower by name. -/
def builtinType : String → Option TypeId
  | "Any" => some .any
  | "Number" => some .number
  | "Real" => some .real
  | "Integer" => some .integer
  | "Signed" => some .signed
  | "Unsigned" => some .unsigned
  | "AbstractFloat" => some .abstractFloat
  | "Bool" => some .bool
  | "Int8" => some .int8
  | "Int16" => some .int16
  | "Int32" => some .int32
  | "Int64" | "Int" => some .int64
  | "UInt8" => some .uint8
  | "UInt16" => some .uint16
  | "UInt32" => some .uint32
  | "UInt64" => some .uint64
  | "Float32" => some .float32
  | "Float64" => some .float64
  | "Char" => some .char
  | "Nothing" => some .nothing
  | _ => none

/-- `resolve_type`: the builtin tower, then the struct registry. -/
def resolveType (structs : List StructDef) (name : String) : Except String TypeRef :=
  match builtinType name with
  | some id => .ok (.builtin id)
  | none =>
    match findStruct structs name with
    | some _ => .ok (.struct name)
    | none => .error ("UndefVarError: `" ++ name ++ "` not defined")

/-- The types of a struct's fields. -/
def resolveFields (structs : List StructDef) :
    List (String × Option String) → Except String (List (String × TypeRef))
  | [] => .ok []
  | (fname, ftype) :: fields => do
    let t ← match ftype with
      | some name => resolveType structs name
      | none => .ok (.builtin .any)
    let rest ← resolveFields structs fields
    .ok ((fname, t) :: rest)

/-- `define_struct_from_source`: an identical definition is reused, a different one
under the same name is an error. -/
def defineStruct (structs : List StructDef) (d : StructDef) : Except String (List StructDef) :=
  match findStruct structs d.name with
  | some d' =>
    if d' = d then .ok structs
    else .error ("invalid redefinition of constant " ++ d.name)
  | none => .ok (structs ++ [d])

/-- A struct definition of a program: its field types are resolved first. -/
def declare (structs : List StructDef) (name : String) (mutabl : Bool)
    (fields : List (String × Option String)) : Except String (List StructDef) := do
  let resolved ← resolveFields structs fields
  defineStruct structs ⟨name, resolved, mutabl⟩

/-! ### The lowering state -/

/-- What a call in source is, by its name and the number of its arguments. -/
inductive Callee
  | throw
  | push
  | length
  | new (ty : TypeRef)
deriving DecidableEq

def callee (structs : List StructDef) (name : String) (nargs : Nat) : Except String Callee :=
  if name = "throw" ∧ nargs = 1 then .ok .throw
  else if name = "push!" ∧ nargs = 2 then .ok .push
  else if name = "length" ∧ nargs = 1 then .ok .length
  else (resolveType structs name).map .new

/-- The numbers of arguments for which `callee` gives this. -/
def Callee.Takes : Callee → Nat → Prop
  | .throw, n | .length, n => n = 1
  | .push, n => n = 2
  | .new _, _ => True

/-- The statement of a call. -/
def Callee.stmt {V : Type} : Callee → List (Op V) → Stmt V
  | .throw, [v] => .throw v
  | .push, [a, v] => .push a v
  | .length, [a] => .len a
  | .new ty, ops => .new ty ops
  -- never: by `callee_takes` the arguments are as many as it takes
  | _, ops => .arrayLit ops

/-- `Lower`; the names are in the order of their slots. -/
structure Lower (V : Type) where
  code : List (Stmt V)
  names : List String
  structs : List StructDef

/-- A step of the lowering: what it changed stays if it fails. -/
abbrev LowerM (V : Type) := ExceptT String (StateM (Lower V))

section Lowering

variable {V : Type}

/-- `slot`: the slot of a name, a new one if it has none. -/
def slot (name : String) : LowerM V Nat := fun L =>
  if name ∈ L.names then (.ok (L.names.idxOf name), L)
  else (.ok L.names.length, { L with names := L.names ++ [name] })

/-- `emit`: append a statement, and give its index. -/
def emit (s : Stmt V) : LowerM V Nat := fun L =>
  (.ok L.code.length, { L with code := L.code ++ [s] })

/-- The index of the next statement. -/
def here : LowerM V Nat := fun L => (.ok L.code.length, L)

/-- A jump with its target replaced. -/
def retarget (target : Nat) : Stmt V → Stmt V
  | .goto _ => .goto target
  | .gotoIfNot c _ => .gotoIfNot c target
  | .enter _ => .enter target
  | s => s

/-- `patch` -/
def patch (idx target : Nat) : LowerM V Unit := fun L =>
  (.ok (), { L with code := L.code.modify idx (retarget target) })

/-- A lookup in the registry. -/
def lookup {α : Type} (f : List StructDef → Except String α) : LowerM V α := fun L =>
  (f L.structs, L)

mutual

/-- `lower_expr` -/
def lowerExpr : Expr → LowerM V (Op V)
  | .int n => pure (.int n)
  | .float bits => pure (.float bits)
  | .var name => do
    let s ← slot name
    pure (.slot s)
  | .bin op lhs rhs => do
    let lo ← lowerExpr lhs
    let ro ← lowerExpr rhs
    let i ← emit (.call (binop op).1 (binArgs op lo ro))
    pure (.ssa i)
  | .call name args => do
    let f ← lookup fun structs => callee structs name args.length
    let ops ← lowerExprs args
    let i ← emit (f.stmt ops)
    pure (.ssa i)
  | .field base name => do
    let b ← lowerExpr base
    let i ← emit (.getField b name)
    pure (.ssa i)
  | .arrayLit elems => do
    let ops ← lowerExprs elems
    let i ← emit (.arrayLit ops)
    pure (.ssa i)
  | .index base idx => do
    let b ← lowerExpr base
    let j ← lowerExpr idx
    let i ← emit (.arrayRef b j)
    pure (.ssa i)

/-- The arguments of a call, from left to right. -/
def lowerExprs : List Expr → LowerM V (List (Op V))
  | [] => pure []
  | e :: es => do
    let o ← lowerExpr e
    let os ← lowerExprs es
    pure (o :: os)

end

/-- A struct definition is carried out by the lowering. -/
def lowerStruct (name : String) (mutabl : Bool) (fields : List (String × Option String)) :
    LowerM V Unit := fun L =>
  match declare L.structs name mutabl fields with
  | .error msg => (.error msg, L)
  | .ok structs => (.ok (), { L with structs := structs })

/-- `catch name`: the exception is bound before the handler runs. -/
def lowerCatch : Option String → LowerM V Unit
  | none => pure ()
  | some name => do
    let c ← emit .caught
    let s ← slot name
    let _ ← emit (.assign s (.ssa c))
    pure ()

mutual

/-- `lower_stmt`: the operand that holds the statement's value, if it has one. -/
def lowerStmt : SrcStmt → LowerM V (Option (Op V))
  | .assign name e => do
    let op ← lowerExpr e
    let s ← slot name
    let _ ← emit (.assign s op)
    pure (some (.slot s))
  | .fieldAssign var field e => do
    let rhs ← lowerExpr e
    let s ← slot var
    let _ ← emit (.setField (.slot s) field rhs)
    pure (some rhs)
  | .tryFinally body cleanup => do
    let enter ← emit (.enter 0)
    let _ ← lowerBlock body
    let _ ← emit (.leave 1)
    -- the normal path
    let _ ← lowerBlock cleanup
    let gend ← emit (.goto 0)
    let catchStart ← here
    patch enter catchStart
    -- the exception path
    let _ ← lowerBlock cleanup
    let _ ← emit .rethrow
    let stop ← here
    patch gend stop
    pure none
  | .indexAssign var idx e => do
    let i ← lowerExpr idx
    let rhs ← lowerExpr e
    let s ← slot var
    let _ ← emit (.arraySet (.slot s) i rhs)
    pure (some rhs)
  | .expr e => do
    let op ← lowerExpr e
    pure (some op)
  | .ite cond then_ else_ => do
    let c ← lowerExpr cond
    let gif ← emit (.gotoIfNot c 0)
    let _ ← lowerBlock then_
    let gend ← emit (.goto 0)
    let elseStart ← here
    let _ ← lowerBlock else_
    let stop ← here
    patch gif elseStart
    patch gend stop
    pure none
  | .while cond body => do
    let start ← here
    let c ← lowerExpr cond
    let gif ← emit (.gotoIfNot c 0)
    let _ ← lowerBlock body
    let _ ← emit (.goto start)
    let stop ← here
    patch gif stop
    pure none
  | .tryCatch body var handler => do
    let enter ← emit (.enter 0)
    let _ ← lowerBlock body
    let _ ← emit (.leave 1)
    let gend ← emit (.goto 0)
    let catchStart ← here
    patch enter catchStart
    lowerCatch var
    let _ ← lowerBlock handler
    let _ ← emit (.popException (.ssa enter))
    let stop ← here
    patch gend stop
    pure none
  | .structDef name mutabl fields => do
    lowerStruct name mutabl fields
    pure none

/-- `lower_block`: the value of the last statement. -/
def lowerBlock : List SrcStmt → LowerM V (Option (Op V))
  | [] => pure none
  | [s] => lowerStmt s
  | s :: stmts => do
    let _ ← lowerStmt s
    lowerBlock stmts

end

/-- `lower_program`: the body, with the names of its slots, and the registry. -/
def lowerProgram (structs : List StructDef) (prog : List SrcStmt) :
    Except String (Body V × List String) × List StructDef :=
  let lowered := (do
    let last ← lowerBlock prog
    let _ ← emit (.return (last.getD (.int 0)))
    pure () : LowerM V Unit) ⟨[], [], structs⟩
  (lowered.1.map fun _ => (⟨lowered.2.names.length, lowered.2.code⟩, lowered.2.names),
    lowered.2.structs)

end Lowering

end Ruju.Frontend
