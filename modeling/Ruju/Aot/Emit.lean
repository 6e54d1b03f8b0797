import Ruju.Relooper.Correct

/-!
# Emission of code for a fixture

A fixture is the typed intermediate code of one function: blocks that are ranges of
statements, and statements in static single assignment form.  `emit_module` gives every
value-producing statement a local behind the parameters, and every one of reference type a
slot of the shadow stack as well.  The relooper decides about the shape of the code, and
`FnEmitter` fills in the instructions.

Reads out of bounds and subtractions below zero panic.  The functions of `FnEmitter` return
`none` there, while an error that they record (`fail`) is part of what they return, since
emission goes on after it and reports the first one at the end.
-/

namespace Ruju.Aot

open Structured Relooper

/-! ### Fixtures -/

/-- `Operand`. -/
inductive Operand where
  | ssa (id : Nat)
  | arg (n : Nat)
  | const (t v : String)
  | nothing
  deriving DecidableEq, Repr

/-- `Node`. -/
inductive Node where
  | nothing
  | phi (edges : List Nat) (values : List Operand)
  | call (f : String) (args : List Operand)
  | new (t : String) (args : List Operand)
  | getField (obj : Operand) (field : String)
  | gotoIfNot (cond : Operand) (dest : Nat)
  | goto (dest : Nat)
  | ret (val : Operand)
  deriving DecidableEq, Repr

/-- `Stmt`. -/
structure Stmt where
  ty : String
  stmt : Node
  deriving DecidableEq, Repr

/-- `Block`.  Statements and blocks are numbered from 1. -/
structure Block where
  first : Nat
  last : Nat
  preds : List Int
  succs : List Nat
  deriving DecidableEq, Repr

/-- `Fixture`, behind the checks of `Fixture::parse`. -/
structure Fixture where
  name : String
  argtypes : List String
  rettype : String
  blocks : List Block
  stmts : List Stmt
  blocks_ne : blocks ≠ []
  stmts_ne : stmts ≠ []

/-- The indices of the statements of a block. -/
def Block.range (b : Block) : List Nat := List.range' (b.first - 1) (b.last - (b.first - 1))

/-- A φ. -/
def Node.isPhi : Node → Bool
  | .phi .. => true
  | _ => false

/-- Statements that have a value. -/
def Node.producesValue : Node → Bool
  | .phi .. | .call .. | .new .. | .getField .. => true
  | _ => false

/-- A read of a field. -/
def Node.isGetField : Node → Bool
  | .getField .. => true
  | _ => false

/-- `cfg.succs`. -/
def Fixture.succs (fx : Fixture) : List (List Nat) := fx.blocks.map fun b => b.succs.map (· - 1)

/-- `cfg.preds`, without the pseudo-edge to the entry. -/
def Fixture.preds (fx : Fixture) : List (List Nat) :=
  fx.blocks.map fun b => (b.preds.filter (· > 0)).map fun p => (p - 1).toNat

/-- The terminator of a block, `none` for a panic. -/
def Fixture.term (fx : Fixture) (x : Nat) : Option Term := do
  let b ← fx.blocks[x]?
  guard (b.last ≠ 0)
  let s ← fx.stmts[b.last - 1]?
  match s.stmt with
  | .goto dest => if dest = 0 then none else some (.goto (dest - 1))
  | .gotoIfNot _ dest => if dest = 0 then none else some (.ite (x + 1) (dest - 1))
  | .ret _ => some .ret
  | _ => ((fx.succs.getD x [])[0]?).map .goto

/-- The terminators, where they exist. -/
def Fixture.terms (fx : Fixture) (x : Nat) : Term := (fx.term x).getD .ret

/-! ### Instructions -/

/-- `ValType`. -/
inductive ValType where
  | i32
  | i64
  deriving DecidableEq, Repr

/-- Operations on two numbers of 64 bits. -/
inductive BinOp where
  | add | sub | mul | and | or | xor
  deriving DecidableEq, Repr

/-- Comparisons of two numbers of 64 bits. -/
inductive RelOp where
  | leS | ltS | leU | ltU | eq | ne
  deriving DecidableEq, Repr

/-- The instructions that are emitted, apart from structured control flow. -/
inductive Instr where
  | localGet (l : Nat)
  | localSet (l : Nat)
  | i64Const (x : Int)
  | i32Const (x : Int)
  | i64Bin (op : BinOp)
  | i64Rel (op : RelOp)
  | i32Add
  | i32Load (offset : Nat)
  | i32Store (offset : Nat)
  | i64Load (offset : Nat)
  | call (f : Nat)
  | ret
  deriving DecidableEq, Repr

/-- `REF_TY`. -/
def REF_TY : String := "Base.RefValue\x7bInt64\x7d"

/-- `NEWREF`, the index of `rj_new_ref_int`. -/
def NEWREF : Nat := 2

/-- `TOPADDR`, the index of `rj_gc_shadow_top_addr`. -/
def TOPADDR : Nat := 3

/-- `REGBASE`, the index of `rj_region_base`. -/
def REGBASE : Nat := 4

/-- `valtype`. -/
def valtype (julia : String) : Option ValType :=
  if julia = "Int64" then some .i64
  else if julia = "Bool" then some .i32
  else if julia = REF_TY then some .i32
  else none

/-- `is_ref`. -/
def isRef (julia : String) : Bool := julia = REF_TY

/-- `intrinsic`. -/
def intrinsic : String → Option Instr
  | "add_int" => some (.i64Bin .add)
  | "sub_int" => some (.i64Bin .sub)
  | "mul_int" => some (.i64Bin .mul)
  | "and_int" => some (.i64Bin .and)
  | "or_int" => some (.i64Bin .or)
  | "xor_int" => some (.i64Bin .xor)
  | "sle_int" => some (.i64Rel .leS)
  | "slt_int" => some (.i64Rel .ltS)
  | "ule_int" => some (.i64Rel .leU)
  | "ult_int" => some (.i64Rel .ltU)
  | "eq_int" => some (.i64Rel .eq)
  | "ne_int" => some (.i64Rel .ne)
  | _ => none

/-- One more digit of a literal, with a sign. -/
def parseDigit (negative : Bool) (x : Int) (c : Char) : Except String Int :=
  if ¬ c.isDigit then .error "invalid digit found in string"
  else
    let digit : Int := c.toNat - '0'.toNat
    let x := if negative then x * 10 - digit else x * 10 + digit
    if x < -2 ^ 63 then .error "number too small to fit in target type"
    else if 2 ^ 63 ≤ x then .error "number too large to fit in target type"
    else .ok x

/-- `v.parse::<i64>()`. -/
def parseInt64 (v : String) : Except String Int :=
  match v.toList with
  | [] => .error "cannot parse integer from empty string"
  | ['+'] => .error "invalid digit found in string"
  | ['-'] => .error "invalid digit found in string"
  | '+' :: ds => ds.foldlM (parseDigit false) 0
  | '-' :: ds => ds.foldlM (parseDigit true) 0
  | ds => ds.foldlM (parseDigit false) 0

/-- A text in quotes, as errors show it. -/
def quoted (s : String) : String := "\"" ++ s ++ "\""

/-! ### `FnEmitter` -/

/-- What is emitted, and the first error that is recorded. -/
structure Piece where
  insns : List Instr
  err : Option String
  deriving DecidableEq, Repr

namespace Piece

/-- Instructions. -/
def push (insns : List Instr) : Piece := ⟨insns, none⟩

/-- `fail`. -/
def fail (msg : String) : Piece := ⟨[], some msg⟩

instance : Append Piece := ⟨fun p q => ⟨p.insns ++ q.insns, p.err.or q.err⟩⟩

/-- Pieces one after the other. -/
def concat : List (Option Piece) → Option Piece
  | [] => some (push [])
  | p :: ps => do
    let p ← p
    let q ← concat ps
    some (p ++ q)

end Piece

/-- `FnEmitter`, without the instructions emitted so far. -/
structure FnEmitter where
  fx : Fixture
  ssaLocal : List (Option Nat)
  refSlot : List (Option Nat)
  taLocal : Nat
  gcbaseLocal : Nat
  rbLocal : Nat
  hasFrame : Bool

namespace FnEmitter

variable (fe : FnEmitter)

/-- `operand`. -/
def operand : Operand → Option Piece
  | .ssa id =>
    if id = 0 then none
    else
      match fe.ssaLocal[id - 1]? with
      | none => none
      | some (some l) => some (.push [.localGet l])
      | some none => some (.fail s!"ssa %{id} has no value local")
  | .arg n =>
    if n < 2 then some (.fail "argument _1 (#self#) is not representable")
    else some (.push [.localGet (n - 2)])
  | .const t v =>
    if t = "Int64" then
      match parseInt64 v with
      | .ok x => some (.push [.i64Const x])
      | .error e => some (.fail s!"bad Int64 literal {quoted v}: {e}")
    else if t = "Bool" then some (.push [.i32Const (if v = "true" then 1 else 0)])
    else some (.fail s!"unsupported constant type {quoted t}")
  | .nothing => some (.fail "`nothing` used as a value")

/-- `set_ssa`. -/
def setSsa (i : Nat) : Option Piece := do
  match ← fe.ssaLocal[i]? with
  | none => some (.fail s!"statement %{i + 1} has no local")
  | some l =>
    match ← fe.refSlot[i]? with
    | none => some (.push [.localSet l])
    | some k =>
      some (.push [.localSet l, .localGet fe.gcbaseLocal, .localGet l, .i32Store (k * 4)])

/-- The statement with index `i` in `stmts`. -/
def stmt (i : Nat) : Option Piece := do
  let s ← fe.fx.stmts[i]?
  match s.stmt with
  | .call f args =>
    let insn := match intrinsic f with
      | some insn => Piece.push [insn]
      | none => Piece.fail s!"intrinsic {quoted f} outside the whitelist"
    Piece.concat (args.map fe.operand ++ [some insn, fe.setSsa i])
  | .new t args =>
    match args with
    | [a] =>
      if t = REF_TY then
        Piece.concat [fe.operand a, some (.push [.call NEWREF]), fe.setSsa i]
      else some (.fail s!":new of {quoted t}/1 args outside the vocabulary")
    | args => some (.fail s!":new of {quoted t}/{args.length} args outside the vocabulary")
  | .getField obj field =>
    if field = "x" then
      Piece.concat [some (.push [.localGet fe.rbLocal]), fe.operand obj,
        some (.push [.i32Add, .i64Load 0]), fe.setSsa i]
    else some (.fail s!"getfield :{field} outside the vocabulary")
  | .nothing | .phi .. | .goto _ | .gotoIfNot .. | .ret _ => some (.push [])

/-- `stmts`. -/
def stmts (x : Nat) : Option Piece := do
  let b ← fe.fx.blocks[x]?
  guard (b.first ≠ 0)
  Piece.concat (b.range.map fe.stmt)

/-- The move to the statement with index `i` on the edge from `x`, if there is one. -/
def phiMove (x i : Nat) : Option (Option (Nat × Operand)) := do
  let s ← fe.fx.stmts[i]?
  match s.stmt with
  | .phi edges values =>
    match edges.findIdx? (· = x + 1) with
    | none => some none
    | some j =>
      let v ← values[j]?
      some (some (i, v))
  | _ => some none

/-- The check for a move that reads a φ of the same block. -/
def hazard (b : Block) (target : Nat) : Operand → Option Piece
  | .ssa id =>
    if id = 0 then none
    else if b.first - 1 ≤ id - 1 ∧ id - 1 < b.last then do
      let s ← fe.fx.stmts[id - 1]?
      if s.stmt.isPhi then some (.fail s!"φ-swap hazard in block {target + 1}")
      else some (.push [])
    else some (.push [])
  | _ => some (.push [])

/-- `phi_moves`. -/
def phiMoves (x target : Nat) : Option Piece := do
  let b ← fe.fx.blocks[target]?
  guard (b.first ≠ 0)
  let moves ← b.range.mapM (fe.phiMove x)
  let moves := moves.filterMap id
  Piece.concat (moves.map (fun m => fe.hazard b target m.2) ++
    moves.map fun m => Piece.concat [fe.operand m.2, fe.setSsa m.1])

/-- The last statement of a block. -/
def lastStmt (x : Nat) : Option Node := do
  let b ← fe.fx.blocks[x]?
  guard (b.last ≠ 0)
  let s ← fe.fx.stmts[b.last - 1]?
  some s.stmt

/-- `open_if`, up to the instruction that opens the frame. -/
def cond (x : Nat) : Option Piece := do
  match ← fe.lastStmt x with
  | .gotoIfNot cond _ => fe.operand cond
  | _ => some (.fail s!"block {x + 1} has no GotoIfNot terminator")

/-- `ret`. -/
def ret (x : Nat) : Option Piece := do
  match ← fe.lastStmt x with
  | .ret val =>
    let epilogue : List Instr :=
      if fe.hasFrame then [.localGet fe.taLocal, .localGet fe.gcbaseLocal, .i32Store 0] else []
    Piece.concat [some (.push epilogue), fe.operand val, some (.push [.ret])]
  | _ => some (.fail s!"block {x + 1} has no Return terminator")

/-- The callback of an event. -/
def event : Event → Option Piece
  | .stmts x => fe.stmts x
  | .phiMoves x target => fe.phiMoves x target
  | .openIf x => fe.cond x
  | .ret x => fe.ret x
  | .openLoop _ | .openBlock _ | .close | .br _ | .elseArm => some (.push [])

/-- The instructions of the callbacks. -/
def emission : Emission Instr where
  stmts x := ((fe.stmts x).map Piece.insns).getD []
  phiMoves x target := ((fe.phiMoves x target).map Piece.insns).getD []
  cond x := ((fe.cond x).map Piece.insns).getD []
  ret x := ((fe.ret x).map Piece.insns).getD []

end FnEmitter

/-! ### `emit_module` -/

/-- Locals and slots of the statements so far. -/
structure Slots where
  ssaLocal : List (Option Nat)
  refSlot : List (Option Nat)
  locals : List ValType
  nrefs : Nat
  hasGetField : Bool
  deriving DecidableEq, Repr

/-- The next statement gets its local and its slot. -/
def Slots.add (nargs : Nat) (s : Slots) (st : Stmt) : Except String Slots :=
  let hasGetField := s.hasGetField || st.stmt.isGetField
  if st.stmt.producesValue then
    match valtype st.ty with
    | none => .error s!"statement %{s.ssaLocal.length + 1} has unsupported type {quoted st.ty}"
    | some vt => .ok {
      ssaLocal := s.ssaLocal ++ [some (nargs + s.locals.length)]
      refSlot := s.refSlot ++ [if isRef st.ty then some s.nrefs else none]
      locals := s.locals ++ [vt]
      nrefs := if isRef st.ty then s.nrefs + 1 else s.nrefs
      hasGetField := hasGetField }
  else .ok { s with
    ssaLocal := s.ssaLocal ++ [none]
    refSlot := s.refSlot ++ [none]
    hasGetField := hasGetField }

/-- The loop over all statements. -/
def Fixture.slots (fx : Fixture) : Except String Slots :=
  fx.stmts.foldlM (Slots.add fx.argtypes.length) ⟨[], [], [], 0, false⟩

/-- The helper locals behind those of the statements. -/
def Fixture.emitter (fx : Fixture) (s : Slots) : FnEmitter :=
  let next := fx.argtypes.length + s.locals.length
  let hasFrame : Bool := 0 < s.nrefs
  { fx := fx
    ssaLocal := s.ssaLocal
    refSlot := s.refSlot
    taLocal := if hasFrame then next else 2 ^ 32 - 1
    gcbaseLocal := if hasFrame then next + 1 else 2 ^ 32 - 1
    rbLocal := if s.hasGetField then (if hasFrame then next + 2 else next) else 2 ^ 32 - 1
    hasFrame := hasFrame }

/-- The types of all locals behind the parameters. -/
def Slots.allLocals (s : Slots) : List ValType :=
  s.locals ++ (if 0 < s.nrefs then [.i32, .i32] else []) ++ if s.hasGetField then [.i32] else []

/-- The prologue: the frame is claimed and zeroed, and the region base is read. -/
def prologue (fe : FnEmitter) (s : Slots) : List Instr :=
  (if fe.hasFrame then
    [.call TOPADDR, .localSet fe.taLocal, .localGet fe.taLocal, .i32Load 0,
      .localSet fe.gcbaseLocal] ++
    (List.range s.nrefs).flatMap (fun k =>
      [.localGet fe.gcbaseLocal, .i32Const 0, .i32Store (k * 4)]) ++
    [.localGet fe.taLocal, .localGet fe.gcbaseLocal, .i32Const (s.nrefs * 4), .i32Add, .i32Store 0]
  else []) ++
  if s.hasGetField then [.call REGBASE, .localSet fe.rbLocal] else []

/-- The emitted module: the locals and the body of the specsig function.  Behind the body
stands `unreachable`. -/
structure Module where
  name : String
  nargs : Nat
  locals : List ValType
  body : List (Tok Instr)
  deriving DecidableEq, Repr

/-- An error that is returned, or a panic. -/
inductive Failure where
  | err (msg : String)
  | panic
  deriving DecidableEq, Repr

/-- The body, once the walk has succeeded. -/
def emitBody (fe : FnEmitter) (events : List Event) : Except Failure (List (Tok Instr)) :=
  match Piece.concat (events.map fe.event) with
  | none => .error .panic
  | some p =>
    match p.err with
    | some msg => .error (.err msg)
    | none => .ok (codeOf fe.emission events)

/-- The module with a body. -/
def Fixture.moduleWith (fx : Fixture) (s : Slots) (body : List (Tok Instr)) : Module where
  name := fx.name
  nargs := fx.argtypes.length
  locals := s.allLocals
  body := (prologue (fx.emitter s) s).map .leaf ++ body

/-- The module, once the walk has succeeded.  Its validation is a parameter. -/
def assemble (validate : Module → Option String) (fx : Fixture) (s : Slots)
    (events : List Event) : Except Failure Module :=
  match emitBody (fx.emitter s) events with
  | .error e => .error e
  | .ok body =>
    match validate (fx.moduleWith s body) with
    | some e => .error (.err s!"emitted module invalid: {e}")
    | none => .ok (fx.moduleWith s body)

/-- The checks before the walk. -/
def Fixture.checkTypes (fx : Fixture) : Except Failure Slots :=
  match fx.argtypes.find? (· ≠ "Int64") with
  | some t => .error (.err s!"argtype {quoted t} outside the thin slice's vocabulary")
  | none =>
    if fx.rettype ≠ "Int64" then
      .error (.err s!"rettype {quoted fx.rettype} outside the thin slice's vocabulary")
    else fx.slots.mapError .err

/-- Errors of the relooper are returned. -/
def liftWalk {α : Type} (m : ExceptT String Option α) : ExceptT Failure Option α :=
  ExceptT.mk (m.run.map fun r => r.mapError .err)

/-- A step that always ends. -/
def liftStep {α : Type} (e : Except Failure α) : ExceptT Failure Option α := ExceptT.mk (some e)

/-- `emit_module`, for a fixture whose edge lists are the graph `cfg`. -/
def emitModule (validate : Module → Option String) (fx : Fixture) (cfg : Cfg) (fuel : Nat) :
    ExceptT Failure Option Module := do
  let s ← liftStep fx.checkTypes
  let r ← liftWalk (new cfg fuel)
  if (List.range cfg.size).all fun x => (fx.term x).isSome then
    let events ← liftWalk (run r fx.terms fuel)
    liftStep (assemble validate fx s events)
  else
    throw .panic

end Ruju.Aot
