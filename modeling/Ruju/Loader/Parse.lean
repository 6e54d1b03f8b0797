import Ruju.Library.Text
import Ruju.Interp.Eval

/-!
# The loader

`loader.rs`: the line format of pre-lowered code, read into bodies, and their
evaluation in order.

A level of the format is driven by a count: `parse_stmts` reads as many statements as
the line before announced, and a method definition starts a level of its own.  The
position in the list of lines is passed along.  Every statement takes at least one
line, so that as much fuel as there are lines left is never used up; without fuel the
lines are over.

`usize` has 32 bits on the target.
-/

namespace Ruju.Loader

open Interp Text

/-- The constants that an operand can name.  Symbols are interned and differ from the
other constants. -/
structure Consts (V : Type) where
  bool : Bool → V
  nothing : V
  sym : String → V
  main : V
  sym_injective : ∀ s t, sym s = sym t → s = t
  sym_ne_bool : ∀ s b, sym s ≠ bool b
  sym_ne_nothing : ∀ s, sym s ≠ nothing
  sym_ne_main : ∀ s, sym s ≠ main

/-- The format version this loader understands. -/
def FORMAT_VERSION : String := "1"

/-- `err` -/
def err (lineNo : Nat) (msg : String) : String :=
  "lowered format: line " ++ toString (lineNo + 1) ++ ": " ++ msg

/-- `ok_or_else` and `map_err` with `err`. -/
def orErr {α : Type} (o : Option α) (lineNo : Nat) (msg : String) : Except String α :=
  match o with
  | some a => .ok a
  | none => .error (err lineNo msg)

/-- `parse::<usize>` -/
def parseUsize (cs : List Char) : Option Nat := readUnsigned 10 (2 ^ 32) cs

/-- `parse::<i64>` -/
def parseI64 (cs : List Char) : Option Int := readSigned (-2 ^ 63) (2 ^ 63 - 1) cs

/-- `u64::from_str_radix(_, 16)` -/
def parseHex64 (cs : List Char) : Option Nat := readUnsigned 16 (2 ^ 64) cs

section Parse

variable {V : Type} (K : Consts V)

/-- The part of an operand before the first colon. -/
def opKind (tok : List Char) : List Char := tok.takeWhile fun c => c != ':'

/-- The part of an operand behind the first colon. -/
def opRest (tok : List Char) : List Char := (tok.dropWhile fun c => c != ':').drop 1

/-- `parse_op`: one operand token. -/
def parseOp (tok : List Char) (lineNo : Nat) : Except String (Op V) :=
  match String.ofList (opKind tok) with
  | "ssa" => (orErr (parseUsize (opRest tok)) lineNo "bad ssa").map .ssa
  | "slot" => (orErr (parseUsize (opRest tok)) lineNo "bad slot").map .slot
  | "int" => (orErr (parseI64 (opRest tok)) lineNo "bad int").map .int
  | "f64" => (orErr (parseHex64 (opRest tok)) lineNo "bad f64").map fun n => .float (.ofNat n)
  | "bool" => .ok (.const (K.bool (opRest tok == ['1'])))
  | "nothing" => .ok (.const K.nothing)
  | "sym" => .ok (.const (K.sym (String.ofList (opRest tok))))
  | "global" => .ok (.global (String.ofList (opRest tok)))
  | "module" => .ok (.const K.main)
  | _ => .error (err lineNo ("unknown operand `" ++ String.ofList tok ++ "`"))

/-- `parse_ops` -/
def parseOps (lineNo : Nat) : List (List Char) → Except String (List (Op V))
  | [] => .ok []
  | tok :: toks => do
    let op ← parseOp K tok lineNo
    let ops ← parseOps lineNo toks
    .ok (op :: ops)

/-- `need` has failed. -/
def wrongCount {α : Type} (lineNo : Nat) : Except String α :=
  .error (err lineNo "wrong operand count")

/-- The statements that take one line: all but a method definition. -/
def parseLine (lineNo : Nat) (head : List Char) (args : List (List Char)) :
    Except String (Stmt V) :=
  match String.ofList head with
  | "value" =>
    match args with
    | [a] => (parseOp K a lineNo).map .value
    | _ => wrongCount lineNo
  | "call" => (parseOps K lineNo args).map .callValue
  | "assign" =>
    match args with
    | [a, b] => do
      let slot ← orErr (parseUsize a) lineNo "bad slot"
      let op ← parseOp K b lineNo
      .ok (.assign slot op)
    | _ => wrongCount lineNo
  | "assigncall" =>
    match args with
    | [] => .error (err lineNo "missing slot")
    | a :: args => do
      let slot ← orErr (parseUsize a) lineNo "bad slot"
      let ops ← parseOps K lineNo args
      .ok (.assignCall slot ops)
  | "goto" =>
    match args with
    | [a] => (orErr (parseUsize a) lineNo "bad target").map .goto
    | _ => wrongCount lineNo
  | "gotoifnot" =>
    match args with
    | [a, b] => do
      let cond ← parseOp K a lineNo
      let target ← orErr (parseUsize b) lineNo "bad target"
      .ok (.gotoIfNot cond target)
    | _ => wrongCount lineNo
  | "return" =>
    match args with
    | [a] => (parseOp K a lineNo).map .return
    | _ => wrongCount lineNo
  | "enter" =>
    match args with
    | [a] => (orErr (parseUsize a) lineNo "bad target").map .enter
    | _ => wrongCount lineNo
  | "leave" =>
    match args with
    | [a] => (orErr (parseUsize a) lineNo "bad count").map .leave
    | _ => wrongCount lineNo
  | "pop_exception" =>
    match args with
    | [a] => (parseOp K a lineNo).map .popException
    | _ => wrongCount lineNo
  | "the_exception" => .ok .caught
  | "assigncaught" =>
    match args with
    | [a] => (orErr (parseUsize a) lineNo "bad slot").map .assignCaught
    | _ => wrongCount lineNo
  | "latestworld" => .ok .latestWorld
  | "method1" =>
    match args with
    | [a] => .ok (.methodFunc (String.ofList a))
    | _ => wrongCount lineNo
  | head => .error (err lineNo ("unknown statement `" ++ head ++ "`"))

/-- The line of a method definition. -/
structure MethodHead (V : Type) where
  f : Op V
  sig : Op V
  nslots : Nat
  nstmts : Nat

/-- `method3 <fname-op> <argdata-op> <nslots> <nstmts>` -/
def parseMethodHead (lineNo : Nat) (args : List (List Char)) : Except String (MethodHead V) :=
  match args with
  | [a, b, c, d] => do
    let f ← parseOp K a lineNo
    let sig ← parseOp K b lineNo
    let nslots ← orErr (parseUsize c) lineNo "bad nslots"
    let nstmts ← orErr (parseUsize d) lineNo "bad nstmts"
    .ok ⟨f, sig, nslots, nstmts⟩
  | _ => wrongCount lineNo

/-- `parse_stmts`: `n` statements from the line at `pos` on, with the position
behind them. -/
def parseStmts (lines : List (List Char)) : Nat → Nat → Nat → Except String (List (Stmt V) × Nat)
  | _, pos, 0 => .ok ([], pos)
  | 0, pos, _ + 1 => .error (err pos "unexpected end of input")
  | fuel + 1, pos, n + 1 =>
    match lines[pos]?.map words with
    | none => .error (err pos "unexpected end of input")
    | some [] => .error (err pos "empty statement")
    | some (head :: args) =>
      if String.ofList head = "method3" then do
        let m ← parseMethodHead K pos args
        let inner ← parseStmts lines fuel (pos + 1) m.nstmts
        let rest ← parseStmts lines fuel inner.2 n
        .ok (.methodDef m.f m.sig m.nslots inner.1 :: rest.1, rest.2)
      else do
        let s ← parseLine K pos head args
        let rest ← parseStmts lines fuel (pos + 1) n
        .ok (s :: rest.1, rest.2)

/-- The slot count and the statement count of `thunk <nslots> <nstmts>`. -/
def parseThunkHead (lineNo : Nat) : List (List Char) → Except String (Nat × Nat)
  | [a, b, c] =>
    if String.ofList a = "thunk" then do
      let nslots ← orErr (parseUsize b) lineNo "bad nslots"
      let nstmts ← orErr (parseUsize c) lineNo "bad nstmts"
      .ok (nslots, nstmts)
    else .error (err lineNo "expected `thunk <nslots> <nstmts>`")
  | _ => .error (err lineNo "expected `thunk <nslots> <nstmts>`")

/-- The loop of `parse`, from the line at `pos` on. -/
def parseThunks (lines : List (List Char)) : Nat → Nat → Except String (List (Body V))
  | 0, _ => .ok []
  | fuel + 1, pos =>
    match lines[pos]? with
    | none => .ok []
    | some line => do
      let head ← parseThunkHead pos (words line)
      let code ← parseStmts K lines lines.length (pos + 1) head.2
      let thunks ← parseThunks lines fuel code.2
      .ok (⟨head.1, code.1⟩ :: thunks)

/-- The lines that `parse` looks at. -/
def sourceLines (src : String) : List (List Char) :=
  fileLines (fun l => l.head? == some '#') src.toList

/-- The first line names the format and its version. -/
def goodHeader (line : List Char) : Bool :=
  match words line with
  | a :: b :: _ => String.ofList a == "RUJU_LOWERED" && String.ofList b == FORMAT_VERSION
  | _ => false

/-- `parse`: the format, as toplevel thunk bodies. -/
def parse (src : String) : Except String (List (Body V)) :=
  match sourceLines src with
  | [] => .error "lowered format: empty input"
  | header :: lines =>
    if goodHeader header then parseThunks K (header :: lines) (header :: lines).length 1
    else .error ("lowered format: bad header `" ++ String.ofList header ++
      "` (expected RUJU_LOWERED " ++ FORMAT_VERSION ++ ")")

/-! ### Evaluation -/

variable {H : Type} [DecidableEq V] (P : Prims V H)

/-- The thunks in order; the result is the last one's value. -/
def evalThunks (fuel : Nat) : V → List (Body V) → State V H → CallResult V H
  | last, [], st => .ok (.ok last, st)
  | _, body :: thunks, st =>
    match enterWith P (run P fuel) body [] st with
    | .error stop => .error stop
    | .ok (.error e, st) => .ok (.error e, st)
    | .ok (.ok v, st) => evalThunks fuel v thunks st

/-- `load_and_eval` -/
def loadAndEval (fuel : Nat) (src : String) (st : State V H) : CallResult V H :=
  match parse K src with
  | .error msg =>
    .ok (.error (P.errorException msg st.heap).1,
      { st with heap := (P.errorException msg st.heap).2 })
  | .ok thunks => evalThunks P fuel P.nothing thunks st

end Parse

end Ruju.Loader
