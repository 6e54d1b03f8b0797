import Ruju.Frontend.Lexer

/-!
# The parser

`Parser` of `frontend.rs`, a recursive descent with one function for each level of
precedence.  The state is what is left of the tokens from the current position on, so that
going back to a position is going back to an earlier list.  Reading behind the end is the
failure `panic`, apart from the errors the parser reports itself.

The four levels of binary operators differ only in their operators and in the level below
(`level`), and so do the lists of arguments and of elements in their closing token
(`parseList`).  Functions that call each other have fuel; a call hands on one less.
-/

namespace Ruju.Frontend

/-- The ways to fail. -/
inductive Fail
  /-- `Err` -/
  | err (msg : String)
  /-- An index out of bounds. -/
  | panic
  | fuel
deriving DecidableEq, Repr

/-- A computation on the tokens that are left. -/
abbrev Parser := StateT (List Tok) (Except Fail)

/-- `Err(msg)` -/
def fail {α : Type} (msg : String) : Parser α := throw (.err msg)

/-- `peek` -/
def peek : Parser Tok := do
  match ← get with
  | [] => throw .panic
  | t :: _ => pure t

/-- `next` -/
def next : Parser Tok := do
  match ← get with
  | [] => throw .panic
  | t :: rest =>
    set rest
    pure t

/-- `self.toks.get(self.pos + i)` -/
def ahead (i : Nat) : Parser (Option Tok) := do
  let toks : List Tok ← get
  pure toks[i]?

section Rules

variable {β : Type} {t : Tok} {ts rest : List Tok}

theorem peek_bind (f : Tok → Parser β) : (peek >>= f) (t :: rest) = f t (t :: rest) := rfl

theorem next_bind (f : Tok → Parser β) : (next >>= f) (t :: rest) = f t rest := rfl

theorem get_bind (f : List Tok → Parser β) : (get >>= f) ts = f ts ts := rfl

theorem ahead_bind (i : Nat) (f : Option Tok → Parser β) : (ahead i >>= f) ts = f ts[i]? ts := rfl

end Rules

section Parse

variable (floats : Floats)

/-- `expect` -/
def expect (t : Tok) : Parser Unit := do
  let found ← peek
  if found = t then
    let _ ← next
  else fail ("expected " ++ t.debug floats ++ ", found " ++ found.debug floats)

/-! ### Expressions -/

/-- The loop of one level of left-associative operators. -/
def levelLoop (op? : Tok → Option BinOp) (sub : Parser Expr) : Nat → Expr → Parser Expr
  | 0, _ => throw .fuel
  | fuel + 1, lhs => do
    match op? (← peek) with
    | none => pure lhs
    | some op =>
      let _ ← next
      let rhs ← sub
      levelLoop op? sub fuel (.bin op lhs rhs)

/-- One level of left-associative operators. -/
def level (op? : Tok → Option BinOp) (sub : Parser Expr) (fuel : Nat) : Parser Expr := do
  let lhs ← sub
  levelLoop op? sub fuel lhs

def cmpOp : Tok → Option BinOp
  | .lt => some .lt
  | .le => some .le
  | .gt => some .gt
  | .ge => some .ge
  | .eqEq => some .eq
  | .eqEqEq => some .egal
  | _ => none

def addOp : Tok → Option BinOp
  | .plus => some .add
  | .minus => some .sub
  | .pipe => some .or
  | .veebar => some .xor
  | _ => none

def mulOp : Tok → Option BinOp
  | .star => some .mul
  | .slash => some .div
  | .idiv => some .idiv
  | .percent => some .rem
  | .amp => some .and
  | _ => none

def shiftOp : Tok → Option BinOp
  | .shl => some .shl
  | .shr => some .shr
  | .ushr => some .ushr
  | _ => none

/-- `parse_shift`, over `parse_atom`. -/
def parseShift (atom : Parser Expr) (fuel : Nat) : Parser Expr := level shiftOp atom fuel

/-- `parse_mul` -/
def parseMul (atom : Parser Expr) (fuel : Nat) : Parser Expr :=
  level mulOp (parseShift atom fuel) fuel

/-- `parse_add` -/
def parseAdd (atom : Parser Expr) (fuel : Nat) : Parser Expr :=
  level addOp (parseMul atom fuel) fuel

/-- `parse_cmp` -/
def parseCmp (atom : Parser Expr) (fuel : Nat) : Parser Expr :=
  level cmpOp (parseAdd atom fuel) fuel

/-- The items of a list behind its opening token, with commas between them, up to the
closing token, whose text is for the message. -/
def parseItems (close : Tok) (text : String) (expr : Parser Expr) :
    Nat → List Expr → Parser (List Expr)
  | 0, _ => throw .fuel
  | fuel + 1, items => do
    let item ← expr
    let t ← next
    if t = .comma then parseItems close text expr fuel (items ++ [item])
    else if t = close then pure (items ++ [item])
    else fail ("expected `,` or `" ++ text ++ "`, found " ++ t.debug floats)

/-- A list that may be empty. -/
def parseList (close : Tok) (text : String) (expr : Parser Expr) (fuel : Nat) :
    Parser (List Expr) := do
  if (← peek) = close then
    let _ ← next
    pure []
  else parseItems floats close text expr fuel []

/-- `parse_primary` -/
def parsePrimary (expr atom : Parser Expr) (fuel : Nat) : Parser Expr := do
  match ← next with
  | .int n => pure (.int n)
  | .float bits => pure (.float bits)
  | .ident s =>
    if (← peek) = .lparen then
      let _ ← next
      let args ← parseList floats .rparen ")" expr fuel
      pure (.call s args)
    else pure (.var s)
  | .lparen =>
    let e ← expr
    expect floats .rparen
    pure e
  | .lbracket =>
    let elems ← parseList floats .rbracket "]" expr fuel
    pure (.arrayLit elems)
  | .minus =>
    let e ← atom
    pure (.bin .sub (.int 0) e)
  | t => fail ("unexpected token " ++ t.debug floats)

/-- The loop of `parse_atom`: fields and indices. -/
def postfixLoop (expr : Parser Expr) : Nat → Expr → Parser Expr
  | 0, _ => throw .fuel
  | fuel + 1, e => do
    match ← peek with
    | .dot =>
      let _ ← next
      match ← next with
      | .ident f => postfixLoop expr fuel (.field e f)
      | t => fail ("expected field name after `.`, found " ++ t.debug floats)
    | .lbracket =>
      let _ ← next
      let idx ← expr
      expect floats .rbracket
      postfixLoop expr fuel (.index e idx)
    | _ => pure e

mutual

/-- `parse_expr` -/
def parseExpr : Nat → Parser Expr
  | 0 => throw .fuel
  | fuel + 1 => parseCmp (parseAtom fuel) fuel

/-- `parse_atom` -/
def parseAtom : Nat → Parser Expr
  | 0 => throw .fuel
  | fuel + 1 => do
    let e ← parsePrimary floats (parseExpr fuel) (parseAtom fuel) fuel
    postfixLoop floats (parseExpr fuel) fuel e

end

/-! ### Statements -/

/-- `skip_seps` -/
def skipSeps : Nat → Parser Unit
  | 0 => throw .fuel
  | fuel + 1 => do
    if (← peek) = .sep then
      let _ ← next
      skipSeps fuel
    else pure ()

/-- The loop of `parse_struct` over the fields. -/
def parseFields : Nat → List (String × Option String) → Parser (List (String × Option String))
  | 0, _ => throw .fuel
  | fuel + 1, fields => do
    skipSeps fuel
    match ← peek with
    | .kEnd =>
      let _ ← next
      pure fields
    | .ident fname =>
      let _ ← next
      if (← peek) = .colonColon then
        let _ ← next
        match ← next with
        | .ident tn => parseFields fuel (fields ++ [(fname, some tn)])
        | t => fail ("expected field type, found " ++ t.debug floats)
      else parseFields fuel (fields ++ [(fname, none)])
    | t => fail ("expected field or `end` in struct, found " ++ t.debug floats)

/-- `parse_struct` -/
def parseStruct (mutabl : Bool) (fuel : Nat) : Parser SrcStmt := do
  match ← next with
  | .ident name =>
    let fields ← parseFields floats fuel []
    pure (.structDef name mutabl fields)
  | t => fail ("expected struct name, found " ++ t.debug floats)

/-- What ends a block. -/
def endsBlock : Tok → Bool
  | .kEnd | .kElse | .kElseif | .kCatch | .kFinally | .eof => true
  | _ => false

/-- The loop of `parse_block`. -/
def blockLoop (stmt : Parser SrcStmt) : Nat → List SrcStmt → Parser (List SrcStmt)
  | 0, _ => throw .fuel
  | fuel + 1, out => do
    skipSeps fuel
    if endsBlock (← peek) then pure out
    else
      let s ← stmt
      blockLoop stmt fuel (out ++ [s])

/-- The loop of `parse_block`, started. -/
def parseBlock (stmt : Parser SrcStmt) (fuel : Nat) : Parser (List SrcStmt) :=
  blockLoop stmt fuel []

/-- `parse_if`, the keyword consumed; the nested `if` of an `elseif` consumes the `end` that
the two share. -/
def parseIf (stmt : Parser SrcStmt) (expr : Parser Expr) (walk : Nat) : Nat → Parser SrcStmt
  | 0 => throw .fuel
  | fuel + 1 => do
    let cond ← expr
    let then_ ← parseBlock stmt walk
    match ← peek with
    | .kEnd =>
      let _ ← next
      pure (.ite cond then_ [])
    | .kElse =>
      let _ ← next
      let e ← parseBlock stmt walk
      expect floats .kEnd
      pure (.ite cond then_ e)
    | .kElseif =>
      let _ ← next
      let nested ← parseIf stmt expr walk fuel
      pure (.ite cond then_ [nested])
    | other => fail ("expected else/elseif/end, found " ++ other.debug floats)

/-- The cleanup behind `finally`, the keyword not yet consumed. -/
def parseCleanup (stmt : Parser SrcStmt) (walk : Nat) : Parser (List SrcStmt) := do
  let _ ← next
  let cleanup ← parseBlock stmt walk
  expect floats .kEnd
  pure cleanup

/-- The name behind `catch`, if there is one. -/
def catchName : Parser (Option String) := do
  match ← peek with
  | .ident name =>
    let _ ← next
    pure (some name)
  | _ => pure none

/-- A `try` statement, the keyword consumed. -/
def parseTry (stmt : Parser SrcStmt) (walk : Nat) : Parser SrcStmt := do
  let body ← parseBlock stmt walk
  if (← peek) = .kFinally then
    let cleanup ← parseCleanup floats stmt walk
    pure (.tryFinally body cleanup)
  else
    expect floats .kCatch
    let var ← catchName
    let handler ← parseBlock stmt walk
    if (← peek) = .kFinally then
      let cleanup ← parseCleanup floats stmt walk
      pure (.tryFinally [.tryCatch body var handler] cleanup)
    else
      expect floats .kEnd
      pure (.tryCatch body var handler)

/-- An expression as a statement. -/
def exprStmt (expr : Parser Expr) : Parser SrcStmt := do
  let e ← expr
  pure (.expr e)

/-- `name[idx] = e`, tried first: without `=` behind the bracket the position is reset, and
the whole is an expression. -/
def indexStmt (expr : Parser Expr) (name : String) : Parser SrcStmt := do
  let save ← get
  let _ ← next
  let _ ← next
  let idx ← expr
  if (← peek) = .rbracket ∧ (← ahead 1) = some .assign then
    let _ ← next
    let _ ← next
    let e ← expr
    pure (.indexAssign name idx e)
  else
    set save
    exprStmt expr

/-- `var.field = e` -/
def fieldStmt (expr : Parser Expr) (name field : String) : Parser SrcStmt := do
  let _ ← next
  let _ ← next
  let _ ← next
  let _ ← next
  let e ← expr
  pure (.fieldAssign name field e)

/-- The statements that start with an identifier, by the tokens behind it. -/
def identStmt (expr : Parser Expr) (name : String) : Parser SrcStmt := do
  match ← ahead 1, ← ahead 2, ← ahead 3 with
  | some .dot, some (.ident field), some .assign => fieldStmt expr name field
  | some .assign, _, _ =>
    let _ ← next
    let _ ← next
    let e ← expr
    pure (.assign name e)
  | some .lbracket, _, _ => indexStmt expr name
  | _, _, _ => exprStmt expr

/-- `parse_stmt` -/
def parseStmt : Nat → Parser SrcStmt
  | 0 => throw .fuel
  | fuel + 1 => do
    match ← peek with
    | .kStruct =>
      let _ ← next
      parseStruct floats false fuel
    | .kMutable =>
      let _ ← next
      expect floats .kStruct
      parseStruct floats true fuel
    | .kWhile =>
      let _ ← next
      let cond ← parseExpr floats fuel
      let body ← parseBlock (parseStmt fuel) fuel
      expect floats .kEnd
      pure (.while cond body)
    | .kIf =>
      let _ ← next
      parseIf floats (parseStmt fuel) (parseExpr floats fuel) fuel fuel
    | .kTry =>
      let _ ← next
      parseTry floats (parseStmt fuel) fuel
    | .ident name => identStmt (parseExpr floats fuel) name
    | _ => exprStmt (parseExpr floats fuel)

/-- `parse_program` -/
def parseProgram (fuel : Nat) : Parser (List SrcStmt) := do
  let block ← parseBlock (parseStmt floats fuel) fuel
  let t ← peek
  if t = .eof then pure block
  else fail ("unexpected " ++ t.debug floats)

end Parse

end Ruju.Frontend
