import Ruju.Library.Keeps
import Ruju.Loader.Prelower

/-!
# What the producer prints is what the loader reads

The statements that lowered code stands for (`toStmt`), and when its text is read back
as these statements.  Three things can go wrong.

* The parameters of a type constant are dropped, and every module is printed as `module`,
  which is read as `Main`: the code is not `printable`.
* A symbol with white space in it is cut in two, an empty name of a method disappears, and
  a number of `2 ^ 32` or more is not accepted: the code is not `printable` either.
* The count in front of a method's body is that of its lines, while the loader reads
  that many statements.  The two agree as long as no statement of the body takes more
  than a line, that is, if the methods defined in it have empty bodies: the code is
  `flat`.

A piece of the text is read at a position of the file, `Reads`; the lemma about a body is
an induction on the loader's fuel, since a method's body is read by the same function.
-/

namespace Ruju.Prelower

open Interp Text Loader

variable {V : Type} (K : Consts V)

/-! ### The statements that lowered code stands for

A form has no statement if the format has none for it: the forms that the producer
rejects, a type with parameters, and a module other than `Main`. -/

def Lit.toOp : Lit → Option (Op V)
  | .bool b => some (.const (K.bool b))
  | .int64 n => some (.int n.toInt)
  | .float64 bits => some (.float bits)
  | .symbol s => some (.const (K.sym s))
  | .module name => if name = "Main" then some (.const K.main) else none
  | .function name => some (.global name)
  | .type name params => if params = [] then some (.global name) else none
  | .nothing | .lineNumberNode => some (.const K.nothing)
  | .other _ _ => none

def Arg.toOp (shift : Nat) : Arg → Option (Op V)
  | .ssaValue id => some (.ssa (id - 1))
  | .slotNumber id => if (id : Nat) < shift then none else some (.slot (id - shift))
  | .globalRef name => some (.global name)
  | .quoteNode value | .lit value => value.toOp K

def toOps (shift : Nat) : List Arg → Option (List (Op V))
  | [] => some []
  | a :: args => do
    let o ← a.toOp K shift
    let os ← toOps shift args
    some (o :: os)

def assignStmt (shift : Nat) : Lhs → Rhs → Option (Stmt V)
  | .slotNumber id, rhs =>
    if (id : Nat) < shift then none
    else
      match rhs with
      | .call args => (toOps K shift args).map (.assignCall (id - shift))
      | .theException => some (.assignCaught (id - shift))
      | .arg a => (a.toOp K shift).map (.assign (id - shift))
      | .expr _ => none
  | .other _, _ => none

mutual

def Node.toStmt (shift : Nat) : Node → Option (Stmt V)
  | .goto label => some (.goto (label - 1))
  | .gotoIfNot cond dest => (cond.toOp K shift).map (.gotoIfNot · (dest - 1))
  | .return val => val.bind fun a => (a.toOp K shift).map .return
  | .enter catchDest hasScope => if hasScope then none else some (.enter (catchDest - 1))
  | .call args => (toOps K shift args).map .callValue
  | .assign lhs rhs => assignStmt K shift lhs rhs
  | .leave args => some (.leave (leaveCount args))
  | .popException arg => (arg.toOp K shift).map .popException
  | .theException => some .caught
  | .latestWorld => some .latestWorld
  | .method1 (.globalRef name) | .method1 (.symbol name) => some (.methodFunc name)
  | .method3 f sig slotnames code => do
    let fo ← f.toOp K shift
    let so ← sig.toOp K shift
    let body ← toStmts 2 code
    some (.methodDef fo so (slotnames.length - 1) body)
  | .value arg => (arg.toOp K shift).map .value
  | .method1 (.other _) | .methodExternal | .expr _ => none

def toStmts (shift : Nat) : List Node → Option (List (Stmt V))
  | [] => some []
  | node :: code => do
    let s ← node.toStmt shift
    let rest ← toStmts shift code
    some (s :: rest)

end

def Lowered.toBody : Lowered → Option (Body V)
  | .thunk slotnames code => (toStmts K 1 code).map (.mk slotnames.length)
  | .symbol s => some ⟨0, [.value (.global s), .return (.ssa 0)]⟩
  | .lit value => (value.toOp K).map fun o => ⟨0, [.value o, .return (.ssa 0)]⟩
  | .error _ => none

/-- The bodies of a file. -/
def toBodies : List Lowered → Option (List (Body V))
  | [] => some []
  | e :: es => do
    let body ← e.toBody K
    let rest ← toBodies es
    some (body :: rest)

theorem toStmts_cons {shift : Nat} {node : Node} {code : List Node} {stmts : List (Stmt V)} :
    toStmts K shift (node :: code) = some stmts ↔
      ∃ s rest, node.toStmt K shift = some s ∧ toStmts K shift code = some rest ∧
        s :: rest = stmts := by
  rw [toStmts]
  simp only [Option.bind_eq_bind, Option.bind_eq_some_iff, Option.some.injEq]
  exact ⟨fun ⟨s, hs, rest, hrest, h⟩ => ⟨s, rest, hs, hrest, h⟩,
    fun ⟨s, rest, hs, hrest, h⟩ => ⟨s, hs, rest, hrest, h⟩⟩

theorem toStmt_method {shift : Nat} {f sig : Arg} {slotnames : List String} {code : List Node}
    {s : Stmt V} :
    (Node.method3 f sig slotnames code).toStmt K shift = some s ↔
      ∃ fo so body, f.toOp K shift = some fo ∧ sig.toOp K shift = some so ∧
        toStmts K 2 code = some body ∧ .methodDef fo so (slotnames.length - 1) body = s := by
  rw [Node.toStmt]
  simp only [Option.bind_eq_bind, Option.bind_eq_some_iff, Option.some.injEq]
  exact ⟨fun ⟨fo, hf, so, hs, body, hb, h⟩ => ⟨fo, so, body, hf, hs, hb, h⟩,
    fun ⟨fo, so, body, hf, hs, hb, h⟩ => ⟨fo, hf, so, hs, body, hb, h⟩⟩

theorem length_toStmts {shift : Nat} {code : List Node} : ∀ {stmts : List (Stmt V)},
    toStmts K shift code = some stmts → stmts.length = code.length := by
  induction code with
  | nil =>
    intro stmts h
    rw [toStmts] at h
    cases h
    rfl
  | cons node code ih =>
    intro stmts h
    obtain ⟨s, rest, -, hrest, rfl⟩ := (toStmts_cons K).mp h
    rw [List.length_cons, List.length_cons, ih hrest]

/-! ### Printable code -/

/-- The number is a `usize`. -/
def small (n : Nat) : Bool := decide (n < 2 ^ 32)

/-- The word of the constant is read as the constant: its text has no white space, and
nothing of it is dropped. -/
def Lit.printable : Lit → Bool
  | .symbol s | .function s => noWhite s.toList
  | .type s params => params.isEmpty && noWhite s.toList
  | .module name => name == "Main"
  | _ => true

def Arg.printable (shift : Nat) : Arg → Bool
  | .ssaValue id => small (id - 1)
  | .slotNumber id => small (id - shift)
  | .globalRef name => noWhite name.toList
  | .quoteNode value | .lit value => value.printable

def Lhs.printable (shift : Nat) : Lhs → Bool
  | .slotNumber id => small (id - shift)
  | .other _ => true

def Rhs.printable (shift : Nat) : Rhs → Bool
  | .call args => args.all (Arg.printable shift)
  | .arg a => a.printable shift
  | _ => true

/-- A method's name is a word of its own. -/
def MethodName.printable : MethodName → Bool
  | .globalRef name | .symbol name => !name.toList.isEmpty && noWhite name.toList
  | .other _ => true

mutual

def Node.printable (shift : Nat) : Node → Bool
  | .goto label => small (label - 1)
  | .gotoIfNot cond dest => cond.printable shift && small (dest - 1)
  | .return val => val.all (Arg.printable shift)
  | .enter catchDest _ => small (catchDest - 1)
  | .call args => args.all (Arg.printable shift)
  | .assign lhs rhs => lhs.printable shift && rhs.printable shift
  | .leave args => small (leaveCount args)
  | .popException arg | .value arg => arg.printable shift
  | .method1 name => name.printable
  | .method3 f sig slotnames code =>
    f.printable shift && sig.printable shift && small (slotnames.length - 1) &&
      small code.length && printableAll 2 code
  | .theException | .latestWorld | .methodExternal | .expr _ => true

def printableAll (shift : Nat) : List Node → Bool
  | [] => true
  | node :: code => node.printable shift && printableAll shift code

end

/-- The statement takes one line. -/
def Node.oneLine : Node → Bool
  | .method3 _ _ _ code => code.isEmpty
  | _ => true

/-- A method's body has as many lines as statements. -/
def Node.flat : Node → Bool
  | .method3 _ _ _ code => code.all Node.oneLine
  | _ => true

/-- The text of the expression is read back. -/
def Lowered.printable : Lowered → Bool
  | .thunk slotnames code => small slotnames.length && small code.length && printableAll 1 code
  | .symbol s => noWhite s.toList
  | .lit value => value.printable
  | .error _ => true

/-- No method defined inside a method has statements. -/
def Lowered.flat : Lowered → Bool
  | .thunk _ code => code.all Node.flat
  | _ => true

theorem Node.flat_of_oneLine {node : Node} (h : node.oneLine = true) : node.flat = true := by
  cases node with
  | method3 f sig slotnames code =>
    have hnil : code = [] := List.isEmpty_iff.mp h
    rw [hnil, Node.flat, List.all_nil]
  | _ => rfl

/-! ### Operands -/

instance (w : List Char) : Decidable (Solid w) :=
  decidable_of_iff (w ≠ [] ∧ noWhite w = true) ⟨fun h => ⟨h.1, h.2⟩, fun h => ⟨h.ne_nil, h.noWhite⟩⟩

theorem solid_num (n : Nat) : Solid (num n) := solid_toDigits (by decide) (by decide) n

variable {n : Nat}

theorem parseUsize_num (h : small n = true) : parseUsize (num n) = some n :=
  readUnsigned_toDigits (by decide) (by decide) (of_decide_eq_true h)

/-- The number that is read is the one that was printed. -/
theorem eq_of_parseUsize_num {m : Nat} (h : parseUsize (num n) = some m) : m = n := by
  rw [parseUsize, readUnsigned, num, readNat_toDigits (by decide) (by decide),
    Option.filter_eq_some_iff] at h
  exact (Option.some.inj h.1).symm

theorem opKind_colon {kind : List Char} (h : ':' ∉ kind) (rest : List Char) :
    opKind (kind ++ ':' :: rest) = kind := by
  rw [opKind, List.takeWhile_append_of_pos]
  · simp
  · intro c hc
    simp only [bne_iff_ne]
    rintro rfl
    exact h hc

theorem opRest_colon {kind : List Char} (h : ':' ∉ kind) (rest : List Char) :
    opRest (kind ++ ':' :: rest) = rest := by
  rw [opRest, List.dropWhile_append_of_pos]
  · simp
  · intro c hc
    simp only [bne_iff_ne]
    rintro rfl
    exact h hc

/-- A printed operand is one word, and it is read as `o`. -/
structure ReadsAs (w : Line) (o : Op V) : Prop where
  solid : Solid w
  parse : ∀ lineNo, parseOp K w lineNo = .ok o

theorem ReadsAs.ssa {n : Nat} (h : small n = true) :
    ReadsAs K ("ssa:".toList ++ num n) (.ssa n) where
  solid := Solid.append (by decide) (solid_num n).noWhite
  parse lineNo := by
    show parseOp K ("ssa".toList ++ ':' :: num n) lineNo = _
    rw [parseOp, opKind_colon (by decide), opRest_colon (by decide), parseUsize_num h]
    rfl

theorem ReadsAs.slot {n : Nat} (h : small n = true) :
    ReadsAs K ("slot:".toList ++ num n) (.slot n) where
  solid := Solid.append (by decide) (solid_num n).noWhite
  parse lineNo := by
    show parseOp K ("slot".toList ++ ':' :: num n) lineNo = _
    rw [parseOp, opKind_colon (by decide), opRest_colon (by decide), parseUsize_num h]
    rfl

theorem ReadsAs.global {name : String} (h : noWhite name.toList = true) :
    ReadsAs K ("global:".toList ++ name.toList) (.global name) where
  solid := Solid.append (by decide) h
  parse lineNo := by
    show parseOp K ("global".toList ++ ':' :: name.toList) lineNo = _
    rw [parseOp, opKind_colon (by decide), opRest_colon (by decide)]
    show Except.ok (Op.global (String.ofList name.toList)) = _
    rw [String.ofList_toList]

/-- **A constant is read back.** -/
theorem reads_constop {v : Lit} {w : Line} (hw : constop v = .ok w) (hv : v.printable = true) :
    ∃ o, v.toOp K = some o ∧ ReadsAs K w o := by
  cases v with
  | bool b =>
    cases hw
    refine ⟨_, rfl, ?_, fun lineNo => ?_⟩
    · cases b <;> decide
    · cases b <;> rfl
  | int64 n =>
    cases hw
    refine ⟨_, rfl, Solid.append (by decide) (solid_showInt _).noWhite, fun lineNo => ?_⟩
    have hread : parseI64 (showInt n.toInt) = some n.toInt :=
      readSigned_showInt n.le_toInt (Int.le_sub_one_of_lt n.toInt_lt)
    show parseOp K ("int".toList ++ ':' :: showInt n.toInt) lineNo = _
    rw [parseOp, opKind_colon (by decide), opRest_colon (by decide), hread]
    rfl
  | float64 bits =>
    cases hw
    have hdigits : Solid (Nat.toDigits 16 bits.toNat) := solid_toDigits (by decide) (by decide) _
    refine ⟨_, rfl, Solid.append (by decide) hdigits.noWhite, fun lineNo => ?_⟩
    have hread : parseHex64 (Nat.toDigits 16 bits.toNat) = some bits.toNat :=
      readUnsigned_toDigits (by decide) (by decide) bits.toNat_lt
    show parseOp K ("f64".toList ++ ':' :: Nat.toDigits 16 bits.toNat) lineNo = _
    rw [parseOp, opKind_colon (by decide), opRest_colon (by decide), hread]
    show Except.ok (Op.float (UInt64.ofNat bits.toNat)) = _
    rw [UInt64.ofNat_toNat]
  | symbol s =>
    cases hw
    refine ⟨_, rfl, Solid.append (by decide) hv, fun lineNo => ?_⟩
    show parseOp K ("sym".toList ++ ':' :: s.toList) lineNo = _
    rw [parseOp, opKind_colon (by decide), opRest_colon (by decide)]
    show Except.ok (Op.const (K.sym (String.ofList s.toList))) = _
    rw [String.ofList_toList]
  | function name =>
    cases hw
    exact ⟨_, rfl, ReadsAs.global K hv⟩
  | type name params =>
    cases hw
    rw [Lit.printable, Bool.and_eq_true, List.isEmpty_iff] at hv
    exact ⟨_, if_pos hv.1, ReadsAs.global K hv.2⟩
  | nothing =>
    cases hw
    exact ⟨_, rfl, by decide, fun lineNo => rfl⟩
  | lineNumberNode =>
    cases hw
    exact ⟨_, rfl, by decide, fun lineNo => rfl⟩
  | module name =>
    cases hw
    exact ⟨_, if_pos (beq_iff_eq.mp hv), by decide, fun lineNo => rfl⟩
  | other repr type => cases hw

variable {shift : Nat}

/-- **An operand is read back.** -/
theorem reads_op {a : Arg} {w : Line} (hw : op shift a = .ok w)
    (ha : a.printable shift = true) : ∃ o, a.toOp K shift = some o ∧ ReadsAs K w o := by
  cases a with
  | ssaValue id =>
    cases hw
    exact ⟨_, rfl, ReadsAs.ssa K ha⟩
  | slotNumber id =>
    rw [op] at hw
    split at hw
    · cases hw
    case isFalse hself =>
      cases hw
      exact ⟨_, if_neg hself, ReadsAs.slot K ha⟩
  | globalRef name =>
    cases hw
    exact ⟨_, rfl, ReadsAs.global K ha⟩
  | quoteNode value => exact reads_constop K hw ha
  | lit value => exact reads_constop K hw ha

theorem reads_ops {args : List Arg} {ws : List Line} (hws : ops shift args = .ok ws)
    (hargs : args.all (Arg.printable shift) = true) :
    ∃ os, toOps K shift args = some os ∧ (∀ w ∈ ws, Solid w) ∧
      ∀ lineNo, parseOps K lineNo ws = .ok os := by
  induction args generalizing ws with
  | nil =>
    cases hws
    exact ⟨[], rfl, fun w hw => absurd hw List.not_mem_nil, fun lineNo => rfl⟩
  | cons a args ih =>
    obtain ⟨w, hw, h⟩ := bind_eq_ok.mp hws
    obtain ⟨ws', hws', h⟩ := bind_eq_ok.mp h
    cases h
    rw [List.all_cons, Bool.and_eq_true] at hargs
    obtain ⟨o, ho, hfirst⟩ := reads_op K hw hargs.1
    obtain ⟨os, hos, hsolid, hparse⟩ := ih hws' hargs.2
    refine ⟨o :: os, ?_, ?_, fun lineNo => ?_⟩
    · rw [toOps, ho, hos]
      rfl
    · intro v hv
      rcases List.mem_cons.mp hv with rfl | hv
      · exact hfirst.solid
      · exact hsolid v hv
    · rw [parseOps, hfirst.parse, hparse]
      rfl

/-! ### Lines -/

/-- The line consists of a head and words behind it.  It has no line break, and it does
not look like a comment. -/
structure Spells (l : Line) (head : List Char) (args : List (List Char)) : Prop where
  words : words l = head :: args
  noBreak : '\n' ∉ l
  first : ∃ c t, l = c :: t ∧ isWhite c = false ∧ c ≠ '#'

variable {w : List Char}

theorem not_break_of_noWhite (h : noWhite w = true) : '\n' ∉ w := by
  intro hw
  have := noWhite_iff.mp h '\n' hw
  revert this
  decide

namespace Spells

variable {l : Line} {head : List Char} {args ws : List (List Char)}

theorem ofHead (head : List Char) (h : Solid head) (hfirst : head.head? ≠ some '#') :
    Spells head head [] where
  words := words_of_solid h
  noBreak := not_break_of_noWhite h.noWhite
  first := by
    cases head with
    | nil => exact absurd rfl h.ne_nil
    | cons c t =>
      refine ⟨c, t, rfl, noWhite_iff.mp h.noWhite c List.mem_cons_self, ?_⟩
      rintro rfl
      exact hfirst rfl

/-- More words behind a blank. -/
theorem append (h : Spells l head args) (hws : ∀ w ∈ ws, Solid w) :
    Spells (l ++ [' '] ++ unwords ws) head (args ++ ws) where
  words := by
    rw [List.append_assoc]
    show Text.words (l ++ ' ' :: unwords ws) = _
    rw [words_append rfl, h.words, words_unwords hws, List.cons_append]
  noBreak := by
    have hunwords : '\n' ∉ unwords ws := by
      intro hmem
      obtain ⟨w, hw, hc⟩ := mem_unwords hmem (by decide)
      exact not_break_of_noWhite (hws w hw).noWhite hc
    simp [h.noBreak, hunwords]
  first := by
    obtain ⟨c, t, rfl, hc⟩ := h.first
    exact ⟨c, _, rfl, hc⟩

/-- One more word. -/
theorem snoc (h : Spells l head args) (hw : Solid w) :
    Spells (l ++ [' '] ++ w) head (args ++ [w]) := by
  have hone : ∀ v ∈ [w], Solid v := by simpa using hw
  have := h.append hone
  rwa [unwords_singleton] at this

/-- A head and one word. -/
theorem one (head : List Char) (h : Solid head) (hfirst : head.head? ≠ some '#')
    (hw : Solid w) : Spells (head ++ [' '] ++ w) head [w] :=
  (ofHead head h hfirst).snoc hw

/-- A head and two words. -/
theorem two (head : List Char) {w' : List Char} (h : Solid head)
    (hfirst : head.head? ≠ some '#') (hw : Solid w) (hw' : Solid w') :
    Spells (head ++ [' '] ++ w ++ [' '] ++ w') head [w, w'] :=
  (one head h hfirst hw).snoc hw'

end Spells

/-- A printed line is read as `s`. -/
def LineReads (l : Line) (s : Stmt V) : Prop :=
  ∃ head args, Spells l head args ∧ String.ofList head ≠ "method3" ∧
    ∀ lineNo, parseLine K lineNo head args = .ok s

theorem reads_assign {lhs : Lhs} {rhs : Rhs} {l : Line}
    (hl : emitAssign shift lhs rhs = .ok l) (hlhs : lhs.printable shift = true)
    (hrhs : rhs.printable shift = true) :
    ∃ s, assignStmt K shift lhs rhs = some s ∧ LineReads K l s := by
  cases lhs with
  | other repr => cases hl
  | slotNumber id =>
    have hslot : parseUsize (num (id - shift)) = some (id - shift) := parseUsize_num hlhs
    unfold emitAssign at hl
    dsimp only at hl
    split at hl
    · cases hl
    case isFalse hself =>
      cases rhs with
      | call args =>
        obtain ⟨ws, hws, h⟩ := bind_eq_ok.mp hl
        cases h
        obtain ⟨os, hos, hsolid, hparse⟩ := reads_ops K hws hrhs
        refine ⟨.assignCall (id - shift) os, ?_, "assigncall".toList, num (id - shift) :: ws, ?_,
          by decide, fun lineNo => ?_⟩
        · rw [assignStmt, if_neg hself, hos]
          rfl
        · exact (Spells.one "assigncall".toList (by decide) (by decide) (solid_num _)).append hsolid
        · show (orErr (parseUsize (num (id - shift))) lineNo "bad slot" >>= fun slot =>
            parseOps K lineNo ws >>= fun ops => Except.ok (Stmt.assignCall slot ops)) = _
          rw [hslot, hparse]
          rfl
      | theException =>
        cases hl
        refine ⟨.assignCaught (id - shift), if_neg hself, "assigncaught".toList,
          [num (id - shift)], .one "assigncaught".toList (by decide) (by decide) (solid_num _),
          by decide, fun lineNo => ?_⟩
        show (orErr (parseUsize (num (id - shift))) lineNo "bad slot").map Stmt.assignCaught = _
        rw [hslot]
        rfl
      | expr head => cases hl
      | arg a =>
        obtain ⟨w, hw, h⟩ := bind_eq_ok.mp hl
        cases h
        obtain ⟨o, ho, ha⟩ := reads_op K hw hrhs
        refine ⟨.assign (id - shift) o, ?_, "assign".toList, [num (id - shift), w],
          .two "assign".toList (by decide) (by decide) (solid_num _) ha.solid,
          by decide, fun lineNo => ?_⟩
        · rw [assignStmt, if_neg hself, ho]
          rfl
        show (orErr (parseUsize (num (id - shift))) lineNo "bad slot" >>= fun slot =>
          parseOp K w lineNo >>= fun op => Except.ok (Stmt.assign slot op)) = _
        rw [hslot, ha.parse]
        rfl

theorem reads_method1 {name : String} (h : (!name.toList.isEmpty && noWhite name.toList) = true) :
    LineReads K ("method1 ".toList ++ name.toList) (.methodFunc name) := by
  have hsolid : Solid name.toList := by
    rw [Bool.and_eq_true] at h
    exact ⟨by simpa using h.1, h.2⟩
  refine ⟨"method1".toList, [name.toList],
    .one "method1".toList (by decide) (by decide) hsolid, by decide, fun lineNo => ?_⟩
  show Except.ok (Stmt.methodFunc (String.ofList name.toList)) = _
  rw [String.ofList_toList]

/-- **A statement of one line is read back.** -/
theorem reads_line {node : Node} {l : Line} (hl : emitLine shift node = .ok l)
    (hnode : node.printable shift = true) :
    ∃ s, node.toStmt K shift = some s ∧ LineReads K l s := by
  cases node with
  | goto label =>
    cases hl
    rw [Node.printable] at hnode
    refine ⟨.goto (label - 1), by rw [Node.toStmt], "goto".toList, [num (label - 1)],
      .one "goto".toList (by decide) (by decide) (solid_num _), by decide, fun lineNo => ?_⟩
    show (orErr (parseUsize (num (label - 1))) lineNo "bad target").map Stmt.goto = _
    rw [parseUsize_num hnode]
    rfl
  | gotoIfNot cond dest =>
    obtain ⟨w, hw, h⟩ := bind_eq_ok.mp hl
    cases h
    rw [Node.printable, Bool.and_eq_true] at hnode
    obtain ⟨o, ho, ha⟩ := reads_op K hw hnode.1
    refine ⟨.gotoIfNot o (dest - 1), by rw [Node.toStmt, ho]; rfl, "gotoifnot".toList,
      [w, num (dest - 1)],
      .two "gotoifnot".toList (by decide) (by decide) ha.solid (solid_num _),
      by decide, fun lineNo => ?_⟩
    show (parseOp K w lineNo >>= fun cond =>
      orErr (parseUsize (num (dest - 1))) lineNo "bad target" >>= fun target =>
        Except.ok (Stmt.gotoIfNot cond target)) = _
    rw [ha.parse, parseUsize_num hnode.2]
    rfl
  | «return» val =>
    cases val with
    | none => cases hl
    | some a =>
      obtain ⟨w, hw, h⟩ := bind_eq_ok.mp hl
      cases h
      obtain ⟨o, ho, ha⟩ := reads_op K hw (by simpa [Node.printable] using hnode)
      refine ⟨.return o, by rw [Node.toStmt, Option.bind_some, ho]; rfl, "return".toList, [w],
        .one "return".toList (by decide) (by decide) ha.solid, by decide, fun lineNo => ?_⟩
      show (parseOp K w lineNo).map Stmt.return = _
      rw [ha.parse]
      rfl
  | enter catchDest hasScope =>
    rw [emitLine] at hl
    split at hl
    · cases hl
    case isFalse hscope =>
      cases hl
      rw [Node.printable] at hnode
      refine ⟨.enter (catchDest - 1), by rw [Node.toStmt, if_neg hscope], "enter".toList,
        [num (catchDest - 1)], .one "enter".toList (by decide) (by decide) (solid_num _),
        by decide, fun lineNo => ?_⟩
      show (orErr (parseUsize (num (catchDest - 1))) lineNo "bad target").map Stmt.enter = _
      rw [parseUsize_num hnode]
      rfl
  | call args =>
    obtain ⟨ws, hws, h⟩ := bind_eq_ok.mp hl
    cases h
    rw [Node.printable] at hnode
    obtain ⟨os, hos, hsolid, hparse⟩ := reads_ops K hws hnode
    refine ⟨.callValue os, by rw [Node.toStmt, hos]; rfl, "call".toList, ws, ?_, by decide,
      fun lineNo => ?_⟩
    · exact (Spells.ofHead "call".toList (by decide) (by decide)).append hsolid
    · show (parseOps K lineNo ws).map Stmt.callValue = _
      rw [hparse]
      rfl
  | assign lhs rhs =>
    rw [Node.printable, Bool.and_eq_true] at hnode
    rw [Node.toStmt]
    exact reads_assign K hl hnode.1 hnode.2
  | leave args =>
    cases hl
    rw [Node.printable] at hnode
    refine ⟨.leave (leaveCount args), by rw [Node.toStmt], "leave".toList, [num (leaveCount args)],
      .one "leave".toList (by decide) (by decide) (solid_num _), by decide, fun lineNo => ?_⟩
    show (orErr (parseUsize (num (leaveCount args))) lineNo "bad count").map Stmt.leave = _
    rw [parseUsize_num hnode]
    rfl
  | popException a =>
    obtain ⟨w, hw, h⟩ := bind_eq_ok.mp hl
    cases h
    rw [Node.printable] at hnode
    obtain ⟨o, ho, ha⟩ := reads_op K hw hnode
    refine ⟨.popException o, by rw [Node.toStmt, ho]; rfl, "pop_exception".toList, [w],
      .one "pop_exception".toList (by decide) (by decide) ha.solid, by decide, fun lineNo => ?_⟩
    show (parseOp K w lineNo).map Stmt.popException = _
    rw [ha.parse]
    rfl
  | theException =>
    cases hl
    exact ⟨.caught, by rw [Node.toStmt], "the_exception".toList, [],
      .ofHead _ (by decide) (by decide), by decide, fun lineNo => rfl⟩
  | latestWorld =>
    cases hl
    exact ⟨.latestWorld, by rw [Node.toStmt], "latestworld".toList, [],
      .ofHead _ (by decide) (by decide), by decide, fun lineNo => rfl⟩
  | method1 name =>
    rw [Node.printable] at hnode
    cases name with
    | globalRef name =>
      cases hl
      exact ⟨.methodFunc name, by rw [Node.toStmt], reads_method1 K hnode⟩
    | symbol name =>
      cases hl
      exact ⟨.methodFunc name, by rw [Node.toStmt], reads_method1 K hnode⟩
    | other repr => cases hl
  | method3 f sig slotnames code => cases hl
  | methodExternal => cases hl
  | expr head => cases hl
  | value a =>
    obtain ⟨w, hw, h⟩ := bind_eq_ok.mp hl
    cases h
    rw [Node.printable] at hnode
    obtain ⟨o, ho, ha⟩ := reads_op K hw hnode
    refine ⟨.value o, by rw [Node.toStmt, ho]; rfl, "value".toList, [w],
      .one "value".toList (by decide) (by decide) ha.solid, by decide, fun lineNo => ?_⟩
    show (parseOp K w lineNo).map Stmt.value = _
    rw [ha.parse]
    rfl

/-- The line of a method definition is read back, up to the number of statements. -/
theorem reads_methodHead {f sig : Arg} {slotnames : List String} {l : Line}
    (hl : emitMethodHead shift f sig slotnames n = .ok l) (hf : f.printable shift = true)
    (hsig : sig.printable shift = true) (hslots : small (slotnames.length - 1) = true) :
    ∃ fo so, f.toOp K shift = some fo ∧ sig.toOp K shift = some so ∧
      ∃ args, Spells l "method3".toList args ∧ ∀ lineNo,
        parseMethodHead K lineNo args = (orErr (parseUsize (num n)) lineNo "bad nstmts").map
          (MethodHead.mk fo so (slotnames.length - 1)) := by
  rw [emitMethodHead] at hl
  split at hl
  · obtain ⟨fw, hfw, h⟩ := bind_eq_ok.mp hl
    obtain ⟨sw, hsw, h⟩ := bind_eq_ok.mp h
    cases h
    obtain ⟨fo, hfo, hfr⟩ := reads_op K hfw hf
    obtain ⟨so, hso, hsr⟩ := reads_op K hsw hsig
    refine ⟨fo, so, hfo, hso, [fw, sw, num (slotnames.length - 1), num n], ?_, fun lineNo => ?_⟩
    · exact ((Spells.two "method3".toList (by decide) (by decide) hfr.solid hsr.solid).snoc
        (solid_num _)).snoc (solid_num _)
    · rw [parseMethodHead, hfr.parse, hsr.parse, parseUsize_num hslots]
      cases parseUsize (num n) <;> rfl
  · cases hl

end Ruju.Prelower
