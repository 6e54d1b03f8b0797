import Mathlib.Algebra.Order.Ring.Nat
import Ruju.Interp.Code

/-!
# The interpreter

`eval_core` of `interp.rs`, with the parts of `errors.rs`, `module.rs` and
`dispatch.rs` that it runs through.

The interpreter is generic in what it computes with.  `Prims` collects the
operations on values and on the heap that it calls (boxing, builtins, fields, arrays,
the choice of a method); results about it hold whatever these do.  Runs in which an
allocation fails are left out.

**Boxes and collections.**  A box is immutable, and two boxes with the same bits cannot be
told apart, so a boxed number is a value here and making one leaves the heap as it is.  In
the source it allocates, and the allocation may collect.  A collection moves nothing and
frees nothing that is in a root, so it shows only in a reference that is in none.  The
frame, the frame of a call's arguments and the exception stack are roots.  A statement that
keeps its operands in locals has such references: the box of a literal is in no root while
the literals behind it are boxed.  `Prims.unrooted` is what is found at it then, and
`Prims.keep` is where it matters.

What the interpreter itself does is spelled out: the frame with its slots and
SSA values in one array, the instruction pointer, the handlers, and the stack of
exceptions being handled, which outlives a frame.  An index outside the frame or the
code ends the evaluation with a `Stop`; in the source it reads or writes
another frame's roots, or panics.
-/

namespace Ruju.Interp

/-! ### The runtime's state -/

/-- A struct from source: its fields in order, and whether it is mutable. -/
structure StructDef where
  name : String
  fields : List (String × TypeRef)
  mutabl : Bool
deriving DecidableEq, Repr

/-- What a callable value resolves to. -/
inductive FnKind
  | generic (func : Nat)
  | native (f : Nat)

/-- A method: its function, its signature, and its body or compiled entry point. -/
structure Entry (V : Type) where
  func : Nat
  sig : V
  body : Body V
  fptr1 : Option Nat

/-- The state that outlives an evaluation. -/
structure State (V H : Type) where
  heap : H
  /-- The bindings of `Main`, in the order they were made. -/
  main : List (String × V)
  /-- The exceptions being handled, the current one first. -/
  exc : List V
  methods : List (Entry V)
  structs : List StructDef

/-- `get_global`: an element that is `null` reads as unset. -/
def getGlobal {V : Type} [DecidableEq V] (null : V) (main : List (String × V)) (sym : String) :
    Option V :=
  match main.find? fun b => b.1 = sym with
  | some b => if b.2 = null then none else some b.2
  | none => none

/-- `set_global`: replace the value of the binding, or append one. -/
def setGlobal {V : Type} (sym : String) (v : V) : List (String × V) → List (String × V)
  | [] => [(sym, v)]
  | b :: main => if b.1 = sym then (sym, v) :: main else b :: setGlobal sym v main

/-- `lookup_struct`, as a definition. -/
def findStruct (structs : List StructDef) (name : String) : Option StructDef :=
  structs.find? fun d => d.name = name

/-- The definition of a struct type. -/
def structDef (structs : List StructDef) : TypeRef → Option StructDef
  | .builtin _ => none
  | .struct name => findStruct structs name

/-- An operation on the heap: an exception or a result, and the heap after it. -/
abbrev HeapOp (V H : Type) := ExceptT V (StateM H)

/-- The operations on values and on the heap that the interpreter calls. -/
structure Prims (V H : Type) where
  null : V
  nothing : V
  boxInt : Int → V
  boxFloat : UInt64 → V
  boxBool : Bool → V
  unboxBool : V → H → Bool
  unboxInt : V → H → Int
  typeOf : V → H → V
  typeName : V → H → String
  anyType : V
  errorException : String → H → V × H
  boundsError : V → Int → H → V × H
  apply : Builtin → List V → HeapOp V H V
  newStruct : TypeRef → Option StructDef → List V → H → Except String V × H
  fieldIndex : V → String → H → Option Nat
  getNthField : V → Nat → H → Except String V × H
  setNthField : V → Nat → V → H → Except String Unit × H
  isArray : V → H → Bool
  arrayLen : V → H → Nat
  alloc1d : V → Nat → HeapOp V H V
  aref : V → Nat → HeapOp V H V
  aset : V → Nat → V → HeapOp V H Unit
  arrayPush : V → V → HeapOp V H Unit
  callableOf : V → H → Option FnKind
  makeFunction : String → H → V × H
  sigTuple : V → HeapOp V H V
  tupleType : List V → H → V × H
  issubtype : V → V → H → Bool
  native : Nat → List V → List (String × V) → H → (Except V V × List (String × V)) × H
  callCompiled : Nat → List V → H → V × H
  /-- What is found at the box of a literal, which is in no root, after another literal has
  been boxed: the box itself, unless this has collected it. -/
  unrooted : V → H → V
  /-- A depth of the exception stack survives being boxed. -/
  unboxInt_boxInt : ∀ (n : Nat) (h : H), unboxInt (boxInt n) h = n

namespace Prims

variable {V H : Type} (P : Prims V H)

/-! ### Operations on the heap

The arms of `eval_core` between reading the operands and storing the result. -/

/-- Throw an `ErrorException`. -/
def error {α : Type} (msg : String) : HeapOp V H α := fun h =>
  (.error (P.errorException msg h).1, (P.errorException msg h).2)

/-- `map_err(wrap_msg)`. -/
def wrapMsg {α : Type} (f : H → Except String α × H) : HeapOp V H α := fun h =>
  match (f h).1 with
  | .ok a => (.ok a, (f h).2)
  | .error msg => P.error msg (f h).2

/-- The operand `v` of a statement that keeps its operands in locals, after those behind it
have been read: `literal` tells whether it is a box in no root, and `boxes` whether one of
those behind it has been boxed. -/
def keep (literal boxes : Bool) (v : V) : HeapOp V H V := fun h =>
  (.ok (if literal && boxes then P.unrooted v h else v), h)

/-- The primitives of a runtime in which no collection frees the box of a literal. -/
def rooted : Prims V H := { P with unrooted := fun v _ => v }

theorem keep_of_rooted (boxes : Bool) (v : V) : P.keep false boxes v = pure v := rfl

/-- `field_index`, or the exception that says there is no such field. -/
def fieldOf (v : V) (name : String) : HeapOp V H Nat := fun h =>
  match P.fieldIndex (P.typeOf v h) name h with
  | some i => (.ok i, h)
  | none => P.error ("type " ++ P.typeName (P.typeOf v h) h ++ " has no field " ++ name) h

def getField (v : V) (name : String) : HeapOp V H V := do
  let i ← P.fieldOf v name
  P.wrapMsg (P.getNthField v i)

def setField (v : V) (name : String) (rhs : V) : HeapOp V H Unit := do
  let i ← P.fieldOf v name
  P.wrapMsg (P.setNthField v i rhs)

/-- `expect_array`. -/
def expectArray (v : V) : HeapOp V H Unit := fun h =>
  if P.isArray (P.typeOf v h) h then (.ok (), h)
  else P.error "MethodError: expected an Array" h

/-- The part of `index_checked` behind `expect_array`. -/
def checkIndex (a i : V) : HeapOp V H Nat := fun h =>
  let n := P.unboxInt i h
  if n < 1 ∨ n > P.arrayLen a h then
    (.error (P.boundsError a n h).1, (P.boundsError a n h).2)
  else (.ok (n - 1).toNat, h)

/-- `index_checked`. -/
def indexChecked (a i : V) : HeapOp V H Nat := do
  P.expectArray a
  P.checkIndex a i

def arrayRef (a i : V) : HeapOp V H V := do
  let i0 ← P.indexChecked a i
  P.aref a i0

def arraySet (a i rhs : V) : HeapOp V H Unit := do
  let i0 ← P.indexChecked a i
  P.aset a i0 rhs

def push (a v : V) : HeapOp V H Unit := do
  P.expectArray a
  P.arrayPush a v

def arrayLenOp (a : V) : HeapOp V H V := do
  P.expectArray a
  fun h => (.ok (P.boxInt (P.arrayLen a h)), h)

/-- The stores of an array literal, from position `j` on. -/
def storeAll (a : V) : Nat → List V → HeapOp V H Unit
  | _, [] => pure ()
  | j, v :: vals => do
    P.aset a j v
    storeAll a (j + 1) vals

/-- An array literal: the common type of the elements, or `Any`. -/
def arrayLit [DecidableEq V] (vals : List V) : HeapOp V H V := fun h =>
  let elem :=
    match vals with
    | [] => P.anyType
    | v :: rest => if rest.all fun w => P.typeOf w h = P.typeOf v h then P.typeOf v h else P.anyType
  (do
    let a ← P.alloc1d elem vals.length
    P.storeAll a 0 vals
    pure a : HeapOp V H V) h

end Prims

/-! ### Configurations -/

/-- Why an evaluation has no outcome: it needs more rounds, a statement uses an index
outside the frame or the code, a seeded slot lies outside the frame, or the number of entries
of a frame wraps around.  Such a frame has fewer entries than its body has slots, and it is
not followed which of them the body then uses. -/
inductive Stop
  | outOfFuel
  | outside
  | badSeed
  | frameWraps
deriving DecidableEq, Repr

/-- One activation of `eval_core`. -/
structure Config (V H : Type) where
  ip : Nat
  /-- The slots, followed by the SSA values. -/
  frame : List V
  /-- The active handlers, innermost first. -/
  handlers : List Nat
  state : State V H

/-- The execution of a statement: it may throw, and what it did before stays. -/
abbrev EvalM (V H : Type) := ExceptT V (StateT (Config V H) (Except Stop))

/-- What a call does: an outcome and the state after it, if it ends. -/
abbrev CallResult (V H : Type) := Except Stop (Except V V × State V H)

/-- Where control goes after a statement. -/
inductive Flow (V : Type)
  | next
  | goto (target : Nat)
  | ret (v : V)
  /-- Unwinding resumes with the current exception. -/
  | resume (e : V)

section Statements

variable {V H : Type} [DecidableEq V] (P : Prims V H)

/-- `frame.get(i)`. -/
def getFrame (i : Nat) : EvalM V H V := fun c =>
  match c.frame[i]? with
  | some v => .ok (.ok v, c)
  | none => .error .outside

/-- `frame.set(i, v)`. -/
def setFrame (i : Nat) (v : V) : EvalM V H Unit := fun c =>
  if i < c.frame.length then .ok (.ok (), { c with frame := c.frame.set i v })
  else .error .outside

/-- `frame.set(ssa_base + ip, v)`. -/
def setResult (nslots : Nat) (v : V) : EvalM V H Unit := fun c => setFrame (nslots + c.ip) v c

/-- An operation on the heap, as part of a statement. -/
def onHeap {α : Type} (f : HeapOp V H α) : EvalM V H α := fun c =>
  .ok ((f c.state.heap).1, { c with state := { c.state with heap := (f c.state.heap).2 } })

/-- A call, as part of a statement. -/
def onState (f : State V H → CallResult V H) : EvalM V H V := fun c =>
  match f c.state with
  | .error stop => .error stop
  | .ok (r, st) => .ok (r, { c with state := st })

/-- `read_op`. -/
def readOp (nslots : Nat) : Op V → EvalM V H V
  | .ssa i => getFrame (nslots + i)
  | .slot k => getFrame k
  | .int c => pure (P.boxInt c)
  | .float bits => pure (P.boxFloat bits)
  | .const v => pure v
  | .global sym => do
    match getGlobal P.null (← get).state.main sym with
    | some v => pure v
    | none => onHeap (P.error ("UndefVarError: `" ++ sym ++ "` not defined in `Main`"))

/-- `read_args`. -/
def readArgs (nslots : Nat) : List (Op V) → EvalM V H (List V)
  | [] => pure []
  | op :: args => do
    let v ← readOp P nslots op
    let vals ← readArgs nslots args
    pure (v :: vals)

/-- `exc_restore`. -/
def excRestore (depth : Nat) (exc : List V) : List V := exc.drop (exc.length - depth)

/-- The calls that a statement can make. -/
structure Calls (V H : Type) where
  /-- `call_value` -/
  value : V → List V → State V H → CallResult V H
  /-- `dispatch::invoke` -/
  invoke : Nat → List V → State V H → CallResult V H

/-- `(args[0])(args[1..])`. -/
def callArgs (calls : Calls V H) : List V → EvalM V H V
  | [] => fun _ => .error .outside
  | callee :: vals => onState (calls.value callee vals)

/-- The value of `:method` with a name. -/
def methodFunc (nslots : Nat) (sym : String) : EvalM V H V := do
  let c ← get
  match getGlobal P.null c.state.main sym with
  | some v =>
    match P.callableOf v c.state.heap with
    | some (.generic _) => pure v
    | _ => onHeap (P.error ("cannot define function " ++ sym ++ "; it already has a value"))
  | none => do
    let f ← onHeap fun h => (.ok (P.makeFunction sym h).1, (P.makeFunction sym h).2)
    setResult nslots f
    modify fun c => { c with state := { c.state with main := setGlobal sym f c.state.main } }
    pure f

/-- `func_of`, or the exception. -/
def funcOf (f : V) : HeapOp V H Nat := fun h =>
  match P.callableOf f h with
  | some (.generic func) => (.ok func, h)
  | _ => P.error "method: not a generic function" h

/-- `:isdefined`, without evaluating the operand. -/
def isDefinedOp : Op V → EvalM V H Bool
  | .slot k => do
    let v ← getFrame k
    pure (decide (v ≠ P.null))
  | .global sym => do
    let c ← get
    pure (getGlobal P.null c.state.main sym).isSome
  | _ => pure true

/-- One statement of `eval_core`. -/
def exec (calls : Calls V H) (nslots : Nat) : Stmt V → EvalM V H (Flow V)
  | .goto target => pure (.goto target)
  | .gotoIfNot cond target => do
    let v ← readOp P nslots cond
    let c ← get
    if P.unboxBool v c.state.heap then pure .next else pure (.goto target)
  | .return op => do
    let v ← readOp P nslots op
    pure (.ret v)
  | .value op => do
    let v ← readOp P nslots op
    setResult nslots v
    pure .next
  | .assign slot op => do
    let v ← readOp P nslots op
    setFrame slot v
    setResult nslots v
    pure .next
  | .assignCall slot args => do
    let vals ← readArgs P nslots args
    let v ← callArgs calls vals
    setFrame slot v
    setResult nslots v
    pure .next
  | .latestWorld => pure .next
  | .assignGlobal sym op => do
    let v ← readOp P nslots op
    setResult nslots v
    modify fun c => { c with state := { c.state with main := setGlobal sym v c.state.main } }
    pure .next
  | .call b args => do
    let vals ← readArgs P nslots args
    let v ← onHeap (P.apply b vals)
    setResult nslots v
    pure .next
  | .callGeneric func args => do
    let vals ← readArgs P nslots args
    let v ← onState (calls.invoke func vals)
    setResult nslots v
    pure .next
  | .callValue args => do
    let vals ← readArgs P nslots args
    let v ← callArgs calls vals
    setResult nslots v
    pure .next
  | .new ty args => do
    let vals ← readArgs P nslots args
    let c ← get
    let v ← onHeap (P.wrapMsg (P.newStruct ty (structDef c.state.structs ty) vals))
    setResult nslots v
    pure .next
  | .getField op name => do
    let v ← readOp P nslots op
    let r ← onHeap (P.getField v name)
    setResult nslots r
    pure .next
  | .setField obj name rhs => do
    let v ← readOp P nslots obj
    let r ← readOp P nslots rhs
    let v ← onHeap (P.keep obj.isLiteral rhs.isLiteral v)
    onHeap (P.setField v name r)
    setResult nslots r
    pure .next
  | .enter catchIp => do
    modify fun c => { c with handlers := catchIp :: c.handlers }
    let c ← get
    setResult nslots (P.boxInt c.state.exc.length)
    pure .next
  | .leave n => do
    modify fun c => { c with handlers := c.handlers.drop n }
    pure .next
  | .throw op => do
    let e ← readOp P nslots op
    throw e
  | .methodFunc sym => do
    let v ← methodFunc P nslots sym
    setResult nslots v
    pure .next
  | .methodDef f sig n code => do
    let fv ← readOp P nslots f
    let sv ← readOp P nslots sig
    let fv ← onHeap (P.keep f.isLiteral sig.isLiteral fv)
    let func ← onHeap (funcOf P fv)
    let sigTuple ← onHeap (P.sigTuple sv)
    modify fun c => { c with state := { c.state with
      methods := c.state.methods ++ [⟨func, sigTuple, ⟨n, code⟩, none⟩] } }
    setResult nslots P.nothing
    pure .next
  | .caught => do
    let c ← get
    setResult nslots (c.state.exc.headD P.nothing)
    pure .next
  | .assignCaught slot => do
    let c ← get
    setFrame slot (c.state.exc.headD P.nothing)
    setResult nslots (c.state.exc.headD P.nothing)
    pure .next
  | .rethrow => do
    let c ← get
    pure (.resume (c.state.exc.headD P.nothing))
  | .popException op => do
    let v ← readOp P nslots op
    modify fun c => { c with state := { c.state with
      exc := excRestore (P.unboxInt v c.state.heap).toNat c.state.exc } }
    pure .next
  | .arrayLit args => do
    let vals ← readArgs P nslots args
    let a ← onHeap (P.arrayLit vals)
    setResult nslots a
    pure .next
  | .arrayRef a idx => do
    let av ← readOp P nslots a
    let i ← readOp P nslots idx
    let av ← onHeap (P.keep a.isLiteral idx.isLiteral av)
    let r ← onHeap (P.arrayRef av i)
    setResult nslots r
    pure .next
  | .arraySet a idx rhs => do
    let av ← readOp P nslots a
    let i ← readOp P nslots idx
    let r ← readOp P nslots rhs
    let av ← onHeap (P.keep a.isLiteral (idx.isLiteral || rhs.isLiteral) av)
    let i ← onHeap (P.keep idx.isLiteral rhs.isLiteral i)
    onHeap (P.arraySet av i r)
    setResult nslots r
    pure .next
  | .push a v => do
    let av ← readOp P nslots a
    let vv ← readOp P nslots v
    let av ← onHeap (P.keep a.isLiteral v.isLiteral av)
    onHeap (P.push av vv)
    setResult nslots av
    pure .next
  | .len a => do
    let av ← readOp P nslots a
    let n ← onHeap (P.arrayLenOp av)
    setResult nslots n
    pure .next
  | .isDefined op => do
    let defined ← isDefinedOp P op
    setResult nslots (P.boxBool defined)
    pure .next

/-! ### The loop -/

/-- The configuration after a statement, or the outcome of the activation. -/
inductive Progress (V H : Type)
  | running (c : Config V H)
  | finished (r : Except V V) (c : Config V H)

/-- Unwind to the innermost handler, with `exc` on the exception stack. -/
def unwind (e : V) (exc : List V) (c : Config V H) : Progress V H :=
  match c.handlers with
  | [] => .finished (.error e) c
  | catchIp :: handlers =>
    .running { c with ip := catchIp, handlers := handlers, state := { c.state with exc := exc } }

/-- `guard!`, and the end of a round of the loop. -/
def advance : Except V (Flow V) × Config V H → Progress V H
  | (.error e, c) => unwind e (e :: c.state.exc) c
  | (.ok .next, c) => .running { c with ip := c.ip + 1 }
  | (.ok (.goto target), c) => .running { c with ip := target }
  | (.ok (.ret v), c) => .finished (.ok v) c
  -- the current exception is on the stack already
  | (.ok (.resume e), c) => unwind e c.state.exc c

/-- One round of the loop of `eval_core`. -/
def step (calls : Calls V H) (body : Body V) (c : Config V H) : Except Stop (Progress V H) :=
  match body.code[c.ip]? with
  | none => .error .outside
  | some s => (exec P calls body.nslots s c).map advance

/-- `frame.set` for every seeded slot. -/
def seedFrame : List (Nat × V) → List V → Except Stop (List V)
  | [], frame => .ok frame
  | (i, v) :: seed, frame =>
    if i < frame.length then seedFrame seed (frame.set i v) else .error .badSeed

/-- The configuration in which `eval_core` enters its loop, for a body whose slots and
statements are fewer than `2 ^ 32` together. -/
def start (body : Body V) (seed : List (Nat × V)) (st : State V H) :
    Except Stop (Config V H) :=
  (seedFrame seed (List.replicate (body.nslots + body.code.length) P.null)).map
    fun frame => ⟨0, frame, [], st⟩

/-- The arguments of a method, for its leading slots. -/
def argSeed (args : List V) : List (Nat × V) := (List.range args.length).zip args

/-- `select`, with the method for its index: the first applicable one that is below
all applicable ones, or else the first applicable one. -/
def select (methods : List (Entry V)) (func : Nat) (argtuple : V) (h : H) : Option (Entry V) :=
  let applicable := methods.filter fun e => decide (e.func = func) && P.issubtype argtuple e.sig h
  match applicable.find? fun e => applicable.all fun e' => P.issubtype e.sig e'.sig h with
  | some e => some e
  | none => applicable.head?

/-- `dispatch::invoke`, given how to evaluate a body. -/
def invoke (enter : Body V → List (Nat × V) → State V H → CallResult V H) (func : Nat)
    (args : List V) (st : State V H) : CallResult V H :=
  let argtuple := P.tupleType (args.map fun v => P.typeOf v st.heap) st.heap
  let st := { st with heap := argtuple.2 }
  match select P st.methods func argtuple.1 st.heap with
  | none => .ok (.ok P.null, st)
  | some e =>
    match e.fptr1 with
    | some f =>
      .ok (.ok (P.callCompiled f args st.heap).1,
        { st with heap := (P.callCompiled f args st.heap).2 })
    | none => enter e.body (argSeed args) st

/-- `call_value`, given how to evaluate a body. -/
def callValue (enter : Body V → List (Nat × V) → State V H → CallResult V H) (callee : V)
    (args : List V) (st : State V H) : CallResult V H :=
  match P.callableOf callee st.heap with
  | some (.generic func) => invoke P enter func args st
  | some (.native f) =>
    let r := P.native f args st.main st.heap
    .ok (r.1.1, { st with main := r.1.2, heap := r.2 })
  | none =>
    let r := P.errorException ("MethodError: objects of type " ++
      P.typeName (P.typeOf callee st.heap) st.heap ++ " are not callable") st.heap
    .ok (.error r.1, { st with heap := r.2 })

/-- The calls of an activation, given how to evaluate a body. -/
def callsWith (enter : Body V → List (Nat × V) → State V H → CallResult V H) : Calls V H where
  value := callValue P enter
  invoke := invoke P enter

/-- `eval_with_args`, given the loop.  The slot count of a loaded body is any number, and the
frame is made for its sum with the number of statements, which is taken in 32 bits. -/
def enterWith (loop : Body V → Config V H → Except Stop (Except V V × Config V H))
    (body : Body V) (seed : List (Nat × V)) (st : State V H) : CallResult V H :=
  if 2 ^ 32 ≤ body.nslots + body.code.length then .error .frameWraps else
  match start P body seed st with
  | .error stop => .error stop
  | .ok c₀ => (loop body c₀).map fun r => (r.1, r.2.state)

/-- The loop of `eval_core`, for at most `fuel` rounds in this activation and in
those below it. -/
def run : Nat → Body V → Config V H → Except Stop (Except V V × Config V H)
  | 0, _, _ => .error .outOfFuel
  | fuel + 1, body, c =>
    match step P (callsWith P (enterWith P (run fuel))) body c with
    | .error stop => .error stop
    | .ok (.running c') => run fuel body c'
    | .ok (.finished r c') => .ok (r, c')

/-- `eval_core` for a body from source.  Its slots and statements are counted by the
vectors that hold them, which fit the memory, so their sum does not wrap around.  `flush` sees
the frame at a successful return. -/
def evalCore (fuel : Nat) (body : Body V) (seed : List (Nat × V))
    (flush : List V → State V H → Except Stop (State V H)) (st : State V H) :
    CallResult V H :=
  match start P body seed st with
  | .error stop => .error stop
  | .ok c₀ =>
    match run P fuel body c₀ with
    | .error stop => .error stop
    | .ok (.error e, c) => .ok (.error e, c.state)
    | .ok (.ok v, c) => (flush c.frame c.state).map fun st => (.ok v, st)

end Statements

end Ruju.Interp
