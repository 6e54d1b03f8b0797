import Ruju.Aot.Emit
import Ruju.Library.Bytes

/-!
# Running emitted code

The instructions that are emitted, over a state of locals, operand stack and linear memory.
The functions of the runtime are parameters, together with their contract (`Runtime`).

The shadow stack is an arena of `SHADOW_SLOTS` words, from `shadowBase` to `shadowEnd`.  Where
the cell with its top lies is left to the runtime, as long as it is none of the slots.  The
contract says nothing about memory outside the arena: what lies behind it belongs to others.
-/

namespace Ruju.Aot

open Structured

/-- Values of the two number types. -/
inductive Val where
  | i32 (x : BitVec 32)
  | i64 (x : BitVec 64)
  deriving DecidableEq, Repr

/-- The initial value of a local. -/
def ValType.zero : ValType → Val
  | .i32 => .i32 0
  | .i64 => .i64 0

/-! ### Memory -/

/-- `i32.load`. -/
def load32 (mem : List UInt8) (a : Nat) : Option (BitVec 32) :=
  if a + 4 ≤ mem.length then some (BitVec.ofNat 32 (bytesWord (window mem a 4))) else none

/-- `i64.load`. -/
def load64 (mem : List UInt8) (a : Nat) : Option (BitVec 64) :=
  if a + 8 ≤ mem.length then some (BitVec.ofNat 64 (bytesWord (window mem a 8))) else none

/-- `i32.store`. -/
def store32 (mem : List UInt8) (a : Nat) (v : BitVec 32) : Option (List UInt8) :=
  if a + 4 ≤ mem.length then some (overwrite mem a (wordBytes v.toNat)) else none

section Memory

variable {mem mem' : List UInt8} {a b : Nat} {v : BitVec 32}

theorem store32_eq_some : store32 mem a v = some mem' ↔
    a + 4 ≤ mem.length ∧ overwrite mem a (wordBytes v.toNat) = mem' := by
  unfold store32
  split
  case isTrue h => simp [h]
  case isFalse h => simp [h]

theorem length_store32 (h : store32 mem a v = some mem') : mem'.length = mem.length := by
  obtain ⟨hle, rfl⟩ := store32_eq_some.mp h
  exact length_overwrite hle

/-- A word is read back. -/
theorem load32_store32 (h : store32 mem a v = some mem') : load32 mem' a = some v := by
  have hlength := length_store32 h
  obtain ⟨hle, rfl⟩ := store32_eq_some.mp h
  have hwindow : window (overwrite mem a (wordBytes v.toNat)) a 4 = wordBytes v.toNat :=
    window_overwrite hle
  rw [load32, hlength, if_pos hle, hwindow, bytesWord_wordBytes v.isLt, BitVec.ofNat_toNat,
    BitVec.setWidth_eq]

/-- A store leaves the words beside it. -/
theorem load32_store32_of_disjoint (h : store32 mem a v = some mem')
    (hdisj : b + 4 ≤ a ∨ a + 4 ≤ b) : load32 mem' b = load32 mem b := by
  have hlength := length_store32 h
  obtain ⟨hle, rfl⟩ := store32_eq_some.mp h
  rw [load32, load32, hlength, window_overwrite_of_disjoint hle hdisj]

end Memory

/-! ### The runtime -/

/-- `SHADOW_SLOTS`. -/
def SHADOW_SLOTS : Nat := 16384

/-- The functions of the runtime, and their contract. -/
structure Runtime where
  /-- `rj_gc_shadow_top_addr`, once the shadow stack is set up. -/
  topAddr : BitVec 32
  /-- `rj_region_base`. -/
  regionBase : BitVec 32
  /-- Where the shadow stack begins. -/
  shadowBase : Nat
  /-- `rj_new_ref_int`, which may trap. -/
  newRef : BitVec 64 → List UInt8 → Option (BitVec 32 × List UInt8)
  /-- The cell with the top is none of the slots. -/
  top_apart : topAddr.toNat + 4 ≤ shadowBase ∨ shadowBase + 4 * SHADOW_SLOTS ≤ topAddr.toNat
  /-- The memory may grow, but not to its last address. -/
  newRef_length : ∀ {v mem r mem'}, newRef v mem = some (r, mem') → mem.length < 2 ^ 32 →
    mem.length ≤ mem'.length ∧ mem'.length < 2 ^ 32
  /-- Roots are released in reverse order. -/
  newRef_top : ∀ {v mem r mem'}, newRef v mem = some (r, mem') →
    load32 mem' topAddr.toNat = load32 mem topAddr.toNat
  /-- The slots in use are not written to. -/
  newRef_slots : ∀ {v mem r mem' top a}, newRef v mem = some (r, mem') →
    load32 mem topAddr.toNat = some top → shadowBase ≤ a → a + 4 ≤ top.toNat →
    a + 4 ≤ shadowBase + 4 * SHADOW_SLOTS → load32 mem' a = load32 mem a

/-- The end of the shadow stack. -/
def Runtime.shadowEnd (rt : Runtime) : Nat := rt.shadowBase + 4 * SHADOW_SLOTS

/-! ### Instructions -/

/-- Locals, operand stack and memory. -/
structure WState where
  locals : List Val
  stack : List Val
  mem : List UInt8

/-- Binary operations wrap around. -/
def BinOp.eval : BinOp → BitVec 64 → BitVec 64 → BitVec 64
  | .add, x, y => x + y
  | .sub, x, y => x - y
  | .mul, x, y => x * y
  | .and, x, y => x &&& y
  | .or, x, y => x ||| y
  | .xor, x, y => x ^^^ y

/-- Comparisons. -/
def RelOp.eval : RelOp → BitVec 64 → BitVec 64 → Bool
  | .leS, x, y => x.sle y
  | .ltS, x, y => x.slt y
  | .leU, x, y => x.ule y
  | .ltU, x, y => x.ult y
  | .eq, x, y => x = y
  | .ne, x, y => x ≠ y

/-- A truth value as a number. -/
def bool32 (b : Bool) : BitVec 32 := if b then 1 else 0

/-- A call of the runtime. -/
def callRuntime (rt : Runtime) (f : Nat) (s : WState) : Effect WState WState :=
  if f = TOPADDR then .next { s with stack := .i32 rt.topAddr :: s.stack }
  else if f = REGBASE then .next { s with stack := .i32 rt.regionBase :: s.stack }
  else if f = NEWREF then
    match s.stack with
    | .i64 v :: st =>
      match rt.newRef v s.mem with
      | some (r, mem) => .next { s with stack := .i32 r :: st, mem := mem }
      | none => .trap s
    | _ => .trap s
  else .trap s

/-- One instruction.  What validation excludes traps here. -/
def execInstr (rt : Runtime) : Instr → WState → Effect WState WState
  | .localGet l, s =>
    match s.locals[l]? with
    | some v => .next { s with stack := v :: s.stack }
    | none => .trap s
  | .localSet l, s =>
    match s.stack with
    | v :: st =>
      if l < s.locals.length then .next { s with locals := s.locals.set l v, stack := st }
      else .trap s
    | [] => .trap s
  | .i64Const x, s => .next { s with stack := .i64 (BitVec.ofInt 64 x) :: s.stack }
  | .i32Const x, s => .next { s with stack := .i32 (BitVec.ofInt 32 x) :: s.stack }
  | .i64Bin op, s =>
    match s.stack with
    | .i64 y :: .i64 x :: st => .next { s with stack := .i64 (op.eval x y) :: st }
    | _ => .trap s
  | .i64Rel op, s =>
    match s.stack with
    | .i64 y :: .i64 x :: st => .next { s with stack := .i32 (bool32 (op.eval x y)) :: st }
    | _ => .trap s
  | .i32Add, s =>
    match s.stack with
    | .i32 y :: .i32 x :: st => .next { s with stack := .i32 (x + y) :: st }
    | _ => .trap s
  | .i32Load offset, s =>
    match s.stack with
    | .i32 a :: st =>
      match load32 s.mem (a.toNat + offset) with
      | some v => .next { s with stack := .i32 v :: st }
      | none => .trap s
    | _ => .trap s
  | .i32Store offset, s =>
    match s.stack with
    | .i32 v :: .i32 a :: st =>
      match store32 s.mem (a.toNat + offset) v with
      | some mem => .next { s with stack := st, mem := mem }
      | none => .trap s
    | _ => .trap s
  | .i64Load offset, s =>
    match s.stack with
    | .i32 a :: st =>
      match load64 s.mem (a.toNat + offset) with
      | some v => .next { s with stack := .i64 v :: st }
      | none => .trap s
    | _ => .trap s
  | .call f, s => callRuntime rt f s
  | .ret, s =>
    match s.stack with
    | .i64 _ :: _ => .done s
    | _ => .trap s

section Exec

variable {rt : Runtime} {s s' : WState} {l offset : Nat}

theorem exec_localGet_iff : execInstr rt (.localGet l) s = .next s' ↔
    ∃ v, s.locals[l]? = some v ∧ s' = { s with stack := v :: s.stack } := by
  simp only [execInstr]
  cases s.locals[l]? with
  | none => simp
  | some v => simp [eq_comm]

theorem exec_localSet_iff : execInstr rt (.localSet l) s = .next s' ↔
    ∃ v st, s.stack = v :: st ∧ l < s.locals.length ∧
      s' = { s with locals := s.locals.set l v, stack := st } := by
  simp only [execInstr]
  cases s.stack with
  | nil => simp
  | cons v st =>
    dsimp only
    split
    case isTrue h => simp [h, eq_comm]
    case isFalse h => simp [h]

theorem exec_i32Load_iff : execInstr rt (.i32Load offset) s = .next s' ↔
    ∃ a v st, s.stack = .i32 a :: st ∧ load32 s.mem (a.toNat + offset) = some v ∧
      s' = { s with stack := .i32 v :: st } := by
  simp only [execInstr]
  split
  case h_1 a st h =>
    cases hload : load32 s.mem (a.toNat + offset) with
    | none => simp [h, hload]
    | some v => simp [h, hload, eq_comm]
  case h_2 h => exact iff_of_false (fun hno => nomatch hno) fun ⟨a, v, st, hs, _⟩ => h a st hs

theorem exec_i32Store_iff : execInstr rt (.i32Store offset) s = .next s' ↔
    ∃ v a st mem, s.stack = .i32 v :: .i32 a :: st ∧ store32 s.mem (a.toNat + offset) v = some mem ∧
      s' = { s with stack := st, mem := mem } := by
  simp only [execInstr]
  split
  case h_1 v a st h =>
    cases hstore : store32 s.mem (a.toNat + offset) v with
    | none => simp [h, hstore]
    | some mem => simp [h, hstore, eq_comm]
  case h_2 h =>
    exact iff_of_false (fun hno => nomatch hno) fun ⟨v, a, st, mem, hs, _⟩ => h v a st hs

theorem exec_i32Add_iff : execInstr rt .i32Add s = .next s' ↔
    ∃ x y st, s.stack = .i32 y :: .i32 x :: st ∧ s' = { s with stack := .i32 (x + y) :: st } := by
  simp only [execInstr]
  split
  case h_1 y x st h => simp [h, eq_comm]
  case h_2 h => exact iff_of_false (fun hno => nomatch hno) fun ⟨x, y, st, hs, _⟩ => h y x st hs

theorem exec_newRef_iff : execInstr rt (.call NEWREF) s = .next s' ↔
    ∃ v st r mem, s.stack = .i64 v :: st ∧ rt.newRef v s.mem = some (r, mem) ∧
      s' = { s with stack := .i32 r :: st, mem := mem } := by
  simp only [execInstr, callRuntime, show NEWREF ≠ TOPADDR by decide,
    show NEWREF ≠ REGBASE by decide,
    if_false, if_true]
  split
  case h_1 v st h =>
    cases hnew : rt.newRef v s.mem with
    | none => simp [h, hnew]
    | some p =>
      obtain ⟨r, mem⟩ := p
      simp [h, hnew, eq_comm]
  case h_2 h => exact iff_of_false (fun hno => nomatch hno) fun ⟨v, st, r, mem, hs, _⟩ => h v st hs

/-- The function ends at `return` only. -/
theorem eq_ret_of_exec {i : Instr} (h : execInstr rt i s = .done s') :
    i = .ret ∧ s' = s ∧ ∃ v st, s.stack = .i64 v :: st := by
  cases i with
  | ret =>
    simp only [execInstr] at h
    split at h
    case h_1 v st hs =>
      cases h
      exact ⟨rfl, rfl, v, st, hs⟩
    case h_2 => cases h
  | call f =>
    simp only [execInstr, callRuntime] at h
    repeat' split at h
    all_goals cases h
  | _ =>
    simp only [execInstr] at h
    repeat' split at h
    all_goals cases h

end Exec

/-- The leaves of emitted code. -/
def wasm (rt : Runtime) : Leaves Instr WState where
  exec := execInstr rt
  cond s :=
    match s.stack with
    | .i32 c :: st => some (c ≠ 0, { s with stack := st })
    | _ => none

/-- The state in which the specsig function is entered. -/
def Module.enter (m : Module) (args : List (BitVec 64)) (mem : List UInt8) : WState where
  locals := args.map .i64 ++ m.locals.map ValType.zero
  stack := []
  mem := mem

/-- The function entered. -/
def Module.start (m : Module) (args : List (BitVec 64)) (mem : List UInt8) :
    Config Instr WState where
  code := m.body
  labels := []
  state := m.enter args mem

end Ruju.Aot
