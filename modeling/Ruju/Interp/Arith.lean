import Ruju.Interp.Boxes

/-!
# Builtins on numbers

`apply` of `interp.rs`, over boxes.  Which operation is meant is decided at run time, by the
tag of the first operand alone, except for `/`, which looks at both.  The operands are then
unboxed at the type that was decided on: unboxing reads the 64 bits of data, whatever the tag
says.  The heap is nothing but the list of the unboxings that have been made.

The float operations are left open, and so are the data of boxes that are not numbers.
-/

namespace Ruju.Interp

/-- The type tag of a box. -/
inductive Tag
  | int64
  | float64
  | bool
  | other
deriving DecidableEq, Repr

/-- `type_of` -/
def Box.tag : Box → Tag
  | .int _ => .int64
  | .float _ => .float64
  | .bool _ => .bool
  | _ => .other

/-- The name of the type. -/
def Tag.name : Tag → String
  | int64 => "Int64"
  | float64 => "Float64"
  | bool => "Bool"
  | other => "Any"

/-- A value was unboxed at a type. -/
structure Unboxing where
  asked : Tag
  value : Box
deriving DecidableEq

/-- The type is the value's own. -/
def Unboxing.fits (u : Unboxing) : Prop := u.value.tag = u.asked

instance : DecidablePred Unboxing.fits :=
  fun u => inferInstanceAs (Decidable (u.value.tag = u.asked))

/-- The operations that are left open. -/
structure FloatOps where
  add : UInt64 → UInt64 → UInt64
  sub : UInt64 → UInt64 → UInt64
  mul : UInt64 → UInt64 → UInt64
  div : UInt64 → UInt64 → UInt64
  rem : UInt64 → UInt64 → UInt64
  lt : UInt64 → UInt64 → Bool
  le : UInt64 → UInt64 → Bool
  eq : UInt64 → UInt64 → Bool
  sitofp : BitVec 64 → UInt64
  egal : Box → Box → Bool
  /-- The data of a box that is not a number. -/
  data : Box → UInt64

/-- An operation that may unbox. -/
abbrev Unboxes := HeapOp Box (List Unboxing)

/-- Throw an error text. -/
def raise {α : Type} (msg : String) : Unboxes α := fun log => (.error (.error msg), log)

section Apply

variable (ops : FloatOps)

/-- The data of a box. -/
def Box.bits : Box → UInt64
  | .int n => ⟨BitVec.ofInt 64 n⟩
  | .float bits => bits
  | v => ops.data v

/-- `unbox_int` -/
def unboxInt (v : Box) : Unboxes (BitVec 64) := fun log =>
  (.ok (v.bits ops).toBitVec, log ++ [⟨.int64, v⟩])

/-- `unbox_float64` -/
def unboxFloat64 (v : Box) : Unboxes UInt64 := fun log =>
  (.ok (v.bits ops), log ++ [⟨.float64, v⟩])

/-- `box_int` -/
def boxInt (w : BitVec 64) : Box := .int w.toInt

/-- `checked_sdiv_int` -/
def checkedSdivInt (a b : BitVec 64) : Option (BitVec 64) :=
  if b = 0 ∨ a = BitVec.intMin 64 ∧ b = -1 then none else some (a.sdiv b)

/-- `checked_srem_int` -/
def checkedSremInt (a b : BitVec 64) : Option (BitVec 64) :=
  if b = 0 then none
  else if a = BitVec.intMin 64 ∧ b = -1 then some 0
  else some (a.srem b)

/-- `shl_int` -/
def shlInt (a b : BitVec 64) : BitVec 64 := if b.toNat ≥ 64 then 0 else a <<< b.toNat

/-- `lshr_int` -/
def lshrInt (a b : BitVec 64) : BitVec 64 := if b.toNat ≥ 64 then 0 else a >>> b.toNat

/-- `ashr_int` -/
def ashrInt (a b : BitVec 64) : BitVec 64 :=
  if b.toNat ≥ 64 then a.sshiftRight 63 else a.sshiftRight b.toNat

/-- A result, or the `DivideError`. -/
def orDivideError : Option (BitVec 64) → Unboxes Box
  | some w => pure (boxInt w)
  | none => raise "DivideError"

/-- The branch of `apply` for `Float64`. -/
def applyFloat (b : Builtin) (x y : UInt64) : Unboxes Box :=
  match b with
  | .add => pure (.float (ops.add x y))
  | .sub => pure (.float (ops.sub x y))
  | .mul => pure (.float (ops.mul x y))
  | .rem => pure (.float (ops.rem x y))
  | .slt => pure (.bool (ops.lt x y))
  | .sle => pure (.bool (ops.le x y))
  | .eq => pure (.bool (ops.eq x y))
  | .idiv | .and | .or | .xor | .shl | .shr | .lshr => raise "integer operator applied to Float64"
  -- not reached
  | .div | .egal => raise "unreachable"

/-- The branch of `apply` for everything else. -/
def applyInt (b : Builtin) (x y : BitVec 64) : Unboxes Box :=
  match b with
  | .add => pure (boxInt (x + y))
  | .sub => pure (boxInt (x - y))
  | .mul => pure (boxInt (x * y))
  | .idiv => orDivideError (checkedSdivInt x y)
  | .rem => orDivideError (checkedSremInt x y)
  | .and => pure (boxInt (x &&& y))
  | .or => pure (boxInt (x ||| y))
  | .xor => pure (boxInt (x ^^^ y))
  | .shl => pure (boxInt (shlInt x y))
  | .shr => pure (boxInt (ashrInt x y))
  | .lshr => pure (boxInt (lshrInt x y))
  | .slt => pure (.bool (x.slt y))
  | .sle => pure (.bool (x.sle y))
  | .eq => pure (.bool (decide (x = y)))
  -- not reached
  | .div | .egal => raise "unreachable"

/-- `as_f64` of `/`. -/
def asFloat64 (v : Box) : Unboxes UInt64 :=
  if v.tag = .float64 then unboxFloat64 ops v
  else do
    let n ← unboxInt ops v
    pure (ops.sitofp n)

/-- `apply` -/
def applyBuiltin (b : Builtin) (x y : Box) : Unboxes Box :=
  if b = .egal then pure (.bool (ops.egal x y))
  else if b = .div then do
    let a ← asFloat64 ops x
    let c ← asFloat64 ops y
    pure (.float (ops.div a c))
  else if x.tag = .float64 then do
    let a ← unboxFloat64 ops x
    let c ← unboxFloat64 ops y
    applyFloat ops b a c
  else do
    let a ← unboxInt ops x
    let c ← unboxInt ops y
    applyInt b a c

/-- The interpreter's primitives over numbers; fields, arrays and calls raise an error. -/
def numbers : Prims Box (List Unboxing) where
  null := .null
  nothing := .nothing
  boxInt := .int
  boxFloat := .float
  boxBool := .bool
  unboxBool v _ := v == .bool true
  unboxInt v _ := match v with
    | .int n => n
    | _ => 0
  typeOf v _ := .sym v.tag.name
  typeName v _ := match v with
    | .sym s => s
    | _ => "Any"
  anyType := .sym "Any"
  errorException msg h := (.error msg, h)
  boundsError _ _ h := (.error "BoundsError", h)
  apply b args := match args with
    | [x, y] => applyBuiltin ops b x y
    | _ => raise "MethodError"
  newStruct _ _ _ h := (.error "no structs", h)
  fieldIndex _ _ _ := none
  getNthField _ _ h := (.error "no fields", h)
  setNthField _ _ _ h := (.error "no fields", h)
  isArray _ _ := false
  arrayLen _ _ := 0
  alloc1d _ _ := raise "no arrays"
  aref _ _ := raise "no arrays"
  aset _ _ _ := raise "no arrays"
  arrayPush _ _ := raise "no arrays"
  callableOf _ _ := none
  makeFunction name h := (.sym name, h)
  sigTuple _ := raise "no signatures"
  tupleType _ h := (.nothing, h)
  issubtype _ _ _ := false
  native _ _ main h := ((.error (.error "no functions"), main), h)
  callCompiled _ _ h := (.nothing, h)
  unrooted v _ := v
  unboxInt_boxInt _ _ := rfl

/-! ### What is unboxed -/

/-- The operation appends to the list of unboxings. -/
def Appends {α : Type} (f : Unboxes α) : Prop := ∀ log, log <+: (f log).2

theorem Appends.of_keeps {α : Type} {f : Unboxes α} (h : ∀ log, (f log).2 = log) : Appends f :=
  fun log => (h log).symm ▸ List.prefix_rfl

theorem Appends.bind {α β : Type} {f : Unboxes α} {g : α → Unboxes β} (hf : Appends f)
    (hg : ∀ a, Appends (g a)) : Appends (f >>= g) := by
  intro log
  have hlog := hf log
  show log <+: (ExceptT.bindCont g (f log).1 (f log).2).2
  cases hr : f log with
  | mk r log' =>
    rw [hr] at hlog
    cases r with
    | error e => exact hlog
    | ok a => exact hlog.trans (hg a log')

/-- What the first of two operations has unboxed stays in the list. -/
theorem Appends.mem_bind {α β : Type} {f : Unboxes α} {g : α → Unboxes β}
    (hg : ∀ a, Appends (g a)) {log : List Unboxing} {u : Unboxing} (hu : u ∈ (f log).2) :
    u ∈ ((f >>= g) log).2 := by
  show u ∈ (ExceptT.bindCont g (f log).1 (f log).2).2
  cases hr : f log with
  | mk r log' =>
    rw [hr] at hu
    cases r with
    | error e => exact hu
    | ok a => exact (hg a log').subset hu

theorem appends_unboxInt (v : Box) : Appends (unboxInt ops v) := fun log => List.prefix_append log _

theorem appends_unboxFloat64 (v : Box) : Appends (unboxFloat64 ops v) := fun log =>
  List.prefix_append log _

theorem appends_asFloat64 (v : Box) : Appends (asFloat64 ops v) := by
  unfold asFloat64
  split
  · exact appends_unboxFloat64 ops v
  · exact (appends_unboxInt ops v).bind fun _ => .of_keeps fun _ => rfl

theorem appends_applyFloat (b : Builtin) (x y : UInt64) : Appends (applyFloat ops b x y) := by
  cases b <;> exact .of_keeps fun _ => rfl

theorem appends_applyInt (b : Builtin) (x y : BitVec 64) : Appends (applyInt b x y) := by
  have hdiv : ∀ o, Appends (orDivideError o) := by
    intro o
    cases o <;> exact .of_keeps fun _ => rfl
  cases b <;> first | exact hdiv _ | exact .of_keeps fun _ => rfl

/-- A builtin only adds to the log of unboxings. -/
theorem appends_applyBuiltin (b : Builtin) (x y : Box) : Appends (applyBuiltin ops b x y) := by
  unfold applyBuiltin
  split
  · exact .of_keeps fun _ => rfl
  split
  · exact (appends_asFloat64 ops x).bind fun _ => (appends_asFloat64 ops y).bind fun _ =>
      .of_keeps fun _ => rfl
  split
  · exact (appends_unboxFloat64 ops x).bind fun _ => (appends_unboxFloat64 ops y).bind fun _ =>
      appends_applyFloat ops b _ _
  · exact (appends_unboxInt ops x).bind fun _ => (appends_unboxInt ops y).bind fun _ =>
      appends_applyInt b _ _

/-- Arithmetic that floats have. -/
def Builtin.isFloatArith : Builtin → Bool
  | .add | .sub | .mul | .div | .rem => true
  | _ => false

/-- On two floats, the result is a float, and both are unboxed as what they are. -/
theorem applyBuiltin_floats {b : Builtin} (hb : b.isFloatArith = true) (x y : UInt64)
    (log : List Unboxing) : ∃ z, applyBuiltin ops b (.float x) (.float y) log =
      (.ok (.float z), log ++ [⟨.float64, .float x⟩, ⟨.float64, .float y⟩]) := by
  have hlog : (log ++ [⟨.float64, .float x⟩]) ++ [⟨.float64, .float y⟩] =
      log ++ [(⟨.float64, .float x⟩ : Unboxing), ⟨.float64, .float y⟩] := List.append_assoc _ _ _
  rw [← hlog]
  cases b <;> first | exact ⟨_, rfl⟩ | cases hb

/-- The difference of an integer and a float unboxes the float as an integer. -/
theorem applyBuiltin_sub_int (n : Int) (y : UInt64) (log : List Unboxing) :
    ⟨.int64, .float y⟩ ∈ (applyBuiltin ops .sub (.int n) (.float y) log).2 :=
  List.mem_append_right _ (List.mem_singleton.mpr rfl)

end Apply

end Ruju.Interp
