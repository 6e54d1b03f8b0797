import Ruju.Storage.Types
import Ruju.Library.Bytes
import Ruju.Subtype.Engine
import Mathlib.Logic.Function.Basic

/-!
# Objects

Boxes, structs, buffers and arrays as `object.rs`, `types.rs`, `memory.rs` and
`array.rs` keep them: the operations that build them, read them and write to them.

The store is a partial map from references to objects.  That live objects do not
overlap is the business of the collector (`Ruju.Gc`); here two references lead to two
objects.  The data of a box or of a struct, and the elements of a buffer, are bytes, at
the offsets where the source has them; the header words of buffers and arrays are
fields of the object.

**Allocation.**  Whether a request is granted is up to the runtime (`Runtime.grant`),
which sees how large it is and how often it was asked before, so that every pattern of
failures is some runtime's.  A chunk that is granted has arbitrary contents: the source
recycles chunks without clearing them, and who needs zeros writes them.

Errors are values and not objects: that raising one allocates has no part in what the
operations do to the store otherwise.  The write barrier is left out with the collector.
-/

namespace Ruju.Storage

/-! ### The store -/

/-- An exception of the runtime: `BoundsError`, `UndefRefError`, `OutOfMemoryError`, or
an `ErrorException` with its message. -/
inductive Error
  | bounds (container : Nat) (index : Int)
  | undefRef
  | outOfMemory
  | message (msg : String)
deriving DecidableEq, Repr

/-- An object.  A buffer has its length and the bytes of its elements; an array has its
buffer, the position of its first element in there, and its length. -/
inductive Obj
  | data (type : TypeObj) (bytes : List UInt8)
  | memory (elem : TypeObj) (length : Nat) (bytes : List UInt8)
  | array (elem : TypeObj) (mem offset length : Nat)
deriving DecidableEq

/-- The type in an object's header. -/
def Obj.type : Obj → TypeObj
  | data t _ => t
  | memory e _ _ => .memory e
  | array e _ _ _ => .array e

/-- The objects by their references, the reference of the next one, and the number of
allocations tried so far.  The null reference is 0. -/
structure Store where
  objs : Nat → Option Obj
  next : Nat
  attempts : Nat

/-- What the operations on objects take from the rest of the runtime. -/
structure Runtime where
  /-- How deep a subtype query may recurse. -/
  fuel : Nat
  /-- The allocation number of the next type object. -/
  nextType : Nat
  /-- The `instance` of a singleton type. -/
  instanceOf : TypeObj → Nat
  /-- Is this request for a chunk of this size granted, and what is in it? -/
  grant : Nat → Nat → Option (Nat → UInt8)
  /-- `egal` of two vectors, unions, `UnionAll`s or `DataType`s. -/
  egalTypes : Store → Nat → Nat → Bool

/-- `issubtype`: the query of `Ruju.Subtype`.  Type objects with one identity are one
object. -/
def Runtime.issubtype (R : Runtime) (t u : TypeObj) : Bool :=
  if t.toTy = u.toTy then decide (t = u)
  else decide (subtype R.fuel R.nextType t.toTy u.toTy = some true)

namespace Store

/-- Put an object at a reference. -/
def set (s : Store) (a : Nat) (o : Obj) : Store :=
  { s with objs := Function.update s.objs a (some o) }

/-- `object::type_of`. -/
def typeOf (s : Store) (v : Nat) : TypeObj :=
  match s.objs v with
  | some o => o.type
  | none => default

/-- The bytes at an object's reference: its data, or a buffer's elements. -/
def bytes (s : Store) (v : Nat) : List UInt8 :=
  match s.objs v with
  | some (.data _ bs) => bs
  | some (.memory _ _ bs) => bs
  | _ => []

/-- Write into an object's bytes. -/
def write (s : Store) (v off : Nat) (xs : List UInt8) : Store :=
  match s.objs v with
  | some (.data t bs) => s.set v (.data t (overwrite bs off xs))
  | some (.memory e n bs) => s.set v (.memory e n (overwrite bs off xs))
  | _ => s

/-- The store after an allocation that failed. -/
def attempted (s : Store) : Store := { s with attempts := s.attempts + 1 }

/-- The store after an allocation that made this object. -/
def extend (s : Store) (o : Obj) : Store :=
  { objs := Function.update s.objs s.next (some o)
    next := s.next + 1
    attempts := s.attempts + 1 }

/-- `object::alloc`, with the object that is made of the chunk; `none` is the null
reference.  References have 32 bits. -/
def alloc (R : Runtime) (size : Nat) (make : List UInt8 → Obj) (s : Store) : Option Nat × Store :=
  match R.grant s.attempts size with
  | some chunk =>
    if s.next < 2 ^ 32 then (some s.next, s.extend (make ((List.range size).map chunk)))
    else (none, s.attempted)
  | none => (none, s.attempted)

end Store

/-! ### Buffers -/

/-- Element storage: references, the bits of a primitive, or nothing. -/
inductive Elem
  | boxed
  | bits (size : Nat)
  | singleton
deriving DecidableEq, Repr

/-- `elem_kind`. -/
def elemKind (elem : TypeObj) : Elem :=
  if elem.isDatatype && elem.isBits && decide (elem.sizeOf > 0) then .bits elem.sizeOf.toNat
  else if elem.isDatatype && elem.sizeOf == 0 && elem.hasInstance then .singleton
  else .boxed

/-- The bytes of one element. -/
def Elem.size : Elem → Nat
  | boxed => 4
  | bits n => n
  | singleton => 0

/-- `elem_size`. -/
def elemSize (elem : TypeObj) : Nat := (elemKind elem).size

/-- A computation on the store that can raise an exception. -/
abbrev StoreOp (α : Type) := Store → Except Error α × Store

namespace Memory

/-- `memory::len`. -/
def len (s : Store) (m : Nat) : Nat :=
  match s.objs m with
  | some (.memory _ n _) => n
  | _ => 0

/-- `memory::elem_type_of`. -/
def elemTypeOf (s : Store) (m : Nat) : TypeObj :=
  match s.objs m with
  | some (.memory e _ _) => e
  | _ => default

/-- The message for a buffer that is too large. -/
def sizeMessage : String :=
  "invalid GenericMemory size: the number of elements is either negative or too large"

/-- `memory::alloc`: the elements are zeroed.  Eight more bytes hold the length and the
pointer to the elements. -/
def alloc (R : Runtime) (elem : TypeObj) (len : Nat) : StoreOp Nat := fun s =>
  let nbytes := len * elemSize elem
  if nbytes < 2 ^ 32 - 1 - 8 then
    match s.alloc R (8 + nbytes) fun _ => .memory elem len (List.replicate nbytes 0) with
    | (some m, s) => (.ok m, s)
    | (none, s) => (.error .outOfMemory, s)
  else (.error (.message sizeMessage), s)

/-- `memory::get`. -/
def get (R : Runtime) (m i : Nat) : StoreOp Nat := fun s =>
  if len s m ≤ i then (.error (.bounds m (i + 1)), s)
  else
    let elem := elemTypeOf s m
    match elemKind elem with
    | .boxed =>
      let r := bytesWord (window (s.bytes m) (4 * i) 4)
      if r = 0 then (.error .undefRef, s) else (.ok r, s)
    | .singleton => (.ok (R.instanceOf elem), s)
    | .bits fsz =>
      match s.alloc R fsz (Obj.data elem) with
      | (none, s) => (.error .outOfMemory, s)
      | (some b, s) => (.ok b, s.write b 0 (window (s.bytes m) (fsz * i) fsz))

/-- The type check of a store: may a value of type `vt` become an element? -/
def accepts (R : Runtime) (elem vt : TypeObj) : Bool :=
  decide (elem = .any) || decide (vt = elem) || R.issubtype vt elem

/-- The message for a value of the wrong type. -/
def typeMessage (elem vt : TypeObj) : String :=
  "TypeError: memoryrefset!: expected " ++ elem.typeSym ++ ", got " ++ vt.typeSym

/-- `memory::set`. -/
def set (R : Runtime) (m i v : Nat) : StoreOp Unit := fun s =>
  if len s m ≤ i then (.error (.bounds m (i + 1)), s)
  else
    let elem := elemTypeOf s m
    let vt := s.typeOf v
    if accepts R elem vt then
      match elemKind elem with
      | .boxed => (.ok (), s.write m (4 * i) (wordBytes v))
      | .singleton => (.ok (), s)
      | .bits fsz => (.ok (), s.write m (fsz * i) (window (s.bytes v) 0 fsz))
    else (.error (.message (typeMessage elem vt)), s)

/-- `memory::copy_prefix`. -/
def copyPrefix (dst src n : Nat) (s : Store) : Store :=
  s.write dst 0 (window (s.bytes src) 0 (n * elemSize (elemTypeOf s src)))

/-- `memory::zero_range`. -/
def zeroRange (m start stop : Nat) (s : Store) : Store :=
  let fsz := elemSize (elemTypeOf s m)
  s.write m (start * fsz) (List.replicate ((stop - start) * fsz) 0)

end Memory

/-! ### Arrays -/

namespace Arr

/-- `array::mem_of`. -/
def memOf (s : Store) (a : Nat) : Nat :=
  match s.objs a with
  | some (.array _ m _ _) => m
  | _ => 0

/-- `array::offset_of`. -/
def offsetOf (s : Store) (a : Nat) : Nat :=
  match s.objs a with
  | some (.array _ _ o _) => o
  | _ => 0

/-- `array::len`. -/
def len (s : Store) (a : Nat) : Nat :=
  match s.objs a with
  | some (.array _ _ _ n) => n
  | _ => 0

/-- `array::elem_type_of`. -/
def elemTypeOf (s : Store) (a : Nat) : TypeObj :=
  match s.objs a with
  | some (.array e _ _ _) => e
  | _ => default

/-- `array::set_len`. -/
def setLen (a n : Nat) (s : Store) : Store :=
  match s.objs a with
  | some (.array e m o _) => s.set a (.array e m o n)
  | _ => s

/-- The store of a new buffer into the array. -/
def setMem (a m : Nat) (s : Store) : Store :=
  match s.objs a with
  | some (.array e _ o n) => s.set a (.array e m o n)
  | _ => s

/-- `array::alloc_1d`; an array's body takes twelve bytes. -/
def alloc1d (R : Runtime) (elem : TypeObj) (len : Nat) : StoreOp Nat := fun s =>
  match Memory.alloc R elem len s with
  | (.error e, s) => (.error e, s)
  | (.ok m, s) =>
    match s.alloc R 12 fun _ => .array elem m 0 len with
    | (some a, s) => (.ok a, s)
    | (none, s) => (.error .outOfMemory, s)

/-- `array::aref`. -/
def aref (R : Runtime) (a i : Nat) : StoreOp Nat := fun s =>
  if len s a ≤ i then (.error (.bounds a (i + 1)), s)
  else Memory.get R (memOf s a) (offsetOf s a + i) s

/-- `array::aset`. -/
def aset (R : Runtime) (a i v : Nat) : StoreOp Unit := fun s =>
  if len s a ≤ i then (.error (.bounds a (i + 1)), s)
  else Memory.set R (memOf s a) (offsetOf s a + i) v s

/-- The capacity that follows in the growth sequence. -/
def growth (oldmaxsize : Nat) : Nat :=
  if oldmaxsize < 4 then 4
  else if oldmaxsize < 48 then oldmaxsize * 3 / 2
  else oldmaxsize * 6 / 5

/-- The capacity to grow to. -/
def newCapacity (oldmaxsize reqmaxsize : Nat) : Nat :=
  if growth oldmaxsize < reqmaxsize then reqmaxsize else growth oldmaxsize

/-- Replace the buffer by one with this capacity. -/
def regrow (R : Runtime) (a n capacity : Nat) : StoreOp Unit := fun s =>
  if capacity < 2 ^ 32 then
    match Memory.alloc R (elemTypeOf s a) capacity s with
    | (.error e, s) => (.error e, s)
    | (.ok newmem, s) => (.ok (), setMem a newmem (Memory.copyPrefix newmem (memOf s a) n s))
  else (.error (.message "invalid Array size: too large"), s)

/-- `array::grow_end`. -/
def growEnd (R : Runtime) (a inc : Nat) : StoreOp Unit := fun s =>
  let n := len s a
  if n + inc < 2 ^ 32 then
    let reqmaxsize := offsetOf s a + (n + inc)
    let oldmaxsize := Memory.len s (memOf s a)
    if oldmaxsize < reqmaxsize then
      match regrow R a n (newCapacity oldmaxsize reqmaxsize) s with
      | (.error e, s) => (.error e, s)
      | (.ok (), s) => (.ok (), setLen a (n + inc) s)
    else (.ok (), setLen a (n + inc) s)
  else (.error (.message "invalid Array size: too large for system address width"), s)

/-- `array::del_end`. -/
def delEnd (a dec : Nat) : StoreOp Unit := fun s =>
  if len s a < dec then (.error (.bounds a 0), s)
  else
    let n := len s a - dec
    let s := setLen a n s
    (.ok (), Memory.zeroRange (memOf s a) (offsetOf s a + n) (offsetOf s a + n + dec) s)

/-- `array::push`. -/
def push (R : Runtime) (a v : Nat) : StoreOp Unit := fun s =>
  match growEnd R a 1 s with
  | (.error e, s) => (.error e, s)
  | (.ok (), s) => aset R a (len s a - 1) v s

end Arr

/-! ### Structs -/

/-- `is_a`. -/
def isA (R : Runtime) (s : Store) (v : Nat) (t : TypeObj) : Bool := R.issubtype (s.typeOf v) t

/-- `set_field_raw`: a reference is stored, an inline field copied. -/
def setFieldRaw (v : Nat) (d : FieldDesc) (rhs : Nat) (s : Store) : Store :=
  if d.isptr then s.write v d.offset.toNat (wordBytes rhs)
  else s.write v d.offset.toNat (window (s.bytes rhs) 0 d.size.toNat)

/-- Store the fields of a new struct. -/
def setFields (v : Nat) : List (FieldDesc × Nat) → Store → Store
  | [], s => s
  | (d, a) :: rest, s => setFields v rest (setFieldRaw v d a s)

/-- The index of the first argument that does not fit its field, counted from one. -/
def firstMisfit (R : Runtime) (s : Store) : Nat → List (Nat × TypeObj) → Option Nat
  | _, [] => none
  | i, (a, ft) :: rest => if isA R s a ft then firstMisfit R s (i + 1) rest else some (i + 1)

/-- `new_struct`. -/
def newStruct (R : Runtime) (t : TypeObj) (args : List Nat) (s : Store) :
    Except String Nat × Store :=
  if !t.isDatatype || t.isAbstract then (.error "new: not a concrete struct type", s)
  else if args.length ≠ t.nfields then
    (.error ("invalid struct allocation: " ++ toString args.length ++ " of " ++
      toString t.nfields ++ " fields"), s)
  else
    match firstMisfit R s 0 (args.zip t.types) with
    | some i =>
      (.error ("TypeError: new: expected field " ++ toString i ++
        " to match its declared type"), s)
    | none =>
      if t.hasInstance then (.ok (R.instanceOf t), s)
      else
        match s.alloc R t.sizeOf.toNat (Obj.data t) with
        | (none, s) => (.error "out of memory", s)
        | (some v, s) => (.ok v, setFields v (t.descs.zip args) s)

/-- `get_nth_field`. -/
def getNthField (R : Runtime) (v i : Nat) (s : Store) : Except String Nat × Store :=
  let t := s.typeOf v
  match t.descs[i]?, t.types[i]? with
  | some d, some ft =>
    if d.isptr then (.ok (bytesWord (window (s.bytes v) d.offset.toNat 4)), s)
    else if ft.hasInstance then (.ok (R.instanceOf ft), s)
    else
      match s.alloc R d.size.toNat (Obj.data ft) with
      | (none, s) => (.error "out of memory", s)
      | (some b, s) => (.ok b, s.write b 0 (window (s.bytes v) d.offset.toNat d.size.toNat))
  | _, _ => (.error ("BoundsError: field index " ++ toString (i + 1)), s)

/-- `set_nth_field`. -/
def setNthField (R : Runtime) (v i rhs : Nat) (s : Store) : Except String Unit × Store :=
  let t := s.typeOf v
  if !t.isMutable then
    (.error ("setfield!: immutable struct of type " ++ t.typeSym ++ " cannot be changed"), s)
  else
    match t.descs[i]?, t.types[i]? with
    | some d, some ft =>
      if isA R s rhs ft then (.ok (), setFieldRaw v d rhs s)
      else (.error "TypeError: setfield!: value does not match the field type", s)
    | _, _ => (.error ("BoundsError: field index " ++ toString (i + 1)), s)

/-! ### Egality -/

/-- `egal_unboxed`: some kinds are compared by identity only, types by their parts, and
primitives by their bits. -/
def egalUnboxed (R : Runtime) (s : Store) (t : TypeObj) (a b : Nat) : Bool :=
  match t with
  | .builtin .symbol | .builtin .bool | .builtin .nothing | .builtin .tvar
  | .builtin .typename => false
  | .builtin .svec | .builtin .union | .builtin .unionall | .builtin .datatype =>
    R.egalTypes s a b
  | t =>
    t.isPrimitive && decide (window (s.bytes a) 0 t.sizeOf.toNat =
      window (s.bytes b) 0 t.sizeOf.toNat)

/-- `egal`. -/
def egal (R : Runtime) (s : Store) (a b : Nat) : Bool :=
  if a = b then true
  else if a = 0 ∨ b = 0 then false
  else if s.typeOf b ≠ s.typeOf a then false
  else egalUnboxed R s (s.typeOf a) a b

/-! ### Frames

What an operation leaves alone. -/

namespace Store

/-- References are below `next`, and none is null. -/
structure Valid (s : Store) : Prop where
  next_le : s.next ≤ 2 ^ 32
  pos : 0 < s.next
  dom : ∀ a o, s.objs a = some o → 0 < a ∧ a < s.next

/-- Every object is still what it was. -/
def Extends (s s' : Store) : Prop := ∀ a o, s.objs a = some o → s'.objs a = some o

variable {s s' : Store} {a b : Nat} {o o' : Obj}

@[simp] theorem set_self : (s.set a o).objs a = some o := by
  simp [set]

theorem set_of_ne (h : b ≠ a) : (s.set a o).objs b = s.objs b := by
  simp [set, h]

@[simp] theorem extend_next : (s.extend o).objs s.next = some o := by
  simp [extend]

theorem extend_of_ne (h : a ≠ s.next) : (s.extend o).objs a = s.objs a := by
  simp [extend, h]

theorem Extends.refl (s : Store) : s.Extends s := fun _ _ h => h

theorem Extends.trans {s'' : Store} (h : s.Extends s') (h' : s'.Extends s'') : s.Extends s'' :=
  fun a o ho => h' a o (h a o ho)

theorem Valid.ne_next (hs : s.Valid) (h : s.objs a = some o) : a ≠ s.next :=
  fun he => absurd (hs.dom a o h).2 (by omega)

theorem Valid.extend_of_some (hs : s.Valid) (h : s.objs a = some o) :
    (s.extend o').objs a = some o := by
  rw [extend_of_ne (hs.ne_next h), h]

theorem Valid.extends_extend (hs : s.Valid) : s.Extends (s.extend o) :=
  fun _ _ h => hs.extend_of_some h

theorem Valid.attempted (hs : s.Valid) : s.attempted.Valid := ⟨hs.next_le, hs.pos, hs.dom⟩

theorem Valid.extend (hs : s.Valid) (hnext : s.next < 2 ^ 32) : (s.extend o).Valid where
  next_le := hnext
  pos := Nat.succ_pos _
  dom := by
    intro a o' h
    by_cases ha : a = s.next
    · subst ha
      exact ⟨hs.pos, Nat.lt_succ_self _⟩
    · rw [extend_of_ne ha] at h
      have := hs.dom a o' h
      exact ⟨this.1, Nat.lt_succ_of_lt this.2⟩

theorem Valid.set (hs : s.Valid) (h : s.objs a = some o') : (s.set a o).Valid where
  next_le := hs.next_le
  pos := hs.pos
  dom := by
    intro b o'' hb
    by_cases hba : b = a
    · subst hba
      exact hs.dom b o' h
    · rw [set_of_ne hba] at hb
      exact hs.dom b o'' hb

theorem write_memory {e : TypeObj} {n off : Nat} {bs xs : List UInt8}
    (h : s.objs a = some (.memory e n bs)) :
    s.write a off xs = s.set a (.memory e n (overwrite bs off xs)) := by
  simp [write, h]

theorem write_data {t : TypeObj} {off : Nat} {bs xs : List UInt8}
    (h : s.objs a = some (.data t bs)) :
    s.write a off xs = s.set a (.data t (overwrite bs off xs)) := by
  simp [write, h]

theorem set_eq_self (h : s.objs a = some o) : s.set a o = s := by
  rw [set, ← h, Function.update_eq_self]

/-- Writing nothing changes nothing. -/
theorem write_nil (s : Store) (a off : Nat) : s.write a off [] = s := by
  unfold write
  split
  · rw [overwrite_nil, set_eq_self ‹_›]
  · rw [overwrite_nil, set_eq_self ‹_›]
  · rfl

/-- A chunk of this size can be had. -/
def Grants (R : Runtime) (s : Store) (size : Nat) : Prop :=
  s.next < 2 ^ 32 ∧ (R.grant s.attempts size).isSome

/-- **What an allocation does**: it is refused and changes no object, or it adds one. -/
theorem alloc_cases (R : Runtime) (size : Nat) (make : List UInt8 → Obj) (s : Store) :
    ¬ s.Grants R size ∧ s.alloc R size make = (none, s.attempted) ∨
      s.Grants R size ∧ ∃ chunk : List UInt8, chunk.length = size ∧
        s.alloc R size make = (some s.next, s.extend (make chunk)) := by
  unfold alloc Grants
  cases R.grant s.attempts size with
  | none => exact Or.inl ⟨fun h => Bool.noConfusion h.2, rfl⟩
  | some chunk =>
    by_cases h : s.next < 2 ^ 32
    · refine Or.inr ⟨⟨h, rfl⟩, (List.range size).map chunk, by simp, ?_⟩
      simp only [if_pos h]
    · refine Or.inl ⟨fun h' => h h'.1, ?_⟩
      simp only [if_neg h]

end Store

end Ruju.Storage
