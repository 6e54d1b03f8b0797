import Ruju.Types.Predicates

/-!
# Types as storage sees them

The part of a type object that decides how its values are stored: the flags, the size
and the field descriptors that `define_struct` writes into a `DataType`
(`runtime/src/types.rs`), and the functions that compute and read them.

A type object is the tree of what can be reached from it, as in `Ruju.Types`, with
the declared fields of a struct added.  Sizes and offsets are `UInt32`: this is
arithmetic of the target, and it wraps around.  `types.rs` stores the result of
`compute_field_offsets` in the type, so it is a field here too, and not recomputed
when it is read; `Defined` says that a type's fields hold what `define_struct` puts
there.
-/

namespace Ruju

namespace Builtin

/-- The `size` that `bootstrap` writes. -/
def size : Builtin → UInt32
  | bool | int8 | uint8 => 1
  | int16 | uint16 | float16 => 2
  | int32 | uint32 | float32 | char | errorException => 4
  | int64 | uint64 | float64 | union | unionall | vararg | intersect | boundsError => 8
  | int128 | uint128 | typename => 16
  | tvar | module => 12
  | datatype => 36
  | _ => 0

/-- The number of references in an instance, as `bootstrap` lays it out. -/
def npointers : Builtin → Nat
  | errorException => 1
  | union | unionall | vararg | intersect | boundsError => 2
  | typename | tvar | module => 3
  | datatype => 5
  | _ => 0

end Builtin

namespace Storage

/-- A field descriptor. -/
structure FieldDesc where
  offset : UInt32
  size : UInt32
  isptr : Bool
deriving DecidableEq, Repr

/-- A type object, with the fields of a struct. -/
inductive TypeObj
  | builtin (b : Builtin)
  /-- A type made by `define_struct`: its field types, and what it computed of them. -/
  | struct (id : Nat) (name : String) (super : Nominal) (mutabl : Bool) (types : List TypeObj)
      (size : UInt32) (ptrs : List UInt32) (descs : List FieldDesc)
  | memory (elem : TypeObj)
  | array (elem : TypeObj)
  /-- Another instantiation of a constructor: `Tuple`, `Box`, `Pair` or `Type`. -/
  | inst (c : Con) (ps : List Ty)
  /-- A `Union`, a `UnionAll` or a `TypeVar`. -/
  | nonData (t : Ty)
deriving Repr

namespace TypeObj

/-! ### Identity -/

mutual

/-- Equality of type objects, as a computation. -/
protected def beq : TypeObj → TypeObj → Bool
  | builtin b, builtin c => decide (b = c)
  | struct i n s m ts z ps ds, struct j n' s' m' us z' ps' ds' =>
    decide (i = j ∧ n = n' ∧ s = s' ∧ m = m' ∧ z = z' ∧ ps = ps' ∧ ds = ds') &&
      TypeObj.beqs ts us
  | memory t, memory u => TypeObj.beq t u
  | array t, array u => TypeObj.beq t u
  | inst c ps, inst d qs => decide (c = d ∧ ps = qs)
  | nonData t, nonData u => decide (t = u)
  | _, _ => false

/-- Equality of lists of type objects. -/
protected def beqs : List TypeObj → List TypeObj → Bool
  | [], [] => true
  | t :: ts, u :: us => TypeObj.beq t u && TypeObj.beqs ts us
  | _, _ => false

end

/-- Induction over a type object with a hypothesis for every field type. -/
@[elab_as_elim, induction_eliminator]
theorem induct {P : TypeObj → Prop} (builtin : ∀ b, P (builtin b))
    (struct : ∀ i n s m ts z ps ds, (∀ t ∈ ts, P t) → P (struct i n s m ts z ps ds))
    (memory : ∀ t, P t → P (memory t)) (array : ∀ t, P t → P (array t))
    (inst : ∀ c ps, P (inst c ps)) (nonData : ∀ t, P (nonData t)) (t : TypeObj) : P t :=
  @TypeObj.rec P (fun ts => ∀ t ∈ ts, P t) builtin struct memory array inst nonData
    (fun _ ht => absurd ht List.not_mem_nil)
    (fun _ _ hh ht _ hp => (List.mem_cons.mp hp).elim (· ▸ hh) (ht _)) t

theorem beqs_iff {ts : List TypeObj}
    (ih : ∀ t ∈ ts, ∀ u, TypeObj.beq t u = true ↔ t = u) :
    ∀ us, TypeObj.beqs ts us = true ↔ ts = us := by
  induction ts with
  | nil => intro us; cases us <;> simp [TypeObj.beqs]
  | cons t ts iht =>
    intro us
    cases us with
    | nil => simp [TypeObj.beqs]
    | cons u us =>
      have ht := ih t List.mem_cons_self u
      have hts := iht (fun r hr => ih r (List.mem_cons_of_mem _ hr)) us
      simp [TypeObj.beqs, ht, hts]

theorem beq_iff (t u : TypeObj) : TypeObj.beq t u = true ↔ t = u := by
  induction t generalizing u with
  | builtin b => cases u <;> simp [TypeObj.beq]
  | struct i n s m ts z ps ds ih =>
    cases u with
    | struct => simp [TypeObj.beq, beqs_iff ih]; tauto
    | _ => simp [TypeObj.beq]
  | memory t ih => cases u <;> simp [TypeObj.beq, ih]
  | array t ih => cases u <;> simp [TypeObj.beq, ih]
  | inst c ps => cases u <;> simp [TypeObj.beq]
  | nonData t => cases u <;> simp [TypeObj.beq]

instance : DecidableEq TypeObj := fun t u =>
  decidable_of_iff (TypeObj.beq t u = true) (beq_iff t u)

instance : Inhabited TypeObj := ⟨builtin .any⟩

/-! ### Queries -/

/-- `Any`. -/
abbrev any : TypeObj := builtin .any

/-- `is_datatype`. -/
def isDatatype : TypeObj → Bool
  | nonData _ => false
  | _ => true

/-- `is_abstract`. -/
def isAbstract : TypeObj → Bool
  | builtin b => b.isAbstract
  | _ => false

/-- `is_primitive`. -/
def isPrimitive : TypeObj → Bool
  | builtin b => b.isPrimitive
  | _ => false

/-- `is_mutable`: only `define_struct` sets the flag. -/
def isMutable : TypeObj → Bool
  | struct _ _ _ m _ _ _ _ => m
  | _ => false

/-- `size_of`; an instantiation has no size. -/
def sizeOf : TypeObj → UInt32
  | builtin b => b.size
  | struct _ _ _ _ _ z _ _ => z
  | _ => 0

/-- The field types. -/
def types : TypeObj → List TypeObj
  | struct _ _ _ _ ts _ _ _ => ts
  | _ => []

/-- The field descriptors in the layout. -/
def descs : TypeObj → List FieldDesc
  | struct _ _ _ _ _ _ _ ds => ds
  | _ => []

/-- `nfields_of`. -/
def nfields (t : TypeObj) : Nat := t.types.length

/-- `layout_npointers`. -/
def layoutNpointers : TypeObj → Nat
  | builtin b => b.npointers
  | struct _ _ _ _ _ _ ps _ => ps.length
  | _ => 0

/-- Is there an `instance`?  `define_struct` makes one for an immutable struct without
fields. -/
def hasInstance : TypeObj → Bool
  | builtin b => b.isSingleton
  | struct _ _ _ m ts _ _ _ => ts.isEmpty && !m
  | _ => false

/-- The text of the type's name; only `DataType`s have one. -/
def typeSym : TypeObj → String
  | builtin b => b.name
  | struct _ n _ _ _ _ _ _ => n
  | memory _ => "GenericMemory"
  | array _ => "Array"
  | inst c ps => (Ty.app c ps).typeSym
  | nonData _ => ""

/-- `is_bits`. -/
def isBits : TypeObj → Bool
  | builtin b => !b.isAbstract && b.isPrimitive
  | inst c ps => (Ty.app c ps).isBits
  | _ => false

/-- The type object without the fields. -/
def toTy : TypeObj → Ty
  | builtin b => .builtin b
  | struct i n s m ts z ps ds => .nominal (.struct i n s (struct i n s m ts z ps ds).hasInstance)
  | memory t => .app .memory [t.toTy]
  | array t => .app .array [t.toTy]
  | inst c ps => .app c ps
  | nonData t => t

/-! ### Layout -/

/-- `is_inline_field`. -/
def isInlineField (ft : TypeObj) : Bool :=
  if !ft.isDatatype || ft.isAbstract || ft.isMutable then false
  else if ft.isPrimitive then true
  else decide (ft.nfields > 0) && ft.layoutNpointers == 0 || ft.hasInstance

mutual

/-- `type_alignment`. -/
def typeAlignment : TypeObj → UInt32
  | builtin b => if b.isPrimitive then max 1 (min b.size 8) else 1
  | struct _ _ _ _ ts _ _ ds => fieldAlignments ts ds
  | _ => 1

/-- The largest alignment of the fields, by their descriptors. -/
def fieldAlignments : List TypeObj → List FieldDesc → UInt32
  | t :: ts, d :: ds => max (if d.isptr then 4 else typeAlignment t) (fieldAlignments ts ds)
  | _, _ => 1

end

/-- Size, alignment and storage kind of a field of type `ft`. -/
def fieldShape (ft : TypeObj) : UInt32 × UInt32 × Bool :=
  if ft.isInlineField then (ft.sizeOf, ft.typeAlignment, false) else (4, 4, true)

/-- `(off + al - 1) & !(al - 1)`. -/
def alignTo (off al : UInt32) : UInt32 := (off + al - 1) &&& ~~~(al - 1)

/-- The loop of `compute_field_offsets` and its last step. -/
def layoutLoop : List TypeObj → UInt32 → UInt32 → List UInt32 → List FieldDesc →
    UInt32 × List UInt32 × List FieldDesc
  | [], off, alignm, ptrs, descs => (alignTo off alignm, ptrs, descs)
  | ft :: fts, off, alignm, ptrs, descs =>
    let shape := ft.fieldShape
    let off := alignTo off shape.2.1
    layoutLoop fts (off + shape.1) (max alignm shape.2.1)
      (if shape.2.2 then ptrs ++ [off] else ptrs) (descs ++ [⟨off, shape.1, shape.2.2⟩])

/-- `compute_field_offsets`: the size, the offsets of the references, the descriptors. -/
def computeFieldOffsets (types : List TypeObj) : UInt32 × List UInt32 × List FieldDesc :=
  layoutLoop types 0 1 [] []

/-- `define_struct`. -/
def defineStruct (id : Nat) (name : String) (super : Nominal) (types : List TypeObj)
    (mutabl : Bool) : TypeObj :=
  let layout := computeFieldOffsets types
  struct id name super mutabl types layout.1 layout.2.1 layout.2.2

/-- A type object whose structs were all made by `define_struct`. -/
inductive Defined : TypeObj → Prop
  | builtin (b : Builtin) : Defined (builtin b)
  | struct {id : Nat} {name : String} {super : Nominal} {types : List TypeObj} {mutabl : Bool}
      (h : ∀ t ∈ types, Defined t) : Defined (defineStruct id name super types mutabl)
  | memory {t : TypeObj} (h : Defined t) : Defined (memory t)
  | array {t : TypeObj} (h : Defined t) : Defined (array t)
  | inst (c : Con) (ps : List Ty) : Defined (inst c ps)
  | nonData (t : Ty) : Defined (nonData t)

end TypeObj

end Storage

end Ruju
