import Mathlib.Data.List.Basic

/-!
# Type objects

The data model of `runtime/src/types.rs`: the bootstrapped builtin types, the
nominal hierarchy, and the type objects the constructors allocate.

The runtime compares types by address, and which objects it *uniques* decides
what that comparison means:

* instantiations of a constructor (`Tuple{…}`, `Box{…}`, …, `Type{…}`) are
  cached on their `TypeName`, so two of them are the same object iff their
  parameters are;
* unions, type variables, `UnionAll`s, `Vararg`s, boxed lengths and meet nodes
  are allocated anew on every call, so two of them are the same object only if
  they are the same allocation.

`Ty` is the tree of an object with its allocation number at every node of the
second kind and none at nodes of the first.  Equality of trees is then the
address comparison `==` of the source, and it is decidable.
-/

namespace Ruju

/-! ### Builtin types -/

/-- The builtin type ids (`types::id`), in the order of the source. -/
inductive Builtin
  | any | number | real | integer | signed | unsigned | abstractFloat
  | abstractChar | bool | int8 | int16 | int32 | int64 | int128 | uint8
  | uint16 | uint32 | uint64 | uint128 | float16 | float32 | float64 | char
  | symbol | nothing | datatype | bottom | svec | union | typename | tvar
  | unionall | vararg | module | type | exception | divideError
  | undefRefError | outOfMemoryError | boundsError | errorException | function
  | intersect
deriving DecidableEq, Repr

namespace Builtin

/-- The text of the builtin's `TypeName` symbol. -/
def name : Builtin → String
  | any => "Any" | number => "Number" | real => "Real" | integer => "Integer"
  | signed => "Signed" | unsigned => "Unsigned"
  | abstractFloat => "AbstractFloat" | abstractChar => "AbstractChar"
  | bool => "Bool" | int8 => "Int8" | int16 => "Int16" | int32 => "Int32"
  | int64 => "Int64" | int128 => "Int128" | uint8 => "UInt8"
  | uint16 => "UInt16" | uint32 => "UInt32" | uint64 => "UInt64"
  | uint128 => "UInt128" | float16 => "Float16" | float32 => "Float32"
  | float64 => "Float64" | char => "Char" | symbol => "Symbol"
  | nothing => "Nothing" | datatype => "DataType" | bottom => "Union\x7b\x7d"
  | svec => "SimpleVector" | union => "Union" | typename => "TypeName"
  | tvar => "TypeVar" | unionall => "UnionAll" | vararg => "Vararg"
  | module => "Module" | type => "Type" | exception => "Exception"
  | divideError => "DivideError" | undefRefError => "UndefRefError"
  | outOfMemoryError => "OutOfMemoryError" | boundsError => "BoundsError"
  | errorException => "ErrorException" | function => "Function"
  | intersect => "Intersect"

/-- The `super_` field `bootstrap` leaves in each builtin: the `TABLE` rows,
the kinds patched below `Type`, the exceptions below `Exception`, and `Any`
for everything else (itself included). -/
def super : Builtin → Builtin
  | real => number
  | integer => real
  | signed => integer
  | unsigned => integer
  | abstractFloat => real
  | bool => integer
  | int8 | int16 | int32 | int64 | int128 => signed
  | uint8 | uint16 | uint32 | uint64 | uint128 => unsigned
  | float16 | float32 | float64 => abstractFloat
  | char => abstractChar
  | datatype | union | unionall => type
  | divideError | undefRefError | outOfMemoryError | boundsError
  | errorException => exception
  | _ => any

/-- `FLAG_ABSTRACT`. -/
def isAbstract : Builtin → Bool
  | any | number | real | integer | signed | unsigned | abstractFloat
  | abstractChar | bottom | type | exception | function => true
  | _ => false

/-- `FLAG_PRIMITIVE`. -/
def isPrimitive : Builtin → Bool
  | bool | int8 | int16 | int32 | int64 | int128 | uint8 | uint16 | uint32
  | uint64 | uint128 | float16 | float32 | float64 | char => true
  | _ => false

/-- The builtins `bootstrap` gives an `instance`. -/
def isSingleton : Builtin → Bool
  | nothing | divideError | undefRefError | outOfMemoryError => true
  | _ => false

/-- The supertype chain, the type itself first, unrolled at most `n` times. -/
def supersUpTo : Nat → Builtin → List Builtin
  | 0, b => [b]
  | n + 1, b => if b.super = b then [b] else b :: supersUpTo n b.super

/-- The supertype chain of a builtin; no chain of the table is longer than the
five steps from a sized integer to `Any`. -/
def supers (b : Builtin) : List Builtin :=
  supersUpTo 5 b

theorem supers_cons (b : Builtin) (h : b ≠ any) :
    b.supers = b :: b.super.supers := by
  cases b <;> first | exact absurd rfl h | rfl

@[simp] theorem supers_any : any.supers = [any] := rfl

end Builtin

/-! ### Nominal types -/

/-- A `DataType` without parameters: a builtin, or a struct made by
`define_struct`, which has its own `TypeName`.  A struct is never abstract or
primitive, and it has an `instance` exactly when it is immutable and has no
fields. -/
inductive Nominal
  | builtin (b : Builtin)
  | struct (id : Nat) (name : String) (super : Nominal) (singleton : Bool)
deriving DecidableEq, Repr

namespace Nominal

/-- The text of the type's name symbol. -/
def name : Nominal → String
  | builtin b => b.name
  | struct _ s _ _ => s

/-- `supertype`. -/
def super : Nominal → Nominal
  | builtin b => builtin b.super
  | struct _ _ s _ => s

/-- `is_abstract`. -/
def isAbstract : Nominal → Bool
  | builtin b => b.isAbstract
  | struct .. => false

/-- `is_primitive`. -/
def isPrimitive : Nominal → Bool
  | builtin b => b.isPrimitive
  | struct .. => false

/-- `is_datatype_singleton`. -/
def isSingleton : Nominal → Bool
  | builtin b => b.isSingleton
  | struct _ _ _ s => s

/-- The supertype chain, the type itself first and `Any` last. -/
def supers : Nominal → List Nominal
  | builtin b => b.supers.map builtin
  | struct i n s g => struct i n s g :: s.supers

theorem mem_supers_self (n : Nominal) : n ∈ n.supers := by
  cases n with
  | builtin b =>
    by_cases h : b = .any
    · subst h
      simp [supers]
    · simp [supers, Builtin.supers_cons b h]
  | struct => simp [supers]

theorem any_mem_supers (n : Nominal) : builtin .any ∈ n.supers := by
  induction n with
  | builtin b => cases b <;> decide
  | struct i s p g ih => simp [supers, ih]

end Nominal

/-! ### Type objects -/

/-- The constructors with parameters.  `Tuple` is covariant; the others are
invariant.  `Type` shares its `TypeName` with the nominal `Type`. -/
inductive Con
  | tuple | box | pair | memory | array | type
deriving DecidableEq, Repr

/-- A type object, or a boxed length where the source stores one among type
parameters.  `id` is the allocation number of an object that is not uniqued. -/
inductive Ty
  | nominal (n : Nominal)
  | app (c : Con) (ps : List Ty)
  | union (id : Nat) (a b : Ty)
  | tvar (id : Nat) (name : String) (lb ub : Ty)
  | unionall (id vid : Nat) (name : String) (lb ub body : Ty)
  | vararg (id : Nat) (elem : Ty)
  | varargN (id : Nat) (elem num : Ty)
  | long (id : Nat) (n : Int)
  | inter (id : Nat) (a b : Ty)
deriving Repr

namespace Ty

mutual

/-- Equality of objects, as a computation. -/
protected def beq : Ty → Ty → Bool
  | nominal n, nominal m => decide (n = m)
  | app c ps, app d qs => decide (c = d) && Ty.beqs ps qs
  | union i a b, union j c d => decide (i = j) && Ty.beq a c && Ty.beq b d
  | tvar i n a b, tvar j m c d =>
    decide (i = j) && decide (n = m) && Ty.beq a c && Ty.beq b d
  | unionall i v n a b t, unionall j w m c d u =>
    decide (i = j) && decide (v = w) && decide (n = m) && Ty.beq a c &&
      Ty.beq b d && Ty.beq t u
  | vararg i a, vararg j b => decide (i = j) && Ty.beq a b
  | varargN i a b, varargN j c d => decide (i = j) && Ty.beq a c && Ty.beq b d
  | long i n, long j m => decide (i = j) && decide (n = m)
  | inter i a b, inter j c d => decide (i = j) && Ty.beq a c && Ty.beq b d
  | _, _ => false

/-- Equality of parameter lists. -/
protected def beqs : List Ty → List Ty → Bool
  | [], [] => true
  | a :: as, b :: bs => Ty.beq a b && Ty.beqs as bs
  | _, _ => false

end

/-- Induction over a type with a hypothesis for every parameter. -/
@[elab_as_elim, induction_eliminator]
theorem induct {P : Ty → Prop} (nominal : ∀ n, P (nominal n))
    (app : ∀ c ps, (∀ p ∈ ps, P p) → P (app c ps))
    (union : ∀ i a b, P a → P b → P (union i a b))
    (tvar : ∀ i n lb ub, P lb → P ub → P (tvar i n lb ub))
    (unionall : ∀ i v n lb ub t, P lb → P ub → P t →
      P (unionall i v n lb ub t))
    (vararg : ∀ i t, P t → P (vararg i t))
    (varargN : ∀ i t n, P t → P n → P (varargN i t n))
    (long : ∀ i n, P (long i n))
    (inter : ∀ i a b, P a → P b → P (inter i a b)) (t : Ty) : P t :=
  @Ty.rec P (fun ps => ∀ p ∈ ps, P p) nominal app
    union tvar unionall vararg varargN long inter
    (fun _ hp => absurd hp List.not_mem_nil)
    (fun _ _ hh ht _ hp => (List.mem_cons.mp hp).elim (· ▸ hh) (ht _)) t

theorem beqs_iff {ps : List Ty}
    (ih : ∀ p ∈ ps, ∀ q, Ty.beq p q = true ↔ p = q) :
    ∀ qs, Ty.beqs ps qs = true ↔ ps = qs := by
  induction ps with
  | nil => intro qs; cases qs <;> simp [Ty.beqs]
  | cons p ps ihp =>
    intro qs
    cases qs with
    | nil => simp [Ty.beqs]
    | cons q qs =>
      have hp := ih p (List.mem_cons_self ..) q
      have hps := ihp (fun r hr => ih r (List.mem_cons_of_mem _ hr)) qs
      simp [Ty.beqs, hp, hps]

theorem beq_iff (s t : Ty) : Ty.beq s t = true ↔ s = t := by
  induction s generalizing t with
  | nominal n => cases t <;> simp [Ty.beq]
  | app c ps ih =>
    cases t with
    | app d qs => simp [Ty.beq, beqs_iff ih qs]
    | _ => simp [Ty.beq]
  | union i a b iha ihb => cases t <;> simp [Ty.beq, iha, ihb, and_assoc]
  | tvar i n a b iha ihb => cases t <;> simp [Ty.beq, iha, ihb, and_assoc]
  | unionall i v n a b u iha ihb ihu =>
    cases t <;> simp [Ty.beq, iha, ihb, ihu, and_assoc]
  | vararg i a iha => cases t <;> simp [Ty.beq, iha]
  | varargN i a b iha ihb => cases t <;> simp [Ty.beq, iha, ihb, and_assoc]
  | long i n => cases t <;> simp [Ty.beq]
  | inter i a b iha ihb => cases t <;> simp [Ty.beq, iha, ihb, and_assoc]

instance : DecidableEq Ty := fun s t =>
  decidable_of_iff (Ty.beq s t = true) (beq_iff s t)

/-- A builtin type (`types::builtin`). -/
abbrev builtin (b : Builtin) : Ty := nominal (.builtin b)

/-- `Any`. -/
abbrev any : Ty := builtin .any

/-- `Union{}`. -/
abbrev bottom : Ty := builtin .bottom

/-! ### Kinds of objects -/

/-- The type tag of an object (`object::type_of`). -/
def typeOf : Ty → Ty
  | nominal _ | app .. => builtin .datatype
  | union .. => builtin .union
  | tvar .. => builtin .tvar
  | unionall .. => builtin .unionall
  | vararg .. | varargN .. => builtin .vararg
  | long .. => builtin .int64
  | inter .. => builtin .intersect

/-- `is_datatype`. -/
def isDatatype : Ty → Bool
  | nominal _ | app .. => true
  | _ => false

/-- `is_union`. -/
def isUnion : Ty → Bool
  | union .. => true
  | _ => false

/-- `is_typevar`. -/
def isTypevar : Ty → Bool
  | tvar .. => true
  | _ => false

/-- `is_unionall`. -/
def isUnionall : Ty → Bool
  | unionall .. => true
  | _ => false

/-- `is_vararg`. -/
def isVararg : Ty → Bool
  | vararg .. | varargN .. => true
  | _ => false

/-- `is_boxed_long`. -/
def isBoxedLong : Ty → Bool
  | long .. => true
  | _ => false

/-- `is_intersect`. -/
def isIntersect : Ty → Bool
  | inter .. => true
  | _ => false

/-- `is_tuple`. -/
def isTuple : Ty → Bool
  | app .tuple _ => true
  | _ => false

/-- `is_type_type`: `Type{T}`, not the bare `Type`. -/
def isTypeType : Ty → Bool
  | app .type (_ :: _) => true
  | _ => false

/-- The parameter `T` of a `Type{T}`. -/
def typeParam : Ty → Option Ty
  | app .type (t :: _) => some t
  | _ => none

/-- `tvar_lb`. -/
def tvarLb : Ty → Ty
  | tvar _ _ lb _ => lb
  | t => t

/-- `tvar_ub`. -/
def tvarUb : Ty → Ty
  | tvar _ _ _ ub => ub
  | t => t

/-- `is_kind`. -/
def isKind (t : Ty) : Bool :=
  t = builtin .datatype || t = builtin .union || t = builtin .unionall

/-- `is_type_or_typevar`. -/
def isTypeOrTypevar (t : Ty) : Bool :=
  t.isDatatype || t.isUnion || t.isUnionall || t.isTypevar

/-- `parameters_of`; `none` is the `NULL` of a nominal type. -/
def parameters : Ty → Option (List Ty)
  | app _ ps => some ps
  | _ => none

/-- A `TypeName` object.  Every nominal type has its own; every instantiation
of a constructor shares the constructor's, and `Type{T}` has that of `Type`. -/
inductive TypeName
  | nominal (n : Nominal)
  | con (c : Con)
deriving DecidableEq, Repr

/-- `name_of`, for the `DataType`s. -/
def nameOf : Ty → Option TypeName
  | nominal n => some (.nominal n)
  | app .type _ => some (.nominal (.builtin .type))
  | app c _ => some (.con c)
  | _ => none

/-- The text of a `TypeName`. -/
def TypeName.sym : TypeName → String
  | .nominal n => n.name
  | .con .tuple => "Tuple"
  | .con .box => "Box"
  | .con .pair => "Pair"
  | .con .memory => "GenericMemory"
  | .con .array => "Array"
  | .con .type => "Type"

/-- `is_abstract`; an instantiation has no flags. -/
def isAbstract : Ty → Bool
  | nominal n => n.isAbstract
  | _ => false

/-- The supertype chain of a `DataType`, the type itself first: an
instantiation sits below `Any`, except that `Type{T}` sits below `Type`. -/
def supers : Ty → List Ty
  | nominal n => n.supers.map nominal
  | app .type ps => [app .type ps, builtin .type, any]
  | app c ps => [app c ps, any]
  | t => [t]

end Ty

end Ruju
