import Ruju.Types.Syntax

/-!
# Structural predicates on types

The functions of `types.rs`, `builtins.rs` and `subtype.rs` that walk a type
without consulting the subtype environment: free variables, the obvious-equality
fast paths, `===`, concreteness of a bound, and the vararg classification.

All of them recurse on the tree, with a companion for parameter lists, so that
they reduce on closed arguments.
-/

namespace Ruju

namespace Ty

/-! ### Free variables -/

mutual

/-- `has_free_var_where`: is there an occurrence of a variable satisfying
`pred` that no `UnionAll` inside the type binds?  The bounds of a bound
variable are walked with the variable itself still free. -/
def hasFreeVarWhere (pred : Ty → Bool) (bound : List Ty) : Ty → Bool
  | tvar i n lb ub =>
    !bound.contains (tvar i n lb ub) && pred (tvar i n lb ub)
  | union _ a b => hasFreeVarWhere pred bound a || hasFreeVarWhere pred bound b
  | vararg _ t => hasFreeVarWhere pred bound t
  | varargN _ t n => hasFreeVarWhere pred bound t || hasFreeVarWhere pred bound n
  | inter _ a b => hasFreeVarWhere pred bound a || hasFreeVarWhere pred bound b
  | unionall _ v n lb ub t =>
    hasFreeVarWhere pred bound lb || hasFreeVarWhere pred bound ub ||
      hasFreeVarWhere pred (tvar v n lb ub :: bound) t
  | app _ ps => hasFreeVarsWhere pred bound ps
  | nominal _ => false
  | long .. => false

/-- `has_free_var_where` over a parameter list. -/
def hasFreeVarsWhere (pred : Ty → Bool) (bound : List Ty) : List Ty → Bool
  | [] => false
  | p :: ps => hasFreeVarWhere pred bound p || hasFreeVarsWhere pred bound ps

end

/-- `has_free_typevars`. -/
def hasFreeTypevars (t : Ty) : Bool :=
  t.hasFreeVarWhere (fun _ => true) []

/-- `has_typevar`: does `t` mention `var` free? -/
def hasTypevar (t var : Ty) : Bool :=
  t.hasFreeVarWhere (fun v => v = var) []

/-! ### Equality -/

mutual

/-- `egal_types`: structural equality under an environment that pairs the
variables entered on each side, innermost first. -/
def egalTypes (tvarNames : Bool) (env : List (Ty × Ty)) : Ty → Ty → Bool
  | tvar i n a b, u =>
    tvar i n a b = u ||
      (u.isTypevar &&
        match env.find? (fun p => p.1 = tvar i n a b) with
        | some p => p.2 = u
        | none => false)
  | unionall i v n a b t, u =>
    unionall i v n a b t = u ||
      (match u with
      | unionall _ w m c d s =>
        (!tvarNames || n = m) && egalTypes tvarNames env a c &&
          egalTypes tvarNames env b d &&
          egalTypes tvarNames ((tvar v n a b, tvar w m c d) :: env) t s
      | _ => false)
  | union i a b, u =>
    union i a b = u ||
      (match u with
      | union _ c d =>
        egalTypes tvarNames env a c && egalTypes tvarNames env b d
      | _ => false)
  | app c ps, u =>
    app c ps = u ||
      (match u with
      | app d qs => c = d && egalTypesList tvarNames env ps qs
      | _ => false)
  | long i n, u =>
    long i n = u || (match u with | long _ m => n = m | _ => false)
  | nominal n, u => nominal n = u
  | vararg i t, u => vararg i t = u
  | varargN i t n, u => varargN i t n = u
  | inter i a b, u => inter i a b = u

/-- `egal_types` on parameter lists of equal length. -/
def egalTypesList (tvarNames : Bool) (env : List (Ty × Ty)) :
    List Ty → List Ty → Bool
  | [], [] => true
  | p :: ps, q :: qs =>
    egalTypes tvarNames env p q && egalTypesList tvarNames env ps qs
  | _, _ => false

end

mutual

/-- `egal` (`===`) on type objects.  Type variables, varargs and meet nodes are
egal by identity only; a `UnionAll` compares its variables' names. -/
def egal : Ty → Ty → Bool
  | union i a b, u =>
    union i a b = u ||
      (match u with | union _ c d => egal a c && egal b d | _ => false)
  | unionall i v n a b t, u =>
    unionall i v n a b t = u ||
      (u.isUnionall && egalTypes true [] (unionall i v n a b t) u)
  | app c ps, u =>
    app c ps = u ||
      (match u with | app d qs => c = d && egalList ps qs | _ => false)
  | long i n, u =>
    long i n = u || (match u with | long _ m => n = m | _ => false)
  | nominal n, u => nominal n = u
  | tvar i n a b, u => tvar i n a b = u
  | vararg i t, u => vararg i t = u
  | varargN i t n, u => varargN i t n = u
  | inter i a b, u => inter i a b = u

/-- `egal` on parameter lists of equal length. -/
def egalList : List Ty → List Ty → Bool
  | [], [] => true
  | p :: ps, q :: qs => egal p q && egalList ps qs
  | _, _ => false

end

mutual

/-- `obviously_egal`: cheap structural equality, never wrongly true. -/
def obviouslyEgal : Ty → Ty → Bool
  | app c ps, u =>
    app c ps = u ||
      (match u with
      | app d qs => c = d && obviouslyEgalList ps qs
      | _ => false)
  | union i a b, u =>
    union i a b = u ||
      (match u with
      | union _ c d => obviouslyEgal a c && obviouslyEgal b d
      | _ => false)
  | inter i a b, u =>
    inter i a b = u ||
      (match u with
      | inter _ c d => obviouslyEgal a c && obviouslyEgal b d
      | _ => false)
  | unionall i v n a b t, u =>
    unionall i v n a b t = u ||
      (match u with
      | unionall _ w m c d s => tvar v n a b = tvar w m c d && obviouslyEgal t s
      | _ => false)
  | vararg i t, u =>
    vararg i t = u || (match u with | vararg _ s => obviouslyEgal t s | _ => false)
  | varargN i t n, u =>
    varargN i t n = u ||
      (match u with
      | varargN _ s m => obviouslyEgal t s && egal n m
      | _ => false)
  | long i n, u =>
    long i n = u || (match u with | long _ m => n = m | _ => false)
  | nominal n, u => nominal n = u
  | tvar i n a b, u => tvar i n a b = u

/-- `obviously_egal` on parameter lists of equal length. -/
def obviouslyEgalList : List Ty → List Ty → Bool
  | [], [] => true
  | p :: ps, q :: qs => obviouslyEgal p q && obviouslyEgalList ps qs
  | _, _ => false

end

/-- The inner half of `obviously_in_union`: is the non-union `x` obviously one
of the arms of `u`? -/
def obviouslyArmOf : Ty → Ty → Bool
  | union _ a b, x => obviouslyArmOf a x || obviouslyArmOf b x
  | u, x => obviouslyEgal u x

/-- `obviously_in_union`: is every arm of `x` obviously an arm of `u`? -/
def obviouslyInUnion (u : Ty) : Ty → Bool
  | union _ a b => obviouslyInUnion u a && obviouslyInUnion u b
  | x => obviouslyArmOf u x

/-! ### Concreteness and occurrences -/

mutual

/-- `is_leaf_bound`: `Union{}`, a non-abstract `DataType` whose parameters are
all leaves, or an object that is no type at all. -/
def isLeafBound : Ty → Bool
  | nominal n => n = .builtin .bottom || !n.isAbstract
  | app _ ps => areLeafBounds ps
  | vararg .. => true
  | varargN .. => true
  | long .. => true
  | union .. => false
  | tvar .. => false
  | unionall .. => false
  | inter .. => false

/-- `is_leaf_bound` of every parameter. -/
def areLeafBounds : List Ty → Bool
  | [] => true
  | p :: ps => isLeafBound p && areLeafBounds ps

end

/-- `is_leaf_typevar`: is the declared lower bound of the variable a leaf? -/
def isLeafTypevar : Ty → Bool
  | tvar _ _ lb _ => lb.isLeafBound
  | _ => false

mutual

/-- `var_occurs_invariant`: does `var` occur under an invariant constructor?
The count of a `Vararg` is not looked at. -/
def varOccursInvariant (var : Ty) (inside : Bool) : Ty → Bool
  | union i a b =>
    if union i a b = var then inside
    else varOccursInvariant var inside a || varOccursInvariant var inside b
  | vararg i t => if vararg i t = var then inside else varOccursInvariant var inside t
  | varargN i t n =>
    if varargN i t n = var then inside else varOccursInvariant var inside t
  | unionall i v n lb ub t =>
    if unionall i v n lb ub t = var then inside
    else if tvar v n lb ub = var then false
    else varOccursInvariant var inside lb || varOccursInvariant var inside ub ||
      varOccursInvariant var inside t
  | app c ps =>
    if app c ps = var then inside
    else varsOccurInvariant var (inside || c ≠ .tuple) ps
  | t => if t = var then inside else false

/-- `var_occurs_invariant` in some parameter. -/
def varsOccurInvariant (var : Ty) (inside : Bool) : List Ty → Bool
  | [] => false
  | p :: ps => varOccursInvariant var inside p || varsOccurInvariant var inside ps

end

/-- `widen_type_if_concrete`: `Type{x}` over a non-variable `x` widens to the
tag of `x`; a union widens when both arms agree; a `UnionAll` sheds a variable
its widened body no longer mentions. -/
def widenTypeIfConcrete : Ty → Ty
  | app .type (t0 :: ts) =>
    if t0.isTypevar then app .type (t0 :: ts) else t0.typeOf
  | union i a b =>
    if widenTypeIfConcrete a = widenTypeIfConcrete b then widenTypeIfConcrete a
    else union i a b
  | unionall i v n lb ub t =>
    if widenTypeIfConcrete t ≠ t && !(widenTypeIfConcrete t).hasTypevar (tvar v n lb ub)
    then widenTypeIfConcrete t
    else unionall i v n lb ub t
  | t => t

/-- `unwrap_unionall`. -/
def unwrapUnionall : Ty → Ty
  | unionall _ _ _ _ _ t => unwrapUnionall t
  | t => t

/-! ### Varargs -/

/-- `VarargKind`. -/
inductive VarargKind
  | none | unbound | int | bound
deriving DecidableEq, Repr

/-- `vararg_kind`. -/
def varargKind : Ty → VarargKind
  | vararg .. => .unbound
  | varargN _ _ n => if n.isBoxedLong then .int else .bound
  | _ => .none

/-- `vararg_elem`. -/
def varargElem : Ty → Ty
  | vararg _ t => t
  | varargN _ t _ => t
  | t => t

/-- `vararg_num`; `none` is `NULL`. -/
def varargNum : Ty → Option Ty
  | varargN _ _ n => some n
  | _ => none

/-- The payload of a boxed length (`unbox_int`). -/
def unboxLong : Ty → Int
  | long _ n => n
  | _ => 0

/-- `is_indefinite_length_tuple`. -/
def isIndefiniteLengthTuple (t : Ty) : Bool :=
  match t.unwrapUnionall with
  | app .tuple ps =>
    match ps.getLast? with
    | some p => p.varargKind = .unbound
    | none => false
  | _ => false

/-- Is the type a tuple whose last parameter, if any, fixes its length? -/
def hasFixedLength : Ty → Bool
  | app .tuple ps =>
    match ps.getLast? with
    | some p => p.varargKind = .none || p.varargKind = .int
    | none => true
  | _ => false

/-- `is_definite_length_tuple`; a variable is judged by its upper bound. -/
def isDefiniteLengthTuple (t : Ty) : Bool :=
  (if t.isTypevar then t.tvarUb else t).unwrapUnionall.hasFixedLength

/-! ### Canonical order of union members -/

/-- `is_bits`: a primitive, or a tuple of bits types. -/
def isBits : Ty → Bool
  | nominal n => !n.isAbstract && n.isPrimitive
  | app .tuple ps => areBits ps
  | _ => false
where
  /-- `is_bits` of every element. -/
  areBits : List Ty → Bool
    | [] => true
    | p :: ps => isBits p && areBits ps

/-- `is_datatype_singleton`; an instantiation has no instance. -/
def isDatatypeSingleton : Ty → Bool
  | nominal n => n.isSingleton
  | _ => false

/-- The text of a `DataType`'s name, empty for the other objects. -/
def typeSym (t : Ty) : String :=
  match t.nameOf with
  | some n => n.sym
  | none => ""

mutual

/-- `name_cmp`: `DataType`s first, then by name, number of parameters, and
parameters from the left. -/
def nameCmp : Ty → Ty → Ordering
  | nominal n, u =>
    if !u.isDatatype then .lt
    else (compare n.name u.typeSym).then
      (compare 0 (u.parameters.getD []).length)
  | app c ps, u =>
    if !u.isDatatype then .lt
    else (compare (app c ps).typeSym u.typeSym).then
      ((compare ps.length (u.parameters.getD []).length).then
        (nameCmps ps (u.parameters.getD [])))
  | _, u => if u.isDatatype then .gt else .eq

/-- `name_cmp` along two parameter lists. -/
def nameCmps : List Ty → List Ty → Ordering
  | p :: ps, q :: qs => (nameCmp p q).then (nameCmps ps qs)
  | _, _ => .eq

end

/-- `type_cmp`: `DataType`s before the rest, singletons before bits types
before the others, ties broken by `name_cmp`. -/
def typeCmp (a b : Ty) : Ordering :=
  if a.isDatatype ≠ b.isDatatype then compare b.isDatatype a.isDatatype
  else if !a.isDatatype then nameCmp a.unwrapUnionall b.unwrapUnionall
  else if a.isDatatypeSingleton ≠ b.isDatatypeSingleton then
    compare b.isDatatypeSingleton a.isDatatypeSingleton
  else if !a.isDatatypeSingleton && a.isBits ≠ b.isBits then
    compare b.isBits a.isBits
  else nameCmp a b

/-- `flatten_union`: the arms of a union, in order. -/
def flattenUnion : Ty → List Ty
  | union _ a b => flattenUnion a ++ flattenUnion b
  | t => [t]

end Ty

end Ruju
