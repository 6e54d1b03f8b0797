import Ruju.Subtype.Alpha
import Ruju.Subtype.Unions

/-!
# The diagonal rule

`Tuple{T, …, T} where T` asks for a tuple whose elements have one concrete type.  The
algorithm gathers the element types into the lower bound of `T`, counts the occurrences,
and at the exit of the `where` asks `is_leaf_bound` of what it has gathered.

The gathering is a loop of its own (`VarBinding.absorbed`), and the query is this loop
with the check behind it (`issubtype_diagonal`), so it returns exactly when the loop does.
Elements of one type leave that type as the bound.  Two types are compared with each other;
they leave the larger one, or their union when neither is above the other, which is never a
leaf.

`is_leaf_bound` also asks the parameters of a type for concreteness.  A value may have a
type such as `Array{Any}` that does not pass it, and there the rule refuses equal element
types.
-/

namespace Ruju

/-! ### Types of values -/

namespace Ty

/-- `Tuple{T, …, T} where T`, with `n` occurrences. -/
def diagonal (i v : Nat) (name : String) (n : Nat) : Ty :=
  .unionall i v name bottom any (.app .tuple (List.replicate n (.tvar v name bottom any)))

/-- The type of a value: a `DataType` that is not abstract.  It is no `Type{T}`: the type
of a type is `DataType`, `Union` or `UnionAll`. -/
def isRuntime : Ty → Bool
  | nominal n => !n.isAbstract
  | app c _ => decide (c ≠ .type)
  | _ => false

variable {a b : Ty}

theorem isTypevar_of_isRuntime (h : a.isRuntime) : a.isTypevar = false := by
  cases a <;> first | rfl | cases h

theorem isUnion_of_isRuntime (h : a.isRuntime) : a.isUnion = false := by
  cases a <;> first | rfl | cases h

theorem isVararg_of_isRuntime (h : a.isRuntime) : a.isVararg = false := by
  cases a <;> first | rfl | cases h

theorem isBoxedLong_of_isRuntime (h : a.isRuntime) : a.isBoxedLong = false := by
  cases a <;> first | rfl | cases h

theorem ne_bottom_of_isRuntime (h : a.isRuntime) : a ≠ bottom := by
  rintro rfl
  cases h

theorem ne_any_of_isRuntime (h : a.isRuntime) : a ≠ any := by
  rintro rfl
  cases h

theorem widenTypeIfConcrete_of_isRuntime (h : a.isRuntime) : a.widenTypeIfConcrete = a := by
  cases a with
  | nominal n => rfl
  | app c ps => cases c <;> first | rfl | cases h
  | _ => cases h

theorem varargKind_of_isRuntime (h : a.isRuntime) : a.varargKind = .none := by
  cases a <;> first | rfl | cases h

theorem varargNum_of_isRuntime (h : a.isRuntime) : a.varargNum = none := by
  cases a <;> first | rfl | cases h

end Ty

/-! ### Gathering a lower bound -/

section Absorb

variable (issubtype : Ty → Ty → AllocM Bool)

/-- The lower bound after `var_gt`. -/
def absorb (lb a : Ty) : AllocM Ty := if lb = a then pure lb else simpleJoin issubtype lb a

/-- A binding after a covariant comparison with each of the types. -/
def VarBinding.absorbed (b : VarBinding) : List Ty → AllocM VarBinding
  | [] => pure b
  | a :: as => do
    let t ← absorb issubtype b.lb a
    VarBinding.absorbed { b.occur false 0 with lb := t } as

end Absorb

/-- A binding that takes any lower bound. -/
structure VarBinding.Open (b : VarBinding) : Prop where
  existential : b.existential = true
  ub : b.ub = Ty.any

/-- An environment with one binding, at offset zero. -/
structure Env.Single (e : Env) (b : VarBinding) : Prop where
  vars : e.vars = [b]
  loffset : e.loffset = 0

variable {k : Knot} {e : Env} {b : VarBinding} {a : Ty}

theorem Env.Single.lookup (h : e.Single b) : e.lookup b.var = some 0 := by
  simp [Env.lookup, h.vars, List.findIdx_cons]

theorem VarBinding.Open.occur (hb : b.Open) (d : Nat) : (b.occur false d).Open :=
  ⟨hb.existential, hb.ub⟩

theorem recordOccurrence_single (he : e.Single b) :
    recordOccurrence 0 .covariant e = some ((), { e with vars := [b.occur false 0] }) := by
  simp [recordOccurrence, SubM.modifyBinding, he.vars, VarBinding.occur, bind, StateT.bind, get,
    getThe, MonadStateOf.get, StateT.get, pure]

theorem binding_single (he : e.Single b) : SubM.binding 0 e = some (b, e) := by
  simp [SubM.binding, he.vars]

/-- Everything is below `Any`. -/
theorem ccheck_any (k : Knot) (ha : a.isRuntime) (e : Env) :
    ccheck k a Ty.any e = some (true, e) := by
  have hany : a ≠ Ty.any := Ty.ne_any_of_isRuntime ha
  simp [ccheck, Ty.isBoxedLong_of_isRuntime ha, hany, bind, StateT.bind, get, getThe,
    MonadStateOf.get, StateT.get, pure]
  rfl

theorem SubM.bind_none {α β : Type} {m : SubM α} {f : α → SubM β} {e : Env}
    (h : m e = none) : (m >>= f) e = none := by
  simp only [bind, StateT.bind, h, Option.bind]

/-- The comparison of a type with the variable joins it to the lower bound. -/
theorem varGt_absorbs (ha : a.isRuntime) (hb : b.Open) (he : e.Single b) :
    varGt k a 0 .covariant e = (absorb k.issubtype b.lb a e.next).map fun r =>
      (true, { e with vars := [{ b.occur false 0 with lb := r.1 }], next := r.2 }) := by
  have he' : Env.Single { e with vars := [b.occur false 0] } (b.occur false 0) :=
    ⟨rfl, he.loffset⟩
  have hoff : offsetBlocks { e with vars := [b.occur false 0] } a = false := by
    simp [offsetBlocks, he.loffset]
  have hlb : (b.occur false 0).lb = b.lb := rfl
  rw [varGt, SubM.bind_some (recordOccurrence_single he)]
  show ((if offsetBlocks { e with vars := [b.occur false 0] } a = true then _ else _ :
    SubM Bool) _) = _
  rw [hoff, if_neg Bool.false_ne_true, SubM.bind_some (binding_single he'),
    (hb.occur 0).existential, (hb.occur 0).ub, hlb]
  unfold absorb
  by_cases hsame : b.lb = a
  · subst hsame
    rw [if_neg (by simp), if_pos rfl, if_pos rfl]
    rfl
  · simp only [Bool.not_true, Bool.false_eq_true, if_false, hsame]
    rw [SubM.bind_some (ccheck_any k ha _), if_pos rfl, SubM.bind_some (binding_single he'), hlb]
    cases h : simpleJoin k.issubtype b.lb a e.next with
    | none =>
      rw [SubM.bind_none (by simp [SubM.alloc, h])]
      rfl
    | some r =>
      have hjoin : SubM.alloc (simpleJoin k.issubtype b.lb a) { e with vars := [b.occur false 0] } =
          some (r.1, { e with vars := [b.occur false 0], next := r.2 }) := by
        simp [SubM.alloc, h]
      rw [SubM.bind_some hjoin]
      simp [SubM.setLb, SubM.modifyBinding, bind, StateT.bind, pure]
      rfl

/-- `sub` against the variable joins the left side to its lower bound. -/
theorem subStep_absorbs {v : Nat} {name : String} {lb ub : Ty} (hvar : b.var = .tvar v name lb ub)
    (ha : a.isRuntime) (hb : b.Open) (he : e.Single b) :
    subStep k a (.tvar v name lb ub) .covariant e =
      (absorb k.issubtype b.lb a e.next).map fun r =>
        (true, { e with vars := [{ b.occur false 0 with lb := r.1 }], next := r.2 }) := by
  have hne : a ≠ .tvar v name lb ub := by
    rintro rfl
    cases ha
  have hlookup := he.lookup
  rw [hvar] at hlookup
  have hu : (Ty.tvar v name lb ub).isUnion = false := rfl
  have ht : (Ty.tvar v name lb ub).isTypevar = true := rfl
  have hsub : subStep k a (.tvar v name lb ub) .covariant e =
      subtypeVar k (.tvar v name lb ub) a true .covariant e := by
    simp [subStep, subRight, subMeet, subVars, hne, Ty.isUnion_of_isRuntime ha,
      Ty.isTypevar_of_isRuntime ha, bind, StateT.bind, get, getThe, MonadStateOf.get, StateT.get,
      hu, ht]
  rw [hsub, subtypeVar]
  show ((if (decide (e.loffset ≠ 0) && a.isBoxedLong) = true then _ else _ : SubM Bool) e) = _
  rw [Ty.isBoxedLong_of_isRuntime ha, Bool.and_false, if_neg Bool.false_ne_true, subtypeVarAt,
    SubM.bind_some (m := get) rfl, hlookup]
  exact varGt_absorbs ha hb he

/-! ### The elements of the tuple -/

theorem absorbed_cons {issubtype : Ty → Ty → AllocM Bool} {as : List Ty} {n : Nat} :
    b.absorbed issubtype (a :: as) n = (absorb issubtype b.lb a n).bind fun r =>
      VarBinding.absorbed issubtype { b.occur false 0 with lb := r.1 } as r.2 :=
  rfl

section Elements

variable {v : Nat} {name : String} {lb ub : Ty} {k' : Knot} (hk : k'.sub = subStep k)
include hk

theorem tupleTail_absorbs (lx ly : Nat) {as : List Ty} (has : ∀ a ∈ as, a.isRuntime) {fuel : Nat}
    (hfuel : as.length < fuel) {b : VarBinding} {e : Env}
    (hvar : b.var = .tvar v name lb ub) (hb : b.Open) (he : e.Single b) :
    tupleTail k' lx ly .covariant fuel as (List.replicate as.length (.tvar v name lb ub)) 0 0 e =
      (b.absorbed k.issubtype as e.next).map fun r =>
        (true, { e with vars := [r.1], next := r.2 }) := by
  induction as generalizing fuel b e with
  | nil =>
    obtain ⟨fuel, rfl⟩ : ∃ m, fuel = m + 1 := ⟨fuel - 1, by simp at hfuel; omega⟩
    obtain ⟨hvars, -⟩ := he
    cases e
    cases hvars
    rfl
  | cons a as ih =>
    obtain ⟨fuel, rfl⟩ : ∃ m, fuel = m + 1 := ⟨fuel - 1, by simp at hfuel; omega⟩
    have hleft : bumpVararg (a :: as) 0 = 0 :=
      bumpVararg_zero fun c hc => Ty.isVararg_of_isRuntime (has c hc)
    have hright : bumpVararg (.tvar v name lb ub :: List.replicate as.length (.tvar v name lb ub)) 0
        = 0 :=
      bumpVararg_zero fun c hc => by
        rw [← List.replicate_succ] at hc
        rw [List.eq_of_mem_replicate hc]
        rfl
    have ha := has a List.mem_cons_self
    have hstep := subStep_absorbs (k := k) hvar ha hb he
    show tupleTail k' lx ly .covariant (fuel + 1) (a :: as)
      (.tvar v name lb ub :: List.replicate as.length (.tvar v name lb ub)) 0 0 e = _
    rw [tupleTail, hleft, hright, absorbed_cons]
    simp only [lt_irrefl, decide_false, Bool.false_and, Bool.and_false, Bool.false_eq_true,
      if_false, Nat.zero_ne_one, advanceParams_zero, headElem, hk, SubM.and]
    cases ht : absorb k.issubtype b.lb a e.next with
    | none =>
      rw [ht] at hstep
      rw [SubM.bind_none hstep]
      rfl
    | some r =>
      rw [ht] at hstep
      rw [SubM.bind_some hstep, if_pos rfl]
      exact ih (fun c hc => has c (List.mem_cons_of_mem _ hc)) (by simp at hfuel; omega) hvar
        ⟨hb.existential, hb.ub⟩ ⟨rfl, he.loffset⟩

theorem tupleSubtype_absorbs {as : List Ty} (has : ∀ a ∈ as, a.isRuntime) {b : VarBinding}
    {e : Env} (hvar : b.var = .tvar v name lb ub) (hb : b.Open) (he : e.Single b) (hne : as ≠ []) :
    tupleSubtype k' as (List.replicate as.length (.tvar v name lb ub)) .covariant e =
      (b.absorbed k.issubtype as e.next).map fun r =>
        (true, { e with vars := [r.1], next := r.2 }) := by
  have hlast : ∀ p, as.getLast? = some p → p.isRuntime := fun p hp =>
    has p (List.mem_of_getLast? hp)
  have hkind : tailKind as = .none := by
    unfold tailKind
    split
    · exact Ty.varargKind_of_isRuntime (hlast _ (by assumption))
    · rfl
  have hkind' : tailKind (List.replicate as.length (Ty.tvar v name lb ub)) = .none := by
    unfold tailKind
    split
    case h_1 p hp =>
      rw [List.eq_of_mem_replicate (List.mem_of_getLast? hp)]
      rfl
    case h_2 => rfl
  have hknown : knownLength e as = as.length := by
    unfold knownLength
    cases hp : as.getLast? with
    | none => exact absurd (List.getLast?_eq_none_iff.mp hp) hne
    | some p => simp [Ty.varargNum_of_isRuntime (hlast p hp)]
  have hlengths : tupleLengths k' as (List.replicate as.length (.tvar v name lb ub)) e =
      some (true, e) := by
    simp [tupleLengths, hkind, hkind', hknown, bind, StateT.bind, get, getThe, MonadStateOf.get,
      StateT.get, pure]
    rfl
  have hempty : (as.isEmpty && (List.replicate as.length (Ty.tvar v name lb ub)).isEmpty) =
      false := by
    simp [hne]
  rw [tupleSubtype, hempty, if_neg Bool.false_ne_true, SubM.and, SubM.bind_some hlengths,
    if_pos rfl, List.length_replicate]
  exact tupleTail_absorbs hk _ _ has (by omega) hvar hb he

end Elements

theorem subStep_tuple {as qs : List Ty} (hne : as ≠ qs) (e : Env) :
    subStep k (.app .tuple as) (.app .tuple qs) .none e = tupleSubtype k as qs .covariant e := by
  simp [subStep, subRight, subMeet, subVars, subGround, subValues, datatypeSubtype, walkToName, hne,
    Ty.isUnion, Ty.isTypevar, Ty.isUnionall, Ty.isBoxedLong, Ty.typeParam, Ty.nameOf, Ty.supers,
    Ty.isTuple, Ty.parameters, Ty.any, Ty.bottom, Ty.builtin, bind, StateT.bind, get, getThe,
    MonadStateOf.get, StateT.get]

/-! ### The exit of the `where` -/

/-- The binding of the variable at the entry of the `where`. -/
def VarBinding.initial (v : Nat) (name : String) (d : Nat) : VarBinding :=
  { var := .tvar v name Ty.bottom Ty.any, lb := Ty.bottom, ub := Ty.any, existential := true,
    bodyOccursInv := false, depth0 := d }

/-- What the gathering leaves of the binding of a variable that occurs twice. -/
structure VarBinding.Gathered (b : VarBinding) : Prop where
  ub : b.ub = Ty.any
  occursInv : b.occursInv = 0
  bodyOccursInv : b.bodyOccursInv = false
  concrete : b.concrete = false
  occursCov : b.occursCov = 2

theorem absorbed_keeps {issubtype : Ty → Ty → AllocM Bool} {as : List Ty} {b : VarBinding}
    {n : Nat} {r : VarBinding × Nat} (h : b.absorbed issubtype as n = some r)
    (hub : b.ub = Ty.any) (hinv : b.occursInv = 0) (hbody : b.bodyOccursInv = false)
    (hconc : b.concrete = false) (hcov : b.occursCov ≤ 2) (hlen : 2 ≤ b.occursCov + as.length) :
    r.1.Gathered := by
  induction as generalizing b n with
  | nil =>
    cases h
    exact ⟨hub, hinv, hbody, hconc, Nat.le_antisymm hcov hlen⟩
  | cons a as ih =>
    rw [absorbed_cons, Option.bind_eq_some_iff] at h
    obtain ⟨q, -, hrest⟩ := h
    have hone : (b.occur false 0).occursCov = min (b.occursCov + 1) 2 := rfl
    refine ih hrest hub hinv hbody hconc ?_ ?_
    · simp [hone]
    · simp only [hone, List.length_cons] at hlen ⊢
      omega

theorem gathered_of_absorbed {issubtype : Ty → Ty → AllocM Bool} {as : List Ty} {v d n : Nat}
    {name : String} (hlen : 2 ≤ as.length) {r : VarBinding × Nat}
    (h : (VarBinding.initial v name d).absorbed issubtype as n = some r) : r.1.Gathered :=
  absorbed_keeps h rfl rfl rfl rfl (Nat.zero_le _) (by simpa [VarBinding.initial] using hlen)

theorem varOccursInvariant_diagonal (v : Nat) (name : String) (n : Nat) :
    Ty.varOccursInvariant (.tvar v name Ty.bottom Ty.any) false
      (.app .tuple (List.replicate n (.tvar v name Ty.bottom Ty.any))) = false := by
  have helems : ∀ n, Ty.varsOccurInvariant (.tvar v name Ty.bottom Ty.any) false
      (List.replicate n (.tvar v name Ty.bottom Ty.any)) = false := by
    intro n
    induction n with
    | zero => rfl
    | succ n ih => simp [List.replicate_succ, Ty.varsOccurInvariant, Ty.varOccursInvariant, ih]
  simp [Ty.varOccursInvariant, helems]

/-- The exit check is `is_leaf_bound` of what was gathered. -/
theorem diagonalCheck_of_gathered {v : Nat} {name : String} (hb : b.Gathered)
    (hlb : b.lb.isTypevar = false) :
    diagonalCheck b (.tvar v name Ty.bottom Ty.any) = pure b.lb.isLeafBound := by
  have hleaf : (Ty.tvar v name Ty.bottom Ty.any).isLeafTypevar = true := rfl
  have hdiag : b.isDiagonal = true := by
    simp [VarBinding.isDiagonal, hb.bodyOccursInv, hb.occursCov]
  simp [diagonalCheck, hb.concrete, hdiag, hleaf, hlb]

section Exit

variable {t : Ty} {i v n : Nat} {name : String} {o : Option (VarBinding × Nat)}

/-- The body under the binding, given what the comparison with it gathers. -/
theorem unionallBody_diagonal (ho : ∀ r ∈ o, r.1.Gathered)
    (h : k.sub t (.app .tuple (List.replicate n (.tvar v name Ty.bottom Ty.any))) .none
        { e with vars := [.initial v name e.invdepth], envidx := e.envidx + 1 } =
      o.map fun r => (true, { e with vars := [r.1], envidx := e.envidx + 1, next := r.2 })) :
    unionallBody k t (.app .tuple (List.replicate n (.tvar v name Ty.bottom Ty.any))) 0 true .none
        { e with vars := [.initial v name e.invdepth] } =
      o.map fun r =>
        (true, { e with
          vars := [{ r.1 with lb := r.1.lb.widenTypeIfConcrete }], next := r.2 }) := by
  rw [unionallBody, if_pos rfl, SubM.modify_bind]
  show (k.sub t _ .none >>= _)
    { e with vars := [.initial v name e.invdepth], envidx := e.envidx + 1 } = _
  cases o with
  | none =>
    rw [SubM.bind_none h]
    rfl
  | some r =>
    have hinv := (ho r rfl).occursInv
    rw [SubM.bind_some h, SubM.modify_bind]
    simp [SubM.binding, SubM.when, hinv, SubM.setLb, SubM.modifyBinding, bind, StateT.bind, pure]
    rfl

theorem subtypeUnionall_diagonal (he : e.Bare) (ho : ∀ r ∈ o, r.1.Gathered)
    (hlb : ∀ r ∈ o, r.1.lb.widenTypeIfConcrete.isTypevar = false)
    (h : k.sub t (.app .tuple (List.replicate n (.tvar v name Ty.bottom Ty.any))) .none
        { e with vars := [.initial v name e.invdepth], envidx := e.envidx + 1 } =
      o.map fun r => (true, { e with vars := [r.1], envidx := e.envidx + 1, next := r.2 })) :
    subtypeUnionall k t (.diagonal i v name n) true .none e =
      o.map fun r => (r.1.lb.widenTypeIfConcrete.isLeafBound, { e with next := r.2 }) := by
  have hpush : SubM.pushBinding (.initial v name e.invdepth) e =
      some ((), { e with vars := [.initial v name e.invdepth] }) := by
    show some ((), { e with vars := e.vars ++ [VarBinding.initial v name e.invdepth] }) = _
    rw [he.vars]
    rfl
  have hbody := unionallBody_diagonal ho h
  have hget : (get : SubM Env) e = some (e, e) := rfl
  have hlen : e.vars.length = 0 := by rw [he.vars]; rfl
  rw [Ty.diagonal, subtypeUnionall, SubM.bind_some hget, hlen, varOccursInvariant_diagonal]
  show (SubM.pushBinding (.initial v name e.invdepth) >>= _) e = _
  rw [SubM.bind_some hpush]
  cases o with
  | none =>
    rw [SubM.bind_none hbody]
    rfl
  | some r =>
    obtain ⟨b, m⟩ := r
    have hb : b.Gathered := ho (b, m) rfl
    replace hbody : unionallBody k t _ 0 true .none _ =
      some (true, { e with vars := [{ b with lb := b.lb.widenTypeIfConcrete }], next := m }) :=
        hbody
    -- the binding at the exit, and the environment that holds it
    generalize hvb : ({ b with lb := b.lb.widenTypeIfConcrete } : VarBinding) = vb at hbody
    have hgathered : vb.Gathered := by
      subst hvb
      exact ⟨hb.ub, hb.occursInv, hb.bodyOccursInv, hb.concrete, hb.occursCov⟩
    have hleaf : b.lb.widenTypeIfConcrete = vb.lb := by rw [← hvb]
    have hcheck : diagonalCheck vb (.tvar v name Ty.bottom Ty.any) = pure vb.lb.isLeafBound :=
      diagonalCheck_of_gathered hgathered (hleaf ▸ hlb (b, m) rfl)
    have hsingle : SubM.binding 0 { e with vars := [vb], next := m } =
        some (vb, { e with vars := [vb], next := m }) := rfl
    have hwiden : SubM.when vb.lb.isLeafBound (widenUb k 0) { e with vars := [vb], next := m } =
        some ((), { e with vars := [vb], next := m }) := by
      cases vb.lb.isLeafBound
      · rfl
      · simp [SubM.when, widenUb, SubM.binding, hgathered.ub, Ty.isIntersect, bind, StateT.bind,
          pure]
        rfl
    have hpop : SubM.popBinding { e with vars := [vb], next := m } =
        some ((), { e with next := m }) := by
      show some ((), { e with vars := [], next := m }) = _
      rw [← he.vars]
    have hget' : (get : SubM Env) { e with next := m } =
        some ({ e with next := m }, { e with next := m }) := rfl
    rw [SubM.bind_some hbody, SubM.bind_some hsingle, exitCheck, if_pos rfl, hcheck, pure_bind,
      SubM.bind_some hwiden, SubM.bind_some hsingle, SubM.bind_some hpop, SubM.bind_some hget',
      he.envout, Option.map_some, hleaf]
    cases vb.lb.isLeafBound <;> rfl

end Exit

/-! ### The query -/

/-- A query whose call makes no decision is that call. -/
theorem issubtypeStep_of_sub {x y : Ty} {n : Nat} {o : Option (Bool × Nat)} (hp : 0 < k.passes)
    (h : k.sub x y .none { next := n } = o.map fun r => (r.1, { next := r.2 })) :
    issubtypeStep k x y n = o := by
  obtain ⟨p, hp⟩ : ∃ p, k.passes = p + 1 := ⟨k.passes - 1, by omega⟩
  have hexists : existsSubtype k x y { vars := [], rdepth := 0 } .none { next := n } =
      o.map fun r => (r.1, { next := r.2 }) := by
    rw [existsSubtype, hp, existsLoop, SubM.modify_bind, SubM.modify_bind]
    show (k.sub x y .none >>= _) { next := n } = _
    cases o with
    | none => exact SubM.bind_none h
    | some r =>
      rw [SubM.bind_some h]
      obtain ⟨b, m⟩ := r
      cases b <;> rfl
  have hloop : forallExistsSubtype k x y .none { next := n } =
      o.map fun r => (r.1, { next := r.2 }) := by
    rw [forallExistsSubtype, hp]
    show forallLoop k x y .none (p + 1) { vars := [], rdepth := 0 } { next := n } = _
    rw [forallLoop]
    cases o with
    | none => exact SubM.bind_none hexists
    | some r =>
      rw [SubM.bind_some hexists]
      obtain ⟨b, m⟩ := r
      cases b <;> rfl
  rw [issubtypeStep, hloop]
  cases o <;> rfl
section Query

theorem subStep_diagonal (i v : Nat) (name : String) (n : Nat) (as : List Ty) (e : Env) :
    subStep k (.app .tuple as) (.diagonal i v name n) .none e =
      subtypeUnionall k (.app .tuple as) (.diagonal i v name n) true .none e := by
  simp [subStep, subRight, subMeet, subVars, subGround, Ty.diagonal, Ty.isUnion, Ty.isTypevar,
    Ty.isUnionall, Ty.any, Ty.bottom, Ty.builtin, bind, StateT.bind, get, getThe,
    MonadStateOf.get, StateT.get]

/-- **The query is the gathering with a check behind it**: it returns when the gathering
does, and answers whether what is gathered is a leaf. -/
theorem issubtype_diagonal (fuel i v next : Nat) (name : String) {as : List Ty}
    (has : ∀ a ∈ as, a.isRuntime) (hlen : 2 ≤ as.length)
    (hlb : ∀ r ∈ (VarBinding.initial v name 0).absorbed (engine fuel).issubtype as next,
      r.1.lb.widenTypeIfConcrete.isTypevar = false) :
    (engine (fuel + 4)).issubtype (.app .tuple as) (.diagonal i v name as.length) next =
      ((VarBinding.initial v name 0).absorbed (engine fuel).issubtype as next).map fun r =>
        (r.1.lb.widenTypeIfConcrete.isLeafBound, r.2) := by
  have hne : as ≠ [] := by
    rintro rfl
    cases hlen
  have hdistinct : as ≠ List.replicate as.length (.tvar v name Ty.bottom Ty.any) := by
    intro heq
    obtain ⟨a, ha⟩ := List.exists_mem_of_ne_nil as hne
    have hrun := has a ha
    rw [heq] at ha
    rw [List.eq_of_mem_replicate ha] at hrun
    cases hrun
  have hsub : (engine (fuel + 2)).sub (.app .tuple as)
      (.app .tuple (List.replicate as.length (.tvar v name Ty.bottom Ty.any))) .none
        { vars := [.initial v name 0], envidx := 0 + 1, next } =
      ((VarBinding.initial v name 0).absorbed (engine fuel).issubtype as next).map fun r =>
        (true, { vars := [r.1], envidx := 0 + 1, next := r.2 }) := by
    show subStep (engine (fuel + 1)) _ _ .none _ = _
    rw [subStep_tuple hdistinct]
    exact tupleSubtype_absorbs (k := engine fuel) rfl has rfl ⟨rfl, rfl⟩ ⟨rfl, rfl⟩ hne
  have hwhere := subtypeUnionall_diagonal (e := { next }) (i := i) ⟨rfl, rfl, rfl⟩
    (fun r hr => gathered_of_absorbed hlen hr) hlb hsub
  refine issubtypeStep_of_sub (Nat.succ_pos _) ?_
  rw [Option.map_map]
  exact (subStep_diagonal i v name as.length as _).trans hwhere

end Query

/-! ### Equal elements -/

theorem absorb_bottom (issubtype : Ty → Ty → AllocM Bool) (ha : a.isRuntime) (n : Nat) :
    absorb issubtype Ty.bottom a n = some (a, n) := by
  rw [absorb, if_neg (Ty.ne_bottom_of_isRuntime ha).symm, simpleJoin, if_pos (Or.inl rfl)]
  rfl

theorem absorb_self (issubtype : Ty → Ty → AllocM Bool) (a : Ty) (n : Nat) :
    absorb issubtype a a n = some (a, n) := by
  rw [absorb, if_pos rfl]
  rfl

theorem absorbed_replicate (issubtype : Ty → Ty → AllocM Bool) (hlb : b.lb = a) (m n : Nat) :
    ∃ b', b.absorbed issubtype (List.replicate m a) n = some (b', n) ∧ b'.lb = a := by
  induction m generalizing b with
  | zero => exact ⟨b, rfl, hlb⟩
  | succ m ih =>
    rw [List.replicate_succ, absorbed_cons, hlb, absorb_self]
    exact ih rfl

/-- Elements of one type are accepted iff the type is a leaf. -/
theorem issubtype_diagonal_replicate (fuel i v : Nat) (name : String) (ha : a.isRuntime) {m : Nat}
    (hm : 2 ≤ m) (next : Nat) :
    (engine (fuel + 4)).issubtype (.app .tuple (List.replicate m a)) (.diagonal i v name m) next =
      some (a.isLeafBound, next) := by
  have hgather : ∃ b', (VarBinding.initial v name 0).absorbed (engine fuel).issubtype
      (List.replicate m a) next = some (b', next) ∧ b'.lb = a := by
    obtain ⟨m, rfl⟩ : ∃ m', m = m' + 1 := ⟨m - 1, by omega⟩
    have hfirst : absorb (engine fuel).issubtype (VarBinding.initial v name 0).lb a next =
        some (a, next) := absorb_bottom _ ha next
    rw [List.replicate_succ, absorbed_cons, hfirst]
    exact absorbed_replicate _ rfl m next
  obtain ⟨b', hrun, hlb⟩ := hgather
  have hwiden := Ty.widenTypeIfConcrete_of_isRuntime ha
  have has : ∀ c ∈ List.replicate m a, c.isRuntime := fun c hc => by
    rwa [List.eq_of_mem_replicate hc]
  have hlen : 2 ≤ (List.replicate m a).length := by simpa using hm
  have hdiag := issubtype_diagonal fuel i v next name has hlen fun r hr => by
    rw [hrun] at hr
    cases hr
    rw [hlb, hwiden]
    exact Ty.isTypevar_of_isRuntime ha
  rw [hrun, List.length_replicate, Option.map_some, hlb, hwiden] at hdiag
  exact hdiag

/-! ### Two types -/

theorem eq_of_arms_eq_singleton {t : Ty} (h : t.arms = [a]) : t = a := by
  cases hu : t.isUnion with
  | false =>
    rw [Ty.arms_of_not_union hu] at h
    exact List.head_eq_of_cons_eq h
  | true =>
    cases t <;> try cases hu
    rename_i i x y
    obtain ⟨c, hc⟩ := x.exists_mem_arms
    obtain ⟨d, hd⟩ := y.exists_mem_arms
    have hlen := congrArg List.length h
    have hx := List.length_pos_of_mem hc
    have hy := List.length_pos_of_mem hd
    simp only [Ty.arms, List.length_append, List.length_singleton] at hlen
    omega

theorem eq_of_members_eq_singleton {t : Ty} (h : t.members = [a]) : t = a := by
  unfold Ty.members at h
  split at h
  · cases h
  · exact eq_of_arms_eq_singleton h

theorem exists_union_of_arms_eq_pair {t c d : Ty} (h : t.arms = [c, d]) :
    ∃ i, t = .union i c d := by
  cases hu : t.isUnion with
  | false =>
    rw [Ty.arms_of_not_union hu] at h
    cases h
  | true =>
    cases t <;> try cases hu
    rename_i i x y
    obtain ⟨c', hc⟩ := x.exists_mem_arms
    obtain ⟨d', hd⟩ := y.exists_mem_arms
    have hx := List.length_pos_of_mem hc
    have hy := List.length_pos_of_mem hd
    have hlen := congrArg List.length h
    simp only [Ty.arms, List.length_append, List.length_cons, List.length_nil] at hlen h
    have hx1 : x.arms.length = 1 := by omega
    obtain ⟨p, hp⟩ := List.length_eq_one_iff.mp hx1
    rw [hp] at h
    obtain ⟨rfl, hy⟩ := List.cons.inj h
    exact ⟨i, by rw [eq_of_arms_eq_singleton hp, eq_of_arms_eq_singleton hy]⟩

/-- The normal form of two parts. -/
theorem maximal_pair {le : Ty → Ty → Bool} {c d : Ty} (hc : c ≠ Ty.bottom) (hd : d ≠ Ty.bottom) :
    maximal le (· = Ty.bottom) [] [c, d] =
      if le d c then [c] else if le c d then [d] else [c, d] := by
  cases hdc : le d c <;> cases hcd : le c d <;>
    simp [maximal, isBelow, hc, hd, hdc, hcd]

/-- Is what the variable gathers from two types a leaf?  It is the larger one, and the
first of two that are below each other. -/
def leafOfTwo (a c : Ty) (below above : Bool) : Bool :=
  if above then a.isLeafBound else below && c.isLeafBound

section Two

variable {issubtype : Ty → Ty → AllocM Bool} {c : Ty} (ha : a.isRuntime) (hc : c.isRuntime)
  (hne : a ≠ c)
include ha hc hne

theorem widen_pair (i : Nat) : (Ty.union i a c).widenTypeIfConcrete = .union i a c := by
  rw [Ty.widenTypeIfConcrete, Ty.widenTypeIfConcrete_of_isRuntime ha,
    Ty.widenTypeIfConcrete_of_isRuntime hc, if_neg hne]

theorem simpleJoin_eq_unionOf : simpleJoin issubtype a c = unionOf issubtype [a, c] := by
  simp [simpleJoin, Ty.ne_bottom_of_isRuntime ha, Ty.ne_bottom_of_isRuntime hc, hne,
    Ty.ne_any_of_isRuntime ha, Ty.ne_any_of_isRuntime hc]

omit hne in
theorem flatMap_arms_pair : [a, c].flatMap Ty.arms = [a, c] := by
  refine flatMap_arms_of_not_unions fun d hd => ?_
  rcases List.mem_pair.mp hd with rfl | rfl
  · exact Ty.isUnion_of_isRuntime ha
  · exact Ty.isUnion_of_isRuntime hc

/-- What the join is, given the answers of its queries. -/
theorem simpleJoin_run {low : Nat} {le : Ty → Ty → Bool} (hrefl : ∀ d ∈ [a, c], le d d)
    (h : Answers issubtype low le [a, c]) {n : Nat} (hn : low ≤ n) :
    ∃ t n', simpleJoin issubtype a c n = some (t, n') ∧ t.widenTypeIfConcrete = t ∧
      t.isTypevar = false ∧ t.isLeafBound = leafOfTwo a c (le a c) (le c a) := by
  have hparts := flatMap_arms_pair ha hc
  obtain ⟨t, n', hrun, hmem⟩ := unionOf_run (by rwa [hparts]) (by rwa [hparts]) hn
  refine ⟨t, n', by rw [simpleJoin_eq_unionOf ha hc hne, hrun], ?_⟩
  rw [normalForm, hparts,
    maximal_pair (Ty.ne_bottom_of_isRuntime ha) (Ty.ne_bottom_of_isRuntime hc)] at hmem
  unfold leafOfTwo
  by_cases hca : le c a = true
  · rw [if_pos hca] at hmem ⊢
    obtain rfl := eq_of_members_eq_singleton hmem
    exact ⟨Ty.widenTypeIfConcrete_of_isRuntime ha, Ty.isTypevar_of_isRuntime ha, rfl⟩
  · rw [if_neg hca] at hmem ⊢
    by_cases hac : le a c = true
    · rw [if_pos hac] at hmem
      rw [hac, Bool.true_and]
      obtain rfl := eq_of_members_eq_singleton hmem
      exact ⟨Ty.widenTypeIfConcrete_of_isRuntime hc, Ty.isTypevar_of_isRuntime hc, rfl⟩
    · rw [if_neg hac] at hmem
      rw [Bool.eq_false_of_not_eq_true hac, Bool.false_and]
      -- neither is above the other: the members are the two types, in some order
      have hcases : t.members = [a, c] ∨ t.members = [c, a] := by
        rw [hmem]
        simp only [List.insertionSort, List.foldr_cons, List.foldr_nil, List.orderedInsert]
        split
        · exact Or.inl rfl
        · exact Or.inr rfl
      have hnb : t ≠ Ty.bottom := by
        rintro rfl
        rcases hcases with h | h <;> cases h
      rw [Ty.members, if_neg hnb] at hcases
      rcases hcases with h | h
      · obtain ⟨i, rfl⟩ := exists_union_of_arms_eq_pair h
        exact ⟨widen_pair ha hc hne i, rfl, rfl⟩
      · obtain ⟨i, rfl⟩ := exists_union_of_arms_eq_pair h
        exact ⟨widen_pair hc ha hne.symm i, rfl, rfl⟩

/-- The join asks for both directions. -/
theorem simpleJoin_none {n : Nat} (h : issubtype a c n = none ∨
      ∃ r n', issubtype a c n = some (r, n') ∧ issubtype c a n' = none) :
    simpleJoin issubtype a c n = none := by
  have hpure : ∀ (r : Bool) m, (pure r : AllocM Bool) m = some (r, m) := fun _ _ => rfl
  have hnone : survivors issubtype [] [a, c] n = none := by
    rcases h with h | ⟨r, n', h, h'⟩
    · simp [survivors, subsumed, Ty.ne_bottom_of_isRuntime ha, bind, StateT.bind, h, hpure]
    · cases r <;>
        simp [survivors, subsumed, Ty.ne_bottom_of_isRuntime ha, Ty.ne_bottom_of_isRuntime hc,
          bind, StateT.bind, h, h', hpure]
  have hflat : [a, c].flatMap Ty.flattenUnion = [a, c] :=
    (List.flatMap_congr fun p _ => p.flattenUnion_eq_arms).trans (flatMap_arms_pair ha hc)
  rw [simpleJoin_eq_unionOf ha hc hne, unionOf, hflat]
  simp [bind, StateT.bind, hnone]

omit hc in
/-- Two types are gathered into their join. -/
theorem absorbed_two (n v : Nat) (name : String) :
    (VarBinding.initial v name 0).absorbed issubtype [a, c] n =
      (simpleJoin issubtype a c n).map fun r =>
        ({ ({ (VarBinding.initial v name 0).occur false 0 with lb := a } : VarBinding).occur
          false 0 with lb := r.1 }, r.2) := by
  have hfirst : absorb issubtype (VarBinding.initial v name 0).lb a n = some (a, n) :=
    absorb_bottom issubtype ha n
  have hsecond : absorb issubtype a c n = simpleJoin issubtype a c n := by
    rw [absorb, if_neg hne]
  rw [absorbed_cons, hfirst, Option.bind_some, absorbed_cons, hsecond]
  cases simpleJoin issubtype a c n <;> rfl

end Two

theorem issubtype_self (fuel n : Nat) (a : Ty) :
    (engine (fuel + 2)).issubtype a a n = some (true, n) := by
  refine issubtypeStep_of_sub (Nat.succ_pos _) ?_
  show subStep (engine fuel) a a .none { next := n } = _
  simp [subStep, bind, StateT.bind, get, getThe, MonadStateOf.get, StateT.get, pure]
  rfl

/-- The queries between two types, wherever they start to allocate. -/
theorem answers_pair {fuel next : Nat} {c : Ty} (hids : ∀ i ∈ a.ids ++ c.ids, i < next)
    (hne : a ≠ c) {below above : Bool} (hac : subtype fuel next a c = some below)
    (hca : subtype fuel next c a = some above) :
    Answers (engine fuel).issubtype next
      (fun x y => if x = y then true else if x = a then below else above) [a, c] := by
  have hkey : ∀ {x y : Ty} {r : Bool}, (∀ i ∈ x.ids, i < next) → (∀ i ∈ y.ids, i < next) →
      subtype fuel next x y = some r → ∀ n ≥ next, ∃ n' ≥ next,
        (engine fuel).issubtype x y n = some (r, n') := by
    intro x y r hx hy h n hn
    rw [← subtype_next fuel hn hx hy, subtype, Option.map_eq_some_iff] at h
    obtain ⟨⟨_, n'⟩, hrun, rfl⟩ := h
    exact ⟨n', le_trans hn (le_of_issubtype hrun), hrun⟩
  have hself : ∀ x : Ty, ∀ n ≥ next, ∃ n' ≥ next,
      (engine fuel).issubtype x x n = some (true, n') := by
    intro x n hn
    obtain ⟨f, rfl⟩ : ∃ f, fuel = f + 2 := by
      rcases fuel with - | - | f
      · cases hac
      · cases hac
      · exact ⟨f, rfl⟩
    exact ⟨n, hn, issubtype_self f n x⟩
  have ha : ∀ i ∈ a.ids, i < next := fun i hi => hids i (List.mem_append_left _ hi)
  have hc : ∀ i ∈ c.ids, i < next := fun i hi => hids i (List.mem_append_right _ hi)
  intro x hx y hy n hn
  rcases List.mem_pair.mp hx with rfl | rfl <;> rcases List.mem_pair.mp hy with rfl | rfl
  · simpa using hself _ n hn
  · simpa [hne] using hkey ha hc hac n hn
  · simpa [hne, hne.symm] using hkey hc ha hca n hn
  · simpa using hself _ n hn

theorem issubtype_diagonal_join (fuel i v next : Nat) (name : String) {c : Ty}
    (ha : a.isRuntime) (hc : c.isRuntime) (hne : a ≠ c)
    (hvar : ∀ r ∈ simpleJoin (engine fuel).issubtype a c next,
      r.1.widenTypeIfConcrete.isTypevar = false) :
    (engine (fuel + 4)).issubtype (.app .tuple [a, c]) (.diagonal i v name 2) next =
      (simpleJoin (engine fuel).issubtype a c next).map fun r =>
        (r.1.widenTypeIfConcrete.isLeafBound, r.2) := by
  have has : ∀ d ∈ [a, c], d.isRuntime := by simpa using ⟨ha, hc⟩
  have hquery := issubtype_diagonal fuel i v next name has le_rfl
  rw [absorbed_two ha hne, Option.map_map] at hquery
  refine hquery fun r hr => ?_
  obtain ⟨q, hq, rfl⟩ := Option.map_eq_some_iff.mp hr
  exact hvar q hq

/-- Two different types: the query asks for both directions, and answers whether the larger
type is a leaf. -/
theorem subtype_diagonal_two (fuel i v : Nat) (name : String) {next : Nat} {c : Ty}
    (ha : a.isRuntime) (hc : c.isRuntime) (hids : ∀ i ∈ a.ids ++ c.ids, i < next) (hne : a ≠ c) :
    subtype (fuel + 4) next (.app .tuple [a, c]) (.diagonal i v name 2) =
      (subtype fuel next a c).bind fun below =>
        (subtype fuel next c a).map (leafOfTwo a c below) := by
  have hquery := issubtype_diagonal_join fuel i v next name ha hc hne
  have hmap : subtype fuel next a c = ((engine fuel).issubtype a c next).map (·.1) := rfl
  cases hac : (engine fuel).issubtype a c next with
  | none =>
    rw [simpleJoin_none ha hc hne (Or.inl hac)] at hquery
    rw [hmap, hac, subtype, hquery (by simp)]
    rfl
  | some r =>
    obtain ⟨below, n'⟩ := r
    rw [hac] at hmap
    have hnext : subtype fuel next c a = ((engine fuel).issubtype c a n').map (·.1) :=
      (subtype_next fuel (le_of_issubtype hac)
        (fun i hi => hids i (List.mem_append_right _ hi))
        fun i hi => hids i (List.mem_append_left _ hi)).symm
    cases hca : (engine fuel).issubtype c a n' with
    | none =>
      rw [simpleJoin_none ha hc hne (Or.inr ⟨below, n', hac, hca⟩)] at hquery
      rw [hmap, hnext, hca, subtype, hquery (by simp)]
      rfl
    | some q =>
      rw [hca] at hnext
      obtain ⟨t, m, hjoin, hwiden, hvar, hleaf⟩ := simpleJoin_run ha hc hne
        (by simp) (answers_pair hids hne hmap hnext) le_rfl
      rw [hjoin] at hquery
      have hanswer := hquery fun r hr => by
        cases hr
        rw [hwiden]
        exact hvar
      rw [hmap, hnext, subtype, hanswer]
      simp only [Option.map_some, Option.bind_some, Option.some.injEq]
      rw [hwiden, hleaf]
      simp [hne, hne.symm]

theorem subtypeReturns_diagonal_two (i v : Nat) (name : String) {next : Nat} {c : Ty}
    (ha : a.isRuntime) (hc : c.isRuntime) (hids : ∀ i ∈ a.ids ++ c.ids, i < next) (hne : a ≠ c)
    {r : Bool} : SubtypeReturns next (.app .tuple [a, c]) (.diagonal i v name 2) r ↔
      ∃ below above, SubtypeReturns next a c below ∧ SubtypeReturns next c a above ∧
        leafOfTwo a c below above = r := by
  constructor
  · rintro ⟨fuel, h⟩
    have hmore := subtype_mono (Nat.le_add_right fuel 4) h
    rw [subtype_diagonal_two fuel i v name ha hc hids hne, Option.bind_eq_some_iff] at hmore
    obtain ⟨below, hac, hmore⟩ := hmore
    obtain ⟨above, hca, rfl⟩ := Option.map_eq_some_iff.mp hmore
    exact ⟨below, above, ⟨fuel, hac⟩, ⟨fuel, hca⟩, rfl⟩
  · rintro ⟨below, above, ⟨f, hac⟩, ⟨g, hca⟩, rfl⟩
    refine ⟨max f g + 4, ?_⟩
    rw [subtype_diagonal_two _ i v name ha hc hids hne, subtype_mono (le_max_left f g) hac,
      subtype_mono (le_max_right f g) hca]
    rfl

/-- `Array{Box{T} where T}`. -/
def Ty.arrayOfBoxes : Ty :=
  .app .array [.unionall 2 3 "T" bottom any (.app .box [.tvar 3 "T" bottom any])]

end Ruju
