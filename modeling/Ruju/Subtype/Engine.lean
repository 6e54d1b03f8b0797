import Ruju.Subtype.Bounds

/-!
# The subtype algorithm

`runtime/src/subtype.rs`, function by function.  Every function of the source
calls back into `sub`, or into a complete fresh query through
`types::issubtype`; these two, and a bound on the number of passes of each
driver loop, are collected in a `Knot`, and each function is defined for an
arbitrary one.  `engine n` ties the knot `n` levels deep.

The functions of the source are closed under early returns; here each branch is
the value of its own continuation.  The function `sub` itself is cut where the
source changes subject: unions on the left (`subStep`), unions on the right
(`subRight`), meet nodes (`subMeet`), variables (`subVars`), the ground rules
(`subGround`) and plain values (`subValues`).
-/

namespace Ruju

/-- The recursive calls of the algorithm: `sub`, a fresh `issubtype`, and the
number of passes a driver loop may take. -/
structure Knot where
  sub : Ty → Ty → Param → SubM Bool
  issubtype : Ty → Ty → AllocM Bool
  passes : Nat

/-- Sequential conjunction: the second computation runs only after a `true`. -/
def SubM.and (m m' : SubM Bool) : SubM Bool := do
  if ← m then m' else pure false

/-- Sequential disjunction. -/
def SubM.or (m m' : SubM Bool) : SubM Bool := do
  if ← m then pure true else m'

/-- A guarded effect. -/
def SubM.when (c : Bool) (m : SubM Unit) : SubM Unit :=
  if c then m else pure ()

/-- A computation that does not return. -/
def SubM.stuck {α : Type} : SubM α := fun _ => none

section
variable (k : Knot)

/-! ### The drivers -/

/-- The ∃ driver (`exists_subtype`): under the current left bits, enumerate the
right decisions until one traversal succeeds. -/
def existsLoop (x y : Ty) (se : SavedVars) (param : Param) : Nat → SubM Bool
  | 0 => SubM.stuck
  | n + 1 => do
    modify fun e => { e with runions := e.runions.rewind, lunions := e.lunions.rewind }
    if ← k.sub x y param then pure true
    else if ← SubM.nextUnionState true then do
      -- the slots already assigned survive a right flip
      modify fun e =>
        { Env.restoreVars { e with envidx := e.envout.length } se with envidx := e.envidx }
      existsLoop x y se param n
    else do
      modify fun e => e.restoreVars se
      pure false

/-- `exists_subtype`. -/
def existsSubtype (x y : Ty) (se : SavedVars) (param : Param) : SubM Bool := do
  modify fun e => { e with runions := { e.runions with used := 0 } }
  existsLoop k x y se param k.passes

/-- The ∀ driver: every combination of left decisions needs a successful right
search; the bindings of a successful pass are kept. -/
def forallLoop (x y : Ty) (param : Param) : Nat → SavedVars → SubM Bool
  | 0, _ => SubM.stuck
  | n + 1, se => do
    if ← existsSubtype k x y se param then
      if ← SubM.nextUnionState false then do
        let e ← get
        forallLoop x y param n e.saveVars
      else pure true
    else pure false

/-- `forall_exists_subtype`. -/
def forallExistsSubtype (x y : Ty) (param : Param) : SubM Bool := do
  let e ← get
  set { e with lunions := { e.lunions with used := 0 } }
  forallLoop k x y param k.passes e.saveVars

/-- The loop of a local search with an existential variable on exactly one
side: left decisions only, and the bindings accumulate. -/
def leftLoop (x y : Ty) (param : Param) : Nat → SubM Bool
  | 0 => SubM.stuck
  | n + 1 => do
    modify fun e => { e with lunions := e.lunions.rewind }
    if ← k.sub x y param then
      if ← SubM.nextUnionState false then leftLoop x y param n else pure true
    else pure false

/-- The state the slow local search carries between its passes. -/
structure LocalSearch where
  se : SavedVars
  limited : Bool := false
  iniCount : Nat := 0
  latestL : UnionState := {}

/-- The ∀ passes of one round of the slow local search. -/
def localPasses (x y : Ty) (param : Param) (limitSlow : Bool) (oldRmore : Nat) :
    Nat → Nat → LocalSearch → SubM (Bool × LocalSearch)
  | 0, _, _ => SubM.stuck
  | n + 1, count, s => do
    modify fun e => { e with lunions := e.lunions.rewind }
    let count := if count < 4 then count + 1 else count
    let ans ← k.sub x y param
    let s := if limitSlow && count = 4 then { s with limited := true } else s
    if ans then
      if ← SubM.nextUnionState false then do
        let e ← get
        if s.limited || e.runions.more = oldRmore then do
          set { e with runions := { e.runions with more := oldRmore } }
          localPasses x y param limitSlow oldRmore n count
            { s with iniCount := count, latestL := e.lunions, se := e.saveVars }
        else localPasses x y param limitSlow oldRmore n count s
      else pure (true, s)
    else pure (false, s)

/-- The rounds of the slow local search: a right decision found inside is
flipped, and the ∀ passes resume from the frozen prefix. -/
def localRounds (x y : Ty) (param : Param) (limitSlow : Bool) (oldRmore : Nat) :
    Nat → LocalSearch → SubM (Bool × LocalSearch)
  | 0, _ => SubM.stuck
  | n + 1, s => do
    modify fun e => { e with
      lunions := if s.iniCount = 0 then { e.lunions with used := 0 }
        else e.lunions.restore s.latestL }
    let (ans, s) ← localPasses k x y param limitSlow oldRmore k.passes s.iniCount s
    let e ← get
    if ans || e.runions.more = oldRmore then pure (ans, s)
    else do
      let _ ← SubM.nextUnionState true
      modify fun e =>
        let e := e.restoreVars s.se
        { e with runions := { e.runions with more := oldRmore } }
      localRounds x y param limitSlow oldRmore n s

/-- Hide the right decisions found since `more` was `oldRmore`. -/
def Env.hideRight (oldRmore : Nat) (c : Bool) (e : Env) : Env :=
  { e with runions := { e.runions with more := if c then oldRmore else e.runions.more } }

/-- The slow regime of `local_forall_exists_subtype`. -/
def localSlow (x y : Ty) (param : Param) (limitSlow : Bool) : SubM Bool := do
  let e ← get
  let oldRmore := e.runions.more
  let (ans, s) ←
    localRounds k x y param limitSlow oldRmore k.passes { se := e.saveVars }
  modify fun e => e.hideRight oldRmore
    (ans && decide (oldRmore < e.runions.more) && (s.limited || e.unchanged s.se))
  pure ans

/-- `local_forall_exists_subtype`; `limitSlow` is `none` for the `-1` that
resolves to "either side is ground". -/
def localForallExistsSubtype (x y : Ty) (param : Param) (limitSlow : Option Bool) :
    SubM Bool :=
  if y.obviouslyInUnion x then pure true
  else if !x.hasFreeTypevars && !y.hasFreeTypevars then SubM.alloc (k.issubtype x y)
  else do
    let e ← get
    if !((x.hasFreeTypevars && e.hasExistentialTypevar x) ||
        (y.hasFreeTypevars && e.hasExistentialTypevar y)) then do
      set { e with
        lunions := { e.lunions.rewind with used := 0 }
        runions := { e.runions.rewind with used := 0 } }
      let ans ← forallExistsSubtype k x y param
      modify fun e' => { e' with runions := e'.runions.restore e.runions }
      pure ans
    else if e.isExistentialTypevar x ≠ e.isExistentialTypevar y then do
      set { e with lunions := { e.lunions with used := 0 } }
      leftLoop k x y param k.passes
    else
      localSlow k x y param (limitSlow.getD (!x.hasFreeTypevars || !y.hasFreeTypevars))

/-! ### Variables -/

/-- The counters after one more occurrence, below `invdepth` invariant
constructors. -/
def VarBinding.occur (invariant : Bool) (invdepth : Nat) (b : VarBinding) : VarBinding :=
  if invariant && decide (b.depth0 < invdepth) then
    { b with occursInv := min (b.occursInv + 1) 2, maxOffset := -1 }
  else { b with occursCov := min (b.occursCov + 1) 2, maxOffset := -1 }

/-- `record_occurrence`. -/
def recordOccurrence (i : Nat) (param : Param) : SubM Unit := do
  let e ← get
  if param = .none then pure ()
  else SubM.modifyBinding i (VarBinding.occur (param = .invariant) e.invdepth)

/-- `subtype_left_var`. -/
def subtypeLeftVar (x y : Ty) (param : Param) : SubM Bool := do
  let e ← get
  if x.isBoxedLong && y.isBoxedLong then
    return x.unboxLong = y.unboxLong + e.loffset
  else if x = y && !y.isUnionall then return true
  else if x = Ty.bottom || y = Ty.any then return true
  else if x.isUnion && x.obviouslyEgal y then return true
  else if x = Ty.any && y.isDatatype then return false
  else k.sub x y param

/-- A comparison of an expanded ∀-bound, with the ∀ counters scoped
(`push_forall_bound_scope`, `pop_forall_bound_scope`). -/
def forallBoundScope (m : SubM Bool) : SubM Bool := do
  let e ← get
  set (e.resetOccurs (!·.existential))
  let ans ← m
  modify fun e' => e'.foldOccurs (!·.existential) e.occursCovs
  pure ans

/-- `ccheck`: a bound-consistency check in its own occurrence scope, with the
caller's left decisions shielded. -/
def ccheck (a b : Ty) : SubM Bool := do
  let e ← get
  if a.isBoxedLong && b.isBoxedLong then
    return a.unboxLong = b.unboxLong + e.loffset
  else if a = b then return true
  else if a = Ty.bottom || b = Ty.any then return true
  else if a = Ty.any && b.isDatatype then return false
  else if b.obviouslyInUnion a then return true
  else do
    set (e.resetOccurs fun _ => true)
    let ok ← localForallExistsSubtype k a b .none (some true)
    modify fun e' => e'.foldOccurs (fun _ => true) e.occursCovs
    modify fun e' => { e' with lunions := e'.lunions.restore e.lunions }
    pure ok

/-- The guard of `var_lt` and `var_gt`: under a nonzero length offset only a
variable, or a trivial bound, can absorb the relation. -/
def offsetBlocks (e : Env) (a : Ty) : Bool :=
  e.loffset ≠ 0 && !a.isTypevar && a ≠ Ty.bottom && a ≠ Ty.any

/-- `var_lt`: constrain the variable at `i` by `<: a`. -/
def varLt (a : Ty) (i : Nat) (param : Param) : SubM Bool := do
  recordOccurrence i param
  let e ← get
  if offsetBlocks e a then return false
  else do
    let bb ← SubM.binding i
    if !bb.existential then forallBoundScope (subtypeLeftVar k bb.ub a param)
    else if bb.ub = a then return true
    else if ← ccheck k bb.lb a then do
      let b ← SubM.binding i
      let m ← SubM.alloc (simpleMeet k.issubtype b.ub a 1)
      SubM.setUb i m
      return true
    else return false

/-- `var_gt`: constrain the variable at `i` by `>: a`. -/
def varGt (a : Ty) (i : Nat) (param : Param) : SubM Bool := do
  recordOccurrence i param
  let e ← get
  if offsetBlocks e a then return false
  else do
    let bb ← SubM.binding i
    if !bb.existential then forallBoundScope (subtypeLeftVar k a bb.lb param)
    else if bb.lb = a then return true
    else if ← ccheck k a bb.ub then do
      let b ← SubM.binding i
      let j ← SubM.alloc (simpleJoin k.issubtype b.lb a)
      SubM.setLb i j
      return true
    else return false

/-- `subtype_var` at offset zero or against a type. -/
def subtypeVarAt (b a : Ty) (r : Bool) (param : Param) : SubM Bool := do
  let e ← get
  match e.lookup b with
  | some i => if r then varGt k a i param else varLt k a i param
  | none => if r then k.sub a b.tvarLb param else k.sub b.tvarUb a param

/-- `subtype_var`: relate the variable `b` to `a`, `a <: b` when `r` and
`b <: a` otherwise.  A boxed length first absorbs the length offset. -/
def subtypeVar (b a : Ty) (r : Bool) (param : Param) : SubM Bool := do
  let e ← get
  if e.loffset ≠ 0 && a.isBoxedLong then do
    let old := if r then -e.loffset else e.loffset
    let i ← SubM.alloc fresh
    modify fun e => { e with loffset := 0 }
    let ans ← subtypeVarAt k b (.long i (a.unboxLong + old)) r param
    modify fun e => { e with loffset := if r then -old else old }
    pure ans
  else subtypeVarAt k b a r param

/-- `subtype_two_vars`. -/
def subtypeTwoVars (x y : Ty) (param : Param) : SubM Bool :=
  if x = y then pure true
  else do
    let e ← get
    match e.lookup x, e.lookup y with
    | none, none => return false
    | some i, some j =>
      let bx ← SubM.binding i
      let b ← SubM.binding j
      if bx.existential then
        if b.existential && i < j then do
          recordOccurrence i param
          varGt k x j param
        else do
          recordOccurrence j param
          varLt k y i param
      else if b.existential then do
        recordOccurrence i param
        if b.depth0 < bx.depth0 then do
          -- one value of `y` must serve every value of `x`
          let bx' ← SubM.binding i
          varGt k bx'.ub j param
        else varGt k x j param
      else SubM.or (k.sub bx.ub y param) (k.sub x b.lb param)
    | some i, none =>
      let bx ← SubM.binding i
      if bx.existential then varLt k y i param
      else SubM.or (k.sub bx.ub y param) (k.sub x y.tvarLb param)
    | none, some j =>
      let b ← SubM.binding j
      if b.existential then varGt k x j param
      else SubM.or (k.sub x.tvarUb y param) (k.sub x b.lb param)

/-! ### `where` types -/

/-- `eff_constrained`: was the variable constrained by its occurrences? -/
def effConstrained (vbf : VarBinding) (var : Ty) : Bool :=
  vbf.occursInv ≠ 0 || (vbf.occursCov ≠ 0 && var.tvarLb = Ty.bottom)

/-- The value `fill_envout` selects for a popped binding. -/
def envoutValue (vbf : VarBinding) (var : Ty) (name : String) (t : Ty)
    (newTvar : Option Ty) : SubM EnvVal := do
  let e ← get
  if vbf.intvalued ∧ vbf.lb = Ty.any then do
    let i ← SubM.alloc fresh
    pure (.intToken i)
  else if vbf.occursInv = 0 ∧ vbf.lb ≠ Ty.bottom then
    if vbf.lb.isLeafBound then pure (.ty vbf.lb)
    else if effConstrained vbf var ∧ !t.hasFreeTypevars ∧ !vbf.lb.hasFreeTypevars ∧
        t.isLeafBound then
      pure (.ty vbf.lb)
    else if vbf.lb.isTypevar then pure (.wrapped vbf.lb (effConstrained vbf var))
    else do
      let i ← SubM.alloc fresh
      pure (.wrapped (.tvar i name Ty.bottom vbf.lb) (effConstrained vbf var))
  else if vbf.lb = vbf.ub ∨ vbf.lb ≠ Ty.bottom then
    if e.hasUniversalTypevar vbf.lb then pure (.wrapped vbf.lb (effConstrained vbf var))
    else pure (.ty vbf.lb)
  else if vbf.lb = var.tvarLb ∧ vbf.ub = var.tvarUb ∧ newTvar = none then
    pure (.wrapped var (effConstrained vbf var))
  else
    match newTvar with
    | some v => pure (.wrapped v (effConstrained vbf var))
    | none => do
      let i ← SubM.alloc fresh
      pure (.wrapped (.tvar i name vbf.lb vbf.ub) (effConstrained vbf var))

/-- The merge of a new `envout` value with the slot's old one. -/
def mergeEnvout (var : Ty) (val : EnvVal) : Option EnvVal → EnvVal
  | some old =>
    if old.egal val then val else .wrapped var (old.constrained && val.constrained)
  | none => val

/-- `fill_envout`: select the value and merge it with the slot's old one. -/
def fillEnvout (vbf : VarBinding) (var : Ty) (name : String) (t : Ty)
    (newTvar : Option Ty) : SubM Unit := do
  let val ← envoutValue vbf var name t newTvar
  modify fun e => { e with
    envout := e.envout.set e.envidx (some (mergeEnvout var val (e.envout[e.envidx]?).join)) }

/-- The value of a binding whose bounds have met. -/
def VarBinding.resolved (vb : VarBinding) : Option Ty :=
  if vb.lb = vb.ub then some vb.lb else none

/-- Does the variable occur more than once, and only covariantly? -/
def VarBinding.isDiagonal (vb : VarBinding) : Bool :=
  decide (1 < max vb.occursCov vb.covDiag) && !vb.bodyOccursInv

/-- The diagonal rule at the exit of `subtype_unionall`: the answer, with the
concreteness constraint passed on to a variable lower bound. -/
def diagonalCheck (vb : VarBinding) (var : Ty) : SubM Bool :=
  if vb.concrete ∨ (vb.isDiagonal ∧ var.isLeafTypevar) then
    if vb.concrete ∧ !vb.isDiagonal ∧ !vb.ub.isLeafBound then pure false
    else if vb.lb.isTypevar then do
      let e ← get
      match e.lookup vb.lb with
      | some j => do
        SubM.modifyBinding j fun b => { b with concrete := true }
        pure true
      | none => pure true
    else pure vb.lb.isLeafBound
  else pure true

/-- The answer of `subtype_unionall` at its exit. -/
def exitCheck (found : Bool) (vb : VarBinding) (var : Ty) : SubM Bool :=
  if found then diagonalCheck vb var else pure false

/-- The body of `subtype_unionall` and the widening of `Type{x}`. -/
def unionallBody (t body : Ty) (i : Nat) (r : Bool) (param : Param) : SubM Bool :=
  if r then do
    modify fun e => { e with envidx := e.envidx + 1 }
    let ans ← k.sub t body param
    modify fun e => { e with envidx := e.envidx - 1 }
    let b ← SubM.binding i
    SubM.when (decide (b.occursInv = 0)) (SubM.setLb i b.lb.widenTypeIfConcrete)
    pure ans
  else k.sub body t param

/-- The widening of a meet node in the upper bound of a binding about to be
popped. -/
def widenUb (i : Nat) : SubM Unit := do
  let b ← SubM.binding i
  SubM.when b.ub.isIntersect do
    let w ← SubM.alloc (widenIntersect k.issubtype b.ub)
    SubM.setUb i w

/-- `subtype_unionall`: bind the variable of `u`, compare its body with `t`
(`t <: body` when `r`, `body <: t` otherwise), and unbind it. -/
def subtypeUnionall (t u : Ty) (r : Bool) (param : Param) : SubM Bool :=
  match u with
  | .unionall _ v name lb ub body => do
    let var := Ty.tvar v name lb ub
    let e ← get
    let i := e.vars.length
    SubM.pushBinding
      { var, lb, ub, existential := r,
        bodyOccursInv := Ty.varOccursInvariant var false body, depth0 := e.invdepth }
    let found ← unionallBody k t body i r param
    let vb ← SubM.binding i
    let ans ← exitCheck found vb var
    SubM.when ans (widenUb k i)
    let vbf ← SubM.binding i
    SubM.popBinding
    let e' ← get
    SubM.when (r && ans && decide (e'.envidx < e'.envout.length))
      (fillEnvout vbf var name t vbf.resolved)
    pure ans
  | _ => SubM.stuck

/-! ### Invariant equality -/

/-- `equal_var`: the variable `v` equals the type `x`. -/
def equalVar (v x : Ty) : SubM Bool := do
  let e ← get
  match e.lookup v with
  | none => return x = v
  | some i => do
    recordOccurrence i .invariant
    let bb ← SubM.binding i
    if !bb.existential then
      SubM.and (localForallExistsSubtype k x bb.lb .invariant (some (!x.hasFreeTypevars)))
        (localForallExistsSubtype k bb.ub x .none (some false))
    else if bb.lb = x then varLt k x i .none
    else if ← ccheck k x bb.ub then do
      let b ← SubM.binding i
      let j ← SubM.alloc (simpleJoin k.issubtype b.lb x)
      SubM.setLb i j
      let b' ← SubM.binding i
      if b'.ub = x then return true
      else if ← ccheck k b'.lb x then do
        SubM.setUb i x
        return true
      else return false
    else return false

/-- The reverse direction of `forall_exists_equal`, under the negated length
offset. -/
def equalBack (x y : Ty) : SubM Bool := do
  modify fun e => { e with loffset := -e.loffset }
  let back ← localForallExistsSubtype k y x .none (some false)
  modify fun e => { e with loffset := -e.loffset }
  pure back

/-- The tail of `forall_exists_equal`: a variable on the right, or both
directions through a local search with the left decisions shielded. -/
def equalBothWays (x y : Ty) : SubM Bool := do
  let e ← get
  if e.loffset = 0 && y.isTypevar && !x.isTypevar && !x.isBoxedLong then equalVar k y x
  else do
    let ans ← SubM.and (localForallExistsSubtype k x y .invariant none) (equalBack k x y)
    modify fun e' => { e' with lunions := e'.lunions.restore e.lunions }
    pure ans

/-- `forall_exists_equal` up to its greedy path, which compares two unions
componentwise under a recorded right decision. -/
def equalWith (greedy : Option (SubM Bool)) (x y : Ty) : SubM Bool := do
  let e ← get
  if x.obviouslyEgal y then return e.loffset = 0
  else if (x.isIndefiniteLengthTuple && y.isDefiniteLengthTuple) ||
      (x.isDefiniteLengthTuple && y.isIndefiniteLengthTuple) then return false
  else if x.isDatatype && y.isDatatype && x.nameOf ≠ y.nameOf then return false
  else if x.isDatatype && y.isDatatype && !x.isTuple then k.sub x y .invariant
  else
    match greedy with
    | some m => if ← SubM.pickUnionDecision true then equalBothWays k x y else m
    | none => equalBothWays k x y

/-- `forall_exists_equal`. -/
def forallExistsEqual (x y : Ty) : SubM Bool :=
  equalWith k
    (match x, y with
      | .union _ a b, .union _ c d =>
        some (SubM.and (forallExistsEqual a c) (forallExistsEqual b d))
      | _, _ => none)
    x y

/-! ### Tuples -/

/-- `check_vararg_length`: equate the boxed length with the count of `v`. -/
def checkVarargLength (v : Ty) (n : Int) : SubM Bool :=
  match v.varargNum with
  | none => pure true
  | some num => do
    let i ← SubM.alloc fresh
    modify fun e => { e with invdepth := e.invdepth + 1 }
    let ans ← SubM.and (k.sub (.long i n) num .invariant) (k.sub num (.long i n) .none)
    modify fun e => { e with invdepth := e.invdepth - 1 }
    pure ans

/-- The current value of a vararg count: the lower bound of a bound variable,
the count itself otherwise. -/
def countValue (e : Env) (num : Ty) : Ty :=
  if num.isTypevar then (e.bindingOf num).elim num (·.lb) else num

/-- Mark the variable of a vararg count as integer-valued. -/
def markIntvalued (num : Ty) : SubM Unit := do
  let e ← get
  match (if num.isTypevar then e.lookup num else none) with
  | some i => SubM.modifyBinding i fun b => { b with intvalued := true }
  | none => pure ()

/-- Put back the `max_offset` of the variable of a vararg count. -/
def restoreMaxOffset (num : Ty) (old : Env) : SubM Unit := do
  let e ← get
  match (if num.isTypevar then old.lookup num else none) with
  | some i =>
    match old.vars[i]? with
    | some b => set { e with
      vars := e.vars.modify i fun b' => { b' with maxOffset := b.maxOffset } }
    | none => SubM.stuck
  | none => pure ()

/-- The pinned value of a vararg count, where it has one. -/
def pinnedCount (e : Env) (num : Ty) : Ty :=
  if (countValue e num).isBoxedLong then countValue e num else num

/-- A boxed length moved by a nonzero difference; anything else stays. -/
def shiftCount (p : Ty) (by' : Int) : SubM Ty :=
  if p.isBoxedLong && by' ≠ 0 then do
    let i ← SubM.alloc fresh
    pure (.long i (p.unboxLong + by'))
  else pure p

/-- The comparison of two pinned counts.  At most one side is a length in the
second case, and it absorbs the difference of the positions. -/
def comparePinned (xp yp : Ty) (vx vy : Int) : SubM Bool :=
  if xp.isBoxedLong && yp.isBoxedLong then
    pure (decide (xp.unboxLong - vx = yp.unboxLong - vy))
  else do
    let xp' ← shiftCount xp (vy - vx)
    let yp' ← shiftCount yp (vx - vy)
    modify fun e =>
      { e with loffset := if xp.isBoxedLong || yp.isBoxedLong then 0 else vx - vy }
    let ans ← forallExistsEqual k xp' yp'
    modify fun e => { e with loffset := 0 }
    pure ans

/-- The length equation of `subtype_tuple_varargs` between two counts. -/
def equateCounts (xn yn : Ty) (vx vy : Int) (old : Env) : SubM Bool := do
  modify fun e => { e with invdepth := e.invdepth + 1 }
  markIntvalued xn
  markIntvalued yn
  let e ← get
  let ans ← comparePinned k (pinnedCount e xn) (pinnedCount e yn) vx vy
  restoreMaxOffset yn old
  restoreMaxOffset xn old
  modify fun e => { e with invdepth := e.invdepth - 1 }
  pure ans

/-- The length constraint against an unbounded left `Vararg`: the count on the
right must still be open, and becomes the unconstrained integer. -/
def openCount (yn : Ty) (old : Env) : SubM Bool := do
  let e ← get
  if (countValue e yn).isBoxedLong then return false
  else
    match (if yn.isTypevar then e.lookup yn else none) with
    | some i => do
      let b ← SubM.binding i
      if b.depth0 ≠ e.invdepth ∨ b.lb ≠ Ty.bottom ∨ b.ub ≠ Ty.any then return false
      else do
        SubM.modifyBinding i fun b => { b with intvalued := true }
        modify fun e => { e with invdepth := e.invdepth + 1 }
        let ans ← k.sub Ty.any yn .invariant
        restoreMaxOffset yn old
        modify fun e => { e with invdepth := e.invdepth - 1 }
        pure ans
    | none => do
      modify fun e => { e with invdepth := e.invdepth + 1 }
      let ans ← k.sub Ty.any yn .invariant
      modify fun e => { e with invdepth := e.invdepth - 1 }
      pure ans

/-- The element comparison of `subtype_tuple_varargs`, made twice. -/
def varargElements (xe ye : Ty) (param : Param) : SubM Bool :=
  SubM.and (k.sub xe ye param) (k.sub xe ye .covariant)

/-- `subtype_tuple_varargs`. -/
def subtypeTupleVarargs (vtx vty : Ty) (vx vy : Int) (param : Param) : SubM Bool := do
  let e ← get
  let yl := vty.varargNum.map (countValue e)
  let elements := varargElements k vtx.varargElem vty.varargElem param
  match vtx.varargNum with
  | none =>
    if (yl.map Ty.isBoxedLong).getD false then return false
    else SubM.and elements <|
      match vty.varargNum with
      | none => pure true
      | some yn => openCount k yn e
  | some xn =>
    let exhausted := (countValue e xn).isBoxedLong &&
      decide ((countValue e xn).unboxLong + 1 = vx)
    match vty.varargNum with
    | none => if exhausted then pure true else elements
    | some yn =>
      if exhausted && (countValue e yn).isBoxedLong then
        return (countValue e yn).unboxLong + 1 = vy
      else SubM.and elements (equateCounts k xn yn vx vy e)

/-- The step of a vararg counter: it counts while the last parameter is a
`Vararg`. -/
def bumpVararg (ts : List Ty) (v : Nat) : Nat :=
  match ts with
  | [t] => if 0 < v || t.isVararg then v + 1 else v
  | _ => v

/-- The parameters left after one comparison: a trailing `Vararg` stays. -/
def advanceParams (v : Nat) : List Ty → List Ty
  | [] => []
  | [t] => if v = 0 then [] else [t]
  | _ :: ts => ts

/-- The element a comparison reads at the head of a parameter list. -/
def headElem (v : Nat) (t : Ty) : Ty :=
  if 0 < v then t.varargElem else t

/-- The end of `subtype_tuple_tail`: a fixed left tail against a pending
`Vararg{T,N}` discharges the length. -/
def tupleTailEnd (lx ly : Nat) (ys : List Ty) (vx vy : Nat) : SubM Bool :=
  match ys with
  | y :: _ =>
    if 0 < vy && vx = 0 && ly ≤ lx + 1 then
      checkVarargLength k y ((lx : Int) + 1 - ly)
    else pure true
  | [] => pure true

/-- `subtype_tuple_tail`: `xs` and `ys` are the parameters not yet passed. -/
def tupleTail (lx ly : Nat) (param : Param) : Nat → List Ty → List Ty → Nat → Nat → SubM Bool
  | 0, _, _, _, _ => SubM.stuck
  | n + 1, xs, ys, vx, vy =>
    let vx := bumpVararg xs vx
    let vy := bumpVararg ys vy
    match xs, ys with
    | [], ys => tupleTailEnd k lx ly ys vx vy
    | _ :: _, [] => pure (decide (0 < vx))
    | x :: xs', y :: ys' =>
      let xlast := xs'.getLastD x
      if 0 < vx && 0 < vy then subtypeTupleVarargs k x y vx vy param
      else if vy = 1 && y.varargElem = Ty.any then
        -- what is left on the left is below `Any`: match the tails
        if xlast.isVararg then
          subtypeTupleVarargs k xlast y 1 (vy + xs'.length) param
        else tupleTailEnd k lx ly (y :: ys') vx vy
      else
        SubM.and (k.sub (headElem vx x) (headElem vy y) param)
          (tupleTail lx ly param n (advanceParams vx (x :: xs'))
            (advanceParams vy (y :: ys')) vx vy)

/-- The length a tuple is known to have: its parameters, with the last one
counting for the value of its count. -/
def knownLength (e : Env) (ps : List Ty) : Int :=
  match ps.getLast? with
  | some p =>
    match p.varargNum with
    | some n => ps.length + (countValue e n).unboxLong - 1
    | none => ps.length
  | none => 0

/-- The kind of a tuple's last parameter. -/
def tailKind (ps : List Ty) : Ty.VarargKind :=
  match ps.getLast? with
  | some p => p.varargKind
  | none => .none

/-- The count variable of a left tuple, when it is bound. -/
def tailBinding (e : Env) (ps : List Ty) : Option VarBinding :=
  match ps.getLast? with
  | some p =>
    if p.varargKind = .bound then
      p.varargNum.bind e.bindingOf
    else none
  | none => none

/-- The length classification of `tuple_subtype`: does the comparison go on to
the elements? -/
def tupleLengths (ps qs : List Ty) : SubM Bool := do
  let e ← get
  let vvx := tailKind ps
  let vvy := tailKind qs
  let xbb := tailBinding e ps
  let fixedRight : Bool := vvy = .none || vvy = .int
  let pinned := (xbb.map (·.lb.isBoxedLong)).getD false
  if vvx ≠ .none && vvx ≠ .int && !pinned then
    if vvx = .unbound || (xbb.map (!·.existential)).getD false then
      return !fixedRight && qs.length ≤ ps.length
    else if vvy = .none then
      checkVarargLength k (ps.getLastD Ty.any) ((qs.length : Int) + 1 - ps.length)
    else return true
  else
    let nx := knownLength e ps
    if vvy = .int then return nx = knownLength e qs
    else if vvy = .none then return nx = qs.length
    else return (qs.length : Int) - 1 ≤ nx

/-- `tuple_subtype`. -/
def tupleSubtype (ps qs : List Ty) (param : Param) : SubM Bool :=
  if ps.isEmpty && qs.isEmpty then pure true
  else SubM.and (tupleLengths k ps qs)
    (tupleTail k ps.length qs.length param (ps.length + qs.length + 1) ps qs 0 0)

/-! ### `sub` -/

/-- The invariant parameters of two instantiations of one constructor. -/
def invariantParams : List Ty → List Ty → SubM Bool
  | x :: xs, y :: ys =>
    if x = y then invariantParams xs ys
    else SubM.and (forallExistsEqual k x y) (invariantParams xs ys)
  | _, _ => pure true

/-- The parameters of two types with one name, compared one invariant level
deeper; nothing is left to compare when one of them has none. -/
def invariantSubtype (xd y : Ty) : SubM Bool :=
  match xd.parameters, y.parameters with
  | some ps, some qs => do
    modify fun e => { e with invdepth := e.invdepth + 1 }
    let ans ← invariantParams k ps qs
    modify fun e => { e with invdepth := e.invdepth - 1 }
    pure ans
  | _, _ => pure true

/-- The walk up the supertype chain of `datatype_subtype`. -/
def walkToName (x y : Ty) : Option Ty :=
  match y.nameOf with
  | some n => x.supers.find? (fun t => t.nameOf = some n)
  | none => none

/-- `datatype_subtype`. -/
def datatypeSubtype (x y : Ty) (param : Param) : SubM Bool :=
  if x = y || y = Ty.any then pure true
  else
    match walkToName x y with
    | none => pure false
    | some xd =>
      if xd.isTuple then
        tupleSubtype k (xd.parameters.getD []) (y.parameters.getD [])
          (if param = .none then .covariant else param)
      else invariantSubtype k xd y

/-- `sub` on boxed lengths, equal up to the length offset, and on
`DataType`s. -/
def subValues (x y : Ty) (param : Param) : SubM Bool :=
  if x.isBoxedLong || y.isBoxedLong then do
    let e ← get
    return x.isBoxedLong && y.isBoxedLong && decide (x.unboxLong = y.unboxLong + e.loffset)
  else datatypeSubtype k x y param

/-- `sub` on non-variables: the trivial bounds, `where` types, the kind rules
of `Type{T}`, boxed lengths, and the `DataType`s. -/
def subGround (x y : Ty) (param : Param) : SubM Bool :=
  if y = Ty.any then pure true
  else if x = Ty.bottom then pure true
  else if x.isUnionall then subtypeUnionall k y x false param
  else if y.isUnionall then subtypeUnionall k x y true param
  else
    match x.typeParam, y.typeParam with
    | some t0, none =>
      if t0.isTypevar then k.sub (.builtin .type) y param else k.sub t0.typeOf y param
    | none, some t0 =>
      if t0.isTypevar && x.isKind then do
        -- every instance of a kind is a type: `Type{T} where T` against `y`
        let v ← SubM.alloc fresh
        let i ← SubM.alloc fresh
        k.sub (.unionall i v "T" Ty.bottom Ty.any
          (.app .type [.tvar v "T" Ty.bottom Ty.any])) y param
      else pure false
    | _, _ => subValues k x y param

/-- `sub` on variables.  A `where` type on the right is opened against a
universal variable, unless it is the variable's own bound; an existential one
absorbs it. -/
def subVars (x y : Ty) (param : Param) : SubM Bool :=
  if x.isTypevar then
    if y.isTypevar then subtypeTwoVars k x y param
    else do
      let e ← get
      if y.isUnionall && !e.existentialVar x && (e.bindingOf x).elim x (·.ub) ≠ y then
        subtypeUnionall k x y true param
      else subtypeVar k x y false param
  else if y.isTypevar then subtypeVar k y x true param
  else subGround k x y param

/-- `sub` once no union is left at the top: a meet node on the right asks for
both of its operands. -/
def subMeet (x y : Ty) (param : Param) : SubM Bool :=
  match y with
  | .inter _ a b => SubM.and (k.sub x a param) (k.sub x b param)
  | _ => subVars k x y param

/-- Does a union on the right split against `x`?  For a variable the split is
itself a recorded decision. -/
def splitsUnion (x y : Ty) : SubM Bool := do
  let e ← get
  if !x.isTypevar then return true
  else if e.existentialVar x || y.hasFreeTypevars then SubM.pickUnionDecision true
  else return false

/-- `sub` with a union on the right: a recorded arm, unless a left `where`
variable has to be introduced first or a left variable takes the whole union. -/
def subRight (x y : Ty) (param : Param) : SubM Bool :=
  if y.isUnion then
    if y.obviouslyInUnion x then pure true
    else if x.isUnionall then subtypeUnionall k y x false param
    else do
      if ← splitsUnion x y then do
        let y' ← SubM.pickUnionElement true y
        subMeet k x y' param
      else subMeet k x y param
  else subMeet k x y param

/-- May a left ground union be compared with the variable `y` as a whole? -/
def handlesUnion (e : Env) (y : Ty) : Bool :=
  match e.bindingOf y with
  | some b => !b.existential || !e.hasExistentialTypevar b.ub
  | none => true

/-- `sub`. -/
def subStep (x y : Ty) (param : Param) : SubM Bool := do
  let e ← get
  if x = y ∧ e.loffset = 0 then return true
  else if x.isUnion then
    if x.obviouslyEgal y then return true
    else if e.runions.depth = 0 && y.isTypevar && !x.hasFreeTypevars && handlesUnion e y then
      subtypeVar k y x true param
    else do
      let x' ← SubM.pickUnionElement false x
      subRight k x' y param
  else subRight k x y param

/-- The body of `types::issubtype`: a query in a new environment. -/
def issubtypeStep (x y : Ty) : AllocM Bool := fun n =>
  (forallExistsSubtype k x y .none { next := n }).map fun (ans, e) => (ans, e.next)

end

/-! ### Tying the knot -/

/-- The algorithm with its recursion unrolled `n` levels deep. -/
def engine : Nat → Knot
  | 0 => { sub := fun _ _ _ => SubM.stuck, issubtype := fun _ _ _ => none, passes := 0 }
  | n + 1 =>
    { sub := subStep (engine n), issubtype := issubtypeStep (engine n), passes := n + 1 }

/-- `subtype(a, b)` with `fuel` levels of recursion and `next` as the first
free allocation number. -/
def subtype (fuel next : Nat) (a b : Ty) : Option Bool :=
  ((engine fuel).issubtype a b next).map (·.1)

/-- The query `subtype(a, b)` returns `r`, from a heap whose allocation numbers
below `next` are taken. -/
def SubtypeReturns (next : Nat) (a b : Ty) (r : Bool) : Prop :=
  ∃ fuel, subtype fuel next a b = some r

/-- `subtype_env_size`. -/
def subtypeEnvSize : Ty → Nat
  | .unionall _ _ _ _ _ t => subtypeEnvSize t + 1
  | _ => 0

/-- `subtype_env`: the answer, and the `envout` slots of a success. -/
def subtypeEnv (fuel next : Nat) (a b : Ty) : Option (Bool × List (Option EnvVal)) :=
  (forallExistsSubtype (engine fuel) a b .none
      { next, envout := List.replicate (subtypeEnvSize b) none }).map
    fun (ans, e) => (ans, if ans then e.envout else [])

end Ruju
