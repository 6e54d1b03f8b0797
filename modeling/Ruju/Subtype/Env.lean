import Ruju.Types.Predicates
import Mathlib.Logic.Function.Basic

/-!
# The subtype environment

The state of one query of `runtime/src/subtype.rs` (`Env`): the stack of
variable bindings, the invariant depth, the two union-decision stacks, the
length-offset channel and the `envout` slots, together with the operations the
algorithm applies to them.

A computation of the algorithm is a `SubM`: a state transformer over `Env` that
may also have no result.  `none` stands for a computation that does not return,
because the recursion bound ran out or because an index left its vector; the
results about the algorithm are results about the runs that return, and where
it matters that a run returns this is proved.
-/

namespace Ruju

/-- `Param`: the position of a subterm below the enclosing constructor. -/
inductive Param
  | none | covariant | invariant
deriving DecidableEq, Repr

/-! ### Union decisions -/

/-- `UnionState`: a lazily grown binary counter over the union decisions of a
traversal.  The bit store is total, and zero where it has not been grown. -/
structure UnionState where
  depth : Nat := 0
  more : Nat := 0
  used : Nat := 0
  bits : Nat → Bool := fun _ => false

namespace UnionState

/-- `pick_union_decision`: read the bit at the cursor, discovering a new one
at the end of the store; a 0 is remembered as the deepest untried choice. -/
def pick (st : UnionState) : Bool × UnionState :=
  let st := if st.used ≤ st.depth then
      { st with bits := Function.update st.bits st.used false, used := st.used + 1 }
    else st
  let ui := st.bits st.depth
  let st := { st with depth := st.depth + 1 }
  (ui, if ui then st else { st with more := st.depth })

/-- `next_union_state`: truncate at the deepest untried choice and flip it;
`none` when the enumeration is exhausted. -/
def next (st : UnionState) : Option UnionState :=
  if st.more = 0 then none
  else some { st with
    used := st.more
    bits := Function.update st.bits (st.more - 1) true }

/-- The cursor and `more` at the start of a traversal. -/
def rewind (st : UnionState) : UnionState :=
  { st with depth := 0, more := 0 }

/-- The number of bits a snapshot holds: whole 32-bit words. -/
def savedBits (st : UnionState) : Nat :=
  (st.used + 31) / 32 * 32

/-- `pop_unionstate`: return to a snapshot.  Bits beyond the words the snapshot
holds keep their current value. -/
def restore (dst saved : UnionState) : UnionState :=
  { saved with
    bits := fun i => if i < saved.savedBits then saved.bits i else dst.bits i }

end UnionState

/-! ### Bindings -/

/-- `VarBinding`: a `where` variable and its current bounds. -/
structure VarBinding where
  var : Ty
  lb : Ty
  ub : Ty
  existential : Bool
  occursCov : Nat := 0
  covDiag : Nat := 0
  occursInv : Nat := 0
  bodyOccursInv : Bool
  depth0 : Nat
  intvalued : Bool := false
  concrete : Bool := false
  maxOffset : Int := 0

/-- An entry of `envout`: a type, the `svec(tvar, constrained)` wrapper of a
variable that stayed indefinite, or the "`N::Int`, unconstrained" token. -/
inductive EnvVal
  | ty (t : Ty)
  | wrapped (t : Ty) (constrained : Bool)
  | intToken (id : Nat)

namespace EnvVal

/-- `egal` on entries; the wrapper compares elementwise, the token by
identity. -/
def egal : EnvVal → EnvVal → Bool
  | ty s, ty t => s.egal t
  | wrapped s b, wrapped t c => s.egal t && b = c
  | intToken i, intToken j => i = j
  | _, _ => false

/-- `wrapped_constrained`: a direct value means that the variable was pinned. -/
def constrained : EnvVal → Bool
  | wrapped _ b => b
  | _ => true

end EnvVal

/-! ### The environment -/

/-- `Env`, with the allocation counter of the heap. -/
structure Env where
  vars : List VarBinding := []
  invdepth : Nat := 0
  lunions : UnionState := {}
  runions : UnionState := {}
  loffset : Int := 0
  envout : List (Option EnvVal) := []
  envidx : Nat := 0
  next : Nat := 0

/-- A computation that only allocates. -/
abbrev AllocM := StateT Nat Option

/-- A computation of the subtype algorithm. -/
abbrev SubM := StateT Env Option

/-- A fresh allocation number. -/
def fresh : AllocM Nat := fun n => some (n, n + 1)

namespace Env

/-- `lookup`: the index of the innermost binding of `var`. -/
def lookup (e : Env) (var : Ty) : Option Nat :=
  let i := (e.vars.reverse).findIdx (fun b => b.var = var)
  if i < e.vars.length then some (e.vars.length - 1 - i) else none

/-- The innermost binding of `var`. -/
def bindingOf (e : Env) (var : Ty) : Option VarBinding :=
  (e.lookup var).bind (e.vars[·]?)

/-- Is `var` bound, and existential? -/
def existentialVar (e : Env) (var : Ty) : Bool :=
  (e.bindingOf var).elim false (·.existential)

/-- Is `var` bound, and universal? -/
def universalVar (e : Env) (var : Ty) : Bool :=
  (e.bindingOf var).elim false (!·.existential)

/-- `has_existential_typevar`. -/
def hasExistentialTypevar (e : Env) (t : Ty) : Bool :=
  e.vars.any (·.existential) && t.hasFreeVarWhere e.existentialVar []

/-- `has_universal_typevar`. -/
def hasUniversalTypevar (e : Env) (t : Ty) : Bool :=
  t.hasFreeVarWhere e.universalVar []

/-- `is_existential_typevar`. -/
def isExistentialTypevar (e : Env) (t : Ty) : Bool :=
  t.isTypevar && e.existentialVar t

end Env

namespace SubM

/-- Run an allocating computation on the environment's counter. -/
def alloc {α : Type} (m : AllocM α) : SubM α := fun e =>
  match m e.next with
  | some (a, n) => some (a, { e with next := n })
  | none => none

/-- The binding at an index. -/
def binding (i : Nat) : SubM VarBinding := fun e =>
  match e.vars[i]? with
  | some b => some (b, e)
  | none => none

/-- Update the binding at an index. -/
def modifyBinding (i : Nat) (f : VarBinding → VarBinding) : SubM Unit := fun e =>
  if i < e.vars.length then some ((), { e with vars := e.vars.modify i f })
  else none

/-- `set_lb`. -/
def setLb (i : Nat) (t : Ty) : SubM Unit :=
  modifyBinding i fun b => { b with lb := t }

/-- `set_ub`. -/
def setUb (i : Nat) (t : Ty) : SubM Unit :=
  modifyBinding i fun b => { b with ub := t }

/-- Push a binding. -/
def pushBinding (b : VarBinding) : SubM Unit :=
  modify fun e => { e with vars := e.vars ++ [b] }

/-- Pop the innermost binding. -/
def popBinding : SubM Unit :=
  modify fun e => { e with vars := e.vars.dropLast }

/-- `pick_union_decision`; `r` selects the right stack. -/
def pickUnionDecision (r : Bool) : SubM Bool := fun e =>
  if r then
    let (ui, st) := e.runions.pick
    some (ui, { e with runions := st })
  else
    let (ui, st) := e.lunions.pick
    some (ui, { e with lunions := st })

/-- `next_union_state`. -/
def nextUnionState (r : Bool) : SubM Bool := fun e =>
  if r then
    match e.runions.next with
    | some st => some (true, { e with runions := st })
    | none => some (false, e)
  else
    match e.lunions.next with
    | some st => some (true, { e with lunions := st })
    | none => some (false, e)

/-- `pick_union_element`: one decision per level of the union's spine. -/
def pickUnionElement (r : Bool) : Ty → SubM Ty
  | .union _ a b => do
    if ← pickUnionDecision r then pickUnionElement r b else pickUnionElement r a
  | t => pure t

end SubM

/-! ### Snapshots -/

/-- `SavedVars`: the bindings and the right-union cursor. -/
structure SavedVars where
  vars : List VarBinding
  rdepth : Nat

namespace Env

/-- `save_vars` (and `re_save_vars`). -/
def saveVars (e : Env) : SavedVars :=
  { vars := e.vars, rdepth := e.runions.depth }

/-- One binding of `restore_vars`: `concrete` and `intvalued` survive. -/
def restoreBinding (b s : VarBinding) : VarBinding :=
  { s with concrete := b.concrete, intvalued := b.intvalued }

/-- `restore_vars`: bindings, right cursor, and the `envout` slots from the
current one on. -/
def restoreVars (e : Env) (saved : SavedVars) : Env :=
  { e with
    vars := List.zipWith restoreBinding e.vars saved.vars ++
      e.vars.drop saved.vars.length
    runions := { e.runions with depth := saved.rdepth }
    envout := e.envout.take e.envidx ++
      List.replicate (e.envout.length - e.envidx) none }

/-- `env_unchanged` for one binding. -/
def bindingUnchanged (v s : VarBinding) : Bool :=
  !v.existential ||
    (decide (v.lb = s.lb) && decide (v.ub = s.ub) &&
      !(v.var.isLeafTypevar && !v.bodyOccursInv &&
        decide (1 < max v.occursCov v.covDiag) && decide (max s.occursCov s.covDiag ≤ 1)))

/-- `env_unchanged`: no existential bound moved, and no leaf variable became
diagonal. -/
def unchanged (e : Env) (saved : SavedVars) : Bool :=
  (List.zip e.vars saved.vars).all fun p => bindingUnchanged p.1 p.2

/-- The occurrence counters, saved around a bound check. -/
def occursCovs (e : Env) : List Nat :=
  e.vars.map (·.occursCov)

/-- Reset the counters of the bindings that `p` selects. -/
def resetOccurs (p : VarBinding → Bool) (e : Env) : Env :=
  { e with vars := e.vars.map fun b => if p b then { b with occursCov := 0 } else b }

/-- Fold the counters of the bindings that `p` selects into `covDiag` and put
the saved ones back; bindings beyond the saved ones are left alone. -/
def foldOccurs (p : VarBinding → Bool) (saved : List Nat) (e : Env) : Env :=
  { e with
    vars := List.zipWith
        (fun b n => if p b then
          { b with covDiag := max b.covDiag b.occursCov, occursCov := n } else b)
        e.vars saved ++ e.vars.drop saved.length }

end Env

end Ruju
