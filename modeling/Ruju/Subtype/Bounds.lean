import Ruju.Subtype.Env
import Mathlib.Data.List.Sort
import Mathlib.Data.List.Destutter

/-!
# Unions, meets and joins

The type constructors that consult the subtype relation: `union_of` of
`types.rs`, and `simple_meet`, `simple_intersect`, `widen_intersect` and
`simple_join` of `subtype.rs`.  They call back into a complete fresh query
(`types::issubtype`), which is a parameter here; the subtype algorithm ties the
knot.
-/

namespace Ruju

section
variable (issubtype : Ty → Ty → AllocM Bool)

/-! ### Normalized unions -/

/-- One scan of `union_of`: is `c` below a member of the list?  Against a later
member a mutual subtype does not count, so that one of an equal pair
survives. -/
def subsumed (later : Bool) (c : Ty) : List Ty → AllocM Bool
  | [] => pure false
  | d :: ds => do
    if ← issubtype c d then
      if (← issubtype d c) && later then subsumed later c ds else pure true
    else subsumed later c ds

/-- The members `union_of` keeps, given those kept so far. -/
def survivors (kept : List Ty) : List Ty → AllocM (List Ty)
  | [] => pure kept
  | c :: cs => do
    if c = Ty.bottom then survivors kept cs
    else if ← subsumed issubtype false c kept then survivors kept cs
    else if ← subsumed issubtype true c cs then survivors kept cs
    else survivors (kept ++ [c]) cs

/-- `build_union`: the right-nested union of the members, innermost allocated
first. -/
def buildUnion : List Ty → AllocM Ty
  | [] => pure Ty.bottom
  | [t] => pure t
  | t :: u :: ts => do
    let acc ← buildUnion (u :: ts)
    let i ← fresh
    pure (.union i t acc)

/-- `union_of`: flatten, drop the subsumed members, sort (stably), drop
adjacent duplicates, and nest to the right. -/
def unionOf (parts : List Ty) : AllocM Ty := do
  let kept ← survivors issubtype [] (parts.flatMap Ty.flattenUnion)
  let sorted := kept.insertionSort (fun s t => Ty.typeCmp s t ≠ .gt)
  buildUnion (sorted.destutter (· ≠ ·))

/-- `simple_join`. -/
def simpleJoin (a b : Ty) : AllocM Ty :=
  if a = Ty.bottom ∨ b = Ty.any ∨ a = b then pure b
  else if b = Ty.bottom ∨ a = Ty.any then pure a
  else unionOf issubtype [a, b]

/-! ### Meets -/

/-- `obviously_disjoint`. -/
def obviouslyDisjoint (x y : Ty) : AllocM Bool :=
  if x = y || !x.isDatatype || !y.isDatatype then pure false
  else if x.isTuple || y.isTuple || x.isTypeType || y.isTypeType then pure false
  else if x.hasFreeTypevars || y.hasFreeTypevars then pure false
  else do
    if ← issubtype x y then pure false
    else do
      let back ← issubtype y x
      pure (!back)

/-- A component of `simple_intersect`: its liveness and its `stemp` mark. -/
structure Component where
  ty : Ty
  alive : Bool := false
  mark : Int := 0

/-- Do two components, not both alive already, turn out not to be obviously
disjoint? -/
def comesAlive (c d : Component) : AllocM Bool :=
  if c.alive && d.alive then pure false
  else do
    let disjoint ← obviouslyDisjoint issubtype c.ty d.ty
    pure (!disjoint)

/-- Mark a component alive. -/
def Component.revive (meets : Bool) (c : Component) : Component :=
  if meets then { c with alive := true } else c

/-- The liveness row of one left component: it and a right component come alive
together when they are not obviously disjoint. -/
def aliveRow (c : Component) : List Component → AllocM (Component × List Component)
  | [] => pure (c, [])
  | d :: ds => do
    let meets ← comesAlive issubtype c d
    let (c', ds') ← aliveRow (c.revive meets) ds
    pure (c', d.revive meets :: ds')

/-- The marks one comparison leaves: -1 strictly above, 1 equal, 2 strictly
below, with -1 absorbing. -/
def markPair (sub back : Bool) (c d : Component) : Component × Component :=
  if back && !sub then
    ({ c with mark := -1 }, if d.mark ≥ 0 then { d with mark := 2 } else d)
  else if sub && !back then
    (if c.mark ≥ 0 then { c with mark := 2 } else c, { d with mark := -1 })
  else if sub && back then
    (if c.mark = 0 then { c with mark := 1 } else c,
      if d.mark = 0 then { d with mark := 1 } else d)
  else (c, d)

/-- The subtyping row of one live left component. -/
def markRow (c : Component) : List Component → AllocM (Component × List Component)
  | [] => pure (c, [])
  | d :: ds => do
    if d.alive then
      let sub ← issubtype c.ty d.ty
      let back ← issubtype d.ty c.ty
      let (c', d') := markPair sub back c d
      let (c'', ds') ← markRow c' ds
      pure (c'', d' :: ds')
    else
      let (c', ds') ← markRow c ds
      pure (c', d :: ds')

/-- Run a row for every left component that `p` selects, in order. -/
def rows (row : Component → List Component → AllocM (Component × List Component))
    (p : Component → Bool) :
    List Component → List Component → AllocM (List Component × List Component)
  | [], ds => pure ([], ds)
  | c :: cs, ds => do
    if p c then
      let (c', ds') ← row c ds
      let (cs', ds'') ← rows row p cs ds'
      pure (c' :: cs', ds'')
    else
      let (cs', ds') ← rows row p cs ds
      pure (c :: cs', ds')

/-- Dead, or at or below a component of the other side. -/
def Component.below (c : Component) : Bool := !c.alive || decide (0 < c.mark)

/-- Alive, and at or below a component of the other side. -/
def Component.within (c : Component) : Bool := c.alive && decide (0 < c.mark)

/-- The components `simple_intersect` unites when the meet is neither one of
its operands nor kept as a node. -/
def keptComponents (left right : List Component) : List Component :=
  if left.all Component.below then left.filter (·.alive)
  else if right.all Component.below then right.filter (·.alive)
  else left.filter (fun c => c.alive && decide (2 ≤ c.mark)) ++
    right.filter (fun c => c.alive && decide (0 ≤ c.mark))

/-- The decision of `simple_intersect` once every component carries its
marks. -/
def meetFromMarks (a b : Ty) (overesi : Nat) (left right : List Component) : AllocM Ty :=
  if left.all (!·.alive) then pure Ty.bottom
  else if left.all Component.within then pure a
  else if right.all Component.within then pure b
  else if overesi = 0 && !left.all Component.below && !right.all Component.below then
    pure Ty.bottom
  else if overesi = 1 && !left.all Component.below && !right.all Component.below then do
    let i ← fresh
    pure (.inter i a b)
  else if (keptComponents left right).isEmpty then pure Ty.bottom
  else unionOf issubtype ((keptComponents left right).map (·.ty))

/-- `simple_intersect` in mode `overesi` (0 exact or empty, 1 exact with a meet
node, 2 over-approximating). -/
def simpleIntersect (a b : Ty) (overesi : Nat) : AllocM Ty := do
  let left := a.flattenUnion.map fun t => { ty := t : Component }
  let right := b.flattenUnion.map fun t => { ty := t : Component }
  let (left, right) ← rows (aliveRow issubtype) (fun _ => true) left right
  let (left, right) ← rows (markRow issubtype) (·.alive) left right
  meetFromMarks issubtype a b overesi left right

/-- `simple_meet`. -/
def simpleMeet (a b : Ty) (overesi : Nat) : AllocM Ty :=
  if a = Ty.any ∨ b = Ty.bottom ∨ a.obviouslyEgal b then pure b
  else if b = Ty.any ∨ a = Ty.bottom then pure a
  else if overesi = 1 ∧ (a.isIntersect ∨ b.isIntersect) then do
    let i ← fresh
    pure (.inter i a b)
  else if !a.isTypeOrTypevar || !b.isTypeOrTypevar then pure Ty.bottom
  else if a.isKind && b.isTypeType && (b.typeParam.map Ty.typeOf = some a) then pure b
  else if b.isKind && a.isTypeType && (a.typeParam.map Ty.typeOf = some b) then pure a
  else if a.isTypevar && b.obviouslyEgal a.tvarUb then pure a
  else if b.isTypevar && a.obviouslyEgal b.tvarUb then pure b
  else simpleIntersect issubtype a b overesi

/-- `widen_intersect`: replace a spine of meet nodes by a real type. -/
def widenIntersect : Ty → AllocM Ty
  | .inter _ a b => do
    let a' ← widenIntersect a
    let b' ← widenIntersect b
    simpleMeet issubtype a' b' 2
  | t => pure t

end

end Ruju
