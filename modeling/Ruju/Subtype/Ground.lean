import Ruju.Library.Search
import Ruju.Subtype.Engine

/-!
# Ground queries as decision trees

On ground types — no variables, no `where`, no meet nodes — the environment of
the algorithm plays no part, and a call of `sub` is determined by the union
decisions it reads.  `tree x y` is that call as a decision tree: the left and
right arms it picks, the shortcuts that return before an arm is picked, the
element pairs of two tuples (`elementPairs`) and the comparison of invariant
parameters (`equalTree`).  Nested queries of the source are answered by whether
*their* tree holds.

The trees are defined by one step over an arbitrary recursive call, guarded by
the weight of its arguments; `tree_eq` removes the guard.  That the algorithm
runs these trees is the subject of the next module.

A `Vararg` with a literal count does not occur: `tuple_type` expands it when the
element is ground.
-/

namespace Ruju

/-- The number of parameters of an invariant constructor. -/
def Con.arity : Con → Nat
  | .pair => 2
  | _ => 1

/-- No struct on the supertype chain is declared below `Union{}`. -/
def Nominal.isProper : Nominal → Bool
  | builtin _ => true
  | struct _ _ s _ => decide (s ≠ builtin .bottom) && s.isProper

variable {ps : List Ty} {x t y : Ty}

namespace Ty

mutual

/-- A ground type: no variables, and a `Vararg` only at the end of a tuple. -/
def isGround : Ty → Bool
  | nominal n => n.isProper
  | app .tuple ps => groundElems ps
  | app c ps => decide (ps.length = c.arity) && groundParams ps
  | union _ a b => isGround a && isGround b
  | _ => false

/-- Ground elements of a tuple. -/
def groundElems : List Ty → Bool
  | [] => true
  | [vararg _ t] => isGround t
  | p :: ps => isGround p && groundElems ps

/-- Ground parameters of an invariant constructor. -/
def groundParams : List Ty → Bool
  | [] => true
  | p :: ps => isGround p && groundParams ps

end

mutual

/-- The number of nodes of a type. -/
def weight : Ty → Nat
  | nominal _ => 1
  | app _ ps => weights ps + 1
  | union _ a b => weight a + weight b + 1
  | tvar _ _ a b => weight a + weight b + 1
  | unionall _ _ _ a b t => weight a + weight b + weight t + 1
  | vararg _ t => weight t + 1
  | varargN _ t n => weight t + weight n + 1
  | long .. => 1
  | inter _ a b => weight a + weight b + 1

/-- The weight of a parameter list. -/
def weights : List Ty → Nat
  | [] => 0
  | p :: ps => weight p + weights ps

end

theorem weight_pos (t : Ty) : 0 < t.weight := by
  cases t <;> simp [weight]

variable {p : Ty}

theorem weight_le_weights (h : p ∈ ps) : p.weight ≤ weights ps := by
  induction ps with
  | nil => cases h
  | cons q ps ih =>
    rw [weights]
    rcases List.mem_cons.mp h with rfl | h
    · omega
    · have := ih h
      omega

variable {c : Con}

/-- A parameter is lighter than the type. -/
theorem weight_lt_of_mem (h : p ∈ ps) :
    p.weight < (app c ps).weight := by
  have := weight_le_weights h
  rw [weight]
  omega

theorem weight_typeOf (t : Ty) : t.typeOf.weight = 1 := by
  cases t <;> rfl

theorem mem_of_typeParam (h : x.typeParam = some t) :
    ∃ ps, x = app .type ps ∧ t ∈ ps := by
  cases x with
  | app c ps =>
    cases c with
    | type =>
      cases ps with
      | nil => cases h
      | cons p ps =>
        cases h
        exact ⟨_, rfl, List.mem_cons_self ..⟩
    | _ => cases h
  | _ => cases h

/-- The kind of the parameter of a `Type{T}` weighs less than the `Type{T}`. -/
theorem weight_typeOf_lt (h : x.typeParam = some t) : t.typeOf.weight < x.weight := by
  obtain ⟨ps, rfl, ht⟩ := mem_of_typeParam h
  have hlt := weight_lt_of_mem (c := .type) ht
  have hpos := t.weight_pos
  rw [weight_typeOf]
  omega

theorem groundParams_iff : groundParams ps = true ↔ ∀ p ∈ ps, p.isGround := by
  induction ps with
  | nil => simp [groundParams]
  | cons p ps ih => simp [groundParams, ih]

/-! ### Arms -/

/-- The members of a union, from left to right; a type that is no union is its
own only arm. -/
def arms : Ty → List Ty
  | union _ a b => arms a ++ arms b
  | t => [t]

theorem arms_of_not_union (h : t.isUnion = false) : t.arms = [t] := by
  cases t <;> first | rfl | cases h

theorem not_union_of_mem_arms (h : x ∈ t.arms) : x.isUnion = false := by
  induction t with
  | union i a b iha ihb =>
    rcases List.mem_append.mp h with h | h
    · exact iha h
    · exact ihb h
  | _ => rw [List.mem_singleton.mp h]; rfl

theorem weight_le_of_mem_arms (h : x ∈ t.arms) : x.weight ≤ t.weight := by
  induction t with
  | union i a b iha ihb =>
    rw [weight]
    rcases List.mem_append.mp h with h | h
    · have := iha h
      omega
    · have := ihb h
      omega
  | _ => rw [List.mem_singleton.mp h]

theorem isGround_of_mem_arms (ht : t.isGround) (h : x ∈ t.arms) : x.isGround := by
  induction t with
  | union i a b iha ihb =>
    simp only [isGround, Bool.and_eq_true] at ht
    rcases List.mem_append.mp h with h | h
    · exact iha ht.1 h
    · exact ihb ht.2 h
  | _ => rw [List.mem_singleton.mp h]; exact ht

/-! ### Elements of tuples -/

/-- The elements before a trailing `Vararg`, and the element type of that. -/
def splitElems : List Ty → List Ty × Option Ty
  | [] => ([], none)
  | [vararg _ t] => ([], some t)
  | p :: ps => (p :: (splitElems ps).1, (splitElems ps).2)

/-- The pairs `tuple_subtype` compares, in its order; `none` when the lengths
decide against it.  The element of a `Vararg` on the left is compared twice,
and nothing is compared with a trailing `Vararg{Any}` but that element. -/
def elementPairs (ps qs : List Ty) : Option (List (Ty × Ty)) :=
  match splitElems ps, splitElems qs with
  | (xs, none), (ys, none) => if xs.length = ys.length then some (xs.zip ys) else none
  | (xs, none), (ys, some v) =>
    if ys.length ≤ xs.length then
      some (xs.zip ys ++ if v = any then [] else (xs.drop ys.length).map fun x => (x, v))
    else none
  | (_, some _), (_, none) => none
  | (xs, some s), (ys, some v) =>
    if ys.length ≤ xs.length then
      some (xs.zip ys ++ (if v = any then [] else (xs.drop ys.length).map fun x => (x, v)) ++
        [(s, v), (s, v)])
    else none

theorem splitElems_cons (hp : ∀ i t, p = vararg i t → ps = [] → False) :
    splitElems (p :: ps) = (p :: (splitElems ps).1, (splitElems ps).2) := by
  rw [splitElems]
  exact hp

theorem mem_of_mem_splitElems (h : x ∈ (splitElems ps).1) : x ∈ ps := by
  fun_induction splitElems ps with
  | case1 => cases h
  | case2 => cases h
  | case3 p ps hp ih =>
    rcases List.mem_cons.mp h with rfl | h
    · exact List.mem_cons_self ..
    · exact List.mem_cons_of_mem _ (ih h)

theorem vararg_mem_of_splitElems (h : (splitElems ps).2 = some t) :
    ∃ i, vararg i t ∈ ps := by
  fun_induction splitElems ps with
  | case1 => cases h
  | case2 i u =>
    cases h
    exact ⟨i, List.mem_singleton_self _⟩
  | case3 p ps hp ih =>
    obtain ⟨i, hi⟩ := ih h
    exact ⟨i, List.mem_cons_of_mem _ hi⟩

/-- The element types of a tuple, that of a trailing `Vararg` included. -/
def IsElem (t : Ty) (ps : List Ty) : Prop :=
  t ∈ (splitElems ps).1 ∨ (splitElems ps).2 = some t

theorem IsElem.weight_lt (h : IsElem t ps) :
    t.weight < (app c ps).weight := by
  rcases h with h | h
  · exact weight_lt_of_mem (mem_of_mem_splitElems h)
  · obtain ⟨i, hi⟩ := vararg_mem_of_splitElems h
    have hlt := weight_lt_of_mem (c := c) hi
    have hvararg : (vararg i t).weight = t.weight + 1 := by rw [weight]
    omega

theorem groundElems_cons (hp : ∀ i t, p = vararg i t → ps = [] → False) :
    groundElems (p :: ps) = (p.isGround && groundElems ps) := by
  rw [groundElems]
  exact hp

theorem groundElems_split (h : groundElems ps) (ht : IsElem t ps) :
    t.isGround := by
  unfold IsElem at ht
  fun_induction splitElems ps with
  | case1 => simp at ht
  | case2 i u =>
    obtain rfl : u = t := by simpa using ht
    simpa [groundElems] using h
  | case3 p ps hp ih =>
    rw [groundElems_cons hp, Bool.and_eq_true] at h
    rcases ht with ht | ht
    · rcases List.mem_cons.mp ht with rfl | ht
      · exact h.1
      · exact ih h.2 (Or.inl ht)
    · exact ih h.2 (Or.inr ht)

/-- The two shapes of a ground tuple: all elements ground, or a trailing
`Vararg` behind ground elements. -/
theorem groundElems_cases (h : groundElems ps) :
    (splitElems ps = (ps, none) ∧ ∀ p ∈ ps, p.isGround) ∨
      ∃ xs i s, ps = xs ++ [vararg i s] ∧ splitElems ps = (xs, some s) ∧
        (∀ p ∈ xs, p.isGround) ∧ s.isGround := by
  fun_induction splitElems ps with
  | case1 => exact Or.inl ⟨rfl, by simp⟩
  | case2 i s => exact Or.inr ⟨[], i, s, rfl, rfl, by simp, by simpa [groundElems] using h⟩
  | case3 p ps hp ih =>
    rw [groundElems_cons hp, Bool.and_eq_true] at h
    rcases ih h.2 with ⟨hs, hps⟩ | ⟨xs, i, s, rfl, hs, hxs, hg⟩
    · refine Or.inl ⟨by rw [hs], fun q hq => ?_⟩
      rcases List.mem_cons.mp hq with rfl | hq
      · exact h.1
      · exact hps q hq
    · refine Or.inr ⟨p :: xs, i, s, rfl, by rw [hs], fun q hq => ?_, hg⟩
      rcases List.mem_cons.mp hq with rfl | hq
      · exact h.1
      · exact hxs q hq

/-- Induction over ground types, with a hypothesis for every element of a
tuple and every parameter of an invariant constructor. -/
theorem ground_induct {P : Ty → Prop} (nominal : ∀ n, n.isProper → P (nominal n))
    (tuple : ∀ ps, groundElems ps → (∀ t, IsElem t ps → P t) → P (app .tuple ps))
    (app : ∀ c ps, c ≠ .tuple → ps.length = c.arity → (∀ p ∈ ps, p.isGround) →
      (∀ p ∈ ps, P p) → P (app c ps))
    (union : ∀ i a b, a.isGround → b.isGround → P a → P b → P (union i a b)) :
    ∀ t : Ty, t.isGround → P t := by
  suffices h : ∀ n (t : Ty), t.weight ≤ n → t.isGround → P t from
    fun t => h t.weight t le_rfl
  intro n
  induction n with
  | zero =>
    intro t ht
    have := t.weight_pos
    omega
  | succ n ih =>
    intro t ht hg
    cases t with
    | nominal m => exact nominal m (by simpa [isGround] using hg)
    | union i a b =>
      rw [weight] at ht
      simp only [isGround, Bool.and_eq_true] at hg
      exact union i a b hg.1 hg.2 (ih a (by omega) hg.1) (ih b (by omega) hg.2)
    | app c ps =>
      by_cases hc : c = .tuple
      · subst hc
        rw [isGround] at hg
        refine tuple ps hg fun u hu => ih u ?_ (groundElems_split hg hu)
        have := hu.weight_lt (c := .tuple)
        omega
      · have hg' : (decide (ps.length = c.arity) && groundParams ps) = true := by
          cases c <;> first | exact absurd rfl hc | exact hg
        rw [Bool.and_eq_true, decide_eq_true_eq, groundParams_iff] at hg'
        refine app c ps hc hg'.1 hg'.2 fun p hp => ih p ?_ (hg'.2 p hp)
        have := weight_lt_of_mem (c := c) hp
        omega
    | _ => simp [isGround] at hg

/-- The pairs `tuple_subtype` compares are pairs of elements. -/
theorem isElem_of_mem_elementPairs {qs : List Ty} {pairs : List (Ty × Ty)}
    (h : elementPairs ps qs = some pairs) {p : Ty × Ty} (hp : p ∈ pairs) :
    IsElem p.1 ps ∧ IsElem p.2 qs := by
  have hzip : ∀ {xs ys : List Ty}, p ∈ xs.zip ys → p.1 ∈ xs ∧ p.2 ∈ ys := fun h =>
    ⟨(List.of_mem_zip h).1, (List.of_mem_zip h).2⟩
  have hrest : ∀ {xs ys : List Ty} {v : Ty},
      p ∈ (if v = any then [] else (xs.drop ys.length).map fun x => (x, v)) →
      p.1 ∈ xs ∧ p.2 = v := by
    intro xs ys v hmem
    split at hmem
    · cases hmem
    · obtain ⟨x, hx, rfl⟩ := List.mem_map.mp hmem
      exact ⟨List.mem_of_mem_drop hx, rfl⟩
  unfold elementPairs at h
  split at h
  case h_1 xs ys hxs hys =>
    split at h <;> cases h
    have := hzip hp
    simp only [IsElem, hxs, hys]
    tauto
  case h_2 xs ys v hxs hys =>
    split at h <;> cases h
    simp only [IsElem, hxs, hys]
    rcases List.mem_append.mp hp with hp | hp
    · have := hzip hp
      tauto
    · obtain ⟨h₁, h₂⟩ := hrest hp
      exact ⟨Or.inl h₁, Or.inr (by rw [h₂])⟩
  case h_3 => cases h
  case h_4 xs s ys v hxs hys =>
    split at h <;> cases h
    simp only [IsElem, hxs, hys]
    rcases List.mem_append.mp hp with hp | hp
    · rcases List.mem_append.mp hp with hp | hp
      · have := hzip hp
        tauto
      · obtain ⟨h₁, h₂⟩ := hrest hp
        exact ⟨Or.inl h₁, Or.inr (by rw [h₂])⟩
    · have : p = (s, v) := by simpa using hp
      subst this
      exact ⟨Or.inr rfl, Or.inr rfl⟩

/-- The supertype chain has no instantiation but the type itself. -/
theorem eq_of_walkToName
    (h : walkToName x y = some (app c ps)) : x = app c ps := by
  unfold walkToName at h
  split at h
  · have hmem := List.mem_of_find?_eq_some h
    cases x with
    | nominal n => simp [supers] at hmem
    | app d qs => cases d <;> simp_all [supers, builtin, any]
    | _ => simp [supers] at hmem
  · cases h

theorem nameOf_of_walkToName {xd : Ty} (h : walkToName x y = some xd) :
    y.nameOf = xd.nameOf := by
  unfold walkToName at h
  split at h
  case h_1 n hn =>
    have := List.find?_some h
    rw [hn]
    exact (of_decide_eq_true this).symm
  · cases h

end Ty

/-! ### The tree of a call -/

open DecisionTree (ret left right)

section
variable (g : Ty → Ty → DecisionTree)

/-- Compare the pairs in order, as long as they succeed. -/
def allTree : List (Ty × Ty) → DecisionTree
  | [] => ret true
  | p :: ps => (g p.1 p.2).and (allTree ps)

/-- `local_forall_exists_subtype` on ground types: a shortcut, or a query of its
own. -/
noncomputable def localAnswer (x y : Ty) : Bool :=
  open Classical in y.obviouslyInUnion x || decide (g x y).Holds

/-- The tail of `forall_exists_equal`. -/
noncomputable def bothWaysTree (x y : Ty) : DecisionTree :=
  ret (localAnswer g x y && localAnswer g y x)

/-- `forall_exists_equal` up to its greedy path. -/
noncomputable def equalWithTree (greedy : Option DecisionTree) (x y : Ty) : DecisionTree :=
  if x.obviouslyEgal y then ret true
  else if (x.isIndefiniteLengthTuple && y.isDefiniteLengthTuple) ||
      (x.isDefiniteLengthTuple && y.isIndefiniteLengthTuple) then ret false
  else if x.isDatatype && y.isDatatype && x.nameOf ≠ y.nameOf then ret false
  else if x.isDatatype && y.isDatatype && !x.isTuple then g x y
  else
    match greedy with
    | some m => right m (bothWaysTree g x y)
    | none => bothWaysTree g x y

/-- `forall_exists_equal`. -/
noncomputable def equalTree (x y : Ty) : DecisionTree :=
  equalWithTree g
    (match x, y with
      | .union _ a b, .union _ c d => some ((equalTree a c).and (equalTree b d))
      | _, _ => none)
    x y

/-- The parameters of two instantiations of one invariant constructor. -/
noncomputable def invariantTree : List Ty → List Ty → DecisionTree
  | x :: xs, y :: ys =>
    if x = y then invariantTree xs ys else (equalTree g x y).and (invariantTree xs ys)
  | _, _ => ret true

/-- The elements of two tuples. -/
def tupleTree (ps qs : List Ty) : DecisionTree :=
  match Ty.elementPairs ps qs with
  | some pairs => allTree g pairs
  | none => ret false

/-- `datatype_subtype`. -/
noncomputable def datatypeTree (x y : Ty) : DecisionTree :=
  if x = y || y = Ty.any then ret true
  else
    match walkToName x y with
    | none => ret false
    | some xd =>
      if xd.isTuple then tupleTree g (xd.parameters.getD []) (y.parameters.getD [])
      else
        match xd.parameters, y.parameters with
        | some ps, some qs => invariantTree g ps qs
        | _, _ => ret true

/-- `sub` without unions at the top: the trivial bounds, the kind rules and the
`DataType`s. -/
noncomputable def armTree (x y : Ty) : DecisionTree :=
  if y = Ty.any then ret true
  else if x = Ty.bottom then ret true
  else
    match x.typeParam, y.typeParam with
    | some t, none => g t.typeOf y
    | none, some _ => ret false
    | _, _ => datatypeTree g x y

end

/-- One decision per level of a union's spine. -/
def pickTree (node : DecisionTree → DecisionTree → DecisionTree) (f : Ty → DecisionTree) :
    Ty → DecisionTree
  | .union _ a b => node (pickTree node f a) (pickTree node f b)
  | t => f t

section
variable (g : Ty → Ty → DecisionTree)

/-- `sub` with no union on the left. -/
noncomputable def rightTree (x y : Ty) : DecisionTree :=
  if y.isUnion then
    if y.obviouslyInUnion x then ret true else pickTree right (armTree g x) y
  else armTree g x y

/-- `sub`. -/
noncomputable def treeStep (x y : Ty) : DecisionTree :=
  if x = y then ret true
  else if x.isUnion then
    if x.obviouslyEgal y then ret true else pickTree left (fun x' => rightTree g x' y) x
  else rightTree g x y

end

/-- `sub` on ground types.  The recursive call is cut off where it is not on
smaller arguments, which does not happen (`tree_eq`). -/
noncomputable def tree (x y : Ty) : DecisionTree :=
  treeStep (fun p q => if p.weight + q.weight < x.weight + y.weight then tree p q else ret false)
    x y
termination_by x.weight + y.weight

/-! ### Only smaller arguments are compared -/

section Congr
variable {g g' : Ty → Ty → DecisionTree} {n : Nat}

theorem allTree_congr {pairs : List (Ty × Ty)} (h : ∀ p ∈ pairs, g p.1 p.2 = g' p.1 p.2) :
    allTree g pairs = allTree g' pairs := by
  induction pairs with
  | nil => rfl
  | cons p ps ih =>
    rw [allTree, allTree, h p (List.mem_cons_self ..),
      ih fun q hq => h q (List.mem_cons_of_mem _ hq)]

theorem localAnswer_congr (h : g x y = g' x y) :
    localAnswer g x y = localAnswer g' x y := by
  rw [localAnswer, localAnswer, h]

theorem equalWithTree_congr (greedy : Option DecisionTree) (h : g x y = g' x y)
    (hback : g y x = g' y x) : equalWithTree g greedy x y = equalWithTree g' greedy x y := by
  simp only [equalWithTree, bothWaysTree, h, localAnswer_congr h, localAnswer_congr hback]

theorem equalTree_union (i j : Nat) (a b c d : Ty) :
    equalTree g (.union i a b) (.union j c d) =
      equalWithTree g (some ((equalTree g a c).and (equalTree g b d))) (.union i a b)
        (.union j c d) := by
  rw [equalTree]

theorem equalTree_of_not_unions (h : (x.isUnion && y.isUnion) = false) :
    equalTree g x y = equalWithTree g none x y := by
  rw [equalTree]
  rintro i a b j c d rfl rfl
  cases h

theorem equalTree_of_egal (h : x.obviouslyEgal y) : equalTree g x y = ret true := by
  have hwith : ∀ m, equalWithTree g m x y = ret true := fun m => by simp [equalWithTree, h]
  cases hu : x.isUnion && y.isUnion with
  | false => rw [equalTree_of_not_unions hu, hwith]
  | true =>
    cases x with
    | union i a b =>
      cases y with
      | union j c d => rw [equalTree_union, hwith]
      | _ => cases hu
    | _ => cases hu

theorem equalTree_congr
    (h : ∀ p q, p.weight + q.weight ≤ x.weight + y.weight → g p q = g' p q) :
    equalTree g x y = equalTree g' x y := by
  have hback := h y x (by omega)
  induction x generalizing y with
  | union i a b iha ihb =>
    cases y with
    | union j c d =>
      have hl := iha (y := c) (fun p q hpq => h p q (by simp only [Ty.weight]; omega))
        (h c a (by simp only [Ty.weight]; omega))
      have hr := ihb (y := d) (fun p q hpq => h p q (by simp only [Ty.weight]; omega))
        (h d b (by simp only [Ty.weight]; omega))
      rw [equalTree_union, equalTree_union, hl, hr, equalWithTree_congr _ (h _ _ le_rfl) hback]
    | _ =>
      rw [equalTree_of_not_unions rfl, equalTree_of_not_unions rfl,
        equalWithTree_congr _ (h _ _ le_rfl) hback]
  | _ =>
    rw [equalTree_of_not_unions rfl, equalTree_of_not_unions rfl,
      equalWithTree_congr _ (h _ _ le_rfl) hback]

theorem invariantTree_congr {qs : List Ty}
    (h : ∀ p ∈ ps, ∀ q ∈ qs, equalTree g p q = equalTree g' p q) :
    invariantTree g ps qs = invariantTree g' ps qs := by
  induction ps generalizing qs with
  | nil => rw [invariantTree, invariantTree] <;> simp
  | cons p ps ih =>
    cases qs with
    | nil => rw [invariantTree, invariantTree] <;> simp
    | cons q qs =>
      rw [invariantTree, invariantTree, h p (List.mem_cons_self ..) q (List.mem_cons_self ..),
        ih fun p' hp' q' hq' =>
          h p' (List.mem_cons_of_mem _ hp') q' (List.mem_cons_of_mem _ hq')]

theorem pickTree_congr {node : DecisionTree → DecisionTree → DecisionTree}
    {f f' : Ty → DecisionTree} (h : ∀ x ∈ t.arms, f x = f' x) :
    pickTree node f t = pickTree node f' t := by
  induction t with
  | union i a b iha ihb =>
    rw [pickTree, pickTree, iha fun x hx => h x (List.mem_append_left _ hx),
      ihb fun x hx => h x (List.mem_append_right _ hx)]
  | _ => exact h _ (List.mem_singleton_self _)

theorem datatypeTree_congr
    (h : ∀ p q, p.weight + q.weight < x.weight + y.weight → g p q = g' p q) :
    datatypeTree g x y = datatypeTree g' x y := by
  unfold datatypeTree
  split
  · rfl
  · split
    · rfl
    case h_2 xd hxd =>
      cases xd with
      | app c ps =>
        obtain rfl := Ty.eq_of_walkToName hxd
        cases y with
        | app d qs =>
          split
          · simp only [Ty.parameters, Option.getD_some, tupleTree]
            split
            case h_1 pairs hpairs =>
              refine allTree_congr fun p hp => h _ _ ?_
              obtain ⟨h₁, h₂⟩ := Ty.isElem_of_mem_elementPairs hpairs hp
              exact Nat.add_lt_add h₁.weight_lt h₂.weight_lt
            · rfl
          · simp only [Ty.parameters]
            refine invariantTree_congr fun p hp q hq => equalTree_congr fun p' q' hpq => ?_
            have h₁ := Ty.weight_lt_of_mem (c := c) hp
            have h₂ := Ty.weight_lt_of_mem (c := d) hq
            exact h p' q' (by omega)
        | _ =>
          simp only [Ty.parameters, Option.getD_some, Option.getD_none, tupleTree]
          split
          · split
            case h_1 pairs hpairs =>
              refine allTree_congr fun p hp => ?_
              have := (Ty.isElem_of_mem_elementPairs hpairs hp).2
              simp [Ty.IsElem, Ty.splitElems] at this
            · rfl
          · rfl
      | _ => rfl

theorem armTree_congr
    (h : ∀ p q, p.weight + q.weight < x.weight + y.weight → g p q = g' p q) :
    armTree g x y = armTree g' x y := by
  unfold armTree
  split
  · rfl
  · split
    · rfl
    · split
      case h_1 t hx hy =>
        have hlt := Ty.weight_typeOf_lt hx
        exact h _ _ (by omega)
      · rfl
      · exact datatypeTree_congr h

/-- The tree of a pair depends on those of lighter pairs only. -/
theorem treeStep_congr
    (h : ∀ p q, p.weight + q.weight < x.weight + y.weight → g p q = g' p q) :
    treeStep g x y = treeStep g' x y := by
  have hright : ∀ x' ∈ x.arms, rightTree g x' y = rightTree g' x' y := by
    intro x' hx'
    have hwx := Ty.weight_le_of_mem_arms hx'
    have harm : ∀ y' ∈ y.arms, armTree g x' y' = armTree g' x' y' := by
      intro y' hy'
      have hwy := Ty.weight_le_of_mem_arms hy'
      exact armTree_congr fun p q hpq => h p q (by omega)
    unfold rightTree
    split
    · rw [pickTree_congr harm]
    · refine harm y ?_
      rw [Ty.arms_of_not_union (by simpa using ‹¬ y.isUnion = true›)]
      exact List.mem_singleton_self _
  unfold treeStep
  split
  · rfl
  · split
    · rw [pickTree_congr hright]
    · refine hright x ?_
      rw [Ty.arms_of_not_union (by simpa using ‹¬ x.isUnion = true›)]
      exact List.mem_singleton_self _

end Congr

/-- The tree of a call is one step over the trees of the calls it makes. -/
theorem tree_eq (x y : Ty) : tree x y = treeStep tree x y := by
  rw [tree]
  exact treeStep_congr fun p q hpq => if_pos hpq

end Ruju
