import Mathlib.Data.Set.Insert
import Mathlib.Logic.Relation
import Mathlib.Tactic.Common
import Mathlib.Algebra.Order.Ring.Nat

/-!
# Dominators, and trees given by parent pointers

A vertex dominates another one if every path from the entry to it runs through the first.
The immediate dominator is the strict dominator that all other strict dominators dominate.

A partial tree is a function to parents.  `Above` is its ancestor relation, `Rising` says
that parents have smaller ranks, and `IsMeet` is the nearest common ancestor of a set of
vertices.  The lemmas about `Function.update` say which ancestors are left when one vertex
gets another parent.

The two are connected by `Bounding`: every strict dominator of a vertex dominates its
parent.  Giving a vertex the meet of its predecessors keeps it (`Bounding.update`).  If in
addition every parent is above all predecessors, parents are immediate dominators
(`isIdom_of_bounding`).
-/

namespace Ruju

/-! ### Domination -/

section Paths

variable {V : Type*} (edge : V → V → Prop) (entry : V)

/-- The vertices of a path from the entry to a vertex, the last one first. -/
inductive PathTo : List V → V → Prop
  | entry : PathTo [entry] entry
  | step {l : List V} {u v : V} : PathTo l u → edge u v → PathTo (v :: l) v

/-- Every path from the entry to `x` runs through `d`. -/
def Dominates (d x : V) : Prop := ∀ l, PathTo edge entry l x → d ∈ l

/-- The closest strict dominator. -/
structure IsIdom (d x : V) : Prop where
  ne : d ≠ x
  dominates : Dominates edge entry d x
  closest : ∀ c, c ≠ x → Dominates edge entry c x → Dominates edge entry c d

variable {edge entry}

theorem PathTo.mem {l : List V} {x : V} (h : PathTo edge entry l x) : x ∈ l := by
  cases h with
  | entry => exact List.mem_singleton_self _
  | step => exact List.mem_cons_self

theorem dominates_entry (x : V) : Dominates edge entry entry x := by
  intro l hl
  induction hl with
  | entry => exact List.mem_singleton_self _
  | step _ _ ih => exact List.mem_cons_of_mem _ ih

/-- A path has the paths to its vertices as parts. -/
theorem PathTo.exists_of_mem {l : List V} {x y : V} (h : PathTo edge entry l x) (hy : y ∈ l) :
    ∃ l', PathTo edge entry l' y ∧ l' ⊆ l := by
  induction h with
  | entry =>
    rw [List.mem_singleton.mp hy]
    exact ⟨_, .entry, fun _ h => h⟩
  | @step l u v hl hedge ih =>
    rcases List.mem_cons.mp hy with rfl | hy
    · exact ⟨_, hl.step hedge, fun _ h => h⟩
    · obtain ⟨l', hl', hsub⟩ := ih hy
      exact ⟨l', hl', List.Subset.trans hsub (List.subset_cons_self _ _)⟩

/-- A strict dominator dominates the predecessors. -/
theorem Dominates.pred {d x p : V} (h : Dominates edge entry d x) (hne : d ≠ x)
    (hedge : edge p x) : Dominates edge entry d p := by
  intro l hl
  exact (List.mem_cons.mp (h (x :: l) (hl.step hedge))).resolve_left hne

end Paths

/-! ### Parent pointers -/

section Chains

variable {V : Type*} (parent : V → Option V)

/-- The parents lead from `x` to `a`. -/
def Above (x a : V) : Prop := Relation.ReflTransGen (fun x y => parent x = some y) x a

/-- The root is its own parent, and every other parent has a parent and a smaller rank. -/
structure Rising (root : V) (rank : V → Nat) : Prop where
  own : parent root = some root
  up : ∀ {x y}, parent x = some y → x ≠ root → rank y < rank x
  defined : ∀ {x y}, parent x = some y → (parent y).isSome

/-- The nearest common ancestor. -/
structure IsMeet (S : Set V) (m : V) : Prop where
  above : ∀ x ∈ S, Above parent x m
  least : ∀ c, (∀ x ∈ S, Above parent x c) → Above parent m c

variable {parent}

namespace Above

theorem refl (x : V) : Above parent x x := Relation.ReflTransGen.refl

theorem head {x y a : V} (hxy : parent x = some y) (h : Above parent y a) : Above parent x a :=
  Relation.ReflTransGen.head hxy h

theorem trans {x y z : V} (hxy : Above parent x y) (hyz : Above parent y z) :
    Above parent x z :=
  Relation.ReflTransGen.trans hxy hyz

/-- The ancestors of a vertex are a chain. -/
theorem total {x a b : V} (ha : Above parent x a) (hb : Above parent x b) :
    Above parent a b ∨ Above parent b a :=
  Relation.ReflTransGen.total_of_right_unique
    (fun _ _ _ h₁ h₂ => Option.some.inj (h₁.symm.trans h₂)) ha hb

/-- An ancestor is the vertex itself or above its parent. -/
theorem cases {x a : V} (h : Above parent x a) :
    x = a ∨ ∃ y, parent x = some y ∧ Above parent y a :=
  Relation.ReflTransGen.cases_head h

end Above

theorem IsMeet.singleton (x : V) : IsMeet parent {x} x where
  above := by
    rintro _ rfl
    exact Above.refl _
  least c h := h x rfl

/-- The meet of a set is computed one member at a time. -/
theorem IsMeet.insert {S : Set V} {x m k : V} (hm : IsMeet parent S m)
    (hk : IsMeet parent {x, m} k) : IsMeet parent (insert x S) k where
  above := by
    rintro y (rfl | hy)
    · exact hk.above y (Or.inl rfl)
    · exact (hm.above y hy).trans (hk.above m (Or.inr rfl))
  least c h := by
    refine hk.least c ?_
    rintro y (rfl | rfl)
    · exact h y (Or.inl rfl)
    · exact hm.least c fun z hz => h z (Or.inr hz)

namespace Rising

variable {root : V} {rank : V → Nat} (r : Rising parent root rank)

include r

theorem rank_le {x a : V} (h : Above parent x a) : rank a ≤ rank x := by
  induction h using Relation.ReflTransGen.head_induction_on with
  | refl => exact le_rfl
  | @head x y hxy _ ih =>
    by_cases hx : x = root
    · subst hx
      rw [r.own] at hxy
      cases hxy
      exact ih
    · exact ih.trans (r.up hxy hx).le

/-- An ancestor of the same rank is the vertex itself. -/
theorem eq_of_rank_le {x a : V} (h : Above parent x a) (hle : rank x ≤ rank a) : a = x := by
  induction h using Relation.ReflTransGen.head_induction_on with
  | refl => rfl
  | @head x y hxy hya ih =>
    by_cases hx : x = root
    · subst hx
      rw [r.own] at hxy
      cases hxy
      exact ih hle
    · have hup := r.up hxy hx
      have hrank := r.rank_le hya
      omega

theorem above_root_eq {a : V} (h : Above parent root a) : a = root := by
  induction h with
  | refl => rfl
  | tail _ hstep ih =>
    rw [ih, r.own] at hstep
    exact (Option.some.inj hstep).symm

theorem isSome_of_above {x a : V} (h : Above parent x a) (hx : (parent x).isSome) :
    (parent a).isSome := by
  induction h with
  | refl => exact hx
  | tail _ hstep _ => exact r.defined hstep

theorem not_above_of_rank_lt {x b : V} (h : rank x < rank b) : ¬ Above parent x b :=
  fun hxb => absurd (r.rank_le hxb) (by omega)

end Rising

/-! ### Another parent for one vertex -/

section Update

variable [DecidableEq V] {b m : V}

theorem above_update_of_not_above {x a : V} (h : Above parent x a) (hb : ¬ Above parent x b) :
    Above (Function.update parent b (some m)) x a := by
  induction h using Relation.ReflTransGen.head_induction_on with
  | refl => exact Above.refl a
  | @head x y hxy _ ih =>
    have hx : x ≠ b := by
      rintro rfl
      exact hb (Above.refl x)
    refine Above.head ?_ (ih fun hyb => hb (hyb.head hxy))
    rw [Function.update_of_ne hx]
    exact hxy

/-- A vertex that gets one of its ancestors as its parent loses ancestors, and so do the
vertices below it; no vertex gains any. -/
theorem above_of_above_update {x a : V} (hm : Above parent b m)
    (h : Above (Function.update parent b (some m)) x a) : Above parent x a := by
  induction h using Relation.ReflTransGen.head_induction_on with
  | refl => exact Above.refl a
  | @head x y hxy _ ih =>
    by_cases hx : x = b
    · subst hx
      rw [Function.update_self] at hxy
      cases hxy
      exact hm.trans ih
    · rw [Function.update_of_ne hx] at hxy
      exact ih.head hxy

variable {root : V} {rank : V → Nat} (r : Rising parent root rank)

include r

/-- The chain down to the rank of `b` stays as it is. -/
theorem Rising.above_update {x a : V} (h : Above parent x a) (hb : b ≠ root)
    (hle : rank b ≤ rank a) : Above (Function.update parent b (some m)) x a := by
  induction h using Relation.ReflTransGen.head_induction_on with
  | refl => exact Above.refl a
  | @head x y hxy hya ih =>
    have hx : x ≠ b := by
      rintro rfl
      have hup := r.up hxy hb
      have hrank := r.rank_le hya
      omega
    refine ih.head ?_
    rw [Function.update_of_ne hx]
    exact hxy

/-- While `b` had no parent, nothing was below it. -/
theorem Rising.above_of_above_update_none {x a : V} (hx : (parent x).isSome)
    (hb : parent b = none) (h : Above (Function.update parent b (some m)) x a) :
    Above parent x a := by
  induction h using Relation.ReflTransGen.head_induction_on with
  | refl => exact Above.refl a
  | @head x y hxy _ ih =>
    have hne : x ≠ b := by
      rintro rfl
      rw [hb] at hx
      cases hx
    rw [Function.update_of_ne hne] at hxy
    exact (ih (r.defined hxy)).head hxy

theorem Rising.update (hb : b ≠ root) (hlt : rank m < rank b) (hm : (parent m).isSome) :
    Rising (Function.update parent b (some m)) root rank where
  own := by
    rw [Function.update_of_ne hb.symm]
    exact r.own
  up := by
    intro x y hxy hx
    by_cases hxb : x = b
    · subst hxb
      rw [Function.update_self] at hxy
      cases hxy
      exact hlt
    · rw [Function.update_of_ne hxb] at hxy
      exact r.up hxy hx
  defined := by
    intro x y hxy
    by_cases hyb : y = b
    · rw [hyb, Function.update_self]
      rfl
    · rw [Function.update_of_ne hyb]
      by_cases hxb : x = b
      · subst hxb
        rw [Function.update_self] at hxy
        cases hxy
        exact hm
      · rw [Function.update_of_ne hxb] at hxy
        exact r.defined hxy

end Update

end Chains

/-! ### Parents and dominators -/

section Bounding

variable {V : Type*} {edge : V → V → Prop} {entry : V} {rank : V → Nat} {parent : V → Option V}

variable (edge entry parent) in
/-- Every strict dominator of a vertex dominates its parent. -/
def Bounding : Prop :=
  ∀ x y, parent x = some y → x ≠ entry → ∀ d, d ≠ x → Dominates edge entry d x →
    Dominates edge entry d y

/-- The entry has no strict dominator. -/
theorem Dominates.eq_entry {d : V} (h : Dominates edge entry d entry) : d = entry :=
  List.mem_singleton.mp (h [entry] .entry)

namespace Bounding

/-- Dominators are ancestors. -/
theorem above (j : Bounding edge entry parent) (r : Rising parent entry rank) {d x : V}
    (hx : (parent x).isSome) (hd : Dominates edge entry d x) : Above parent x d := by
  induction hn : rank x using Nat.strong_induction_on generalizing x with
  | _ n ih =>
    subst hn
    by_cases hdx : d = x
    · rw [hdx]
      exact Above.refl x
    · have hentry : x ≠ entry := by
        rintro rfl
        exact hdx hd.eq_entry
      obtain ⟨y, hy⟩ := Option.isSome_iff_exists.mp hx
      have hdy := j x y hy hentry d hdx hd
      exact (ih (rank y) (r.up hy hentry) (r.defined hy) hdy rfl).head hy

/-- A dominator of `x` dominates the ancestors of `x` below it. -/
theorem dominates_of_above (j : Bounding edge entry parent) (r : Rising parent entry rank)
    {d x m : V} (hd : Dominates edge entry d x) (hxm : Above parent x m)
    (hmd : Above parent m d) : Dominates edge entry d m := by
  induction hxm using Relation.ReflTransGen.head_induction_on with
  | refl => exact hd
  | @head x y hxy hym ih =>
    by_cases hentry : x = entry
    · subst hentry
      rw [r.own] at hxy
      cases hxy
      exact ih hd
    · have hne : d ≠ x := by
        rintro rfl
        have hup := r.up hxy hentry
        have hrank := r.rank_le (hym.trans hmd)
        omega
      exact ih (j x y hxy hentry d hne hd)

/-- What dominates all of a set dominates its meet. -/
theorem dominates_meet (j : Bounding edge entry parent) (r : Rising parent entry rank)
    {S : Set V} {m d p : V} (hp : p ∈ S) (hS : ∀ x ∈ S, (parent x).isSome)
    (hm : IsMeet parent S m) (hd : ∀ x ∈ S, Dominates edge entry d x) :
    Dominates edge entry d m := by
  have hmd : Above parent m d := hm.least d fun x hx => j.above r (hS x hx) (hd x hx)
  exact j.dominates_of_above r (hd p hp) (hm.above p hp) hmd

/-- A vertex may get the meet of its predecessors as its parent. -/
theorem update [DecidableEq V] (j : Bounding edge entry parent)
    (r : Rising parent entry rank) {S : Set V} {b m p : V} (hp : p ∈ S)
    (hS : ∀ x ∈ S, edge x b ∧ (parent x).isSome) (hm : IsMeet parent S m) :
    Bounding edge entry (Function.update parent b (some m)) := by
  intro x y hxy hx d hdx hd
  by_cases hxb : x = b
  · subst hxb
    rw [Function.update_self] at hxy
    cases hxy
    exact j.dominates_meet r hp (fun x hx => (hS x hx).2) hm
      fun x hx => hd.pred hdx (hS x hx).1
  · rw [Function.update_of_ne hxb] at hxy
    exact j x y hxy hx d hdx hd

end Bounding

/-- If parents are above predecessors, ancestors dominate. -/
theorem dominates_of_above_preds (r : Rising parent entry rank)
    (hpred : ∀ u v, edge u v → v ≠ entry → ∃ y, parent v = some y ∧ Above parent u y)
    {x a : V} (h : Above parent x a) : Dominates edge entry a x := by
  intro l hl
  induction hl generalizing a with
  | entry =>
    rw [r.above_root_eq h]
    exact List.mem_singleton_self entry
  | @step l u v _ hedge ih =>
    by_cases hv : v = entry
    · subst hv
      rw [r.above_root_eq h]
      exact List.mem_cons_self
    · rcases h.cases with rfl | ⟨y, hy, hya⟩
      · exact List.mem_cons_self
      · obtain ⟨y', hy', huy⟩ := hpred u v hedge hv
        obtain rfl := Option.some.inj (hy.symm.trans hy')
        exact List.mem_cons_of_mem v (ih (huy.trans hya))

/-- **Parents are immediate dominators.** -/
theorem isIdom_of_bounding (j : Bounding edge entry parent) (r : Rising parent entry rank)
    (hpred : ∀ u v, edge u v → v ≠ entry → ∃ y, parent v = some y ∧ Above parent u y)
    {x y : V} (hx : x ≠ entry) (hxy : parent x = some y) : IsIdom edge entry y x where
  ne := by
    rintro rfl
    exact absurd (r.up hxy hx) (lt_irrefl _)
  dominates := dominates_of_above_preds r hpred ((Above.refl y).head hxy)
  closest c hc hdom := j x y hxy hx c hc hdom

end Bounding

end Ruju
