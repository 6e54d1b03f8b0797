import Mathlib.Logic.Relation

/-!
# Long runs of a machine

A machine is given by its step relation.  `Spins next n c` says that it can take `n`
steps from `c`.  A source program that needs more fuel than it has is related to this,
where one that ends is related to a configuration that the machine reaches: both
statements then compose in the same way, by the steps in front of them.
-/

namespace Ruju

variable {C : Type} {next : C → C → Prop} {c c' : C} {m n : Nat}

/-- The machine can take `n` steps. -/
def Spins (next : C → C → Prop) : Nat → C → Prop
  | 0, _ => True
  | n + 1, c => ∃ c', next c c' ∧ Spins next n c'

theorem Spins.pred (h : Spins next (n + 1) c) : Spins next n c := by
  induction n generalizing c with
  | zero => trivial
  | succ n ih =>
    obtain ⟨c', hstep, hrest⟩ := h
    exact ⟨c', hstep, ih hrest⟩

theorem Spins.anti (h : Spins next n c) (hmn : m ≤ n) : Spins next m c := by
  induction hmn with
  | refl => exact h
  | step _ ih => exact ih h.pred

/-- Steps in front of a long run. -/
theorem Spins.of_reaches (hr : Relation.ReflTransGen next c c') (h : Spins next n c') :
    Spins next n c := by
  induction hr using Relation.ReflTransGen.head_induction_on with
  | refl => exact h
  | head hstep _ ih => exact Spins.pred ⟨_, hstep, ih⟩

end Ruju
