import Ruju.Library.Dominators
import Mathlib.Data.Finset.Max
import Mathlib.Data.List.Cycle

/-!
# Reducible graphs

A graph with an entry is reducible if every cycle runs through a vertex that dominates all
vertices of the cycle.

Whether a graph is reducible can be read off one numbering of the vertices.  An edge that
does not lead to a larger number is retreating, and every cycle has a retreating edge, into
its vertex with the smallest number.  If the targets of retreating edges dominate their
sources, the graph is reducible (`reducible_of_retreating`), whatever the numbering is.  For
the converse the numbering has to come from a depth-first search, of which two facts are
used: a vertex can be reached through smaller numbers, and the source of a retreating edge
can be reached from the target through larger ones (`Reducible.dominates`).
-/

namespace Ruju

variable {V : Type*} (edge : V → V → Prop) (entry : V)

/-- Every cycle has a vertex that dominates all of it. -/
def Reducible : Prop :=
  ∀ c : Cycle V, c ≠ Cycle.nil → c.Chain edge → ∃ d ∈ c, ∀ b ∈ c, Dominates edge entry d b

variable {edge entry}

/-- On the way to `m` through vertices with larger numbers, `m` dominates every vertex. -/
theorem dominates_of_isChain {pos : V → Nat} {m : V}
    (hback : ∀ u, edge u m → pos m ≤ pos u → Dominates edge entry m u) {l : List V}
    (hl : (l ++ [m]).IsChain edge) (hpos : ∀ x ∈ l, pos m ≤ pos x) :
    ∀ x ∈ l, Dominates edge entry m x := by
  induction l with
  | nil => exact fun x hx => absurd hx List.not_mem_nil
  | cons b l ih =>
    have hrest := ih hl.tail fun x hx => hpos x (List.mem_cons_of_mem _ hx)
    refine List.forall_mem_cons.mpr ⟨?_, hrest⟩
    have hb : pos m ≤ pos b := hpos b List.mem_cons_self
    cases l with
    | nil =>
      have hedge : edge b m := by simpa using hl
      exact hback b hedge hb
    | cons b' l =>
      have hedge : edge b b' := (List.isChain_cons_cons.mp hl).1
      by_cases hm : m = b'
      · subst hm
        exact hback b hedge hb
      · exact (hrest b' List.mem_cons_self).pred hm hedge

/-- If retreating edges lead to dominators, the graph is reducible. -/
theorem reducible_of_retreating {pos : V → Nat}
    (h : ∀ u v, edge u v → pos v ≤ pos u → Dominates edge entry v u) :
    Reducible edge entry := by
  intro c hne hchain
  induction c using Quotient.inductionOn with
  | h l =>
    have hl : l ≠ [] := by
      rintro rfl
      exact hne rfl
    -- the vertex with the smallest number, moved to the front
    obtain ⟨m, hm, hmin⟩ : ∃ m ∈ l, ∀ x ∈ l, pos m ≤ pos x := by
      classical
      obtain ⟨m, hm, hmin⟩ := l.toFinset.exists_min_image pos (by simpa using hl)
      exact ⟨m, List.mem_toFinset.mp hm, fun x hx => hmin x (List.mem_toFinset.mpr hx)⟩
    obtain ⟨l₁, l₂, rfl⟩ := List.append_of_mem hm
    have hrot : ((l₁ ++ m :: l₂ : List V) : Cycle V) = ((m :: (l₂ ++ l₁) : List V) : Cycle V) :=
      Cycle.coe_eq_coe.mpr List.isRotated_append
    have hc : ((m :: (l₂ ++ l₁) : List V) : Cycle V).Chain edge := by
      rw [← hrot]
      exact hchain
    rw [Cycle.chain_coe_cons] at hc
    refine ⟨m, hm, fun b hb => ?_⟩
    refine dominates_of_isChain (fun u => h u m) (l := m :: (l₂ ++ l₁)) hc ?_ b ?_
    · intro x hx
      refine hmin x ?_
      simp only [List.mem_cons, List.mem_append] at hx ⊢
      tauto
    · have hb' : b ∈ l₁ ++ m :: l₂ := hb
      simp only [List.mem_cons, List.mem_append] at hb' ⊢
      tauto

/-- In a reducible graph the target of an edge dominates the source, if it can be reached
through smaller numbers and leads back to the source through larger ones. -/
theorem Reducible.dominates (h : Reducible edge entry) {pos : V → Nat} {u v : V} {p l : List V}
    (hp : PathTo edge entry p v) (hsmall : ∀ x ∈ p, x = v ∨ pos x < pos v)
    (hl : (v :: l).IsChain edge) (hlast : (v :: l).getLast? = some u) (hedge : edge u v)
    (hlarge : ∀ x ∈ l, pos v ≤ pos x) : Dominates edge entry v u := by
  have hchain : ((v :: l : List V) : Cycle V).Chain edge := by
    rw [Cycle.chain_coe_cons, ← List.cons_append]
    refine List.isChain_append.mpr ⟨hl, List.isChain_singleton v, ?_⟩
    intro x hx y hy
    rw [hlast] at hx
    cases hx
    cases hy
    exact hedge
  have hv : v ∈ ((v :: l : List V) : Cycle V) := Cycle.mem_coe_iff.mpr List.mem_cons_self
  have hne : ((v :: l : List V) : Cycle V) ≠ Cycle.nil := by
    intro hnil
    rw [hnil] at hv
    exact Cycle.notMem_nil v hv
  obtain ⟨d, hd, hdom⟩ := h _ hne hchain
  have hu : u ∈ v :: l := List.mem_of_getLast? hlast
  -- a vertex of the cycle that dominates the target can only be the target
  have hdv : d = v := by
    rcases List.mem_cons.mp (Cycle.mem_coe_iff.mp hd) with hdv | hdl
    · exact hdv
    · rcases hsmall d (hdom v hv p hp) with hdv | hlt
      · exact hdv
      · exact absurd (hlarge d hdl) (Nat.not_le_of_lt hlt)
  rw [← hdv]
  exact hdom u (Cycle.mem_coe_iff.mpr hu)

end Ruju
