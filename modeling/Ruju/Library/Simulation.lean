import Mathlib.Logic.Basic

/-!
# Simulations between state transformers that may not return

Computations here are `StateT σ Option α`: a state transformer whose `none`
stands for a run that does not return.  `Sim strict R Q m m'` relates two of
them: from states related by `R`, either both return, with values related by
`Q` and states related by `R` again, or neither does.  When `strict` is off the
right one may return where the left one does not.

One relation therefore serves for two kinds of result.  With `strict` on it is
a bisimulation: an equivariance theorem "renaming the input renames the output"
is a `Sim` along the graph of the renaming.  With `strict` off it is the order
of definedness: raising the bound of a bounded recursion gives a `Sim` along
equality.  A proof that follows the structure of a program covers both at once.
-/

namespace Ruju

universe u v

section
variable {σ τ α β : Type u} {γ δ : Type u}

/-- The relation between two outcomes. -/
def OutcomeRel {α β : Type u} (strict : Bool) (Q : α → β → Prop) :
    Option α → Option β → Prop
  | some a, some b => Q a b
  | some _, none => False
  | none, some _ => strict = false
  | none, none => True

section Outcomes

variable {strict : Bool} {Q : α → β → Prop} {x : Option α} {y : Option β}

theorem OutcomeRel.map {Q' : γ → δ → Prop} {f : α → γ} {g : β → δ} (h : OutcomeRel strict Q x y)
    (hf : ∀ a b, Q a b → Q' (f a) (g b)) : OutcomeRel strict Q' (x.map f) (y.map g) := by
  cases x <;> cases y <;> simp_all [OutcomeRel]

/-- The left run has returned, and so the right one. -/
theorem OutcomeRel.exists_some {a : α} (h : OutcomeRel strict Q (some a) y) :
    ∃ b, y = some b ∧ Q a b := by
  cases y <;> simp_all [OutcomeRel]

/-- Under a strict relation the values are the same. -/
theorem OutcomeRel.map_eq {f : α → γ} {g : β → γ} (h : OutcomeRel true Q x y)
    (hf : ∀ a b, Q a b → f a = g b) : x.map f = y.map g := by
  cases x <;> cases y <;> simp [OutcomeRel] at h ⊢
  exact hf _ _ h

end Outcomes

/-- Related computations. -/
def Sim (strict : Bool) (R : σ → τ → Prop) (Q : α → β → Prop)
    (m : StateT σ Option α) (m' : StateT τ Option β) : Prop :=
  ∀ s s', R s s' →
    OutcomeRel strict (fun p q => Q p.1 q.1 ∧ R p.2 q.2) (m s) (m' s')

namespace Sim

variable {strict : Bool} {R : σ → τ → Prop} {Q : α → β → Prop} {P : γ → δ → Prop}

theorem ret {a : α} {b : β} (h : Q a b) :
    Sim strict R Q (pure a : StateT σ Option α) (pure b) :=
  fun _ _ hs => ⟨h, hs⟩

theorem andThen {m : StateT σ Option α} {m' : StateT τ Option β}
    {f : α → StateT σ Option γ} {g : β → StateT τ Option δ}
    (hm : Sim strict R Q m m')
    (hf : ∀ a b, Q a b → Sim strict R P (f a) (g b)) :
    Sim strict R P (m >>= f) (m' >>= g) := by
  intro s s' hs
  have h := hm s s' hs
  show OutcomeRel _ _ ((m s).bind fun p => f p.1 p.2)
    ((m' s').bind fun p => g p.1 p.2)
  cases hms : m s with
  | none =>
    rw [hms] at h
    cases hms' : m' s' with
    | none => trivial
    | some q =>
      rw [hms'] at h
      -- the left run is over: whatever the right one does is allowed
      cases hg : g q.1 q.2 with
      | none => simp [OutcomeRel, hg]
      | some r => simpa [OutcomeRel, hg] using h
  | some p =>
    rw [hms] at h
    cases hms' : m' s' with
    | none =>
      rw [hms'] at h
      exact h.elim
    | some q =>
      rw [hms'] at h
      exact hf p.1 q.1 h.1 p.2 q.2 h.2

/-- Both computations have returned the same value. -/
theorem bindEq {m : StateT σ Option α} {m' : StateT τ Option α} {f : α → StateT σ Option γ}
    {g : α → StateT τ Option δ} (hm : Sim strict R (fun a b => a = b) m m')
    (hf : ∀ a, Sim strict R P (f a) (g a)) : Sim strict R P (m >>= f) (m' >>= g) :=
  hm.andThen fun a _ h => h ▸ hf a

/-- The value of the right computation depends on that of the left one. -/
theorem bindMap {m : StateT σ Option α} {m' : StateT τ Option β} {f : α → StateT σ Option γ}
    {g : β → StateT τ Option δ} {k : α → β} (hm : Sim strict R (fun a b => b = k a) m m')
    (hf : ∀ a, Sim strict R P (f a) (g (k a))) : Sim strict R P (m >>= f) (m' >>= g) :=
  hm.andThen fun a _ h => h ▸ hf a

theorem next {m : StateT σ Option α} {m' : StateT τ Option β} {n : StateT σ Option γ}
    {n' : StateT τ Option δ} (hm : Sim strict R Q m m') (hn : Sim strict R P n n') :
    Sim strict R P (m >>= fun _ => n) (m' >>= fun _ => n') :=
  hm.andThen fun _ _ _ => hn

/-- A computation that never returns is below every other. -/
theorem stuck {m' : StateT τ Option β}
    (h : strict = true → ∀ s', m' s' = none) :
    Sim strict R Q (fun _ => none) m' := by
  intro s s' _
  cases hm : m' s' with
  | none => trivial
  | some q =>
    cases strict with
    | false => rfl
    | true => exact absurd (h rfl s') (by simp [hm])

theorem getState : Sim strict R R (get : StateT σ Option σ) get :=
  fun _ _ hs => ⟨hs, hs⟩

theorem setState {s₀ : σ} {s₀' : τ} (h : R s₀ s₀') :
    Sim strict R (fun _ _ => True)
      (set s₀ : StateT σ Option PUnit) (set s₀') :=
  fun _ _ _ => ⟨trivial, h⟩

theorem update {f : σ → σ} {f' : τ → τ} (h : ∀ s s', R s s' → R (f s) (f' s')) :
    Sim strict R (fun _ _ => True)
      (modify f : StateT σ Option PUnit) (modify f') :=
  fun s s' hs => ⟨trivial, h s s' hs⟩

theorem branch {c c' : Prop} [Decidable c] [Decidable c'] {m n : StateT σ Option α}
    {m' n' : StateT τ Option β} (hm : Sim strict R Q m m') (hn : Sim strict R Q n n')
    (hc : c ↔ c') : Sim strict R Q (if c then m else n) (if c' then m' else n') := by
  by_cases h : c
  · rwa [if_pos h, if_pos (hc.mp h)]
  · rwa [if_neg h, if_neg (mt hc.mpr h)]

/-- Both computations branch on the same condition. -/
theorem ite {c : Prop} [Decidable c] {m n : StateT σ Option α} {m' n' : StateT τ Option β}
    (hm : Sim strict R Q m m') (hn : Sim strict R Q n n') :
    Sim strict R Q (if c then m else n) (if c then m' else n') :=
  branch hm hn Iff.rfl

theorem mono {Q' : α → β → Prop} {m : StateT σ Option α} {m' : StateT τ Option β}
    (h : Sim strict R Q m m') (hQ : ∀ a b, Q a b → Q' a b) :
    Sim strict R Q' m m' := by
  intro s s' hs
  have := h s s' hs
  cases hm : m s <;> cases hm' : m' s' <;> simp_all [OutcomeRel]

end Sim

end

end Ruju
