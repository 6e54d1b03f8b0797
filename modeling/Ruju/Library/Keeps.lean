import Mathlib.Logic.Basic

/-!
# Invariants of computations that throw

Computations with a state, which can throw an exception and keep what they did up
to then, or stop altogether.  `Keeps I Allowed m Q` says that `m` keeps the
invariant `I` of the state, whether it returns or throws, that it stops only for a
reason in `Allowed`, and that `Q` holds of what it returns.  There is one rule for
every way to build a computation; the monad is unfolded here and nowhere else.

`Couples R R' m` compares two runs of `m`, from states that `R` relates: they end in the
same way and with the same result, in states that `R'` relates where they return and `R`
where they throw.  Its rules are the same ones.
-/

namespace Ruju

/-! ### Results -/

section Results

variable {E α β : Type}

/-- A sequence of two computations returns iff both do. -/
theorem bind_eq_ok {x : Except E α} {f : α → Except E β} {b : β} :
    (x >>= f) = .ok b ↔ ∃ a, x = .ok a ∧ f a = .ok b := by
  cases x with
  | error e =>
    constructor
    · intro h
      cases h
    · rintro ⟨a, h, -⟩
      cases h
  | ok a =>
    constructor
    · exact fun h => ⟨a, rfl, h⟩
    · rintro ⟨a', h, h'⟩
      cases h
      exact h'

theorem map_eq_ok {x : Except E α} {f : α → β} {b : β} :
    x.map f = .ok b ↔ ∃ a, x = .ok a ∧ f a = b := by
  cases x <;> simp [Except.map]

end Results

/-! ### Invariants -/

section Keeps

variable {E S X α β : Type} {I : S → Prop} {Allowed : X → Prop}

/-- `m` keeps `I`, stops only as allowed, and returns what satisfies `Q`. -/
def Keeps (I : S → Prop) (Allowed : X → Prop) (m : ExceptT E (StateT S (Except X)) α)
    (Q : α → Prop) : Prop :=
  ∀ s, I s →
    match m s with
    | .error x => Allowed x
    | .ok (.error _, s') => I s'
    | .ok (.ok a, s') => I s' ∧ Q a

namespace Keeps

variable {m : ExceptT E (StateT S (Except X)) α} {Q Q' : α → Prop} {R : β → Prop}

theorem pure {a : α} (ha : Q a) :
    Keeps I Allowed (Pure.pure a : ExceptT E (StateT S (Except X)) α) Q :=
  fun _ hs => ⟨hs, ha⟩

theorem throw {e : E} :
    Keeps I Allowed (MonadExcept.throw e : ExceptT E (StateT S (Except X)) α) Q :=
  fun _ hs => hs

theorem get : Keeps I Allowed (MonadState.get : ExceptT E (StateT S (Except X)) S) I :=
  fun _ hs => ⟨hs, hs⟩

theorem of_modify {f : S → S} (hf : ∀ s, I s → I (f s)) :
    Keeps I Allowed (modify f : ExceptT E (StateT S (Except X)) PUnit) fun _ => True :=
  fun s hs => ⟨hf s hs, trivial⟩

/-- What `m >>= f` does in a state. -/
theorem bind_apply (f : α → ExceptT E (StateT S (Except X)) β) (s : S) :
    (m >>= f) s =
      match m s with
      | .error x => .error x
      | .ok (.error e, s') => .ok (.error e, s')
      | .ok (.ok a, s') => f a s' := by
  show (StateT.bind m _) s = _
  unfold StateT.bind
  cases m s with
  | error x => rfl
  | ok r =>
    obtain ⟨r, s'⟩ := r
    cases r <;> rfl

theorem bind {f : α → ExceptT E (StateT S (Except X)) β} (hm : Keeps I Allowed m Q)
    (hf : ∀ a, Q a → Keeps I Allowed (f a) R) : Keeps I Allowed (m >>= f) R := by
  intro s hs
  have h := hm s hs
  rw [bind_apply]
  cases hms : m s with
  | error x => simpa [hms] using h
  | ok r =>
    obtain ⟨r, s'⟩ := r
    rw [hms] at h
    cases r with
    | error e => exact h
    | ok a => exact hf a h.2 s' h.1

theorem ite {c : Prop} [Decidable c] {m' : ExceptT E (StateT S (Except X)) α}
    (h : c → Keeps I Allowed m Q) (h' : ¬ c → Keeps I Allowed m' Q) :
    Keeps I Allowed (if c then m else m') Q := by
  split
  · exact h ‹_›
  · exact h' ‹_›

end Keeps

end Keeps

/-! ### Two runs -/

section Couples

variable {E S X α β : Type} {R R' R'' : S → S → Prop}

/-- Two runs from states in `R` end alike: in states in `R'` if they return, and in `R` if they
throw. -/
def Couples (R R' : S → S → Prop) (m : ExceptT E (StateT S (Except X)) α) : Prop :=
  ∀ s t, R s t →
    match m s, m t with
    | .error x, .error y => x = y
    | .ok (.error e, s'), .ok (.error e', t') => e = e' ∧ R s' t'
    | .ok (.ok a, s'), .ok (.ok b, t') => a = b ∧ R' s' t'
    | _, _ => False

namespace Couples

variable {m : ExceptT E (StateT S (Except X)) α}

theorem pure (a : α) : Couples R R (Pure.pure a : ExceptT E (StateT S (Except X)) α) :=
  fun _ _ h => ⟨rfl, h⟩

theorem throw (e : E) : Couples R R (MonadExcept.throw e : ExceptT E (StateT S (Except X)) α) :=
  fun _ _ h => ⟨rfl, h⟩

theorem of_modify {f : S → S} (hf : ∀ s t, R s t → R (f s) (f t)) :
    Couples R R (modify f : ExceptT E (StateT S (Except X)) PUnit) :=
  fun s t h => ⟨rfl, hf s t h⟩

theorem bind {f : α → ExceptT E (StateT S (Except X)) β} (hm : Couples R R' m)
    (hf : ∀ a, Couples R' R'' (f a)) (hmono : ∀ s t, R' s t → R s t) :
    Couples R R'' (m >>= f) := by
  intro s t h
  have hmst := hm s t h
  rw [Keeps.bind_apply, Keeps.bind_apply]
  rcases hs : m s with x | ⟨e | a, s'⟩ <;> rcases ht : m t with y | ⟨e' | b, t'⟩ <;>
    rw [hs, ht] at hmst
  all_goals first | exact hmst | exact hmst.elim | skip
  obtain ⟨rfl, hst⟩ := hmst
  have hrest := hf a s' t' hst
  dsimp only
  rcases hs' : f a s' with x | ⟨e | b, s''⟩ <;> rcases ht' : f a t' with y | ⟨e' | b', t''⟩ <;>
    rw [hs', ht'] at hrest
  all_goals first | exact hrest | exact hrest.elim | exact ⟨hrest.1, hmono _ _ hrest.2⟩

/-- One relation throughout. -/
theorem seq {f : α → ExceptT E (StateT S (Except X)) β} (hm : Couples R R m)
    (hf : ∀ a, Couples R R' (f a)) : Couples R R' (m >>= f) := hm.bind hf fun _ _ h => h

/-- The state is looked at, at what is the same in both runs. -/
theorem get_bind {f : S → ExceptT E (StateT S (Except X)) β}
    (hsame : ∀ s t, R s t → f s = f t) (hf : ∀ s, Couples R R' (f s)) :
    Couples R R' (MonadState.get >>= f) := by
  intro s t h
  have hget : ∀ u : S, (MonadState.get >>= f) u = f u u := fun u => Keeps.bind_apply f u
  rw [hget s, hget t, ← hsame s t h]
  exact hf s s t h

theorem ite {c : Prop} [Decidable c] {m' : ExceptT E (StateT S (Except X)) α}
    (h : Couples R R' m) (h' : Couples R R' m') : Couples R R' (if c then m else m') := by
  split
  · exact h
  · exact h'

end Couples

end Couples

end Ruju
