import Ruju.Aot.Emit

/-!
# Locals and slots

What `Fixture.slots` gives to the statements: a value-producing statement has a local of its
own, of the type of its value, and one of reference type has a slot of its own.  The other
lemmas say how errors and instructions of pieces add up.
-/

namespace Ruju.Aot

/-! ### Pieces -/

namespace Piece

@[simp]
theorem insns_append (p q : Piece) : (p ++ q).insns = p.insns ++ q.insns := rfl

@[simp]
theorem err_append (p q : Piece) : (p ++ q).err = p.err.or q.err := rfl

theorem err_append_eq_none {p q : Piece} : (p ++ q).err = none ↔ p.err = none ∧ q.err = none := by
  rw [err_append, Option.or_eq_none_iff]

theorem concat_cons_eq_some {p : Option Piece} {ps : List (Option Piece)} {q : Piece} :
    concat (p :: ps) = some q ↔ ∃ p' q', p = some p' ∧ concat ps = some q' ∧ q = p' ++ q' := by
  cases p with
  | none => simp [concat]
  | some p =>
    cases hq : concat ps with
    | none => simp [concat, hq]
    | some q' => simp [concat, hq, eq_comm]

theorem isSome_concat {ps : List (Option Piece)} (h : ∀ p ∈ ps, p.isSome) : (concat ps).isSome := by
  induction ps with
  | nil => rfl
  | cons p ps ih =>
    obtain ⟨hp, hps⟩ := List.forall_mem_cons.mp h
    obtain ⟨p', hp'⟩ := Option.isSome_iff_exists.mp hp
    obtain ⟨q, hq⟩ := Option.isSome_iff_exists.mp (ih hps)
    rw [concat_cons_eq_some.mpr ⟨p', q, hp', hq, rfl⟩]
    rfl

/-- If no error is left at the end, there has been none. -/
theorem of_concat {ps : List (Option Piece)} {q : Piece} (h : concat ps = some q) :
    ∀ p ∈ ps, ∃ p', p = some p' ∧ (q.err = none → p'.err = none) := by
  induction ps generalizing q with
  | nil => exact fun p hp => absurd hp List.not_mem_nil
  | cons p ps ih =>
    obtain ⟨p', q', rfl, hps, rfl⟩ := concat_cons_eq_some.mp h
    refine List.forall_mem_cons.mpr ⟨⟨p', rfl, fun hq => (err_append_eq_none.mp hq).1⟩, ?_⟩
    intro p hp
    obtain ⟨p₁, rfl, herr⟩ := ih hps p hp
    exact ⟨p₁, rfl, fun hq => herr (err_append_eq_none.mp hq).2⟩

/-- Without errors in the pieces there is none at the end. -/
theorem err_concat {ps : List (Option Piece)} {q : Piece} (h : concat ps = some q)
    (hps : ∀ p ∈ ps, ∀ p' ∈ p, p'.err = none) : q.err = none := by
  induction ps generalizing q with
  | nil =>
    cases h
    rfl
  | cons p ps ih =>
    obtain ⟨p', q', rfl, hq', rfl⟩ := concat_cons_eq_some.mp h
    obtain ⟨hp, hps⟩ := List.forall_mem_cons.mp hps
    exact err_append_eq_none.mpr ⟨hp p' rfl, ih hq' hps⟩

end Piece

/-! ### Numbers for statements -/

/-- An element of an extended list is an old one or the new one. -/
theorem getElem?_concat_cases {α : Type} {l : List α} {a b : α} {i : Nat}
    (h : (l ++ [a])[i]? = some b) : l[i]? = some b ∨ i = l.length ∧ a = b := by
  by_cases hi : i < l.length
  · rw [List.getElem?_append_left hi] at h
    exact Or.inl h
  · rw [List.getElem?_append_right (Nat.le_of_not_lt hi)] at h
    have hlt := (List.getElem?_eq_some_iff.mp h).1
    have hzero : i - l.length = 0 := by
      rw [List.length_singleton] at hlt
      omega
    rw [hzero] at h
    exact Or.inr ⟨by omega, Option.some.inj h⟩

theorem getElem?_concat_of_some {α : Type} {l : List α} {a b : α} {i : Nat}
    (h : l[i]? = some b) : (l ++ [a])[i]? = some b := by
  rw [List.getElem?_append_left (List.getElem?_eq_some_iff.mp h).1]
  exact h

/-- The statements with a property are numbered from `base` up to `next`. -/
structure Numbered (p : Stmt → Bool) (base next : Nat) (stmts : List Stmt)
    (numbers : List (Option Nat)) : Prop where
  length : numbers.length = stmts.length
  next_eq : next = base + stmts.countP p
  some_iff : ∀ (i : Nat) (st : Stmt), stmts[i]? = some st →
    ((∃ k, numbers[i]? = some (some k)) ↔ p st = true)
  bounds : ∀ i k : Nat, numbers[i]? = some (some k) → base ≤ k ∧ k < next
  inj : ∀ i j k : Nat, numbers[i]? = some (some k) → numbers[j]? = some (some k) → i = j

namespace Numbered

variable {p : Stmt → Bool} {base next : Nat} {stmts : List Stmt} {numbers : List (Option Nat)}
  {st : Stmt}

theorem nil (p : Stmt → Bool) (base : Nat) : Numbered p base base [] [] := by
  constructor <;> simp

theorem concat_none (h : Numbered p base next stmts numbers) (hst : p st = false) :
    Numbered p base next (stmts ++ [st]) (numbers ++ [none]) := by
  have hold : ∀ {i k : Nat}, (numbers ++ [none])[i]? = some (some k) →
      numbers[i]? = some (some k) := by
    intro i k hi
    rcases getElem?_concat_cases hi with hi | ⟨-, hno⟩
    · exact hi
    · cases hno
  refine ⟨by simp [h.length], by simp [h.next_eq, hst], fun i st' hi => ?_,
    fun i k hi => h.bounds i k (hold hi),
    fun i j k hi hj => h.inj i j k (hold hi) (hold hj)⟩
  rcases getElem?_concat_cases hi with hi | ⟨rfl, rfl⟩
  · rw [← h.some_iff i st' hi]
    exact exists_congr fun k => ⟨hold, getElem?_concat_of_some⟩
  · rw [hst]
    refine iff_of_false ?_ Bool.false_ne_true
    rintro ⟨k, hk⟩
    have hlt := (List.getElem?_eq_some_iff.mp (hold hk)).1
    rw [h.length] at hlt
    exact absurd hlt (lt_irrefl _)

theorem concat_some (h : Numbered p base next stmts numbers) (hst : p st = true) :
    Numbered p base (next + 1) (stmts ++ [st]) (numbers ++ [some next]) := by
  have hold : ∀ {i k : Nat}, (numbers ++ [some next])[i]? = some (some k) →
      numbers[i]? = some (some k) ∨ i = numbers.length ∧ k = next := by
    intro i k hi
    rcases getElem?_concat_cases hi with hi | ⟨hi, hk⟩
    · exact Or.inl hi
    · exact Or.inr ⟨hi, (Option.some.inj hk).symm⟩
  refine ⟨by simp [h.length], ?_, fun i st' hi => ?_, fun i k hi => ?_,
    fun i j k hi hj => ?_⟩
  · rw [List.countP_append, List.countP_singleton, if_pos hst, h.next_eq, Nat.add_assoc]
  · rcases getElem?_concat_cases hi with hi | ⟨rfl, rfl⟩
    · rw [← h.some_iff i st' hi]
      refine exists_congr fun k => ⟨fun hk => ?_, getElem?_concat_of_some⟩
      refine (hold hk).resolve_right fun hno => ?_
      have hlt := (List.getElem?_eq_some_iff.mp hi).1
      rw [hno.1, h.length] at hlt
      exact lt_irrefl _ hlt
    · refine iff_of_true ⟨next, ?_⟩ hst
      rw [← h.length, List.getElem?_concat_length]
  · rcases hold hi with hi | ⟨-, rfl⟩
    · have hk := h.bounds i k hi
      omega
    · have hnext := h.next_eq
      omega
  · rcases hold hi with hi' | ⟨hi', hk⟩
    · rcases hold hj with hj' | ⟨-, hk⟩
      · exact h.inj i j k hi' hj'
      · have hlt := (h.bounds i k hi').2
        omega
    · rcases hold hj with hj' | ⟨hj', -⟩
      · have hlt := (h.bounds j k hj').2
        omega
      · omega

end Numbered

/-! ### Slots -/

/-- Statements with a value of reference type. -/
def Stmt.holdsRef (st : Stmt) : Bool := st.stmt.producesValue && isRef st.ty

/-- What the statements so far have been given. -/
structure SlotsFor (nargs : Nat) (stmts : List Stmt) (s : Slots) : Prop where
  ssa : Numbered (fun st => st.stmt.producesValue) nargs (nargs + s.locals.length) stmts s.ssaLocal
  ref : Numbered Stmt.holdsRef 0 s.nrefs stmts s.refSlot
  types : ∀ i l : Nat, s.ssaLocal[i]? = some (some l) →
    ∃ (st : Stmt) (vt : ValType), stmts[i]? = some st ∧ valtype st.ty = some vt ∧
      s.locals[l - nargs]? = some vt
  getField : ∀ st ∈ stmts, st.stmt.isGetField = true → s.hasGetField = true

/-- A statement gets the next local, and a reference the next slot. -/
theorem SlotsFor.add {nargs : Nat} {stmts : List Stmt} {s s' : Slots} {st : Stmt}
    (h : SlotsFor nargs stmts s) (hadd : s.add nargs st = .ok s') :
    SlotsFor nargs (stmts ++ [st]) s' := by
  have hfield : ∀ st' ∈ stmts ++ [st], st'.stmt.isGetField = true →
      (s.hasGetField || st.stmt.isGetField) = true := by
    intro st' hst' hget
    rw [Bool.or_eq_true]
    rcases List.mem_append.mp hst' with hst' | hst'
    · exact Or.inl (h.getField st' hst' hget)
    · rw [List.mem_singleton.mp hst'] at hget
      exact Or.inr hget
  unfold Slots.add at hadd
  cases hvalue : st.stmt.producesValue with
  | false =>
    rw [hvalue, if_neg Bool.false_ne_true] at hadd
    cases hadd
    refine ⟨h.ssa.concat_none hvalue, h.ref.concat_none (by simp [Stmt.holdsRef, hvalue]),
      fun i l hi => ?_, hfield⟩
    rcases getElem?_concat_cases hi with hi | ⟨-, hno⟩
    · obtain ⟨st', vt, hst', hrest⟩ := h.types i l hi
      exact ⟨st', vt, getElem?_concat_of_some hst', hrest⟩
    · cases hno
  | true =>
    rw [hvalue, if_pos rfl] at hadd
    cases hvt : valtype st.ty with
    | none =>
      rw [hvt] at hadd
      cases hadd
    | some vt =>
      rw [hvt] at hadd
      cases hadd
      refine ⟨?_, ?_, fun i l hi => ?_, hfield⟩
      · have hssa := h.ssa.concat_some hvalue
        rw [Nat.add_assoc] at hssa
        simpa using hssa
      · cases href : isRef st.ty with
        | true => exact h.ref.concat_some (by simp [Stmt.holdsRef, hvalue, href])
        | false => exact h.ref.concat_none (by simp [Stmt.holdsRef, href])
      · rcases getElem?_concat_cases hi with hi' | ⟨hi', hl⟩
        · obtain ⟨st', vt', hst', hvt', hlocal⟩ := h.types i l hi'
          exact ⟨st', vt', getElem?_concat_of_some hst', hvt', getElem?_concat_of_some hlocal⟩
        · obtain rfl := Option.some.inj hl
          refine ⟨st, vt, ?_, hvt, ?_⟩
          · rw [hi', h.ssa.length, List.getElem?_concat_length]
          · rw [Nat.add_sub_cancel_left, List.getElem?_concat_length]

/-- **Every statement gets its local and its slot.** -/
theorem Fixture.slotsFor {fx : Fixture} {s : Slots} (h : fx.slots = .ok s) :
    SlotsFor fx.argtypes.length fx.stmts s := by
  have hfold : ∀ (rest done : List Stmt) (s₀ : Slots), SlotsFor fx.argtypes.length done s₀ →
      rest.foldlM (Slots.add fx.argtypes.length) s₀ = .ok s →
      SlotsFor fx.argtypes.length (done ++ rest) s := by
    intro rest
    induction rest with
    | nil =>
      intro done s₀ h₀ hrun
      cases hrun
      rw [List.append_nil]
      exact h₀
    | cons st rest ih =>
      intro done s₀ h₀ hrun
      rw [List.foldlM_cons] at hrun
      cases hadd : s₀.add fx.argtypes.length st with
      | error e =>
        rw [hadd] at hrun
        cases hrun
      | ok s₁ =>
        rw [hadd] at hrun
        rw [← List.singleton_append, ← List.append_assoc]
        exact ih (done ++ [st]) s₁ (h₀.add hadd) hrun
  refine hfold fx.stmts [] _ ?_ h
  exact ⟨Numbered.nil _ _, Numbered.nil _ _, by simp, by simp⟩

end Ruju.Aot
