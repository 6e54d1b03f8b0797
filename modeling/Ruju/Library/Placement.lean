import Mathlib.Data.Nat.Bitwise
import Mathlib.Data.List.Basic
import Mathlib.Order.Lattice
import Mathlib.Algebra.Order.Group.Nat

/-!
# Placing things one after the other

A sequence of things, each with a size and an alignment, is placed from a cursor: the
cursor is rounded up to the alignment, the thing goes there, and the cursor moves to
its end.  The cursor only grows, which gives everything there is to say about the
result: positions are aligned, things lie in order and do not overlap, and all of them
end before the final cursor.

The last section is the arithmetic of a machine word: rounding up by masking low bits
is rounding up, as long as the result is still a word.
-/

namespace Ruju

/-! ### Rounding up -/

/-- The least multiple of `a` that is at least `n`. -/
def roundUp (n a : Nat) : Nat := (n + a - 1) / a * a

theorem dvd_roundUp (n a : Nat) : a ∣ roundUp n a := Nat.dvd_mul_left a _

theorem le_roundUp (n : Nat) {a : Nat} (ha : 0 < a) : n ≤ roundUp n a := by
  unfold roundUp
  have h := Nat.div_add_mod (n + a - 1) a
  have hlt := Nat.mod_lt (n + a - 1) ha
  rw [Nat.mul_comm] at h
  omega

/-! ### Placement -/

/-- What placement has to know of a thing. -/
structure Shape where
  size : Nat
  align : Nat

/-- The positions of the things, from a cursor. -/
def placements : Nat → List Shape → List Nat
  | _, [] => []
  | cursor, s :: ss =>
    roundUp cursor s.align :: placements (roundUp cursor s.align + s.size) ss

/-- The cursor after the last thing. -/
def extent : Nat → List Shape → Nat
  | cursor, [] => cursor
  | cursor, s :: ss => extent (roundUp cursor s.align + s.size) ss

/-- The largest alignment, at least one. -/
def maxAlign (ss : List Shape) : Nat := ss.foldr (fun s a => max s.align a) 1

/-- The size of a record of these things: its end, padded to its own alignment. -/
def recordSize (ss : List Shape) : Nat := roundUp (extent 0 ss) (maxAlign ss)

@[simp] theorem length_placements (cursor : Nat) (ss : List Shape) :
    (placements cursor ss).length = ss.length := by
  induction ss generalizing cursor with
  | nil => rfl
  | cons s ss ih => simp [placements, ih]

theorem one_le_maxAlign (ss : List Shape) : 1 ≤ maxAlign ss := by
  induction ss with
  | nil => exact le_rfl
  | cons s ss ih => exact le_trans ih (le_max_right _ _)

/-- The largest alignment is one, or the alignment of a thing. -/
theorem maxAlign_mem (ss : List Shape) :
    maxAlign ss = 1 ∨ ∃ s ∈ ss, s.align = maxAlign ss := by
  induction ss with
  | nil => exact Or.inl rfl
  | cons s ss ih =>
    have hmax : maxAlign (s :: ss) = max s.align (maxAlign ss) := rfl
    rcases le_total s.align (maxAlign ss) with h | h
    · rw [hmax, max_eq_right h]
      rcases ih with h | ⟨s', hs', h⟩
      · exact Or.inl h
      · exact Or.inr ⟨s', List.mem_cons_of_mem _ hs', h⟩
    · rw [hmax, max_eq_left h]
      exact Or.inr ⟨s, List.mem_cons_self, rfl⟩

/-- The cursor only grows. -/
theorem le_extent {ss : List Shape} (hpos : ∀ s ∈ ss, 0 < s.align) (cursor : Nat) :
    cursor ≤ extent cursor ss := by
  induction ss generalizing cursor with
  | nil => exact le_rfl
  | cons s ss ih =>
    have h := le_roundUp cursor (hpos s List.mem_cons_self)
    have h' := ih (fun s hs => hpos s (List.mem_cons_of_mem _ hs))
      (roundUp cursor s.align + s.size)
    simp only [extent]
    omega

/-- Every thing lies between the first cursor and the last, at a multiple of its
alignment. -/
theorem placements_bounds {ss : List Shape} (hpos : ∀ s ∈ ss, 0 < s.align) (cursor : Nat) :
    ∀ p ∈ (placements cursor ss).zip ss,
      cursor ≤ p.1 ∧ p.2.align ∣ p.1 ∧ p.1 + p.2.size ≤ extent cursor ss := by
  induction ss generalizing cursor with
  | nil => simp [placements]
  | cons s ss ih =>
    have hs := hpos s List.mem_cons_self
    have hss : ∀ s ∈ ss, 0 < s.align := fun s hs => hpos s (List.mem_cons_of_mem _ hs)
    have hle := le_roundUp cursor hs
    intro p hp
    rcases List.mem_cons.mp hp with rfl | hp
    · exact ⟨hle, dvd_roundUp _ _, le_extent hss _⟩
    · obtain ⟨h, h', h''⟩ := ih hss _ p hp
      exact ⟨by omega, h', h''⟩

/-- Things lie in order and do not overlap. -/
theorem placements_pairwise {ss : List Shape} (hpos : ∀ s ∈ ss, 0 < s.align) (cursor : Nat) :
    ((placements cursor ss).zip ss).Pairwise fun p q => p.1 + p.2.size ≤ q.1 := by
  induction ss generalizing cursor with
  | nil => simp [placements]
  | cons s ss ih =>
    have hss : ∀ s ∈ ss, 0 < s.align := fun s hs => hpos s (List.mem_cons_of_mem _ hs)
    refine List.pairwise_cons.mpr ⟨fun q hq => ?_, ih hss _⟩
    exact (placements_bounds hss _ q hq).1

/-- Nothing reaches beyond the record. -/
theorem extent_le_recordSize (ss : List Shape) : extent 0 ss ≤ recordSize ss :=
  le_roundUp _ (one_le_maxAlign ss)

/-! ### Rounding up a machine word -/

/-- Masking the low `k` bits of a word rounds it down. -/
theorem and_mask {w k x : Nat} (hk : k ≤ w) (hx : x < 2 ^ w) :
    x &&& (2 ^ w - 2 ^ k) = x / 2 ^ k * 2 ^ k := by
  have hmask : 2 ^ w - 2 ^ k = (2 ^ (w - k) - 1) * 2 ^ k := by
    rw [Nat.sub_mul, ← pow_add, Nat.sub_add_cancel hk, one_mul]
  refine Nat.eq_of_testBit_eq fun i => ?_
  rw [Nat.testBit_and, hmask, Nat.testBit_mul_two_pow, Nat.testBit_mul_two_pow,
    Nat.testBit_two_pow_sub_one, Nat.testBit_div_two_pow]
  by_cases hi : k ≤ i
  · rw [Nat.sub_add_cancel hi]
    by_cases hiw : i < w
    · have : i - k < w - k := by omega
      simp [hi, this]
    · have hbit : x.testBit i = false :=
        Nat.testBit_lt_two_pow (lt_of_lt_of_le hx (Nat.pow_le_pow_right (by omega) (by omega)))
      simp [hbit]
  · simp [hi]

/-- Rounding up stays a word together with the sum it is computed from: the word size
is itself a multiple of the alignment. -/
theorem add_lt_of_roundUp_lt {n k w : Nat} (hk : k ≤ w) (h : roundUp n (2 ^ k) < 2 ^ w) :
    n + 2 ^ k - 1 < 2 ^ w := by
  have hpos : 0 < 2 ^ k := Nat.two_pow_pos k
  obtain ⟨q, hq⟩ := dvd_roundUp n (2 ^ k)
  have hle := le_roundUp n hpos
  have hw : 2 ^ w = 2 ^ k * 2 ^ (w - k) := by rw [← pow_add, Nat.add_sub_cancel' hk]
  -- a multiple of `2 ^ k` below `2 ^ w` is at least `2 ^ k` below it
  have hlt : q < 2 ^ (w - k) := by
    rw [hq, hw] at h
    exact Nat.lt_of_mul_lt_mul_left h
  have hmul : 2 ^ k * (q + 1) ≤ 2 ^ w := hw ▸ Nat.mul_le_mul_left _ hlt
  rw [Nat.mul_add, ← hq] at hmul
  omega

end Ruju
