import Ruju.Library.Search
import Mathlib.Data.List.Lex
import Mathlib.Order.BooleanAlgebra.Basic

/-!
# Enumerating a decision procedure by replay

A procedure asks yes/no questions, which may depend on the answers so far, and ends with
a result.  Its leaves have an order from left to right, with the answer "no" first.

Replaying the procedure with the bits of a cursor reaches one leaf.  `leavesFrom` lists
the leaves from the one a stream leads to up to the last one, and `replay_leavesFrom` is
the step of the enumeration: a replay visits the first of them, and the stream of the
next replay leads to the rest.
-/

namespace Ruju

/-- A procedure that asks questions; the first branch is the one for the answer "no". -/
inductive Procedure (α : Type*)
  | done (a : α)
  | ask (no yes : Procedure α)

namespace Procedure

variable {α : Type*}

/-- The result after exactly these answers. -/
def follow : Procedure α → List Bool → Option α
  | done a, [] => some a
  | ask f t, b :: bs => if b then t.follow bs else f.follow bs
  | _, _ => none

/-- The leaf behind one more answer. -/
def behind (b : Bool) (l : List Bool × α) : List Bool × α := (b :: l.1, l.2)

/-- The leaves from left to right, with the answers that lead to them. -/
def leaves : Procedure α → List (List Bool × α)
  | done a => [([], a)]
  | ask f t => f.leaves.map (behind false) ++ t.leaves.map (behind true)

theorem mem_map_behind {b : Bool} {bs : List Bool} {a : α} {l : List (List Bool × α)} :
    (bs, a) ∈ l.map (behind b) ↔ ∃ bs', bs = b :: bs' ∧ (bs', a) ∈ l := by
  constructor
  · intro h
    obtain ⟨⟨bs', a'⟩, hmem, heq⟩ := List.mem_map.mp h
    cases heq
    exact ⟨bs', rfl, hmem⟩
  · rintro ⟨bs', rfl, hmem⟩
    exact List.mem_map.mpr ⟨(bs', a), hmem, rfl⟩

/-- The leaves are the ends of the paths from the root. -/
theorem mem_leaves {p : Procedure α} {bs : List Bool} {a : α} :
    (bs, a) ∈ p.leaves ↔ p.follow bs = some a := by
  induction p generalizing bs with
  | done a' =>
    cases bs with
    | nil => simp [leaves, follow, eq_comm]
    | cons b bs => simp [leaves, follow]
  | ask f t ihf iht =>
    rw [leaves, List.mem_append, mem_map_behind, mem_map_behind]
    cases bs with
    | nil => simp [follow]
    | cons b bs => cases b <;> simp [follow, ihf, iht]

theorem pairwise_map_behind {b : Bool} {l : List (List Bool × α)}
    (h : (l.map Prod.fst).Pairwise (· < ·)) :
    ((l.map (behind b)).map Prod.fst).Pairwise (· < ·) := by
  rw [List.map_map]
  rw [List.pairwise_map] at h ⊢
  exact h.imp fun hlt => List.cons_lt_cons_iff.mpr (Or.inr ⟨rfl, hlt⟩)

/-- Each path is listed once, in lexicographic order. -/
theorem pairwise_leaves (p : Procedure α) : (p.leaves.map Prod.fst).Pairwise (· < ·) := by
  induction p with
  | done a => exact List.pairwise_singleton _ _
  | ask f t ihf iht =>
    rw [leaves, List.map_append, List.pairwise_append]
    refine ⟨pairwise_map_behind ihf, pairwise_map_behind iht, ?_⟩
    intro bs hbs cs hcs
    obtain ⟨⟨_, a⟩, hl, rfl⟩ := List.mem_map.mp hbs
    obtain ⟨⟨_, c⟩, hr, rfl⟩ := List.mem_map.mp hcs
    obtain ⟨bs', rfl, -⟩ := mem_map_behind.mp hl
    obtain ⟨cs', rfl, -⟩ := mem_map_behind.mp hr
    exact List.cons_lt_cons_iff.mpr (Or.inl (by decide))

/-! ### Replays -/

/-- The leaves from the one the stream leads to. -/
def leavesFrom : Procedure α → Bits → List (List Bool × α)
  | done a, _ => [([], a)]
  | ask f t, s =>
    if s 0 then (t.leavesFrom s.tail).map (behind true)
    else (f.leavesFrom s.tail).map (behind false) ++ t.leaves.map (behind true)

theorem leavesFrom_zeros (p : Procedure α) : p.leavesFrom Bits.zeros = p.leaves := by
  induction p with
  | done a => rfl
  | ask f t ihf iht =>
    have htail : Bits.zeros.tail = Bits.zeros := rfl
    rw [leavesFrom, leaves, htail, ihf]
    exact if_neg Bool.false_ne_true

/-- Run the procedure with the bits of a cursor: the answers, the result, and the cursor
behind them. -/
def replay : Procedure α → Cursor → (List Bool × α) × Cursor
  | done a, c => (([], a), c)
  | ask f t, c =>
    let r := if c.bit then t.replay c.step else f.replay c.step
    (behind c.bit r.1, r.2)

theorem replay_stream (p : Procedure α) (c : Cursor) : (p.replay c).2.stream = c.stream := by
  induction p generalizing c with
  | done a => rfl
  | ask f t ihf iht =>
    simp only [replay]
    cases c.bit with
    | true => exact iht c.step
    | false => exact ihf c.step

theorem replay_sound (p : Procedure α) {c : Cursor} (h : c.Sound) : (p.replay c).2.Sound := by
  induction p generalizing c with
  | done a => exact h
  | ask f t ihf iht =>
    simp only [replay]
    cases c.bit with
    | true => exact iht h.step
    | false => exact ihf h.step

/-- A replay remembers no new 0, or one behind where it started. -/
theorem replay_more (p : Procedure α) (c : Cursor) :
    (p.replay c).2.more = c.more ∨ c.depth < (p.replay c).2.more := by
  induction p generalizing c with
  | done a => exact Or.inl rfl
  | ask f t ihf iht =>
    simp only [replay]
    cases hb : c.bit with
    | true =>
      have hmore : c.step.more = c.more := by simp [Cursor.step, hb]
      have hdepth : c.step.depth = c.depth + 1 := rfl
      rcases iht c.step with h | h
      · exact Or.inl (h.trans hmore)
      · exact Or.inr (by simp only [if_true]; omega)
    | false =>
      have hmore : c.step.more = c.depth + 1 := by simp [Cursor.step, hb]
      have hdepth : c.step.depth = c.depth + 1 := rfl
      refine Or.inr ?_
      simp only [Bool.false_eq_true, if_false]
      rcases ihf c.step with h | h <;> omega

/-- What is left after a replay from `c`: nothing when no 0 was read, and otherwise what the
next stream leads to. -/
def rest (p : Procedure α) (c : Cursor) : List (List Bool × α) :=
  if c.depth < (p.replay c).2.more then p.leavesFrom ((p.replay c).2.next.drop c.depth) else []

theorem next_drop_zero {c : Cursor} {d : Nat} (h : d + 1 < c.more) :
    c.next.drop d 0 = c.stream d := by
  simp [Bits.drop, Cursor.next, h]

/-- **A replay visits the first leaf, and leaves the others to the next stream.** -/
theorem leavesFrom_eq_replay (p : Procedure α) (c : Cursor) (h : c.more ≤ c.depth) :
    p.leavesFrom (c.stream.drop c.depth) = (p.replay c).1 :: p.rest c := by
  induction p generalizing c with
  | done a =>
    have hnot : ¬ c.depth < ((done a).replay c).2.more := Nat.not_lt.mpr h
    rw [rest, if_neg hnot]
    rfl
  | ask f t ihf iht =>
    have hbit : c.stream.drop c.depth 0 = c.bit := by simp [Bits.drop, Cursor.bit]
    have hdepth : c.step.depth = c.depth + 1 := rfl
    have hstream : c.step.stream = c.stream := rfl
    rw [leavesFrom, hbit, Bits.tail_drop, rest]
    cases hb : c.bit with
    | true =>
      have hmore : c.step.more = c.more := by simp [Cursor.step, hb]
      have ih := iht c.step (by omega)
      rw [hdepth, hstream] at ih
      simp only [replay, hb, if_true]
      rw [ih, List.map_cons]
      congr 1
      rw [rest, hdepth]
      -- the 0 at the root is not there, so a new one is deeper
      have hcases := replay_more t c.step
      by_cases hlt : c.depth < (t.replay c.step).2.more
      · have hlt' : c.depth + 1 < (t.replay c.step).2.more := by omega
        have hroot : (t.replay c.step).2.next.drop c.depth 0 = true := by
          rw [next_drop_zero hlt', replay_stream]
          exact hb
        rw [if_pos hlt, if_pos hlt', leavesFrom, if_pos hroot, Bits.tail_drop]
      · rw [if_neg hlt, if_neg (by omega)]
        rfl
    | false =>
      have hmore : c.step.more = c.depth + 1 := by simp [Cursor.step, hb]
      have ih := ihf c.step (by omega)
      rw [hdepth, hstream] at ih
      have hcases := replay_more f c.step
      simp only [replay, hb, Bool.false_eq_true, if_false]
      have hpos : c.depth < (f.replay c.step).2.more := by omega
      rw [if_pos hpos, ih, List.map_cons, List.cons_append]
      congr 1
      rw [rest, hdepth, leavesFrom]
      by_cases hlt : c.depth + 1 < (f.replay c.step).2.more
      · have hroot : (f.replay c.step).2.next.drop c.depth 0 = false := by
          rw [next_drop_zero hlt, replay_stream]
          exact hb
        rw [if_pos hlt, if_neg (by rw [hroot]; exact Bool.false_ne_true), Bits.tail_drop]
      · -- the whole left branch is done: the flipped decision is the one at the root
        have hmore' : (f.replay c.step).2.more = c.depth + 1 := by omega
        have hroot : (f.replay c.step).2.next.drop c.depth 0 = true := by
          simp [Bits.drop, Cursor.next, hmore']
        have htail : (f.replay c.step).2.next.drop (c.depth + 1) = Bits.zeros := by
          funext i
          have h₁ : ¬ c.depth + 1 + i + 1 < c.depth + 1 := by omega
          have h₂ : ¬ c.depth + 1 + i + 1 = c.depth + 1 := by omega
          rw [Bits.drop, Cursor.next, hmore', if_neg h₁]
          exact decide_eq_false h₂
        rw [if_neg hlt, if_pos hroot, Bits.tail_drop, htail, leavesFrom_zeros]
        rfl

end Procedure

end Ruju
