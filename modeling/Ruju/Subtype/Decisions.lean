import Ruju.Library.Enumerate
import Ruju.Subtype.GroundRun

/-!
# The union decisions enumerate every choice

`exists_subtype` and `forall_exists_subtype` drive the same machine: with no decision
stored, run the query from the start, reading a decision at every union, and move to the
next untried choice until there is none.  The driver is stated here for an arbitrary
procedure that reads decisions, and it visits the leaves of that procedure from left to
right, each of them once.
-/

namespace Ruju

namespace Procedure

variable {α : Type*}

/-- Run a procedure that answers its questions with `pick_union_decision`. -/
def run : Procedure α → UnionState → (List Bool × α) × UnionState
  | done a, st => (([], a), st)
  | ask f t, st =>
    let (ui, st) := st.pick
    let (l, st) := if ui then t.run st else f.run st
    (behind ui l, st)

/-- The driver's loop: a run from the start, then `next_union_state`. -/
def visitLoop (p : Procedure α) : Nat → UnionState → Option (List (List Bool × α))
  | 0, _ => none
  | fuel + 1, st =>
    let (l, st) := p.run st.rewind
    match st.next with
    | none => some [l]
    | some st => (p.visitLoop fuel st).map (l :: ·)

/-- The leaves the driver visits, starting with no decision stored. -/
def visits (p : Procedure α) (fuel : Nat) (st : UnionState) : Option (List (List Bool × α)) :=
  p.visitLoop fuel { st with used := 0 }

/-- A run is a replay at the state's cursor. -/
theorem run_spec (p : Procedure α) {st : UnionState} (h : st.Ready) :
    (p.run st).1 = (p.replay st.cursor).1 ∧
      (p.run st).2.cursor = (p.replay st.cursor).2 ∧ (p.run st).2.Ready := by
  induction p generalizing st with
  | done a => exact ⟨rfl, rfl, h⟩
  | ask f t ihf iht =>
    obtain ⟨hbit, hcursor, hready⟩ := UnionState.pick_spec h
    simp only [run, replay, ← hbit]
    cases st.pick.1 with
    | true =>
      obtain ⟨hleaf, hcur, hr⟩ := iht hready
      rw [hcursor] at hleaf hcur
      exact ⟨congrArg (behind true) hleaf, hcur, hr⟩
    | false =>
      obtain ⟨hleaf, hcur, hr⟩ := ihf hready
      rw [hcursor] at hleaf hcur
      exact ⟨congrArg (behind false) hleaf, hcur, hr⟩

/-- One pass of the loop visits the first leaf its stream leads to, and goes on exactly when
there is another one. -/
theorem run_rewind (p : Procedure α) (st : UnionState) :
    match (p.run st.rewind).2.next with
    | none => p.leavesFrom st.stream = [(p.run st.rewind).1]
    | some st' => p.leavesFrom st.stream = (p.run st.rewind).1 :: p.leavesFrom st'.stream := by
  obtain ⟨hleaf, hcur, hready⟩ := p.run_spec st.ready_rewind
  rw [UnionState.cursor_rewind] at hleaf hcur
  have hsound : (p.run st.rewind).2.cursor.Sound := by
    rw [hcur]
    exact p.replay_sound (Cursor.start_sound _)
  have hfirst : p.leavesFrom st.stream = (p.run st.rewind).1 :: p.rest (.start st.stream) := by
    rw [hleaf, ← p.leavesFrom_eq_replay _ le_rfl]
    exact congrArg p.leavesFrom (Bits.drop_zero _).symm
  have hdepth : (Cursor.start st.stream).depth = 0 := rfl
  rw [rest, hdepth, ← hcur] at hfirst
  cases hnext : (p.run st.rewind).2.next with
  | none =>
    have hmore := UnionState.next_eq_none.mp hnext
    rw [hmore, if_neg (lt_irrefl 0)] at hfirst
    exact hfirst
  | some st' =>
    have hmore : 0 < (p.run st.rewind).2.cursor.more := by
      refine Nat.pos_of_ne_zero fun h0 => ?_
      rw [UnionState.next_eq_none.mpr h0] at hnext
      cases hnext
    have hstream := UnionState.stream_next hready hsound hnext
    rw [if_pos hmore, Bits.drop_zero, ← hstream] at hfirst
    exact hfirst

theorem visitLoop_eq (p : Procedure α) {fuel : Nat} {st : UnionState}
    (h : (p.leavesFrom st.stream).length ≤ fuel) :
    p.visitLoop fuel st = some (p.leavesFrom st.stream) := by
  have hrun := p.run_rewind st
  induction fuel generalizing st with
  | zero =>
    have hempty := List.eq_nil_of_length_eq_zero (Nat.le_zero.mp h)
    rw [hempty] at hrun
    split at hrun <;> cases hrun
  | succ fuel ih =>
    rw [visitLoop]
    cases hnext : (p.run st.rewind).2.next with
    | none =>
      rw [hnext] at hrun
      simp only [hnext, hrun]
    | some st' =>
      rw [hnext] at hrun
      have hle : (p.leavesFrom st'.stream).length ≤ fuel := by
        rw [hrun, List.length_cons] at h
        omega
      simp only [hnext, ih hle (p.run_rewind st'), hrun]
      rfl

/-- **The union decisions enumerate every path exactly once.**  From any state, a driver
with as much fuel as there are leaves ends, and it has visited the leaves from left to
right: every path from the root to a leaf, each one strictly after the one before. -/
theorem visits_every_path_once (p : Procedure α) (st : UnionState) :
    (∀ fuel, p.leaves.length ≤ fuel → p.visits fuel st = some p.leaves) ∧
      (∀ bs a, (bs, a) ∈ p.leaves ↔ p.follow bs = some a) ∧
      (p.leaves.map Prod.fst).Pairwise (· < ·) := by
  refine ⟨fun fuel hfuel => ?_, fun bs a => mem_leaves, p.pairwise_leaves⟩
  have hstream : ({ st with used := 0 } : UnionState).stream = Bits.zeros := by
    funext i
    simp [UnionState.stream, Bits.zeros]
  have hleaves : p.leavesFrom ({ st with used := 0 } : UnionState).stream = p.leaves := by
    rw [hstream, leavesFrom_zeros]
  rw [visits, visitLoop_eq p (by rw [hleaves]; exact hfuel), hleaves]

/-- Three leaves under two questions, from a state with stale decisions. -/
theorem visits_three :
    ((ask (done 0) (ask (done 1) (done 2))).visits 3
        ⟨5, 2, 4, fun i => i.beq 1⟩) =
      some [([false], 0), ([true, false], 1), ([true, true], 2)] :=
  (visits_every_path_once (ask (done 0) (ask (done 1) (done 2)))
    ⟨5, 2, 4, fun i => i.beq 1⟩).1 3 (by decide)

end Procedure

end Ruju
