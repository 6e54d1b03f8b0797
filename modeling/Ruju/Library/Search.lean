import Mathlib.Data.Set.Basic
import Mathlib.Data.Set.NAry
import Mathlib.Tactic.Common
import Mathlib.Algebra.Order.Ring.Nat

/-!
# Searching a two-sided decision tree by replay

A computation that makes binary decisions on two sides, *left* and *right*, is a
`DecisionTree`.  It is searched for the answer of "for all left decisions there
are right decisions that lead to success" without ever building the tree: the
computation is replayed from the start with the bits of two counters, and after
each replay a counter moves to the next untried word (`Cursor.next`), truncated
at the deepest decision that was still 0.

What makes this a search of the whole tree is the lexicographic order on bit
streams (`Before`): a replay that read `n` bits answers for every stream that
agrees with its own on those, and the next word lies right behind all of them
(`Cursor.before_next`).  Two facts follow by induction on the number of
passes: `existsSearch` under fixed left bits, and `forallSearch`, which decides
`DecisionTree.Holds`.

The left bits a success has read, over all right decisions, form the language
`DecisionTree.words`.  The tree holds exactly when every stream starts with a
word of that language (`holds_iff_covers`), and the languages of composed trees
are computed by the lemmas at the end.
-/

namespace Ruju

/-- An infinite supply of decisions. -/
abbrev Bits := Nat → Bool

variable {n : Nat} {s : Bits}

namespace Bits

/-- All decisions 0. -/
def zeros : Bits := fun _ => false

/-- The decisions after the first one. -/
def tail (s : Bits) : Bits := fun i => s (i + 1)

/-- The decisions from position `d` on. -/
def drop (s : Bits) (d : Nat) : Bits := fun i => s (d + i)

@[simp] theorem drop_zero (s : Bits) : s.drop 0 = s := by
  funext i; simp [drop]

theorem tail_drop (s : Bits) (d : Nat) : (s.drop d).tail = s.drop (d + 1) := by
  funext i
  simp only [tail, drop]
  congr 1
  omega

/-- Lexicographic order. -/
def Before (s t : Bits) : Prop :=
  ∃ i, (∀ j < i, s j = t j) ∧ s i = false ∧ t i = true

/-- Agreement on the first `n` decisions. -/
def Agree (n : Nat) (s t : Bits) : Prop :=
  ∀ i < n, s i = t i

theorem not_before_zeros (s : Bits) : ¬ Before s zeros := by
  rintro ⟨i, -, -, h⟩
  simp [zeros] at h

variable {t : Bits}

/-- Where two streams first differ decides their order. -/
theorem agree_or_before (h : ∀ i < n, t i = true ∨ s i = t i) :
    Agree n s t ∨ Before s t := by
  induction n with
  | zero => exact Or.inl fun i hi => absurd hi (Nat.not_lt_zero i)
  | succ n ih =>
    rcases ih fun i hi => h i (by omega) with hagree | hbefore
    · by_cases hn : s n = t n
      · refine Or.inl fun i hi => ?_
        rcases Nat.lt_succ_iff_lt_or_eq.mp hi with hi | rfl
        · exact hagree i hi
        · exact hn
      · have ht : t n = true := (h n (by omega)).resolve_right hn
        refine Or.inr ⟨n, hagree, ?_, ht⟩
        simpa [ht] using hn
    · exact Or.inr hbefore

/-- The first `n` decisions as a binary number. -/
def value (s : Bits) : Nat → Nat
  | 0 => 0
  | n + 1 => 2 * s.value n + (s n).toNat

theorem value_lt (s : Bits) (n : Nat) : s.value n < 2 ^ n := by
  induction n with
  | zero => simp [value]
  | succ n ih =>
    have : (s n).toNat ≤ 1 := Bool.toNat_le _
    rw [value, pow_succ]
    omega

theorem value_congr (h : Agree n s t) : s.value n = t.value n := by
  induction n with
  | zero => rfl
  | succ n ih => rw [value, value, ih fun i hi => h i (by omega), h n (by omega)]

/-- The order on streams is the order of the numbers they start with. -/
theorem value_lt_value {i : Nat} (hagree : ∀ j < i, s j = t j)
    (hs : s i = false) (ht : t i = true) (hn : i < n) : s.value n < t.value n := by
  induction n with
  | zero => omega
  | succ n ih =>
    have hsn : (s n).toNat ≤ 1 := Bool.toNat_le _
    rw [value, value]
    rcases Nat.lt_succ_iff_lt_or_eq.mp hn with hn | rfl
    · have := ih hn
      omega
    · rw [value_congr hagree, hs, ht]
      simp

end Bits

/-! ### Cursors -/

/-- A replay of a stream: how many decisions were read, and the position after
the deepest 0 among them. -/
structure Cursor where
  stream : Bits
  depth : Nat
  more : Nat

namespace Cursor

/-- The cursor at the start of a replay. -/
def start (s : Bits) : Cursor := ⟨s, 0, 0⟩

/-- The decision at the cursor. -/
def bit (c : Cursor) : Bool := c.stream c.depth

/-- The cursor after a decision. -/
def step (c : Cursor) : Cursor :=
  ⟨c.stream, c.depth + 1, if c.bit then c.more else c.depth + 1⟩

/-- The stream of the next replay: the deepest 0 becomes 1, and what was read
after it is forgotten. -/
def next (c : Cursor) : Bits := fun i =>
  if i + 1 < c.more then c.stream i else decide (i + 1 = c.more)

/-- `more` is the position after the deepest 0 read. -/
structure Sound (c : Cursor) : Prop where
  le : c.more ≤ c.depth
  ones : ∀ i, c.more ≤ i → i < c.depth → c.stream i = true
  zero : 0 < c.more → c.stream (c.more - 1) = false

theorem start_sound (s : Bits) : (start s).Sound :=
  ⟨le_rfl, fun i _ hi => absurd hi (Nat.not_lt_zero i), fun h => absurd h (lt_irrefl 0)⟩

theorem Sound.step {c : Cursor} (h : c.Sound) : c.step.Sound := by
  have hle := h.le
  cases hb : c.bit with
  | true =>
    have hmore : c.step.more = c.more := by simp [Cursor.step, hb]
    refine ⟨?_, fun i hi hlt => ?_, fun hpos => ?_⟩
    · rw [hmore]
      exact Nat.le_succ_of_le hle
    · rw [hmore] at hi
      rcases Nat.lt_succ_iff_lt_or_eq.mp hlt with hlt | rfl
      · exact h.ones i hi hlt
      · exact hb
    · rw [hmore] at hpos ⊢
      exact h.zero hpos
  | false =>
    have hmore : c.step.more = c.depth + 1 := by simp [Cursor.step, hb]
    refine ⟨le_of_eq hmore, fun i hi hlt => ?_, fun _ => ?_⟩
    · rw [hmore] at hi
      exact absurd hlt (Nat.not_lt.mpr hi)
    · rw [hmore]
      exact hb

variable {c : Cursor}

/-- The next stream differs from the current one first at the deepest 0. -/
theorem before_stream_next (h : c.Sound) (hmore : 0 < c.more) :
    (∀ j < c.more - 1, c.stream j = c.next j) ∧ c.stream (c.more - 1) = false ∧
      c.next (c.more - 1) = true := by
  refine ⟨fun j hj => ?_, h.zero hmore, ?_⟩
  · rw [next, if_pos (by omega)]
  · rw [next, if_neg (by omega)]
    exact decide_eq_true (by omega)

/-- Nothing lies between a replay and the next one: an earlier stream comes
before the replayed one or makes the same decisions. -/
theorem before_next (h : c.Sound) (hmore : 0 < c.more)
    (hs : Bits.Before s c.next) :
    Bits.Agree c.depth s c.stream ∨ Bits.Before s c.stream := by
  obtain ⟨hprev, hzero, hone⟩ := before_stream_next h hmore
  obtain ⟨i, hagree, hsi, hni⟩ := hs
  -- the first difference to the next stream lies at the flipped decision or before it
  have hi : i + 1 ≤ c.more := by
    by_contra hlt
    rw [next, if_neg (by omega)] at hni
    exact hlt (le_of_eq (of_decide_eq_true hni))
  rcases Nat.lt_or_eq_of_le hi with hlt | heq
  · refine Or.inr ⟨i, fun j hj => ?_, hsi, ?_⟩
    · rw [hagree j hj, ← hprev j (by omega)]
    · rw [hprev i (by omega), hni]
  · refine Bits.agree_or_before fun j hj => ?_
    rcases lt_trichotomy j i with hji | rfl | hij
    · exact Or.inr (by rw [hagree j hji, ← hprev j (by omega)])
    · refine Or.inr ?_
      rw [hsi, ← hzero]
      congr 1
      omega
    · exact Or.inl (h.ones j (by omega) hj)

/-- After a replay without a 0 no stream is left. -/
theorem exhausted (h : c.Sound) (hmore : c.more = 0) (s : Bits) :
    Bits.Agree c.depth s c.stream ∨ Bits.Before s c.stream :=
  Bits.agree_or_before fun i hi => Or.inl (h.ones i (by omega) hi)

/-- Each replay moves up in the order of numbers. -/
theorem value_next (h : c.Sound) (hmore : 0 < c.more) (hn : c.depth ≤ n) :
    c.stream.value n < c.next.value n := by
  obtain ⟨hprev, hzero, hone⟩ := before_stream_next h hmore
  have hle := h.le
  exact Bits.value_lt_value hprev hzero hone (by omega)

end Cursor

/-! ### Decision trees -/

/-- A computation that makes decisions on two sides and returns a truth value.
The first subtree is the one for the decision 0. -/
inductive DecisionTree
  | ret (b : Bool)
  | left (f t : DecisionTree)
  | right (f t : DecisionTree)

namespace DecisionTree

/-- Replay the computation. -/
def run : DecisionTree → Cursor → Cursor → Bool × Cursor × Cursor
  | ret b, l, r => (b, l, r)
  | left f t, l, r => if l.bit then t.run l.step r else f.run l.step r
  | right f t, l, r => if r.bit then t.run l r.step else f.run l r.step

/-- The result under given decisions. -/
def eval : DecisionTree → Bits → Bits → Bool
  | ret b, _, _ => b
  | left f t, s, u => if s 0 then t.eval s.tail u else f.eval s.tail u
  | right f t, s, u => if u 0 then t.eval s u.tail else f.eval s u.tail

/-- The largest number of decisions on a path. -/
def depth : DecisionTree → Nat
  | ret _ => 0
  | left f t => max f.depth t.depth + 1
  | right f t => max f.depth t.depth + 1

/-- Whatever the left decisions, some right decisions succeed. -/
def Holds (t : DecisionTree) : Prop :=
  ∀ s, ∃ u, t.eval s u = true

theorem run_eval (t : DecisionTree) (l r : Cursor) :
    (t.run l r).1 = t.eval (l.stream.drop l.depth) (r.stream.drop r.depth) := by
  induction t generalizing l r with
  | ret b => rfl
  | left f t ihf iht =>
    have hbit : l.stream.drop l.depth 0 = l.bit := by simp [Bits.drop, Cursor.bit]
    rw [run, eval, hbit, Bits.tail_drop]
    cases l.bit with
    | true => exact iht l.step r
    | false => exact ihf l.step r
  | right f t ihf iht =>
    have hbit : r.stream.drop r.depth 0 = r.bit := by simp [Bits.drop, Cursor.bit]
    rw [run, eval, hbit, Bits.tail_drop]
    cases r.bit with
    | true => exact iht l r.step
    | false => exact ihf l r.step

/-- What a replay does to its cursors. -/
structure Moves (n : Nat) (c c' : Cursor) : Prop where
  stream : c'.stream = c.stream
  le : c.depth ≤ c'.depth
  bound : c'.depth ≤ c.depth + n
  sound : c.Sound → c'.Sound

theorem Moves.refl (c : Cursor) (n : Nat) : Moves n c c :=
  ⟨rfl, le_rfl, Nat.le_add_right _ _, fun h => h⟩

theorem Moves.mono {m : Nat} {c c' : Cursor} (h : Moves n c c') (hnm : n ≤ m) :
    Moves m c c' :=
  ⟨h.stream, h.le, h.bound.trans (by omega), h.sound⟩

theorem Moves.step {c c' : Cursor} (h : Moves n c.step c') : Moves (n + 1) c c' := by
  have hle := h.le
  have hbound := h.bound
  simp only [Cursor.step] at hle hbound
  exact ⟨h.stream, by omega, by omega, fun hc => h.sound hc.step⟩

theorem run_moves (t : DecisionTree) (l r : Cursor) :
    Moves t.depth l (t.run l r).2.1 ∧ Moves t.depth r (t.run l r).2.2 := by
  induction t generalizing l r with
  | ret b => exact ⟨Moves.refl l _, Moves.refl r _⟩
  | left f t ihf iht =>
    rw [run, depth]
    cases l.bit with
    | true =>
      obtain ⟨hl, hr⟩ := iht l.step r
      exact ⟨(hl.mono (le_max_right _ _)).step, hr.mono (by omega)⟩
    | false =>
      obtain ⟨hl, hr⟩ := ihf l.step r
      exact ⟨(hl.mono (le_max_left _ _)).step, hr.mono (by omega)⟩
  | right f t ihf iht =>
    rw [run, depth]
    cases r.bit with
    | true =>
      obtain ⟨hl, hr⟩ := iht l r.step
      exact ⟨hl.mono (by omega), (hr.mono (le_max_right _ _)).step⟩
    | false =>
      obtain ⟨hl, hr⟩ := ihf l r.step
      exact ⟨hl.mono (by omega), (hr.mono (le_max_left _ _)).step⟩

/-- A replay answers for every pair of streams that agrees on what it read. -/
theorem run_agree (t : DecisionTree) {l l' r r' : Cursor} (hl : l'.depth = l.depth)
    (hr : r'.depth = r.depth)
    (hls : Bits.Agree (t.run l r).2.1.depth l'.stream l.stream)
    (hrs : Bits.Agree (t.run l r).2.2.depth r'.stream r.stream) :
    (t.run l' r').1 = (t.run l r).1 := by
  induction t generalizing l l' r r' with
  | ret b => rfl
  | left f t ihf iht =>
    have hmoves : l.depth < ((left f t).run l r).2.1.depth := by
      rw [run]
      split
      · exact (run_moves t l.step r).1.le
      · exact (run_moves f l.step r).1.le
    have hbit : l'.bit = l.bit := by rw [Cursor.bit, Cursor.bit, hl, hls _ hmoves]
    rw [run] at hls hrs ⊢
    rw [run, hbit]
    cases hb : l.bit with
    | true =>
      simp only [hb, if_true] at hls hrs ⊢
      exact iht (by simp [Cursor.step, hl]) hr hls hrs
    | false =>
      simp only [hb, Bool.false_eq_true, if_false] at hls hrs ⊢
      exact ihf (by simp [Cursor.step, hl]) hr hls hrs
  | right f t ihf iht =>
    have hmoves : r.depth < ((right f t).run l r).2.2.depth := by
      rw [run]
      split
      · exact (run_moves t l r.step).2.le
      · exact (run_moves f l r.step).2.le
    have hbit : r'.bit = r.bit := by rw [Cursor.bit, Cursor.bit, hr, hrs _ hmoves]
    rw [run] at hls hrs ⊢
    rw [run, hbit]
    cases hb : r.bit with
    | true =>
      simp only [hb, if_true] at hls hrs ⊢
      exact iht hl (by simp [Cursor.step, hr]) hls hrs
    | false =>
      simp only [hb, Bool.false_eq_true, if_false] at hls hrs ⊢
      exact ihf hl (by simp [Cursor.step, hr]) hls hrs

/-- `run_agree` for replays from the start. -/
theorem eval_agree (t : DecisionTree) {s' u u' : Bits}
    (hs : Bits.Agree (t.run (.start s) (.start u)).2.1.depth s' s)
    (hu : Bits.Agree (t.run (.start s) (.start u)).2.2.depth u' u) :
    t.eval s' u' = t.eval s u := by
  have h : (t.run (.start s') (.start u')).1 = (t.run (.start s) (.start u)).1 :=
    run_agree t rfl rfl hs hu
  simpa [run_eval, Cursor.start] using h

/-! ### The search -/

/-- Under fixed left decisions, replay with the next right word until a replay
succeeds; the answer comes with the left cursor of the last replay. -/
def existsSearch (t : DecisionTree) (s : Bits) : Nat → Bits → Option (Bool × Cursor)
  | 0, _ => none
  | n + 1, u =>
    if (t.run (.start s) (.start u)).1 then some (true, (t.run (.start s) (.start u)).2.1)
    else if (t.run (.start s) (.start u)).2.2.more = 0 then
      some (false, (t.run (.start s) (.start u)).2.1)
    else t.existsSearch s n (t.run (.start s) (.start u)).2.2.next

/-- Replay with the next left word as long as the right search succeeds. -/
def forallSearch (t : DecisionTree) (passes : Nat) : Nat → Bits → Option Bool
  | 0, _ => none
  | n + 1, s =>
    match t.existsSearch s passes Bits.zeros with
    | none => none
    | some (true, l) => if l.more = 0 then some true else t.forallSearch passes n l.next
    | some (false, _) => some false

/-- The right search returns, finds a success where there is one, and then
answers for every left stream that agrees on what was read. -/
theorem existsSearch_spec (t : DecisionTree) (s : Bits) {u : Bits}
    (hbefore : ∀ u', Bits.Before u' u → t.eval s u' = false)
    (hn : 2 ^ t.depth ≤ n + u.value t.depth) :
    (∃ l : Cursor, t.existsSearch s n u = some (true, l) ∧ l.stream = s ∧ l.Sound ∧
        l.depth ≤ t.depth ∧ ∀ s', Bits.Agree l.depth s' s → ∃ u', t.eval s' u' = true) ∨
      (∃ l : Cursor, t.existsSearch s n u = some (false, l) ∧ ∀ u', t.eval s u' = false) := by
  induction n generalizing u with
  | zero =>
    have := u.value_lt t.depth
    omega
  | succ n ih =>
    have heval := run_eval t (.start s) (.start u)
    simp only [Cursor.start, Bits.drop_zero] at heval
    obtain ⟨hl, hr⟩ := run_moves t (.start s) (.start u)
    have hsound := hr.sound (Cursor.start_sound u)
    rw [existsSearch]
    cases hres : (t.run (.start s) (.start u)).1 with
    | true =>
      refine Or.inl ⟨_, if_pos rfl, hl.stream, hl.sound (Cursor.start_sound s), ?_, ?_⟩
      · simpa [Cursor.start] using hl.bound
      · intro s' hs'
        refine ⟨u, ?_⟩
        rw [eval_agree t hs' fun i _ => rfl, ← heval]
        exact hres
    | false =>
      -- this replay fails for every right stream that agrees on what it read
      have hfail : ∀ u', Bits.Agree (t.run (.start s) (.start u)).2.2.depth u'
          (t.run (.start s) (.start u)).2.2.stream → t.eval s u' = false := by
        intro u' hu'
        rw [hr.stream] at hu'
        rw [eval_agree t (fun i _ => rfl) hu', ← heval]
        exact hres
      have hcase : ∀ u', Bits.Agree (t.run (.start s) (.start u)).2.2.depth u'
          (t.run (.start s) (.start u)).2.2.stream ∨
          Bits.Before u' (t.run (.start s) (.start u)).2.2.stream → t.eval s u' = false := by
        rintro u' (h | h)
        · exact hfail u' h
        · rw [hr.stream] at h
          exact hbefore u' h
      simp only [Bool.false_eq_true, if_false]
      by_cases hmore : (t.run (.start s) (.start u)).2.2.more = 0
      · rw [if_pos hmore]
        exact Or.inr ⟨_, rfl, fun u' => hcase u' (Cursor.exhausted hsound hmore u')⟩
      · rw [if_neg hmore]
        have hpos := Nat.pos_of_ne_zero hmore
        refine ih (fun u' hu' => hcase u' (Cursor.before_next hsound hpos hu')) ?_
        have hval := Cursor.value_next hsound hpos (n := t.depth)
          (by simpa [Cursor.start] using hr.bound)
        rw [hr.stream] at hval
        simp only [Cursor.start] at hval ⊢
        omega

/-- The ∀ search ends, and finds whether every stream is covered. -/
theorem forallSearch_spec (t : DecisionTree) {passes : Nat}
    (hbefore : ∀ s', Bits.Before s' s → ∃ u, t.eval s' u = true)
    (hp : 2 ^ t.depth ≤ passes) (hn : 2 ^ t.depth ≤ n + s.value t.depth) :
    ∃ b, t.forallSearch passes n s = some b ∧ (b = true ↔ t.Holds) := by
  induction n generalizing s with
  | zero =>
    have := s.value_lt t.depth
    omega
  | succ n ih =>
    rw [forallSearch]
    rcases existsSearch_spec t s (n := passes) (u := Bits.zeros)
      (fun u' hu' => absurd hu' (Bits.not_before_zeros u')) (by omega) with
      ⟨l, hres, hstream, hsound, hdepth, hall⟩ | ⟨l, hres, hnone⟩
    · rw [hres]
      have hcase : ∀ s', Bits.Agree l.depth s' l.stream ∨ Bits.Before s' l.stream →
          ∃ u, t.eval s' u = true := by
        rintro s' (h | h)
        · exact hall s' (hstream ▸ h)
        · exact hbefore s' (hstream ▸ h)
      by_cases hmore : l.more = 0
      · refine ⟨true, if_pos hmore, ?_⟩
        simp only [true_iff]
        exact fun s' => hcase s' (Cursor.exhausted hsound hmore s')
      · have hpos := Nat.pos_of_ne_zero hmore
        have hval := Cursor.value_next hsound hpos hdepth
        rw [hstream] at hval
        obtain ⟨b, hb, hiff⟩ := ih (s := l.next)
          (fun s' hs' => hcase s' (Cursor.before_next hsound hpos hs')) (by omega)
        exact ⟨b, by simpa [hmore] using hb, hiff⟩
    · refine ⟨false, by rw [hres], ?_⟩
      simp only [Bool.false_eq_true, false_iff]
      intro hholds
      obtain ⟨u, hu⟩ := hholds s
      rw [hnone u] at hu
      cases hu

/-- **The search decides the tree.**  With enough passes it returns, and the
answer is whether every left word has a right word that succeeds. -/
theorem forallSearch_zeros (t : DecisionTree) (hn : 2 ^ t.depth ≤ n) :
    ∃ b, t.forallSearch n n Bits.zeros = some b ∧ (b = true ↔ t.Holds) :=
  forallSearch_spec t (fun s' hs' => absurd hs' (Bits.not_before_zeros s')) hn (by omega)

end DecisionTree

/-! ### The words of a tree -/

variable {w : List Bool}

namespace Bits

/-- The stream starts with the word. -/
def Starts (s : Bits) : List Bool → Prop
  | [] => True
  | b :: w => s 0 = b ∧ s.tail.Starts w

/-- The stream that starts with a word and goes on with another stream. -/
def after (s : Bits) : List Bool → Bits
  | [] => s
  | b :: w => fun i => match i with
    | 0 => b
    | i + 1 => s.after w i

theorem tail_after (s : Bits) (b : Bool) (w : List Bool) : (s.after (b :: w)).tail = s.after w :=
  rfl

end Bits

/-- A set of words. -/
abbrev Language := Set (List Bool)

namespace Language

/-- Every stream starts with a word of the language. -/
def Covers (W : Language) : Prop :=
  ∀ s : Bits, ∃ w ∈ W, s.Starts w

/-- Concatenation. -/
def append (W V : Language) : Language :=
  Set.image2 (· ++ ·) W V

variable {W V : Language}

theorem Covers.mono (h : W.Covers) (hWV : W ⊆ V) : V.Covers := fun s =>
  let ⟨w, hw, hs⟩ := h s
  ⟨w, hWV hw, hs⟩

theorem covers_of_nil_mem (h : [] ∈ W) : W.Covers := fun _ => ⟨[], h, trivial⟩

theorem Covers.nonempty (h : W.Covers) : W.Nonempty :=
  let ⟨w, hw, _⟩ := h Bits.zeros
  ⟨w, hw⟩

end Language

namespace DecisionTree

/-- The left decisions a success can have read. -/
def words : DecisionTree → Language
  | ret b => {w | b = true ∧ w = []}
  | left f t => {w | ∃ v ∈ f.words, w = false :: v} ∪ {w | ∃ v ∈ t.words, w = true :: v}
  | right f t => f.words ∪ t.words

theorem exists_eval_iff (t : DecisionTree) (s : Bits) :
    (∃ u, t.eval s u = true) ↔ ∃ w ∈ t.words, s.Starts w := by
  induction t generalizing s with
  | ret b => simp [eval, words, Bits.Starts]
  | left f t ihf iht =>
    cases hs : s 0 with
    | true =>
      simp only [eval, hs, if_true, iht s.tail, words, Set.mem_union, Set.mem_ofPred_eq]
      constructor
      · rintro ⟨w, hw, hst⟩
        exact ⟨true :: w, Or.inr ⟨w, hw, rfl⟩, hs, hst⟩
      · rintro ⟨_, ⟨v, hv, rfl⟩ | ⟨v, hv, rfl⟩, hst⟩
        · rw [Bits.Starts, hs] at hst
          cases hst.1
        · exact ⟨v, hv, hst.2⟩
    | false =>
      simp only [eval, hs, Bool.false_eq_true, if_false, ihf s.tail, words, Set.mem_union,
        Set.mem_ofPred_eq]
      constructor
      · rintro ⟨w, hw, hst⟩
        exact ⟨false :: w, Or.inl ⟨w, hw, rfl⟩, hs, hst⟩
      · rintro ⟨_, ⟨v, hv, rfl⟩ | ⟨v, hv, rfl⟩, hst⟩
        · exact ⟨v, hv, hst.2⟩
        · rw [Bits.Starts, hs] at hst
          cases hst.1
  | right f t ihf iht =>
    have hsplit : (∃ u, (right f t).eval s u = true) ↔
        (∃ u, f.eval s u = true) ∨ ∃ u, t.eval s u = true := by
      constructor
      · rintro ⟨u, hu⟩
        rw [eval] at hu
        cases h0 : u 0 with
        | true => exact Or.inr ⟨u.tail, by simpa [h0] using hu⟩
        | false => exact Or.inl ⟨u.tail, by simpa [h0] using hu⟩
      · rintro (⟨u, hu⟩ | ⟨u, hu⟩)
        · refine ⟨u.after [false], ?_⟩
          rw [eval, Bits.tail_after]
          exact hu
        · refine ⟨u.after [true], ?_⟩
          rw [eval, Bits.tail_after]
          exact hu
    rw [hsplit, ihf s, iht s]
    simp only [words, Set.mem_union, or_and_right, exists_or]

/-- A tree holds when its words cover every stream. -/
theorem holds_iff_covers (t : DecisionTree) : t.Holds ↔ t.words.Covers :=
  forall_congr' fun s => exists_eval_iff t s

variable {f t : DecisionTree}

@[simp] theorem mem_words_right :
    w ∈ (right f t).words ↔ w ∈ f.words ∨ w ∈ t.words :=
  Iff.rfl

@[simp] theorem mem_words_ret {b : Bool} :
    w ∈ (ret b).words ↔ b = true ∧ w = [] :=
  Iff.rfl

/-- After a left decision both subtrees have to cover. -/
theorem covers_left :
    (left f t).words.Covers ↔ f.words.Covers ∧ t.words.Covers := by
  rw [← holds_iff_covers, ← holds_iff_covers, ← holds_iff_covers]
  constructor
  · intro h
    constructor
    · intro s
      obtain ⟨u, hu⟩ := h (s.after [false])
      exact ⟨u, hu⟩
    · intro s
      obtain ⟨u, hu⟩ := h (s.after [true])
      exact ⟨u, hu⟩
  · rintro ⟨hf, ht⟩ s
    cases hs : s 0 with
    | false =>
      obtain ⟨u, hu⟩ := hf s.tail
      exact ⟨u, by simpa [eval, hs] using hu⟩
    | true =>
      obtain ⟨u, hu⟩ := ht s.tail
      exact ⟨u, by simpa [eval, hs] using hu⟩

/-! ### Composed trees -/

/-- Sequential conjunction: the second computation follows a success. -/
def and : DecisionTree → DecisionTree → DecisionTree
  | ret true, u => u
  | ret false, _ => ret false
  | left f t, u => left (f.and u) (t.and u)
  | right f t, u => right (f.and u) (t.and u)

theorem and_assoc (t u v : DecisionTree) : (t.and u).and v = t.and (u.and v) := by
  induction t with
  | ret b => cases b <;> rfl
  | left f t ihf iht => simp only [and, ihf, iht]
  | right f t ihf iht => simp only [and, ihf, iht]

theorem depth_and (t u : DecisionTree) : (t.and u).depth ≤ t.depth + u.depth := by
  induction t with
  | ret b => cases b <;> simp [and, depth]
  | left f t ihf iht =>
    simp only [and, depth]
    omega
  | right f t ihf iht =>
    simp only [and, depth]
    omega

theorem run_and (t u : DecisionTree) (l r : Cursor) :
    (t.and u).run l r = if (t.run l r).1 then u.run (t.run l r).2.1 (t.run l r).2.2
      else t.run l r := by
  induction t generalizing l r with
  | ret b => cases b <;> simp [and, run]
  | left f t ihf iht =>
    rw [and, run, run]
    cases l.bit with
    | true => simpa using iht l.step r
    | false => simpa using ihf l.step r
  | right f t ihf iht =>
    rw [and, run, run]
    cases r.bit with
    | true => simpa using iht l r.step
    | false => simpa using ihf l r.step

/-- The words of a conjunction are those of its parts in a row. -/
theorem words_and (t u : DecisionTree) : (t.and u).words = t.words.append u.words := by
  induction t with
  | ret b => cases b <;> simp [and, words, Language.append]
  | left f t ihf iht =>
    rw [and, words, words, ihf, iht]
    ext w
    simp only [Language.append, Set.mem_union, Set.mem_ofPred_eq, Set.mem_image2]
    constructor
    · rintro (⟨_, ⟨a, ha, b, hb, rfl⟩, rfl⟩ | ⟨_, ⟨a, ha, b, hb, rfl⟩, rfl⟩)
      · exact ⟨false :: a, Or.inl ⟨a, ha, rfl⟩, b, hb, rfl⟩
      · exact ⟨true :: a, Or.inr ⟨a, ha, rfl⟩, b, hb, rfl⟩
    · rintro ⟨_, ⟨a, ha, rfl⟩ | ⟨a, ha, rfl⟩, b, hb, rfl⟩
      · exact Or.inl ⟨a ++ b, ⟨a, ha, b, hb, rfl⟩, rfl⟩
      · exact Or.inr ⟨a ++ b, ⟨a, ha, b, hb, rfl⟩, rfl⟩
  | right f t ihf iht =>
    rw [and, words, words, ihf, iht]
    exact Set.image2_union_left.symm

/-! ### Trees without left decisions -/

/-- A success reads no left decision. -/
def Silent (t : DecisionTree) : Prop :=
  ∀ w ∈ t.words, w = []

theorem silent_ret (b : Bool) : (ret b).Silent := fun _ h => h.2

theorem Silent.right {f t : DecisionTree} (hf : f.Silent) (ht : t.Silent) :
    (right f t).Silent := fun w h => h.elim (hf w) (ht w)

theorem Silent.and {u : DecisionTree} (ht : t.Silent) (hu : u.Silent) : (t.and u).Silent := by
  intro w hw
  rw [words_and] at hw
  obtain ⟨a, ha, b, hb, rfl⟩ := hw
  rw [ht a ha, hu b hb]
  rfl

theorem Silent.nil_mem (h : t.Silent) (hne : t.words.Nonempty) :
    [] ∈ t.words := by
  obtain ⟨w, hw⟩ := hne
  rwa [← h w hw]

theorem Silent.covers_iff (h : t.Silent) :
    t.words.Covers ↔ [] ∈ t.words :=
  ⟨fun hc => h.nil_mem hc.nonempty, Language.covers_of_nil_mem⟩

end DecisionTree

end Ruju
