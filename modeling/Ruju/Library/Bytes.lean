import Mathlib.Data.List.Basic
import Mathlib.Algebra.Order.Group.Nat

/-!
# Windows of a sequence

Reading and writing a stretch of a sequence, and the three facts that everything else
about memory follows from: a write keeps the length, a read of what was written gives
it back, and a read of a disjoint stretch does not see the write.

A number is kept in four bytes, the lowest first.
-/

namespace Ruju

section Window

variable {α : Type*} {bs xs : List α} {off n : Nat}

/-- The `n` elements from `off` on. -/
def window (bs : List α) (off n : Nat) : List α := (bs.drop off).take n

/-- `xs` written over `bs` from `off` on. -/
def overwrite (bs : List α) (off : Nat) (xs : List α) : List α :=
  bs.take off ++ xs ++ bs.drop (off + xs.length)

@[simp] theorem overwrite_nil (bs : List α) (off : Nat) : overwrite bs off [] = bs := by
  simp [overwrite]

theorem length_window (h : off + n ≤ bs.length) : (window bs off n).length = n := by
  simp [window]
  omega

theorem length_overwrite (h : off + xs.length ≤ bs.length) :
    (overwrite bs off xs).length = bs.length := by
  simp [overwrite]
  omega

theorem getElem?_window (bs : List α) (off n i : Nat) :
    (window bs off n)[i]? = if i < n then bs[off + i]? else none := by
  rw [window, List.getElem?_take]
  split
  · rw [List.getElem?_drop]
  · rfl

theorem getElem?_overwrite (h : off + xs.length ≤ bs.length) (i : Nat) :
    (overwrite bs off xs)[i]? =
      if off ≤ i ∧ i < off + xs.length then xs[i - off]? else bs[i]? := by
  have htake : (bs.take off).length = off := by simp; omega
  rw [overwrite, List.append_assoc]
  by_cases h₁ : i < off
  · rw [List.getElem?_append_left (by omega), List.getElem?_take_of_lt h₁, if_neg (by omega)]
  · rw [List.getElem?_append_right (by omega), htake]
    by_cases h₂ : i < off + xs.length
    · rw [List.getElem?_append_left (by omega), if_pos ⟨by omega, h₂⟩]
    · rw [List.getElem?_append_right (by omega), List.getElem?_drop, if_neg (by omega)]
      congr 1
      omega

/-- A read of what was written gives it back. -/
theorem window_overwrite (h : off + xs.length ≤ bs.length) :
    window (overwrite bs off xs) off xs.length = xs := by
  refine List.ext_getElem? fun i => ?_
  rw [getElem?_window, getElem?_overwrite h]
  split
  · rw [if_pos ⟨by omega, by omega⟩, Nat.add_sub_cancel_left]
  · rw [List.getElem?_eq_none (by omega)]

/-- A read of a disjoint stretch does not see the write. -/
theorem window_overwrite_of_disjoint {off' : Nat} (h : off + xs.length ≤ bs.length)
    (hdisj : off' + n ≤ off ∨ off + xs.length ≤ off') :
    window (overwrite bs off xs) off' n = window bs off' n := by
  refine List.ext_getElem? fun i => ?_
  rw [getElem?_window, getElem?_window, getElem?_overwrite h]
  split
  · rw [if_neg (by omega)]
  · rfl

theorem window_append_left {cs : List α} (h : off + n ≤ bs.length) :
    window (bs ++ cs) off n = window bs off n := by
  refine List.ext_getElem? fun i => ?_
  rw [getElem?_window, getElem?_window]
  split
  · rw [List.getElem?_append_left (by omega)]
  · rfl

theorem window_self (bs : List α) : window bs 0 bs.length = bs := by
  simp [window]

theorem overwrite_append_left {cs : List α} (h : off + xs.length ≤ bs.length) :
    overwrite (bs ++ cs) off xs = overwrite bs off xs ++ cs := by
  simp only [overwrite]
  rw [List.take_append_of_le_length (by omega), List.drop_append_of_le_length h]
  simp

/-- A write of the whole of a sequence. -/
theorem overwrite_zero_append (cs : List α) (h : xs.length = bs.length) :
    overwrite (bs ++ cs) 0 xs = xs ++ cs := by
  simp [overwrite, h]

theorem overwrite_all (h : xs.length = bs.length) : overwrite bs 0 xs = xs := by
  simpa using overwrite_zero_append [] h

/-- Several writes, one after the other. -/
def overwriteAll (bs : List α) (ws : List (Nat × List α)) : List α :=
  ws.foldl (fun bs w => overwrite bs w.1 w.2) bs

theorem length_overwriteAll {ws : List (Nat × List α)}
    (h : ∀ w ∈ ws, w.1 + w.2.length ≤ bs.length) : (overwriteAll bs ws).length = bs.length := by
  induction ws generalizing bs with
  | nil => rfl
  | cons w ws ih =>
    have hw := length_overwrite (h w List.mem_cons_self)
    exact (ih fun w' hw' => by rw [hw]; exact h w' (List.mem_cons_of_mem _ hw')).trans hw

theorem window_overwriteAll_of_disjoint {ws : List (Nat × List α)}
    (h : ∀ w ∈ ws, w.1 + w.2.length ≤ bs.length)
    (hdisj : ∀ w ∈ ws, off + n ≤ w.1 ∨ w.1 + w.2.length ≤ off) :
    window (overwriteAll bs ws) off n = window bs off n := by
  induction ws generalizing bs with
  | nil => rfl
  | cons w ws ih =>
    have hw := h w List.mem_cons_self
    refine (ih (fun w' hw' => ?_) fun w' hw' => hdisj w' (List.mem_cons_of_mem _ hw')).trans
      (window_overwrite_of_disjoint hw (hdisj w List.mem_cons_self))
    rw [length_overwrite hw]
    exact h w' (List.mem_cons_of_mem _ hw')

/-- Writes to stretches in order are all read back. -/
theorem window_overwriteAll {ws : List (Nat × List α)}
    (h : ∀ w ∈ ws, w.1 + w.2.length ≤ bs.length)
    (hord : ws.Pairwise fun w w' => w.1 + w.2.length ≤ w'.1) :
    ∀ w ∈ ws, window (overwriteAll bs ws) w.1 w.2.length = w.2 := by
  induction ws generalizing bs with
  | nil => simp
  | cons w ws ih =>
    have hw := h w List.mem_cons_self
    have hrest : ∀ w' ∈ ws, w'.1 + w'.2.length ≤ (overwrite bs w.1 w.2).length := by
      intro w' hw'
      rw [length_overwrite hw]
      exact h w' (List.mem_cons_of_mem _ hw')
    obtain ⟨hfirst, hord'⟩ := List.pairwise_cons.mp hord
    intro w' hw'
    rcases List.mem_cons.mp hw' with rfl | hw'
    · exact (window_overwriteAll_of_disjoint hrest fun w' hw' => Or.inl (hfirst w' hw')).trans
        (window_overwrite hw)
    · exact ih hrest hord' w' hw'

end Window

/-! ### Sequences of cells

A sequence of cells of one size, laid end to end. -/

section Cells

variable {α : Type*} {cs : List (List α)} {sz : Nat}

theorem length_flatten_cells (h : ∀ c ∈ cs, c.length = sz) :
    cs.flatten.length = sz * cs.length := by
  induction cs with
  | nil => simp
  | cons c cs ih =>
    have hc := h c List.mem_cons_self
    have hcs := ih fun c hc => h c (List.mem_cons_of_mem _ hc)
    simp only [List.flatten_cons, List.length_append, List.length_cons, hc, hcs]
    rw [Nat.mul_add, Nat.mul_one, Nat.add_comm]

/-- A cell in front of the others. -/
theorem flatten_split {i : Nat} {c : List α} (hi : cs[i]? = some c) :
    cs.flatten = (cs.take i).flatten ++ c ++ (cs.drop (i + 1)).flatten := by
  obtain ⟨hlt, rfl⟩ := List.getElem?_eq_some_iff.mp hi
  calc cs.flatten = (cs.take i ++ cs.drop i).flatten := by rw [List.take_append_drop]
    _ = (cs.take i ++ cs[i] :: cs.drop (i + 1)).flatten := by rw [List.drop_eq_getElem_cons hlt]
    _ = (cs.take i).flatten ++ cs[i] ++ (cs.drop (i + 1)).flatten := by
      rw [List.flatten_append, List.flatten_cons, List.append_assoc]

theorem length_flatten_take (h : ∀ c ∈ cs, c.length = sz) {i : Nat} (hi : i ≤ cs.length) :
    (cs.take i).flatten.length = sz * i := by
  rw [length_flatten_cells fun c hc => h c (List.mem_of_mem_take hc), List.length_take,
    Nat.min_eq_left hi]

/-- Reading a cell. -/
theorem window_flatten (h : ∀ c ∈ cs, c.length = sz) {i : Nat} {c : List α}
    (hi : cs[i]? = some c) : window cs.flatten (sz * i) sz = c := by
  have hlt := (List.getElem?_eq_some_iff.mp hi).1
  have hlen := length_flatten_take h (le_of_lt hlt)
  have hc := h c (List.mem_of_getElem? hi)
  rw [flatten_split hi, window, List.append_assoc, List.drop_left' hlen, List.take_left' hc]

/-- Writing a cell. -/
theorem overwrite_flatten (h : ∀ c ∈ cs, c.length = sz) {i : Nat} {c : List α}
    (hi : i < cs.length) (hc : c.length = sz) :
    overwrite cs.flatten (sz * i) c = (cs.set i c).flatten := by
  have hget : cs[i]? = some cs[i] := List.getElem?_eq_getElem hi
  have hlen := length_flatten_take h (le_of_lt hi)
  have hold := h _ (List.getElem_mem hi)
  have hdrop : ((cs.take i).flatten ++ cs[i]).length = sz * i + c.length := by
    rw [List.length_append, hlen, hold, hc]
  rw [List.set_eq_take_append_cons_drop, if_pos hi, List.flatten_append, List.flatten_cons,
    overwrite, flatten_split hget, List.drop_left' hdrop, List.append_assoc _ cs[i],
    List.take_left' hlen, List.append_assoc]

theorem flatten_replicate {n : Nat} {a : α} :
    (List.replicate n (List.replicate sz a)).flatten = List.replicate (sz * n) a := by
  rw [List.flatten_replicate_replicate, Nat.mul_comm]

end Cells

/-! ### Numbers in four bytes -/

/-- The four bytes of a number, the lowest first. -/
def wordBytes (n : Nat) : List UInt8 :=
  [.ofNat n, .ofNat (n / 2 ^ 8), .ofNat (n / 2 ^ 16), .ofNat (n / 2 ^ 24)]

/-- The number in some bytes, the lowest first. -/
def bytesWord (bs : List UInt8) : Nat := bs.foldr (fun b n => b.toNat + 2 ^ 8 * n) 0

@[simp] theorem length_wordBytes (n : Nat) : (wordBytes n).length = 4 := rfl

theorem bytesWord_wordBytes {n : Nat} (h : n < 2 ^ 32) : bytesWord (wordBytes n) = n := by
  simp only [wordBytes, bytesWord, List.foldr_cons, List.foldr_nil, UInt8.toNat_ofNat']
  omega

end Ruju
