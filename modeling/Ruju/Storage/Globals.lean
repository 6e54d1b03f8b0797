import Ruju.Storage.Growth
import Mathlib.Algebra.Group.Nat.Even

/-!
# The globals of a module

`get_global` and `set_global` of `module.rs`.  A module keeps its globals in one
`Array{Any}` of symbols and values in turn.  Symbols are interned, so a symbol is its
reference.

**A table can tear.**  A new binding is made by two pushes.  If the second one needs a
larger buffer and does not get it, the symbol is left at the end without a value; the
next new binding is then off by one.  The first push makes room for the second whenever
it grows the table, so this happens only where the buffer has room for one entry and not
for two.  A second exception is the null reference, which `set_global` stores as a value
like any other, and `get_global` takes for an unbound symbol.  `setGlobal_refines_iff`
says that these are the only ways in which the table fails to be a map.
-/

namespace Ruju.Storage

namespace Globals

/-- The loop of `get_global`; `fuel` bounds the number of rounds. -/
def getLoop (R : Runtime) (b sym : Nat) (s : Store) : Nat → Nat → Option Nat
  | 0, _ => none
  | fuel + 1, i =>
    if i + 1 < Arr.len s b then
      match (Arr.aref R b i s).1 with
      | .error _ => none
      | .ok k =>
        if k = sym then (Arr.aref R b (i + 1) s).1.toOption else getLoop R b sym s fuel (i + 2)
    else none

/-- `get_global`, for the table `b`: every round advances by two. -/
def getGlobal (R : Runtime) (b sym : Nat) (s : Store) : Option Nat :=
  getLoop R b sym s (Arr.len s b) 0

/-- The loop of `set_global`; `none` is the end of the table. -/
def setLoop (R : Runtime) (b sym v : Nat) (s : Store) :
    Nat → Nat → Option (Except Error Unit × Store)
  | 0, _ => none
  | fuel + 1, i =>
    if i < Arr.len s b then
      match (Arr.aref R b i s).1 with
      | .error e => some (.error e, s)
      | .ok k =>
        if k = sym then some (Arr.aset R b (i + 1) v s) else setLoop R b sym v s fuel (i + 2)
    else none

/-- `set_global`, for the table `b`. -/
def setGlobal (R : Runtime) (b sym v : Nat) : StoreOp Unit := fun s =>
  match setLoop R b sym v s (Arr.len s b) 0 with
  | some r => r
  | none =>
    match Arr.push R b sym s with
    | (.error e, s) => (.error e, s)
    | (.ok (), s) => Arr.push R b v s

end Globals

open Globals

/-! ### Tables of references -/

/-- The capacity of the table `b`. -/
def capacity (s : Store) (b : Nat) : Nat := Memory.len s (Arr.memOf s b)

/-- `b` is an `Array{Any}` of these references. -/
structure Table (s : Store) (b : Nat) (ws : List Nat) : Prop where
  holds : ∃ mem, Holds s b .any mem (capacity s b) (ws.map wordBytes)
  word : capacity s b < 2 ^ 32
  words : ∀ w ∈ ws, w < 2 ^ 32

section

variable {R : Runtime} {s : Store} {b i v : Nat} {ws : List Nat}

theorem accepts_any (R : Runtime) (t : TypeObj) : Memory.accepts R .any t := by
  simp [Memory.accepts]

theorem Holds.table {mem cap : Nat} (h : Holds s b .any mem cap (ws.map wordBytes))
    (hcap : cap < 2 ^ 32) (hws : ∀ w ∈ ws, w < 2 ^ 32) : Table s b ws ∧ capacity s b = cap := by
  have hc : capacity s b = cap := by rw [capacity, h.memOf, h.bufferLen]
  exact ⟨⟨⟨mem, hc.symm ▸ h⟩, hc.symm ▸ hcap, hws⟩, hc⟩

theorem Table.len (h : Table s b ws) : Arr.len s b = ws.length := by
  obtain ⟨mem, hh⟩ := h.holds
  rw [hh.len, List.length_map]

theorem Table.le_capacity (h : Table s b ws) : ws.length ≤ capacity s b := by
  obtain ⟨mem, hh⟩ := h.holds
  simpa using hh.le_cap

/-- Reading a reference changes nothing. -/
theorem Table.aref (hs : s.Valid) (h : Table s b ws) {w : Nat} (hi : ws[i]? = some w)
    (hpos : 0 < w) : (Arr.aref R b i s).1 = .ok w := by
  obtain ⟨mem, hh⟩ := h.holds
  have hword := bytesWord_wordBytes (h.words w (List.mem_of_getElem? hi))
  have hcell : (ws.map wordBytes)[i]? = some (wordBytes w) := by rw [List.getElem?_map, hi]; rfl
  obtain ⟨-, -, ⟨hunset, -⟩ | ⟨-, ⟨-, n, hkind, -⟩ | ⟨r, hok, hshows⟩⟩⟩ :=
    aref_spec (R := R) hs hh hcell
  · have := hunset.2
    omega
  · cases hkind
  · rw [hok]
    exact congrArg Except.ok (hshows.trans hword)

/-- The null reference is never read. -/
theorem Table.aref_ne_zero (h : Table s b ws) : (Arr.aref R b i s).1 ≠ .ok 0 := by
  obtain ⟨mem, hh⟩ := h.holds
  have hkind : elemKind .any = .boxed := rfl
  unfold Arr.aref
  split
  · simp
  · simp only [hh.memOf, Memory.get, hh.bufferElem, hkind]
    split
    · simp
    · split
      · simp
      case isFalse hne => simpa using hne

theorem Table.aset (hs : s.Valid) (h : Table s b ws) (hi : i < ws.length) (hv : v < 2 ^ 32) :
    ∃ s', Arr.aset R b i v s = (.ok (), s') ∧ s'.Valid ∧ Table s' b (ws.set i v) := by
  obtain ⟨mem, hh⟩ := h.holds
  obtain ⟨s', haset, hvalid, hh', -⟩ := aset_spec (R := R) (v := v) hs hh
    (by rwa [List.length_map]) (accepts_any R _) rfl
  rw [show cellOf s .any v = wordBytes v from rfl, ← List.map_set] at hh'
  refine ⟨s', haset, hvalid, (hh'.table h.word fun w hw => ?_).1⟩
  rcases List.mem_or_eq_of_mem_set hw with hw | rfl
  · exact h.words w hw
  · exact hv

/-- A push of a reference appends it, or changes nothing. -/
theorem Table.push (R : Runtime) (hs : s.Valid) (h : Table s b ws) (hv : v < 2 ^ 32) :
    (¬ CanGrow R s .any (capacity s b) (ws.length + 1) ∧
        ∃ e s', Arr.push R b v s = (.error e, s') ∧ s'.Valid ∧ Table s' b ws) ∨
      (CanGrow R s .any (capacity s b) (ws.length + 1) ∧
        ∃ s', Arr.push R b v s = (.ok (), s') ∧ s'.Valid ∧ Table s' b (ws ++ [v]) ∧
          (capacity s b < ws.length + 1 →
            capacity s' b = Arr.newCapacity (capacity s b) (ws.length + 1)) ∧
          (ws.length + 1 ≤ capacity s b → capacity s' b = capacity s b ∧ s'.next = s.next ∧
            s'.attempts = s.attempts)) := by
  obtain ⟨mem, hh⟩ := h.holds
  unfold Arr.push
  rcases growEnd_spec R 1 hs hh with ⟨hno, e, s', hgrow, -, hvalid, hsame⟩ |
    ⟨hcan, mem', cap', s', hgrow, hvalid, hh', hnew, hold, -⟩
  · rw [hgrow]
    rw [List.length_map] at hno
    exact Or.inl ⟨hno, e, s', rfl, hvalid,
      ((hh.congr (by rw [hsame]) (by rw [hsame])).table h.word h.words).1⟩
  · rw [hgrow]
    dsimp only
    rw [List.length_map] at hcan hnew hold
    have hcap : cap' < 2 ^ 32 := by
      by_cases hlt : capacity s b < ws.length + 1
      · rw [(hnew hlt).2]
        exact (hcan.2 hlt).1
      · rw [(hold (not_lt.mp hlt)).2.1]
        exact h.word
    have hlen : (ws.map wordBytes ++ List.replicate 1 (zeroCell .any)).length = ws.length + 1 := by
      simp
    obtain ⟨s'', haset, hvalid', hh'', -, hnext, hatt⟩ := aset_spec (R := R) (v := v) hvalid hh'
      (i := ws.length) (by omega) (accepts_any R _) rfl
    have hset : (ws.map wordBytes ++ List.replicate 1 (zeroCell .any)).set ws.length
        (cellOf s' .any v) = (ws ++ [v]).map wordBytes := by
      rw [List.set_append_right _ _ (by simp), show cellOf s' .any v = wordBytes v from rfl]
      simp
    rw [hset] at hh''
    obtain ⟨htable, hc⟩ := hh''.table hcap fun w hw => by
      rcases List.mem_append.mp hw with hw | hw
      · exact h.words w hw
      · rw [List.mem_singleton.mp hw]
        exact hv
    rw [hh'.len, hlen, Nat.add_sub_cancel, haset]
    refine Or.inr ⟨hcan, s'', rfl, hvalid', htable, fun hlt => hc.trans (hnew hlt).2,
      fun hle => ?_⟩
    obtain ⟨-, hc', hnext', hatt'⟩ := hold hle
    exact ⟨hc.trans hc', hnext.trans hnext', hatt.trans hatt'⟩

end

/-! ### Tables of pairs -/

/-- A list of bindings, symbols and values in turn. -/
def unpair (ps : List (Nat × Nat)) : List Nat := ps.flatMap fun p => [p.1, p.2]

/-- The value bound to a symbol. -/
def lookup (sym : Nat) : List (Nat × Nat) → Option Nat
  | [] => none
  | p :: ps => if p.1 = sym then some p.2 else lookup sym ps

/-- Replace the value of a binding. -/
def rebind (sym v : Nat) : List (Nat × Nat) → List (Nat × Nat)
  | [] => []
  | p :: ps => if p.1 = sym then (p.1, v) :: ps else p :: rebind sym v ps

theorem length_unpair (ps : List (Nat × Nat)) : (unpair ps).length = 2 * ps.length := by
  induction ps with
  | nil => rfl
  | cons p ps ih =>
    simp only [unpair, List.flatMap_cons, List.length_append, List.length_cons,
      List.length_nil] at ih ⊢
    omega

theorem unpair_append (ps qs : List (Nat × Nat)) : unpair (ps ++ qs) = unpair ps ++ unpair qs :=
  List.flatMap_append

variable {ps : List (Nat × Nat)}

theorem lookup_rebind {sym v : Nat} (h : lookup sym ps ≠ none) (k : Nat) :
    lookup k (rebind sym v ps) = if k = sym then some v else lookup k ps := by
  induction ps with
  | nil => exact absurd rfl h
  | cons p ps ih =>
    by_cases hp : p.1 = sym
    · simp only [rebind, if_pos hp, lookup]
      by_cases hk : k = sym
      · rw [if_pos (hp.trans hk.symm), if_pos hk]
      · rw [if_neg hk]
        split
        · exact absurd (‹p.1 = k›.symm.trans hp) hk
        · rfl
    · rw [lookup, if_neg hp] at h
      simp only [rebind, if_neg hp, lookup, ih h]
      by_cases hk : p.1 = k
      · have hne : k ≠ sym := fun he => hp (hk.trans he)
        simp [hk, hne]
      · simp [hk]

theorem lookup_append {sym v : Nat} (h : lookup sym ps = none) (k : Nat) :
    lookup k (ps ++ [(sym, v)]) = if k = sym then some v else lookup k ps := by
  induction ps with
  | nil => simp [lookup, eq_comm]
  | cons p ps ih =>
    by_cases hp : p.1 = sym
    · rw [lookup, if_pos hp] at h
      cases h
    · rw [lookup, if_neg hp] at h
      simp only [List.cons_append, lookup, ih h]
      by_cases hk : p.1 = k
      · have hne : k ≠ sym := fun he => hp (hk.trans he)
        simp [hk, hne]
      · simp [hk]

section

variable {R : Runtime} {s : Store} {b sym v : Nat}

/-- The key and the value behind a prefix of the bindings. -/
theorem getElem?_unpair (qs : List (Nat × Nat)) (p : Nat × Nat) (ps : List (Nat × Nat)) :
    (unpair (qs ++ p :: ps))[2 * qs.length]? = some p.1 ∧
      (unpair (qs ++ p :: ps))[2 * qs.length + 1]? = some p.2 := by
  rw [unpair_append]
  constructor
  · rw [List.getElem?_append_right (by rw [length_unpair]), length_unpair, Nat.sub_self]
    rfl
  · rw [List.getElem?_append_right (by rw [length_unpair]; omega), length_unpair,
      Nat.add_sub_cancel_left]
    rfl

/-- The loop of `get_global` looks the symbol up in the bindings that are left. -/
theorem getLoop_eq (hs : s.Valid) (ps qs : List (Nat × Nat)) (h : Table s b (unpair (qs ++ ps)))
    (hpos : ∀ p ∈ ps, 0 < p.1 ∧ 0 < p.2) {fuel : Nat} (hfuel : ps.length < fuel) :
    getLoop R b sym s fuel (2 * qs.length) = lookup sym ps := by
  induction ps generalizing qs fuel with
  | nil =>
    obtain ⟨fuel, rfl⟩ : ∃ n, fuel = n + 1 := ⟨fuel - 1, by simp at hfuel; omega⟩
    rw [getLoop, h.len, length_unpair, if_neg (by simp)]
    rfl
  | cons p ps ih =>
    obtain ⟨fuel, rfl⟩ : ∃ n, fuel = n + 1 := ⟨fuel - 1, by omega⟩
    obtain ⟨hkey, hval⟩ := getElem?_unpair qs p ps
    have hin : 2 * qs.length + 1 < Arr.len s b := by
      rw [h.len, length_unpair]
      simp
      omega
    obtain ⟨hp, hpos⟩ := List.forall_mem_cons.mp hpos
    rw [getLoop, if_pos hin, h.aref hs hkey hp.1, lookup]
    dsimp only
    split
    · rw [h.aref hs hval hp.2]
      rfl
    · have hrec := ih (qs ++ [p]) (by simpa using h) hpos
        (show ps.length < fuel by simp at hfuel; omega)
      rw [List.length_append] at hrec
      exact hrec

theorem getGlobal_eq (hs : s.Valid) (h : Table s b (unpair ps))
    (hpos : ∀ p ∈ ps, 0 < p.1 ∧ 0 < p.2) : getGlobal R b sym s = lookup sym ps := by
  unfold getGlobal
  rw [h.len, length_unpair]
  cases ps with
  | nil => rfl
  | cons p ps => exact getLoop_eq hs (p :: ps) [] h hpos (by simp)

theorem getGlobal_ne_zero {ws : List Nat} (h : Table s b ws) : getGlobal R b sym s ≠ some 0 := by
  have hloop : ∀ fuel i, getLoop R b sym s fuel i ≠ some 0 := by
    intro fuel
    induction fuel with
    | zero => simp [getLoop]
    | succ fuel ih =>
      intro i hzero
      rw [getLoop] at hzero
      split at hzero
      · cases hkey : (Arr.aref R b i s).1 with
        | error e => simp [hkey] at hzero
        | ok k =>
          simp only [hkey] at hzero
          split at hzero
          · cases hval : (Arr.aref R b (i + 1) s).1 with
            | error e => simp [hval, Except.toOption] at hzero
            | ok r =>
              simp only [hval, Except.toOption, Option.some.injEq] at hzero
              exact h.aref_ne_zero (hzero ▸ hval)
          · exact ih _ hzero
      · cases hzero
  exact hloop _ _

/-- The loop of `set_global` rebinds the symbol, if it is bound in what is left. -/
theorem setLoop_eq (R : Runtime) (sym : Nat) (hs : s.Valid) (hv : v < 2 ^ 32)
    (ps qs : List (Nat × Nat)) (h : Table s b (unpair (qs ++ ps)))
    (hpos : ∀ p ∈ ps, 0 < p.1 ∧ 0 < p.2) {fuel : Nat} (hfuel : ps.length ≤ fuel) :
    (lookup sym ps = none ∧ setLoop R b sym v s fuel (2 * qs.length) = none) ∨
      (lookup sym ps ≠ none ∧ ∃ s', setLoop R b sym v s fuel (2 * qs.length) = some (.ok (), s') ∧
        s'.Valid ∧ Table s' b (unpair (qs ++ rebind sym v ps))) := by
  induction ps generalizing qs fuel with
  | nil =>
    refine Or.inl ⟨rfl, ?_⟩
    cases fuel with
    | zero => rfl
    | succ fuel => rw [setLoop, h.len, length_unpair, if_neg (by simp)]
  | cons p ps ih =>
    obtain ⟨fuel, rfl⟩ : ∃ n, fuel = n + 1 := ⟨fuel - 1, by simp at hfuel; omega⟩
    obtain ⟨hkey, -⟩ := getElem?_unpair qs p ps
    obtain ⟨hp, hpos⟩ := List.forall_mem_cons.mp hpos
    have hlen : Arr.len s b = 2 * (qs.length + (ps.length + 1)) := by
      rw [h.len, length_unpair]
      simp
    rw [setLoop, if_pos (by omega), h.aref hs hkey hp.1, lookup, rebind]
    dsimp only
    by_cases hsym : p.1 = sym
    · simp only [if_pos hsym]
      obtain ⟨s', haset, hvalid, h'⟩ := h.aset (R := R) hs (i := 2 * qs.length + 1)
        (by rw [← h.len]; omega) hv
      refine Or.inr ⟨by simp, s', by rw [haset], hvalid, ?_⟩
      have hset : (unpair (qs ++ p :: ps)).set (2 * qs.length + 1) v =
          unpair (qs ++ (p.1, v) :: ps) := by
        rw [unpair_append, unpair_append, List.set_append_right _ _ (by rw [length_unpair]; omega),
          length_unpair, Nat.add_sub_cancel_left]
        rfl
      rw [← hset]
      exact h'
    · simp only [if_neg hsym]
      have hrec := ih (qs ++ [p]) (by simpa using h) hpos
        (show ps.length ≤ fuel by simp at hfuel; omega)
      simp only [List.length_append, List.length_singleton, Nat.mul_add, Nat.mul_one,
        List.append_assoc, List.singleton_append] at hrec
      exact hrec

/-- The next capacity of the table can be had. -/
def HasNext (R : Runtime) (s : Store) (b : Nat) : Prop :=
  Arr.growth (capacity s b) < 2 ^ 32 ∧ Room R s (elemSize .any) (Arr.growth (capacity s b))

theorem lt_growth (c : Nat) : c < Arr.growth c := by
  unfold Arr.growth
  split
  · omega
  · split <;> omega

theorem growth_of_even {c : Nat} (h : Even c) : c + 2 ≤ Arr.growth c := by
  obtain ⟨r, rfl⟩ := h
  unfold Arr.growth
  split
  · omega
  · split <;> omega

/-- A full table can take one more entry if the next capacity can be had. -/
theorem canGrow_full_iff {n : Nat} (h : capacity s b < n) (hn : n ≤ capacity s b + 1) :
    CanGrow R s .any (capacity s b) n ↔ HasNext R s b := by
  have hlt := lt_growth (capacity s b)
  have hcap : Arr.newCapacity (capacity s b) n = Arr.growth (capacity s b) := by
    rw [Arr.newCapacity, if_neg (by omega)]
  rw [CanGrow, hcap]
  exact ⟨fun hgrow => hgrow.2 h, fun hnext => ⟨by have := hnext.1; omega, fun _ => hnext⟩⟩

/-- **What a call does to a table of pairs**: it rebinds the symbol, or appends a pair,
or fails and leaves the pairs alone, or fails between its two pushes. -/
theorem setGlobal_cases (R : Runtime) (hs : s.Valid) (hsym : sym < 2 ^ 32) (hv : v < 2 ^ 32)
    (h : Table s b (unpair ps)) (hpos : ∀ p ∈ ps, 0 < p.1 ∧ 0 < p.2) :
    (lookup sym ps ≠ none ∧ ∃ s', setGlobal R b sym v s = (.ok (), s') ∧ s'.Valid ∧
        Table s' b (unpair (rebind sym v ps))) ∨
      (lookup sym ps = none ∧ (capacity s b ≤ Arr.len s b + 1 → HasNext R s b) ∧
        ∃ s', setGlobal R b sym v s = (.ok (), s') ∧ s'.Valid ∧
          Table s' b (unpair (ps ++ [(sym, v)]))) ∨
      (lookup sym ps = none ∧ capacity s b = Arr.len s b ∧ ¬ HasNext R s b ∧
        ∃ e s', setGlobal R b sym v s = (.error e, s') ∧ s'.Valid ∧ Table s' b (unpair ps)) ∨
      (lookup sym ps = none ∧ capacity s b = Arr.len s b + 1 ∧ ¬ HasNext R s b ∧
        ∃ e s', setGlobal R b sym v s = (.error e, s') ∧ Table s' b (unpair ps ++ [sym])) := by
  unfold setGlobal
  rw [h.len]
  rcases setLoop_eq R sym hs hv ps [] h hpos
      (show ps.length ≤ (unpair ps).length by rw [length_unpair]; omega)
    with ⟨hnone, hloop⟩ | ⟨hsome, s', hloop, hvalid, h'⟩
  · simp only [List.length_nil, Nat.mul_zero] at hloop
    simp only [hloop, hnone, ne_eq, not_true_eq_false, false_and, false_or, true_and]
    have heven : Even (unpair ps).length := by
      rw [length_unpair]
      exact even_two_mul _
    have hle := h.le_capacity
    have hword := h.word
    rcases h.push R hs hsym with
      ⟨hno, e, s₁, hpush, hv₁, h₁⟩ | ⟨hcan, s₁, hpush, hv₁, h₁, hnew, hold⟩
    · -- the symbol finds no room: the table is full
      have hfull : capacity s b = (unpair ps).length := by
        by_contra hne
        exact hno ⟨by omega, fun hlt => by omega⟩
      rw [canGrow_full_iff (by omega) (by omega)] at hno
      exact Or.inr (Or.inl ⟨hfull, hno, e, s₁, by rw [hpush], hv₁, h₁⟩)
    · have happend : (unpair ps ++ [sym]).length = (unpair ps).length + 1 := by simp
      have hpairs : unpair ps ++ [sym] ++ [v] = unpair (ps ++ [(sym, v)]) := by
        rw [unpair_append]
        simp [unpair]
      rcases h₁.push R hv₁ hv with
        ⟨hno, e, s₂, hpush', -, h₂⟩ | ⟨hcan', s₂, hpush', hv₂, h₂, -⟩
      · -- the value finds no room: there was room for one entry
        rw [happend] at hno
        by_cases hfull : capacity s b < (unpair ps).length + 1
        · have hsize : capacity s b = (unpair ps).length := by omega
          have hnext := (canGrow_full_iff hfull (by omega)).mp hcan
          have hcap : capacity s₁ b = Arr.growth (capacity s b) := by
            rw [hnew hfull, Arr.newCapacity, if_neg (by have := lt_growth (capacity s b); omega)]
          have hgrow := growth_of_even (hsize ▸ heven)
          refine absurd ⟨?_, fun hlt => ?_⟩ hno
          · have := hnext.1
            omega
          · omega
        · obtain ⟨hcap, hnext₁, hatt⟩ := hold (by omega)
          have hsize : capacity s b = (unpair ps).length + 1 := by
            by_contra hne
            exact hno ⟨by omega, fun hlt => by omega⟩
          rw [canGrow_full_iff (by omega) (by omega)] at hno
          refine Or.inr (Or.inr ⟨hsize, fun hroom => hno ?_, e, s₂, ?_, h₂⟩)
          · unfold HasNext Room Store.Grants at hroom ⊢
            rwa [hcap, hnext₁, hatt]
          · rw [hpush]
            exact hpush'
      · refine Or.inl ⟨fun hsmall => ?_, s₂, ?_, hv₂, hpairs ▸ h₂⟩
        · by_cases hfull : capacity s b < (unpair ps).length + 1
          · exact (canGrow_full_iff hfull (by omega)).mp hcan
          · obtain ⟨hcap, hnext₁, hatt⟩ := hold (by omega)
            rw [happend, canGrow_full_iff (by omega) (by omega)] at hcan'
            unfold HasNext Room Store.Grants at hcan' ⊢
            rwa [hcap, hnext₁, hatt] at hcan'
        · rw [hpush]
          exact hpush'
  · simp only [List.length_nil, Nat.mul_zero] at hloop
    simp only [hloop]
    exact Or.inl ⟨hsome, s', rfl, hvalid, h'⟩

end

/-! ### Sequences of calls -/

/-- **The table is a map, along a sequence of calls.**  The map is what `get_global` sees,
the table consists of pairs, a successful call changes the map at its symbol, and a
failed one does not change it. -/
def RefinesMap (R : Runtime) (b : Nat) :
    List (Nat × Nat) → Store → (Nat → Option Nat) → Prop
  | [], s, f => (∀ k, getGlobal R b k s = f k) ∧ Even (Arr.len s b)
  | (sym, v) :: calls, s, f => (∀ k, getGlobal R b k s = f k) ∧ Even (Arr.len s b) ∧
    match setGlobal R b sym v s with
    | (.ok (), s') => RefinesMap R b calls s' (Function.update f sym (some v))
    | (.error _, s') => RefinesMap R b calls s' f

/-- Every call finds the table as it needs it.  A new symbol, where the table has room for
one entry and not for two, needs the next capacity; and the value is not the null
reference, unless the symbol is new and finds no room. -/
def Fit (R : Runtime) (b : Nat) : List (Nat × Nat) → Store → Prop
  | [], _ => True
  | (sym, v) :: calls, s =>
    ((getGlobal R b sym s = none → capacity s b = Arr.len s b + 1 → HasNext R s b) ∧
      (v = 0 → getGlobal R b sym s = none ∧ capacity s b = Arr.len s b ∧ ¬ HasNext R s b)) ∧
    Fit R b calls (setGlobal R b sym v s).2

theorem RefinesMap.sees {R : Runtime} {b : Nat} {calls : List (Nat × Nat)} {s : Store}
    {f : Nat → Option Nat} (h : RefinesMap R b calls s f) :
    (∀ k, getGlobal R b k s = f k) ∧ Even (Arr.len s b) := by
  cases calls with
  | nil => exact h
  | cons c calls => exact ⟨h.1, h.2.1⟩

theorem mem_rebind {sym v : Nat} {p : Nat × Nat} (h : p ∈ rebind sym v ps) :
    p = (sym, v) ∨ p ∈ ps := by
  induction ps with
  | nil => exact Or.inr h
  | cons q ps ih =>
    rw [rebind] at h
    split at h
    case isTrue hq =>
      rcases List.mem_cons.mp h with rfl | h
      · exact Or.inl (by rw [hq])
      · exact Or.inr (List.mem_cons_of_mem q h)
    case isFalse =>
      rcases List.mem_cons.mp h with rfl | h
      · exact Or.inr List.mem_cons_self
      · exact (ih h).imp id (List.mem_cons_of_mem q)

/-- **When a module's table refines a map**: no call of the sequence fails between its two
pushes, and none binds a symbol to the null reference. -/
theorem setGlobal_refines_iff (R : Runtime) (b : Nat) (calls : List (Nat × Nat))
    (hcalls : ∀ c ∈ calls, (0 < c.1 ∧ c.1 < 2 ^ 32) ∧ c.2 < 2 ^ 32) (s : Store)
    (hs : s.Valid) (ps : List (Nat × Nat)) (h : Table s b (unpair ps))
    (hpos : ∀ p ∈ ps, 0 < p.1 ∧ 0 < p.2) :
    RefinesMap R b calls s (fun k => lookup k ps) ↔ Fit R b calls s := by
  induction calls generalizing s ps with
  | nil =>
    simp only [RefinesMap, Fit, iff_true]
    exact ⟨fun k => getGlobal_eq hs h hpos, by rw [h.len, length_unpair]; exact even_two_mul _⟩
  | cons c calls ih =>
    obtain ⟨sym, v⟩ := c
    obtain ⟨⟨hsym, hv⟩, hcalls⟩ := List.forall_mem_cons.mp hcalls
    have hget : ∀ k, getGlobal R b k s = lookup k ps := fun k => getGlobal_eq hs h hpos
    have heven : Even (Arr.len s b) := by
      rw [h.len, length_unpair]
      exact even_two_mul _
    -- after a success the map has the value, and can only be seen to if it is not null
    have hok : ∀ {s' : Store} {ps' : List (Nat × Nat)}, s'.Valid → Table s' b (unpair ps') →
        (∀ k, lookup k ps' = if k = sym then some v else lookup k ps) →
        (∀ p ∈ ps', p = (sym, v) ∨ p ∈ ps) →
        (RefinesMap R b calls s' (Function.update (fun k => lookup k ps) sym (some v)) ↔
          v ≠ 0 ∧ Fit R b calls s') := by
      intro s' ps' hvalid h' hlookup hmem
      have hupdate : Function.update (fun k => lookup k ps) sym (some v) =
          fun k => lookup k ps' := by
        funext k
        rw [hlookup k, Function.update_apply]
      by_cases hzero : v = 0
      · refine iff_of_false (fun hmap => ?_) fun hfit => hfit.1 hzero
        have hsees := hmap.sees.1 sym
        rw [Function.update_self, hzero] at hsees
        exact getGlobal_ne_zero h' hsees
      · rw [hupdate, and_iff_right hzero]
        refine ih hcalls s' hvalid ps' h' fun p hp => ?_
        rcases hmem p hp with rfl | hp
        · exact ⟨hsym.1, Nat.pos_of_ne_zero hzero⟩
        · exact hpos p hp
    simp only [RefinesMap, Fit, hget, heven, implies_true, true_and]
    rcases setGlobal_cases R hs hsym.2 hv h hpos
      with ⟨hsome, s', hset, hvalid, h'⟩ | ⟨hnone, hroom, s', hset, hvalid, h'⟩ |
        ⟨hnone, hfull, hno, e, s', hset, hvalid, h'⟩ | ⟨hnone, hone, hno, e, s', hset, h'⟩
    · rw [hset]
      simp only [hsome, false_implies, true_and, false_and, imp_false]
      exact hok hvalid h' (lookup_rebind hsome) fun p hp => mem_rebind hp
    · rw [hset]
      have hzero : ¬ (capacity s b = Arr.len s b ∧ ¬ HasNext R s b) := fun hc =>
        hc.2 (hroom (by omega))
      simp only [hnone, true_implies, true_and, hzero, imp_false]
      rw [and_iff_right fun hc => hroom (by omega)]
      refine hok hvalid h' (lookup_append hnone) fun p hp => ?_
      rcases List.mem_append.mp hp with hp | hp
      · exact Or.inr hp
      · exact Or.inl (List.mem_singleton.mp hp)
    · rw [hset]
      simp only [hnone, true_implies, hfull, hno, not_false_eq_true, and_self, implies_true,
        and_true]
      rw [and_iff_right fun hc => absurd hc (by omega)]
      exact ih hcalls s' hvalid ps h' hpos
    · -- the torn table has an odd length
      rw [hset]
      refine iff_of_false (fun hmap => ?_) fun hfit => hno (hfit.1.1 hnone hone)
      obtain ⟨r, hr⟩ := hmap.sees.2
      rw [h'.len, List.length_append, List.length_singleton, length_unpair] at hr
      omega

/-- The store after a sequence of calls. -/
def setGlobals (R : Runtime) (b : Nat) (calls : List (Nat × Nat)) (s : Store) : Store :=
  calls.foldl (fun s c => (setGlobal R b c.1 c.2 s).2) s

/-- The sixth request for memory is refused, the others are granted. -/
def tearingRuntime : Runtime :=
  { grantingRuntime with grant := fun n _ => if n = 5 then none else some fun _ => 0 }

/-- An empty table at 5. -/
def emptyTable : Store := (Arr.alloc1d tearingRuntime .any 0 bootStore).2

/-- Five symbols are bound in turn; a table of capacity nine has room for four pairs and
the fifth symbol. -/
def fiveCalls : List (Nat × Nat) := [(11, 2), (12, 2), (13, 2), (14, 2), (15, 2)]

/-- **A torn table, and a null value.**  The fifth call fails after its first push.  The
sixth succeeds, but its symbol is not bound afterwards, and the fifth is bound to the
sixth.  A call with the null reference succeeds, and leaves its symbol unbound. -/
theorem setGlobal_tears :
    ((setGlobal tearingRuntime 5 15 2
        (setGlobals tearingRuntime 5 (fiveCalls.take 4) emptyTable)).1 = .error .outOfMemory ∧
      Arr.len (setGlobals tearingRuntime 5 fiveCalls emptyTable) 5 = 9 ∧
      (setGlobal tearingRuntime 5 16 3 (setGlobals tearingRuntime 5 fiveCalls emptyTable)).1 =
        .ok () ∧
      getGlobal tearingRuntime 5 16
        (setGlobals tearingRuntime 5 (fiveCalls ++ [(16, 3)]) emptyTable) = none ∧
      getGlobal tearingRuntime 5 15
        (setGlobals tearingRuntime 5 (fiveCalls ++ [(16, 3)]) emptyTable) = some 16) ∧
    (setGlobal tearingRuntime 5 11 0 emptyTable).1 = .ok () ∧
      getGlobal tearingRuntime 5 11 (setGlobal tearingRuntime 5 11 0 emptyTable).2 = none := by
  refine ⟨⟨?_, ?_, ?_, ?_, ?_⟩, ?_, ?_⟩ <;> decide +kernel

theorem emptyTable_valid : emptyTable.Valid where
  next_le := by decide
  pos := by decide
  dom := by
    intro a o h
    match a, h with
    | 1, _ | 2, _ | 3, _ | 4, _ | 5, _ => exact ⟨by decide, by decide⟩

theorem emptyTable_table : Table emptyTable 5 (unpair []) :=
  ⟨⟨4, rfl, rfl, nofun, le_rfl⟩, by decide, nofun⟩

/-- The sequence of five calls meets the hypotheses. -/
theorem setGlobal_refines_iff_five :
    RefinesMap tearingRuntime 5 fiveCalls emptyTable (fun k => lookup k []) ↔
      Fit tearingRuntime 5 fiveCalls emptyTable :=
  setGlobal_refines_iff tearingRuntime 5 fiveCalls (by decide) emptyTable emptyTable_valid []
    emptyTable_table nofun

end Ruju.Storage
