import Ruju.Storage.Arrays

/-!
# When growing fails

`array::push` grows the array and then stores, and `array::grow_end` may ask for a
larger buffer than it needs.  Two properties one would like to have of them, and
exactly when they do:

* `push` is all-or-nothing unless the array can grow and the value is then rejected:
  the type check comes after the growth, which is not undone
  (`push_allOrNothing_iff`);
* `grow_end` fails only when it must unless the capacity of the growth sequence exceeds
  the length that is needed, cannot be had, and the length could
  (`growEnd_necessary_iff`).  With elements that take no bytes this happens beyond 32
  bits only; with others, whenever the region has room for the one and not for the other.
-/

namespace Ruju.Storage

/-! ### A runtime to run -/

/-- Every request is granted. -/
def grantingRuntime : Runtime where
  fuel := 4
  nextType := 0
  instanceOf _ := 1
  grant _ _ := some fun _ => 0
  egalTypes _ _ _ := false

/-- `nothing`, `false` and `true`. -/
def bootStore : Store where
  objs a :=
    match a with
    | 1 => some (.data (.builtin .nothing) [])
    | 2 => some (.data (.builtin .bool) [0])
    | 3 => some (.data (.builtin .bool) [1])
    | _ => none
  next := 4
  attempts := 0

theorem bootStore_valid : bootStore.Valid where
  next_le := by decide
  pos := by decide
  dom := by
    intro a o h
    match a, h with
    | 1, _ | 2, _ | 3, _ => exact ⟨by decide, by decide⟩

/-! ### Push -/

/-- All or nothing: a success appends the value's cell, and a failure changes neither the
length nor an element. -/
def AllOrNothing (elem : TypeObj) (s : Store) (a v : Nat) (r : Except Error Unit × Store) : Prop :=
  (r.1 = .ok () → Arr.len r.2 a = Arr.len s a + 1 ∧
    cells r.2 a = cells s a ++ [cellOf s elem v]) ∧
  ∀ e, r.1 = .error e → Arr.len r.2 a = Arr.len s a ∧ cells r.2 a = cells s a

/-- What an operation on an array may change: the array, its buffer, and what is new.  A
new buffer is a new object. -/
def Local (a mem : Nat) (s : Store) (mem' : Nat) (s' : Store) : Prop :=
  (mem' = mem ∨ s.objs mem' = none) ∧
    ∀ b o, b ≠ a → b ≠ mem → s.objs b = some o → s'.objs b = some o

section

variable {R : Runtime} {s : Store} {a mem cap v : Nat} {elem : TypeObj} {cs : List (List UInt8)}

theorem Local.refl (a mem : Nat) (s : Store) : Local a mem s mem s :=
  ⟨Or.inl rfl, fun _ _ _ _ hb => hb⟩

theorem cellOf_congr {s' : Store} (h : s'.bytes v = s.bytes v) :
    cellOf s' elem v = cellOf s elem v := by
  unfold cellOf
  rw [h]

/-- Growing, as far as the other arrays are concerned. -/
theorem growEnd_local (inc : Nat) (hs : s.Valid) (h : Holds s a elem mem cap cs)
    (hgrow : CanGrow R s elem cap (cs.length + inc)) :
    ∃ mem' cap' s', Arr.growEnd R a inc s = (.ok (), s') ∧ s'.Valid ∧
      Holds s' a elem mem' cap' (cs ++ List.replicate inc (zeroCell elem)) ∧
      Local a mem s mem' s' := by
  rcases growEnd_spec R inc hs h
    with ⟨hno, -⟩ | ⟨-, mem', cap', s', hrun, hvalid, h', hnew, hold, hframe⟩
  · exact absurd hgrow hno
  · refine ⟨mem', cap', s', hrun, hvalid, h', ?_, fun b o hba _ hb => hframe b o hba hb⟩
    by_cases hcap : cap < cs.length + inc
    · right
      rw [(hnew hcap).1]
      cases ho : s.objs s.next with
      | none => rfl
      | some o => exact absurd rfl (hs.ne_next ho)
    · exact Or.inl (hold (not_lt.mp hcap)).1

/-- A push of a value of the right type appends its cell, or it reports a lack of memory
and changes no object. -/
theorem push_spec (hs : s.Valid) (h : Holds s a elem mem cap cs)
    (hv : Live R s v) (hacc : Memory.accepts R elem (s.typeOf v)) :
    (¬ CanGrow R s elem cap (cs.length + 1) ∧ ∃ e s', Arr.push R a v s = (.error e, s') ∧
        e.isAllocation ∧ s'.Valid ∧ s'.objs = s.objs) ∨
      ∃ mem' cap' s', Arr.push R a v s = (.ok (), s') ∧ s'.Valid ∧
        Holds s' a elem mem' cap' (cs ++ [cellOf s elem v]) ∧ Local a mem s mem' s' := by
  unfold Arr.push
  rcases growEnd_spec R 1 hs h with ⟨hno, e, s', hgrow, he, hvalid, hsame⟩ | ⟨hcan, -⟩
  · exact Or.inl ⟨hno, e, s', by rw [hgrow], he, hvalid, hsame⟩
  · obtain ⟨mem', cap', s', hgrow, hvalid, h', hnew, hframe⟩ := growEnd_local 1 hs h hcan
    obtain ⟨htype, hbytes, hv'⟩ := growEnd_same hs h hgrow hv
    have hlen : (cs ++ List.replicate 1 (zeroCell elem)).length = cs.length + 1 := by simp
    have hacc' : Memory.accepts R elem (s'.typeOf v) := by rwa [htype]
    obtain ⟨s'', haset, hvalid', h'', hrest, -⟩ := aset_spec hvalid h' (i := cs.length)
      (by omega) hacc' (length_cellOf hv' hacc')
    have hset : (cs ++ List.replicate 1 (zeroCell elem)).set cs.length (cellOf s' elem v) =
        cs ++ [cellOf s elem v] := by
      rw [List.set_append_right _ _ le_rfl, Nat.sub_self, cellOf_congr hbytes]
      rfl
    rw [hset] at h''
    refine Or.inr ⟨mem', cap', s'', ?_, hvalid', h'', hnew, fun b o hba hbm hb => ?_⟩
    · rw [hgrow]
      dsimp only
      rw [h'.len, hlen, Nat.add_sub_cancel, haset]
    · -- the buffer that is written to is the old one or was not there before
      have hne : b ≠ mem' := by
        rintro rfl
        rcases hnew with hsame | hnone
        · exact hbm hsame
        · rw [hnone] at hb
          cases hb
      rw [hrest b hne]
      exact hframe b o hba hbm hb

/-- A failure that changes no object is nothing. -/
theorem allOrNothing_of_error (h : Holds s a elem mem cap cs) {s' : Store} {e : Error}
    (hsame : s'.objs = s.objs) : AllOrNothing elem s a v (.error e, s') := by
  have h' : Holds s' a elem mem cap cs := h.congr (by rw [hsame]) (by rw [hsame])
  refine ⟨fun hok => ?_, fun _ _ => ?_⟩
  · cases hok
  · rw [h'.len, h.len, h'.cells_eq, h.cells_eq]
    exact ⟨rfl, rfl⟩

/-- **When a push is all-or-nothing**: the value may become an element, or the array
cannot grow, and this is noticed before the value is looked at. -/
theorem push_allOrNothing_iff (hs : s.Valid) (h : Holds s a elem mem cap cs) (hv : Live R s v) :
    AllOrNothing elem s a v (Arr.push R a v s) ↔
      Memory.accepts R elem (s.typeOf v) ∨ ¬ CanGrow R s elem cap (Arr.len s a + 1) := by
  rw [h.len]
  constructor
  · intro hall
    by_contra hnot
    push Not at hnot
    obtain ⟨hacc, hcan⟩ := hnot
    -- the array grows, and the store is refused
    obtain ⟨mem', cap', s', hgrow, -, h', -⟩ := growEnd_local 1 hs h hcan
    obtain ⟨htype, -, -⟩ := growEnd_same hs h hgrow hv
    have hlen : (cs ++ List.replicate 1 (zeroCell elem)).length = cs.length + 1 := by simp
    have hpush : Arr.push R a v s =
        (.error (.message (Memory.typeMessage elem (s'.typeOf v))), s') := by
      unfold Arr.push
      rw [hgrow]
      dsimp only
      exact aset_of_not_accepts h' (by rw [h'.len]; omega) (by rw [htype]; exact hacc)
    have hsame := (hall.2 _ (by rw [hpush])).1
    rw [hpush, h'.len, h.len] at hsame
    omega
  · rintro (hacc | hno)
    · rcases push_spec hs h hv hacc
        with ⟨-, e, s', hpush, -, -, hsame⟩ | ⟨mem', cap', s', hpush, -, h', -⟩
      · rw [hpush]
        exact allOrNothing_of_error h hsame
      · rw [hpush]
        refine ⟨fun _ => ?_, fun _ herr => ?_⟩
        · rw [h'.len, h.len, h'.cells_eq, h.cells_eq, List.length_append]
          exact ⟨rfl, rfl⟩
        · cases herr
    · rcases growEnd_spec R 1 hs h with ⟨-, e, s', hgrow, -, -, hsame⟩ | ⟨hcan, -⟩
      · have hpush : Arr.push R a v s = (.error e, s') := by
          unfold Arr.push
          rw [hgrow]
        rw [hpush]
        exact allOrNothing_of_error h hsame
      · exact absurd hcan hno

end

/-- A `Float64` box at 4, and an empty `Array{Int64}` at 6. -/
def intStore : Store :=
  (Arr.alloc1d grantingRuntime (.builtin .int64) 0
    (bootStore.alloc grantingRuntime 8 (Obj.data (.builtin .float64))).2).2

/-- **A rejected push leaves the array longer.**  Pushing a `Float64` onto an empty
`Array{Int64}` raises a type error, and the array has one element afterwards. -/
theorem push_rejected_grows :
    (Arr.push grantingRuntime 6 4 intStore).1 =
        .error (.message "TypeError: memoryrefset!: expected Int64, got Float64") ∧
      Arr.len intStore 6 = 0 ∧ Arr.len (Arr.push grantingRuntime 6 4 intStore).2 6 = 1 ∧
      ¬ AllOrNothing (.builtin .int64) intStore 6 4 (Arr.push grantingRuntime 6 4 intStore) := by
  have herr : (Arr.push grantingRuntime 6 4 intStore).1 =
      .error (.message "TypeError: memoryrefset!: expected Int64, got Float64") := by
    decide +kernel
  have hlen : Arr.len (Arr.push grantingRuntime 6 4 intStore).2 6 = 1 := by decide +kernel
  refine ⟨herr, by decide +kernel, hlen, fun h => ?_⟩
  have hsame := (h.2 _ herr).1
  rw [hlen] at hsame
  exact absurd hsame (by decide +kernel)

theorem intStore_valid : intStore.Valid where
  next_le := by decide
  pos := by decide
  dom := by
    intro a o h
    match a, h with
    | 1, _ | 2, _ | 3, _ | 4, _ | 5, _ | 6, _ => exact ⟨by decide, by decide⟩

theorem intStore_holds : Holds intStore 6 (.builtin .int64) 5 0 [] :=
  ⟨rfl, rfl, nofun, le_rfl⟩

theorem intStore_live : Live grantingRuntime intStore 4 :=
  ⟨⟨_, rfl⟩, rfl, fun _ => rfl, fun h => absurd h (by decide)⟩

/-- The push of a `Float64` meets the hypotheses, and fails the condition. -/
theorem push_allOrNothing_iff_float :
    (AllOrNothing (.builtin .int64) intStore 6 4 (Arr.push grantingRuntime 6 4 intStore) ↔
      Memory.accepts grantingRuntime (.builtin .int64) (intStore.typeOf 4) ∨
        ¬ CanGrow grantingRuntime intStore (.builtin .int64) 0 (Arr.len intStore 6 + 1)) ∧
      Memory.accepts grantingRuntime (.builtin .int64) (intStore.typeOf 4) = false :=
  ⟨push_allOrNothing_iff intStore_valid intStore_holds intStore_live, by decide +kernel⟩

/-! ### Growth -/

/-- Growing fails only when it must: the length is not a word, or a buffer of exactly the
required length cannot be allocated; and then the array is unchanged. -/
def FailsOnlyIfNecessary (R : Runtime) (elem : TypeObj) (a inc : Nat) (s : Store) : Prop :=
  ∀ e, (Arr.growEnd R a inc s).1 = .error e →
    (2 ^ 32 ≤ Arr.len s a + inc ∨
      ∃ e', (Memory.alloc R elem (Arr.len s a + inc) s).1 = .error e') ∧
    Arr.len (Arr.growEnd R a inc s).2 a = Arr.len s a ∧
    cells (Arr.growEnd R a inc s).2 a = cells s a

/-- Whenever the buffer of capacity `cap` is exhausted, one for the `n` elements that are
needed can be had, and the growth sequence asks for more, its capacity can be had too. -/
def GrowthFits (R : Runtime) (s : Store) (size cap n : Nat) : Prop :=
  cap < n → n < 2 ^ 32 → Room R s size n → n < Arr.growth cap →
    Arr.growth cap < 2 ^ 32 ∧ Room R s size (Arr.growth cap)

section

variable {R : Runtime} {s : Store} {a mem cap inc : Nat} {elem : TypeObj}
  {cs : List (List UInt8)}

/-- When `memory::alloc` fails, by length, size and region. -/
theorem memory_alloc_error_iff {len : Nat} :
    (∃ e, (Memory.alloc R elem len s).1 = .error e) ↔ ¬ Room R s (elemSize elem) len := by
  rcases memory_alloc_cases R elem len s with ⟨hno, e, halloc | halloc, -⟩ | ⟨hroom, halloc⟩
  · simp [halloc, hno]
  · simp [halloc, hno]
  · simp [halloc, hroom]

/-- **When growing fails only if it must**, in terms of the capacity, the length, the size
of an element and what the region grants. -/
theorem growEnd_necessary_iff (hs : s.Valid) (h : Holds s a elem mem cap cs) :
    FailsOnlyIfNecessary R elem a inc s ↔
      GrowthFits R s (elemSize elem) cap (Arr.len s a + inc) := by
  unfold FailsOnlyIfNecessary GrowthFits
  rw [h.len, memory_alloc_error_iff]
  rcases growEnd_spec R inc hs h with ⟨hno, e, s', hgrow, -, -, hsame⟩
    | ⟨hcan, mem', cap', s', hgrow, -⟩
  · have h' : Holds s' a elem mem cap cs := h.congr (by rw [hsame]) (by rw [hsame])
    simp only [hgrow, h'.len, h'.cells_eq, h.cells_eq, and_self, and_true]
    constructor
    · intro hnec _ hmax hroom _
      rcases hnec e rfl with hbig | hnone
      · omega
      · exact absurd hroom hnone
    · intro hfits _ _
      by_contra hnot
      push Not at hnot
      -- the length could be had, so the capacity that was asked for could be had
      refine hno ⟨hnot.1, fun hcap => ?_⟩
      unfold Arr.newCapacity
      split
      · exact hnot
      · by_cases hlt : cs.length + inc < Arr.growth cap
        · exact hfits hcap hnot.1 hnot.2 hlt
        · rwa [show Arr.growth cap = cs.length + inc by omega]
  · simp only [hgrow, reduceCtorEq, false_implies, implies_true, true_iff]
    intro hcap _ _ hlt
    have hroom := hcan.2 hcap
    rwa [Arr.newCapacity, if_neg (by omega)] at hroom

end

/-- An `Array{Nothing}` with four billion elements at 5; its buffer takes no bytes. -/
def nothingStore : Store :=
  (Arr.alloc1d grantingRuntime (.builtin .nothing) 4000000000 bootStore).2

/-- **Growing asks for too much.**  One more element would fit, and a buffer for it is
there to be had; the growth sequence asks for a capacity beyond 32 bits. -/
theorem growEnd_overshoots :
    (Arr.growEnd grantingRuntime 5 1 nothingStore).1 =
        .error (.message "invalid Array size: too large") ∧
      Arr.len nothingStore 5 + 1 < 2 ^ 32 ∧
      (Memory.alloc grantingRuntime (.builtin .nothing) (Arr.len nothingStore 5 + 1)
        nothingStore).1 = .ok 6 ∧
      ¬ FailsOnlyIfNecessary grantingRuntime (.builtin .nothing) 5 1 nothingStore := by
  have herr : (Arr.growEnd grantingRuntime 5 1 nothingStore).1 =
      .error (.message "invalid Array size: too large") := by decide +kernel
  have hok : (Memory.alloc grantingRuntime (.builtin .nothing) (Arr.len nothingStore 5 + 1)
      nothingStore).1 = .ok 6 := by decide +kernel
  have hlen : Arr.len nothingStore 5 + 1 < 2 ^ 32 := by decide +kernel
  refine ⟨herr, hlen, hok, fun h => ?_⟩
  rcases (h _ herr).1 with hbig | ⟨e, he⟩
  · omega
  · rw [hok] at he
    cases he

/-- The empty array of integers meets the hypotheses and the condition. -/
theorem growEnd_necessary_iff_int :
    (FailsOnlyIfNecessary grantingRuntime (.builtin .int64) 6 1 intStore ↔
      GrowthFits grantingRuntime intStore (elemSize (.builtin .int64)) 0
        (Arr.len intStore 6 + 1)) ∧
      GrowthFits grantingRuntime intStore (elemSize (.builtin .int64)) 0
        (Arr.len intStore 6 + 1) :=
  ⟨growEnd_necessary_iff intStore_valid intStore_holds,
    fun _ _ _ _ => ⟨by decide, by decide, by decide, rfl⟩⟩

end Ruju.Storage
