import Ruju.Storage.Store
import Ruju.Subtype.Words

/-!
# Arrays over buffers

What `array.rs` and `memory.rs` do to the elements of an array.

An array is a prefix of its buffer.  `Holds` says which cells the prefix consists of,
and that the rest of the buffer is zero: growing within the capacity exposes the rest,
so it has to be what an unset or zero element looks like.  Every operation is first
described by its effect on the cells, once for all element kinds; the zero-size kind
needs no exception, its cells are empty.

A cell is the bytes of one element.  For a boxed element it is a reference, and zero
when the element is unset.
-/

namespace Ruju

/-- A concrete builtin has no concrete supertype but itself. -/
theorem Builtin.eq_of_mem_supers {b c : Builtin} (hb : b.isAbstract = false) (h : c ∈ b.supers)
    (hc : c.isAbstract = false) : b = c := by
  have key : ∀ c ∈ b.supers, c.isAbstract = false → b.isAbstract = false → b = c := by
    cases b <;> decide
  exact key c h hc hb

end Ruju

namespace Ruju.Storage

/-! ### Values -/

/-- The types in the headers of objects: no abstract one and no `Type{T}`.  The structs
that `define_struct` is asked for are declared below abstract types. -/
def TypeObj.isLeaf : TypeObj → Bool
  | .builtin b => !b.isAbstract
  | .struct _ _ super _ _ _ _ _ => super.supers.all Nominal.isAbstract
  | .memory _ | .array _ => true
  | .inst c _ => decide (c ≠ .type)
  | .nonData _ => false

/-- Types whose values are stored inline are concrete and have no parameters. -/
theorem nominal_of_isInlineField {t : TypeObj} (h : t.isInlineField) :
    ∃ m : Nominal, t.toTy = .nominal m ∧ m.isAbstract = false := by
  cases t with
  | builtin b =>
    refine ⟨.builtin b, rfl, ?_⟩
    cases hb : b.isAbstract with
    | false => exact hb
    | true => simp [TypeObj.isInlineField, TypeObj.isAbstract, hb] at h
  | struct => exact ⟨_, rfl, rfl⟩
  | memory | array | inst | nonData =>
    simp [TypeObj.isInlineField, TypeObj.isDatatype, TypeObj.isAbstract, TypeObj.isMutable,
      TypeObj.isPrimitive, TypeObj.nfields, TypeObj.types, TypeObj.hasInstance] at h

/-- The name of a concrete type is on the chain of no other type of a value. -/
theorem toTy_eq_of_walkToName {t : TypeObj} {m : Nominal} (ht : t.isLeaf)
    (hm : m.isAbstract = false) (h : (walkToName t.toTy (.nominal m)).isSome) :
    t.toTy = .nominal m := by
  have hany : m ≠ .builtin .any := by
    rintro rfl
    cases hm
  cases t with
  | builtin b =>
    rw [TypeObj.toTy, walkToName_nominal] at h
    split at h
    case isFalse => cases h
    case isTrue hmem =>
      obtain ⟨c, hc, rfl⟩ := List.mem_map.mp hmem
      rw [TypeObj.toTy, Builtin.eq_of_mem_supers (by simpa [TypeObj.isLeaf] using ht) hc hm]
  | struct =>
    rw [TypeObj.toTy, walkToName_nominal] at h
    split at h
    case isFalse => cases h
    case isTrue hmem =>
      rcases List.mem_cons.mp hmem with rfl | hmem
      · rfl
      · have := List.all_eq_true.mp ht m hmem
        rw [hm] at this
        cases this
  | memory | array =>
    simp [TypeObj.toTy, walkToName, Ty.nameOf, Ty.supers, Ne.symm hany] at h
  | inst c =>
    cases c <;> simp [TypeObj.toTy, walkToName, Ty.nameOf, Ty.supers, Ne.symm hany,
      TypeObj.isLeaf] at h ht
  | nonData => cases ht

/-- **Subtypes of an inline type.**  No value of another type is accepted where values are
stored inline. -/
theorem eq_of_issubtype {R : Runtime} {t u : TypeObj} (ht : t.isLeaf) (hu : u.isInlineField)
    (h : R.issubtype t u) : t = u := by
  unfold Runtime.issubtype at h
  split at h
  case isTrue => exact of_decide_eq_true h
  case isFalse hne =>
    obtain ⟨m, hm, habs⟩ := nominal_of_isInlineField hu
    rw [hm] at h hne
    refine absurd (toTy_eq_of_walkToName ht habs ?_) hne
    refine walkToName_of_subtype ?_ ?_ ?_ ?_ (of_decide_eq_true h)
    · cases t <;> first | rfl | cases ht
    · intro hbot
      cases t with
      | builtin b =>
        cases hbot
        cases ht
      | nonData => cases ht
      | _ => cases hbot
    · cases t with
      | inst c ps => cases c <;> first | rfl | cases ht
      | nonData => cases ht
      | _ => rfl
    · rintro rfl
      cases habs

/-- `v` refers to an object with a concrete type, as large as its type says if values of
the type are stored inline, and to the only one if the type has an instance. -/
structure Live (R : Runtime) (s : Store) (v : Nat) : Prop where
  exists_obj : ∃ o, s.objs v = some o
  leaf : (s.typeOf v).isLeaf
  sized : (s.typeOf v).isInlineField → (s.bytes v).length = (s.typeOf v).sizeOf.toNat
  unique : (s.typeOf v).hasInstance → v = R.instanceOf (s.typeOf v)

theorem elemKind_bits {elem : TypeObj} {n : Nat} (h : elemKind elem = .bits n) :
    elem.isPrimitive ∧ elem.isInlineField ∧ elem ≠ .any ∧ n = elem.sizeOf.toNat := by
  unfold elemKind at h
  split at h
  · rename_i hc
    cases h
    simp only [Bool.and_eq_true, decide_eq_true_eq] at hc
    obtain ⟨⟨-, hbits⟩, hpos⟩ := hc
    cases elem with
    | builtin b =>
      simp only [TypeObj.isBits, Bool.and_eq_true, Bool.not_eq_true'] at hbits
      refine ⟨hbits.2, ?_, ?_, rfl⟩
      · simp [TypeObj.isInlineField, TypeObj.isDatatype, TypeObj.isAbstract, TypeObj.isMutable,
          TypeObj.isPrimitive, hbits]
      · rintro ⟨⟩
        exact absurd hbits.2 (by decide)
    | inst => exact absurd hpos (by simp [TypeObj.sizeOf])
    | struct | memory | array | nonData => exact absurd hbits (by simp [TypeObj.isBits])
  · split at h <;> cases h

section Cells

variable {R : Runtime} {s : Store} {elem : TypeObj} {v : Nat}

/-- The bytes of an element that was never stored to. -/
def zeroCell (elem : TypeObj) : List UInt8 := List.replicate (elemSize elem) 0

/-- The bytes that a store of `v` puts into an element. -/
def cellOf (s : Store) (elem : TypeObj) (v : Nat) : List UInt8 :=
  match elemKind elem with
  | .boxed => wordBytes v
  | .bits n => window (s.bytes v) 0 n
  | .singleton => []

/-- A store into an inline element needs a value of the very type. -/
theorem typeOf_eq_of_accepts (hv : Live R s v) {n : Nat}
    (hkind : elemKind elem = .bits n) (h : Memory.accepts R elem (s.typeOf v)) :
    s.typeOf v = elem := by
  obtain ⟨-, hinline, hany, -⟩ := elemKind_bits hkind
  simp only [Memory.accepts, Bool.or_eq_true, decide_eq_true_eq] at h
  rcases h with (h | h) | h
  · exact absurd h hany
  · exact h
  · exact eq_of_issubtype hv.leaf hinline h

theorem length_cellOf (hv : Live R s v)
    (h : Memory.accepts R elem (s.typeOf v)) : (cellOf s elem v).length = elemSize elem := by
  unfold cellOf elemSize
  cases hkind : elemKind elem with
  | boxed => rfl
  | singleton => rfl
  | bits n =>
    have htype := typeOf_eq_of_accepts hv hkind h
    obtain ⟨-, hinline, -, hn⟩ := elemKind_bits hkind
    have hlen := hv.sized (htype ▸ hinline)
    rw [htype, ← hn] at hlen
    exact length_window (by omega)

/-- What is read of a cell: the reference in it, a new box with its bytes, or the only
instance. -/
def Shows (R : Runtime) (s : Store) (elem : TypeObj) (c : List UInt8) (v : Nat) : Prop :=
  match elemKind elem with
  | .boxed => v = bytesWord c
  | .bits _ => s.objs v = some (.data elem c)
  | .singleton => v = R.instanceOf elem

end Cells

/-! ### The cells of an array -/

/-- The array `a` has the buffer `mem` with room for `cap` elements; the cells of its
elements are `cs`, and the rest of the buffer is zero. -/
structure Holds (s : Store) (a : Nat) (elem : TypeObj) (mem cap : Nat) (cs : List (List UInt8)) :
    Prop where
  array : s.objs a = some (.array elem mem 0 cs.length)
  buffer : s.objs mem = some (.memory elem cap
    (cs.flatten ++ List.replicate (elemSize elem * (cap - cs.length)) 0))
  sized : ∀ c ∈ cs, c.length = elemSize elem
  le_cap : cs.length ≤ cap

/-- The cells of an array, as they are read from its buffer. -/
def cells (s : Store) (a : Nat) : List (List UInt8) :=
  (List.range (Arr.len s a)).map fun i =>
    window (s.bytes (Arr.memOf s a)) (elemSize (Arr.elemTypeOf s a) * (Arr.offsetOf s a + i))
      (elemSize (Arr.elemTypeOf s a))

namespace Holds

variable {R : Runtime} {s s' : Store} {a mem cap i v : Nat} {elem : TypeObj}
  {cs : List (List UInt8)}

theorem len (h : Holds s a elem mem cap cs) : Arr.len s a = cs.length := by
  simp [Arr.len, h.array]

theorem memOf (h : Holds s a elem mem cap cs) : Arr.memOf s a = mem := by
  simp [Arr.memOf, h.array]

theorem offsetOf (h : Holds s a elem mem cap cs) : Arr.offsetOf s a = 0 := by
  simp [Arr.offsetOf, h.array]

theorem elemTypeOf (h : Holds s a elem mem cap cs) : Arr.elemTypeOf s a = elem := by
  simp [Arr.elemTypeOf, h.array]

theorem bufferLen (h : Holds s a elem mem cap cs) : Memory.len s mem = cap := by
  simp [Memory.len, h.buffer]

theorem bufferElem (h : Holds s a elem mem cap cs) : Memory.elemTypeOf s mem = elem := by
  simp [Memory.elemTypeOf, h.buffer]

theorem bytes (h : Holds s a elem mem cap cs) :
    s.bytes mem = cs.flatten ++ List.replicate (elemSize elem * (cap - cs.length)) 0 := by
  simp [Store.bytes, h.buffer]

theorem ne (h : Holds s a elem mem cap cs) : a ≠ mem := by
  rintro rfl
  have := h.array.symm.trans h.buffer
  cases this

theorem length_flatten (h : Holds s a elem mem cap cs) :
    cs.flatten.length = elemSize elem * cs.length := length_flatten_cells h.sized

theorem getElem (h : Holds s a elem mem cap cs) {c : List UInt8} (hi : cs[i]? = some c) :
    window (s.bytes mem) (elemSize elem * i) (elemSize elem) = c := by
  have hlt := (List.getElem?_eq_some_iff.mp hi).1
  have hle : elemSize elem * i + elemSize elem ≤ elemSize elem * cs.length := by
    calc elemSize elem * i + elemSize elem = elemSize elem * (i + 1) := by rw [Nat.mul_succ]
      _ ≤ elemSize elem * cs.length := Nat.mul_le_mul_left _ hlt
  rw [h.bytes, window_append_left (by rw [h.length_flatten]; exact hle)]
  exact window_flatten h.sized hi

/-- The cells are those that are read from the buffer. -/
theorem cells_eq (h : Holds s a elem mem cap cs) : cells s a = cs := by
  refine List.ext_getElem? fun i => ?_
  simp only [cells, h.len, h.memOf, h.offsetOf, h.elemTypeOf, Nat.zero_add]
  rw [List.getElem?_map]
  by_cases hi : i < cs.length
  · have hget : cs[i]? = some cs[i] := List.getElem?_eq_getElem hi
    rw [List.getElem?_range hi, Option.map_some, h.getElem hget, hget]
  · rw [List.getElem?_eq_none (by simpa using hi), List.getElem?_eq_none (by omega)]
    rfl

/-- Only the two objects matter. -/
theorem congr (h : Holds s a elem mem cap cs) (ha : s'.objs a = s.objs a)
    (hmem : s'.objs mem = s.objs mem) : Holds s' a elem mem cap cs :=
  ⟨ha.trans h.array, hmem.trans h.buffer, h.sized, h.le_cap⟩

theorem extend (hs : s.Valid) (h : Holds s a elem mem cap cs) (o : Obj) :
    Holds (s.extend o) a elem mem cap cs :=
  h.congr (Store.extend_of_ne (hs.ne_next h.array)) (Store.extend_of_ne (hs.ne_next h.buffer))

end Holds

/-! ### Reading and writing an element -/

section

variable {R : Runtime} {s : Store} {a mem cap i v : Nat} {elem : TypeObj}
  {cs : List (List UInt8)}

/-- A boxed element whose cell is zero is unset. -/
def isUnset (elem : TypeObj) (c : List UInt8) : Prop := elemKind elem = .boxed ∧ bytesWord c = 0

instance (elem : TypeObj) (c : List UInt8) : Decidable (isUnset elem c) :=
  inferInstanceAs (Decidable (_ ∧ _))

/-- **Reading an element**: an unset one raises, the others show their cell, and only
re-boxing can fail. -/
theorem aref_spec (hs : s.Valid) (h : Holds s a elem mem cap cs) {c : List UInt8}
    (hi : cs[i]? = some c) :
    (Arr.aref R a i s).2.Valid ∧ s.Extends (Arr.aref R a i s).2 ∧
      (isUnset elem c ∧ (Arr.aref R a i s).1 = .error .undefRef ∨
        ¬ isUnset elem c ∧ ((Arr.aref R a i s).1 = .error .outOfMemory ∧
            (∃ n, elemKind elem = .bits n ∧ ¬ s.Grants R n) ∨
          ∃ r, (Arr.aref R a i s).1 = .ok r ∧ Shows R (Arr.aref R a i s).2 elem c r)) := by
  have hlt := (List.getElem?_eq_some_iff.mp hi).1
  have hcell := h.getElem hi
  have hlen : c.length = elemSize elem := h.sized c (List.mem_of_getElem? hi)
  have hget : Arr.aref R a i s = Memory.get R mem i s := by
    rw [Arr.aref, h.len, h.memOf, h.offsetOf, if_neg (by omega), Nat.zero_add]
  have hin : ¬ Memory.len s mem ≤ i := by
    have := h.le_cap
    rw [h.bufferLen]
    omega
  rw [hget]
  simp only [Memory.get, if_neg hin, h.bufferElem]
  unfold isUnset Shows
  cases hkind : elemKind elem with
  | boxed =>
    rw [elemSize, hkind, Elem.size] at hcell
    simp only [hcell, true_and]
    split
    · exact ⟨hs, Store.Extends.refl s, Or.inl ⟨‹_›, rfl⟩⟩
    · exact ⟨hs, Store.Extends.refl s, Or.inr ⟨‹_›, Or.inr ⟨_, rfl, rfl⟩⟩⟩
  | singleton =>
    exact ⟨hs, Store.Extends.refl s, Or.inr ⟨by simp, Or.inr ⟨_, rfl, rfl⟩⟩⟩
  | bits n =>
    rw [elemSize, hkind, Elem.size] at hcell hlen
    simp only
    rcases s.alloc_cases R n (Obj.data elem) with ⟨hno, halloc⟩ | ⟨hgrant, chunk, hchunk, halloc⟩
    · rw [halloc]
      exact ⟨hs.attempted, Store.Extends.refl s, Or.inr ⟨by simp, Or.inl ⟨rfl, n, rfl, hno⟩⟩⟩
    · rw [halloc]
      simp only [(h.extend hs _).bytes, ← h.bytes, hcell]
      rw [Store.write_data Store.extend_next, overwrite_all (hlen.trans hchunk.symm)]
      refine ⟨(hs.extend hgrant.1).set Store.extend_next, fun b o hb => ?_,
        Or.inr ⟨by simp, Or.inr ⟨_, rfl, Store.set_self⟩⟩⟩
      rw [Store.set_of_ne (hs.ne_next hb)]
      exact hs.extend_of_some hb

/-- **Writing an element** of the right type replaces its cell, and touches no object
but the buffer. -/
theorem aset_spec (hs : s.Valid) (h : Holds s a elem mem cap cs) (hi : i < cs.length)
    (hacc : Memory.accepts R elem (s.typeOf v))
    (hlen : (cellOf s elem v).length = elemSize elem) :
    ∃ s', Arr.aset R a i v s = (.ok (), s') ∧ s'.Valid ∧
      Holds s' a elem mem cap (cs.set i (cellOf s elem v)) ∧
      (∀ b, b ≠ mem → s'.objs b = s.objs b) ∧ s'.next = s.next ∧ s'.attempts = s.attempts := by
  have hset : Arr.aset R a i v s = Memory.set R mem i v s := by
    rw [Arr.aset, h.len, h.memOf, h.offsetOf, if_neg (by omega), Nat.zero_add]
  have hin : ¬ Memory.len s mem ≤ i := by
    have := h.le_cap
    rw [h.bufferLen]
    omega
  -- the store writes the cell, also where the cell is empty
  have hwrite : Memory.set R mem i v s =
      (.ok (), s.write mem (elemSize elem * i) (cellOf s elem v)) := by
    simp only [Memory.set, if_neg hin, h.bufferElem, if_pos hacc, cellOf, elemSize]
    cases elemKind elem with
    | boxed => rfl
    | bits n => rfl
    | singleton => exact congrArg (Prod.mk _) (s.write_nil mem _).symm
  have hend : elemSize elem * i + (cellOf s elem v).length ≤ cs.flatten.length := by
    rw [h.length_flatten, hlen]
    calc elemSize elem * i + elemSize elem = elemSize elem * (i + 1) := by rw [Nat.mul_succ]
      _ ≤ elemSize elem * cs.length := Nat.mul_le_mul_left _ hi
  rw [hset, hwrite, Store.write_memory h.buffer, overwrite_append_left hend,
    overwrite_flatten h.sized hi hlen]
  refine ⟨_, rfl, hs.set h.buffer, ⟨?_, ?_, ?_, ?_⟩, fun b hb => Store.set_of_ne hb, rfl, rfl⟩
  · rw [Store.set_of_ne h.ne, List.length_set, h.array]
  · rw [List.length_set, Store.set_self]
  · intro c hc
    rcases List.mem_or_eq_of_mem_set hc with hc | rfl
    · exact h.sized c hc
    · exact hlen
  · rw [List.length_set]
    exact h.le_cap

theorem aset_of_le (h : Holds s a elem mem cap cs) (hi : cs.length ≤ i) :
    Arr.aset R a i v s = (.error (.bounds a (i + 1)), s) := by
  rw [Arr.aset, h.len, if_pos hi]

theorem aset_of_not_accepts (h : Holds s a elem mem cap cs) (hi : i < cs.length)
    (hacc : ¬ Memory.accepts R elem (s.typeOf v)) :
    Arr.aset R a i v s = (.error (.message (Memory.typeMessage elem (s.typeOf v))), s) := by
  have hle := h.le_cap
  rw [Arr.aset, h.len, h.memOf, h.offsetOf, if_neg (by omega), Nat.zero_add, Memory.set,
    h.bufferLen, h.bufferElem, if_neg (by omega)]
  simp only [if_neg hacc]

theorem aref_of_le (h : Holds s a elem mem cap cs) (hi : cs.length ≤ i) :
    Arr.aref R a i s = (.error (.bounds a (i + 1)), s) := by
  rw [Arr.aref, h.len, if_pos hi]

end

/-! ### Growing and shrinking -/

/-- The errors that report a lack of memory or a size that no buffer can have. -/
def Error.isAllocation : Error → Bool
  | outOfMemory => true
  | message msg =>
    decide (msg = Memory.sizeMessage ∨ msg = "invalid Array size: too large" ∨
      msg = "invalid Array size: too large for system address width")
  | _ => false

/-- A buffer for `n` elements of this size can be had: it is not too large, and the
request for it is granted. -/
def Room (R : Runtime) (s : Store) (size n : Nat) : Prop :=
  n * size < 2 ^ 32 - 1 - 8 ∧ s.Grants R (8 + n * size)

/-- **What `memory::alloc` does**: it reports a lack of memory and changes no object, or
it adds a zeroed buffer. -/
theorem memory_alloc_cases (R : Runtime) (elem : TypeObj) (len : Nat) (s : Store) :
    (¬ Room R s (elemSize elem) len ∧ ∃ e, (Memory.alloc R elem len s = (.error e, s) ∨
        Memory.alloc R elem len s = (.error e, s.attempted)) ∧ e.isAllocation) ∨
      Room R s (elemSize elem) len ∧ Memory.alloc R elem len s =
        (.ok s.next, s.extend (.memory elem len (List.replicate (len * elemSize elem) 0))) := by
  unfold Memory.alloc Room
  dsimp only
  split
  case isTrue hsize =>
    rcases s.alloc_cases R (8 + len * elemSize elem)
        (fun _ => .memory elem len (List.replicate (len * elemSize elem) 0))
        with ⟨hno, halloc⟩ | ⟨hgrant, -, -, halloc⟩
    · exact Or.inl ⟨fun h => hno h.2, .outOfMemory, Or.inr (by rw [halloc]), rfl⟩
    · exact Or.inr ⟨⟨hsize, hgrant⟩, by rw [halloc]⟩
  case isFalse hsize =>
    exact Or.inl ⟨fun h => hsize h.1, _, Or.inl rfl, by decide⟩

/-- The length is a word, and if it exceeds the capacity, a buffer of the next capacity
can be had. -/
def CanGrow (R : Runtime) (s : Store) (elem : TypeObj) (cap n : Nat) : Prop :=
  n < 2 ^ 32 ∧ (cap < n →
    Arr.newCapacity cap n < 2 ^ 32 ∧ Room R s (elemSize elem) (Arr.newCapacity cap n))

section

variable {R : Runtime} {s : Store} {a mem cap inc dec v : Nat} {elem : TypeObj}
  {cs : List (List UInt8)}

theorem length_zeroCell (elem : TypeObj) : (zeroCell elem).length = elemSize elem := by
  simp [zeroCell]

/-- Cells that were never stored to are zero bytes. -/
theorem flatten_zeroCells (elem : TypeObj) (n : Nat) :
    (List.replicate n (zeroCell elem)).flatten = List.replicate (elemSize elem * n) 0 :=
  flatten_replicate

theorem Holds.setLen (h : Holds s a elem mem cap cs) (n : Nat) :
    Arr.setLen a n s = s.set a (.array elem mem 0 n) := by
  simp [Arr.setLen, h.array]

/-- Growing within the capacity exposes zeros of the rest of the buffer. -/
theorem Holds.expose (h : Holds s a elem mem cap cs) (hle : cs.length + inc ≤ cap) :
    Holds (Arr.setLen a (cs.length + inc) s) a elem mem cap
      (cs ++ List.replicate inc (zeroCell elem)) := by
  have hlen : (cs ++ List.replicate inc (zeroCell elem)).length = cs.length + inc := by simp
  rw [h.setLen, ← hlen]
  refine ⟨Store.set_self, ?_, ?_, by rw [hlen]; exact hle⟩
  · rw [Store.set_of_ne (Ne.symm h.ne), h.buffer, hlen, List.flatten_append, flatten_zeroCells,
      List.append_assoc, ← List.replicate_add, ← Nat.mul_add]
    congr 5
    omega
  · intro c hc
    rcases List.mem_append.mp hc with hc | hc
    · exact h.sized c hc
    · rw [List.eq_of_mem_replicate hc, length_zeroCell]

/-- A new buffer takes over the cells. -/
theorem Holds.move (hs : s.Valid) (hnext : s.next < 2 ^ 32) (h : Holds s a elem mem cap cs)
    {cap' : Nat} (hle : cs.length ≤ cap') :
    let s₁ := s.extend (.memory elem cap' (List.replicate (cap' * elemSize elem) 0))
    let s₂ := Arr.setMem a s.next (Memory.copyPrefix s.next mem cs.length s₁)
    s₂.Valid ∧ Holds s₂ a elem s.next cap' cs ∧
      ∀ b o, b ≠ a → s.objs b = some o → s₂.objs b = some o := by
  intro s₁ s₂
  have h₁ : Holds s₁ a elem mem cap cs := h.extend hs _
  have hnew : s₁.objs s.next =
      some (.memory elem cap' (List.replicate (cap' * elemSize elem) 0)) := Store.extend_next
  have hwin : window (s₁.bytes mem) 0 (cs.length * elemSize (Memory.elemTypeOf s₁ mem)) =
      cs.flatten := by
    rw [h₁.bytes, h₁.bufferElem, Nat.mul_comm cs.length, ← h.length_flatten,
      window_append_left (by omega), window_self]
  have hzeros : List.replicate (cap' * elemSize elem) (0 : UInt8) =
      List.replicate cs.flatten.length 0 ++
        List.replicate (elemSize elem * (cap' - cs.length)) 0 := by
    rw [← List.replicate_add, h.length_flatten, ← Nat.mul_add, Nat.add_sub_cancel' hle,
      Nat.mul_comm]
  have hcopy : Memory.copyPrefix s.next mem cs.length s₁ = s₁.set s.next
      (.memory elem cap' (cs.flatten ++ List.replicate (elemSize elem * (cap' - cs.length)) 0)) :=
      by
    rw [Memory.copyPrefix, hwin, Store.write_memory hnew, hzeros,
      overwrite_zero_append _ (by simp)]
  have hane : a ≠ s.next := hs.ne_next h.array
  have harr : (s₁.set s.next (.memory elem cap' (cs.flatten ++
      List.replicate (elemSize elem * (cap' - cs.length)) 0))).objs a =
        some (.array elem mem 0 cs.length) := by
    rw [Store.set_of_ne hane, h₁.array]
  have hs₂ : s₂ = (s₁.set s.next (.memory elem cap' (cs.flatten ++
      List.replicate (elemSize elem * (cap' - cs.length)) 0))).set a
        (.array elem s.next 0 cs.length) := by
    simp only [s₂, hcopy, Arr.setMem, harr]
  rw [hs₂]
  refine ⟨((hs.extend hnext).set hnew).set harr, ⟨Store.set_self, ?_, h.sized, hle⟩, ?_⟩
  · rw [Store.set_of_ne (Ne.symm hane), Store.set_self]
  · intro b o hba hb
    rw [Store.set_of_ne hba, Store.set_of_ne (hs.ne_next hb)]
    exact hs.extend_of_some hb

theorem le_newCapacity (old req : Nat) : req ≤ Arr.newCapacity old req := by
  unfold Arr.newCapacity
  split <;> omega

/-- **Growing** reports a lack of memory and changes nothing, or it appends zero cells, in
the buffer or in a new one.  Values stored elsewhere are not touched. -/
theorem growEnd_spec (R : Runtime) (inc : Nat) (hs : s.Valid) (h : Holds s a elem mem cap cs) :
    (¬ CanGrow R s elem cap (cs.length + inc) ∧ ∃ e s', Arr.growEnd R a inc s = (.error e, s') ∧
        e.isAllocation ∧ s'.Valid ∧ s'.objs = s.objs) ∨
      (CanGrow R s elem cap (cs.length + inc) ∧ ∃ mem' cap' s',
        Arr.growEnd R a inc s = (.ok (), s') ∧ s'.Valid ∧
        Holds s' a elem mem' cap' (cs ++ List.replicate inc (zeroCell elem)) ∧
        (cap < cs.length + inc → mem' = s.next ∧ cap' = Arr.newCapacity cap (cs.length + inc)) ∧
        (cs.length + inc ≤ cap →
          mem' = mem ∧ cap' = cap ∧ s'.next = s.next ∧ s'.attempts = s.attempts) ∧
        ∀ b o, b ≠ a → s.objs b = some o → s'.objs b = some o) := by
  unfold Arr.growEnd CanGrow
  simp only [h.len, h.memOf, h.offsetOf, h.bufferLen, Nat.zero_add]
  by_cases hmax : cs.length + inc < 2 ^ 32
  · rw [if_pos hmax]
    by_cases hcap : cap < cs.length + inc
    · rw [if_pos hcap]
      have hnewcap := le_newCapacity cap (cs.length + inc)
      generalize Arr.newCapacity cap (cs.length + inc) = cap' at hnewcap
      unfold Arr.regrow
      by_cases hword : cap' < 2 ^ 32
      · simp only [if_pos hword, h.elemTypeOf]
        rcases memory_alloc_cases R elem cap' s with ⟨hno, e, halloc, he⟩ | ⟨hroom, halloc⟩
        · refine Or.inl ⟨fun hgrow => hno (hgrow.2 hcap).2, e, ?_⟩
          rcases halloc with halloc | halloc
          · exact ⟨s, by rw [halloc], he, hs, rfl⟩
          · exact ⟨s.attempted, by rw [halloc], he, hs.attempted, rfl⟩
        · obtain ⟨hvalid, hmove, hframe⟩ :=
            h.move hs hroom.2.1 (show cs.length ≤ cap' by omega)
          rw [halloc]
          simp only [(h.extend hs _).memOf]
          refine Or.inr ⟨⟨hmax, fun _ => ⟨hword, hroom⟩⟩, s.next, cap', _, rfl, ?_,
            hmove.expose (by omega), fun _ => ⟨rfl, rfl⟩, fun hle => by omega, ?_⟩
          · rw [hmove.setLen]
            exact hvalid.set hmove.array
          · intro b o hba hb
            rw [hmove.setLen, Store.set_of_ne hba]
            exact hframe b o hba hb
      · simp only [if_neg hword]
        exact Or.inl ⟨fun hgrow => hword (hgrow.2 hcap).1, _, s, rfl, by decide, hs, rfl⟩
    · rw [if_neg hcap]
      refine Or.inr ⟨⟨hmax, fun hlt => absurd hlt hcap⟩, mem, cap, _, rfl, ?_,
        h.expose (by omega), fun hlt => absurd hlt hcap, fun _ => ⟨rfl, rfl, ?_⟩, ?_⟩
      · rw [h.setLen]
        exact hs.set h.array
      · rw [h.setLen]
        exact ⟨rfl, rfl⟩
      · intro b o hba hb
        rw [h.setLen, Store.set_of_ne hba]
        exact hb
  · rw [if_neg hmax]
    exact Or.inl ⟨fun hgrow => hmax hgrow.1, _, s, rfl, by decide, hs, rfl⟩

/-- **Shrinking** drops the last cells and clears their bytes. -/
theorem delEnd_spec (hs : s.Valid) (h : Holds s a elem mem cap cs) (hdec : dec ≤ cs.length) :
    ∃ s', Arr.delEnd a dec s = (.ok (), s') ∧ s'.Valid ∧
      Holds s' a elem mem cap (cs.take (cs.length - dec)) ∧
      ∀ b, b ≠ a → b ≠ mem → s'.objs b = s.objs b := by
  have hlen : (cs.take (cs.length - dec)).length = cs.length - dec := by simp
  have harr : (s.set a (.array elem mem 0 (cs.length - dec))).objs a =
      some (.array elem mem 0 (cs.length - dec)) := Store.set_self
  have hbuf : (s.set a (.array elem mem 0 (cs.length - dec))).objs mem =
      some (.memory elem cap
        (cs.flatten ++ List.replicate (elemSize elem * (cap - cs.length)) 0)) := by
    rw [Store.set_of_ne (Ne.symm h.ne), h.buffer]
  have hsplit : cs.flatten = (cs.take (cs.length - dec)).flatten ++
      (cs.drop (cs.length - dec)).flatten := by
    rw [← List.flatten_append, List.take_append_drop]
  have htake : (cs.take (cs.length - dec)).flatten.length = (cs.length - dec) * elemSize elem := by
    rw [length_flatten_take h.sized (Nat.sub_le _ _), Nat.mul_comm]
  have hdrop : (cs.drop (cs.length - dec)).flatten.length = dec * elemSize elem := by
    rw [length_flatten_cells fun c hc => h.sized c (List.mem_of_mem_drop hc), List.length_drop,
      Nat.mul_comm]
    congr 1
    omega
  have hwrite : overwrite (cs.flatten ++ List.replicate (elemSize elem * (cap - cs.length)) 0)
      ((cs.length - dec) * elemSize elem) (List.replicate (dec * elemSize elem) 0) =
        (cs.take (cs.length - dec)).flatten ++
          List.replicate (elemSize elem * (cap - (cs.length - dec))) 0 := by
    rw [hsplit, overwrite_append_left (by simp [htake, hdrop]), overwrite, List.take_left' htake,
      List.length_replicate, List.drop_eq_nil_of_le (by simp [htake, hdrop]), List.append_nil,
      List.append_assoc, ← List.replicate_add]
    congr 2
    have hle := h.le_cap
    rw [Nat.mul_comm dec, ← Nat.mul_add]
    congr 1
    omega
  refine ⟨(s.set a (.array elem mem 0 (cs.length - dec))).set mem (.memory elem cap
    ((cs.take (cs.length - dec)).flatten ++
      List.replicate (elemSize elem * (cap - (cs.length - dec))) 0)), ?_, ?_, ?_, ?_⟩
  · simp only [Arr.delEnd, h.len, if_neg (not_lt.mpr hdec), h.setLen]
    simp only [Arr.memOf, Arr.offsetOf, harr, Memory.zeroRange, Memory.elemTypeOf, hbuf,
      Nat.zero_add, Nat.add_sub_cancel_left]
    rw [Store.write_memory hbuf, hwrite]
  · exact (hs.set h.array).set hbuf
  · refine ⟨?_, ?_, fun c hc => h.sized c (List.mem_of_mem_take hc), ?_⟩
    · rw [Store.set_of_ne h.ne, harr, hlen]
    · rw [Store.set_self, hlen]
    · have := h.le_cap
      rw [hlen]
      omega
  · intro b hba hbm
    rw [Store.set_of_ne hbm, Store.set_of_ne hba]

/-- The buffer of a new array and the array itself can be had. -/
def CanAlloc (R : Runtime) (s : Store) (elem : TypeObj) (len : Nat) : Prop :=
  Room R s (elemSize elem) len ∧ s.next + 1 < 2 ^ 32 ∧ (R.grant (s.attempts + 1) 12).isSome

/-- **A new array** has zero cells only, and fills its buffer. -/
theorem alloc1d_spec (R : Runtime) (elem : TypeObj) (len : Nat) (hs : s.Valid) :
    (¬ CanAlloc R s elem len ∧ ∃ e s', Arr.alloc1d R elem len s = (.error e, s') ∧
        e.isAllocation ∧ s'.Valid ∧ s.Extends s') ∨
      ∃ a mem s', Arr.alloc1d R elem len s = (.ok a, s') ∧ s'.Valid ∧ s.Extends s' ∧
        s.objs a = none ∧ s.objs mem = none ∧
        Holds s' a elem mem len (List.replicate len (zeroCell elem)) := by
  unfold Arr.alloc1d CanAlloc
  have hnone : ∀ b, s.next ≤ b → s.objs b = none := by
    intro b hb
    cases ho : s.objs b with
    | none => rfl
    | some o => exact absurd (hs.dom b o ho).2 (by omega)
  rcases memory_alloc_cases R elem len s with ⟨hno, e, halloc, he⟩ | ⟨hroom, halloc⟩
  · refine Or.inl ⟨fun h => hno h.1, e, ?_⟩
    rcases halloc with halloc | halloc
    · exact ⟨s, by rw [halloc], he, hs, Store.Extends.refl s⟩
    · exact ⟨s.attempted, by rw [halloc], he, hs.attempted, Store.Extends.refl s⟩
  · rw [halloc]
    dsimp only
    set s₁ := s.extend (.memory elem len (List.replicate (len * elemSize elem) 0)) with hs₁
    have hv₁ : s₁.Valid := hs.extend hroom.2.1
    have hbuf : s₁.objs s.next =
        some (.memory elem len (List.replicate (len * elemSize elem) 0)) := Store.extend_next
    rcases s₁.alloc_cases R 12 (fun _ => .array elem s.next 0 len)
      with ⟨hno, halloc'⟩ | ⟨hgrant, -, -, halloc'⟩
    · exact Or.inl ⟨fun h => hno h.2, .outOfMemory, s₁.attempted, by rw [halloc'], rfl,
        hv₁.attempted, hs.extends_extend⟩
    · refine Or.inr ⟨s₁.next, s.next, s₁.extend (.array elem s.next 0 len), by rw [halloc'],
        hv₁.extend hgrant.1, hs.extends_extend.trans hv₁.extends_extend,
        hnone _ (Nat.le_succ _), hnone _ le_rfl, ⟨?_, ?_, ?_, by simp⟩⟩
      · rw [Store.extend_next, List.length_replicate]
      · rw [hv₁.extend_of_some hbuf, List.length_replicate, flatten_zeroCells, Nat.sub_self,
          Nat.mul_zero, List.replicate_zero, List.append_nil, Nat.mul_comm]
      · intro c hc
        rw [List.eq_of_mem_replicate hc, length_zeroCell]

/-- Growing leaves what a value is as it was, also that of the array itself. -/
theorem growEnd_same (hs : s.Valid) (h : Holds s a elem mem cap cs) {s' : Store}
    (hgrow : Arr.growEnd R a inc s = (.ok (), s')) (hv : Live R s v) :
    s'.typeOf v = s.typeOf v ∧ s'.bytes v = s.bytes v ∧ Live R s' v := by
  rcases growEnd_spec R inc hs h
    with ⟨-, e, s₁, h₁, -⟩ | ⟨-, mem', cap', s₁, h₁, -, h', -, -, hframe⟩
  · rw [hgrow] at h₁
    cases h₁
  · rw [hgrow] at h₁
    cases h₁
    obtain ⟨o, ho⟩ := hv.exists_obj
    have hsame : s'.typeOf v = s.typeOf v ∧ s'.bytes v = s.bytes v ∧ ∃ o, s'.objs v = some o := by
      by_cases hva : v = a
      · subst hva
        simp [Store.typeOf, Store.bytes, h.array, h'.array, Obj.type]
      · simp [Store.typeOf, Store.bytes, ho, hframe v o hva ho]
    obtain ⟨htype, hbytes, hobj⟩ := hsame
    refine ⟨htype, hbytes, hobj, ?_, ?_, ?_⟩
    · rw [htype]; exact hv.leaf
    · rw [htype, hbytes]; exact hv.sized
    · rw [htype]; exact hv.unique

end

end Ruju.Storage
