import Ruju.Storage.Growth
import Ruju.Storage.Layout

/-!
# What is stored is read back

Fields of structs, elements of buffers and entries of arrays, as places that hold bytes.
A place holds a reference, or the data of a value of its very type; reading it gives the
reference, the type's only instance, or a new box with the bytes.

A new box is a different object from the value that was stored.  Whether it is `egal` to
that value depends on the type: the bits of two primitives are compared, except that a
`Bool` is `egal` to nothing but itself, since `box_bool` only hands out the two boxes made
at start-up.  Reading an inline `Bool` makes a third one.  `readBack_iff` says that this is
the only exception.
-/

namespace Ruju.Storage

open TypeObj

/-! ### Inline types -/

/-- An inline value that is read back as a new box and is not a primitive: a struct. -/
def isNested (t : TypeObj) : Bool := t.isInlineField && !t.isPrimitive && !t.hasInstance

/-- Reading `r` gives back what was stored: an `egal` value, or the same contents for a
nested inline struct. -/
def ReadsBack (R : Runtime) (s : Store) (ft : TypeObj) (v r : Nat) : Prop :=
  if isNested ft then s.bytes r = s.bytes v else egal R s r v

/-- How a read in `s` gives back what was stored: it is the same value, at a type other
than `Bool`, or a new box with its data. -/
def Recovers (s s' : Store) (ft : TypeObj) (v r : Nat) : Prop :=
  (r = v ∧ ft ≠ .builtin .bool) ∨
    (ft.isInlineField ∧ ft.hasInstance = false ∧ (∃ o, s.objs v = some o) ∧ s.typeOf v = ft ∧
      r = s.next ∧ s.Extends s' ∧ s'.objs r = some (.data ft (s.bytes v)))

section

variable {R : Runtime} {s s' : Store} {v r : Nat} {ft : TypeObj}

/-- `egal` of two boxes of one inline type that is not a struct: they are not `Bool`s and
have the same bits. -/
theorem egalUnboxed_inline (hinl : ft.isInlineField) (hinst : ft.hasInstance = false)
    (hnest : isNested ft = false) {a b : Nat} (hbytes : s.bytes a = s.bytes b) :
    egalUnboxed R s ft a b = decide (ft ≠ .builtin .bool) := by
  have hprim : ft.isPrimitive = true := by
    simpa [isNested, hinl, hinst] using hnest
  cases ft with
  | builtin b =>
    cases b <;> first
      | exact absurd hprim (by decide)
      | simp [egalUnboxed, isPrimitive, Builtin.isPrimitive, hbytes]
  | struct | memory | array | inst | nonData => exact absurd hprim (by simp [isPrimitive])

theorem Recovers.readsBack_iff (hs : s.Valid) (h : Recovers s s' ft v r) :
    ReadsBack R s' ft v r ↔ ft ≠ .builtin .bool := by
  rcases h with ⟨rfl, hft⟩ | ⟨hinl, hinst, ⟨o, ho⟩, htype, rfl, hext, hbox⟩
  · refine iff_of_true ?_ hft
    unfold ReadsBack
    split
    · rfl
    · simp [egal]
  · have ho' := hext v o ho
    have hne : s.next ≠ v := Ne.symm (hs.ne_next ho)
    have hpos : ¬ (s.next = 0 ∨ v = 0) := by
      have h₁ := hs.pos
      have h₂ := (hs.dom v o ho).1
      omega
    have htypes : s'.typeOf v = ft ∧ s'.typeOf s.next = ft := by
      rw [← htype]
      simp [Store.typeOf, ho, ho', hbox, Obj.type, htype.symm]
    have hbytes : s'.bytes s.next = s'.bytes v := by
      simp [Store.bytes, ho, ho', hbox]
    unfold ReadsBack
    split
    · refine iff_of_true hbytes ?_
      rintro rfl
      exact absurd ‹_› (by decide)
    · rename_i hnest
      unfold egal
      rw [if_neg hne, if_neg hpos, htypes.1, htypes.2, if_neg (by simp),
        egalUnboxed_inline hinl hinst (by simpa using hnest) hbytes, decide_eq_true_eq]

/-- The bytes `c` are what a place of type `ft` holds after a store of `v`: a reference to
it, or its data. -/
def Encodes (R : Runtime) (s : Store) (ft : TypeObj) (isptr : Bool) (c : List UInt8) (v : Nat) :
    Prop :=
  if isptr then c = wordBytes v ∧ v < 2 ^ 32 ∧ ft ≠ .builtin .bool
  else ft.isInlineField ∧ c = s.bytes v ∧ (∃ o, s.objs v = some o) ∧ s.typeOf v = ft ∧
    (ft.hasInstance → v = R.instanceOf ft)

theorem typeOf_eq_of_isA (hv : Live R s v) (hinl : ft.isInlineField) (h : isA R s v ft) :
    s.typeOf v = ft :=
  eq_of_issubtype hv.leaf hinl h

/-- A live value of an inline type, stored inline. -/
theorem encodes_inline (hv : Live R s v) (hinl : ft.isInlineField) (htype : s.typeOf v = ft)
    {n : Nat} (hn : n = ft.sizeOf.toNat) :
    Encodes R s ft false (window (s.bytes v) 0 n) v := by
  subst htype
  rw [hn, ← hv.sized hinl, window_self]
  exact ⟨hinl, rfl, hv.exists_obj, rfl, hv.unique⟩

theorem Live.lt (hs : s.Valid) (hv : Live R s v) : v < 2 ^ 32 := by
  obtain ⟨o, ho⟩ := hv.exists_obj
  have h₁ := (hs.dom v o ho).2
  have h₂ := hs.next_le
  omega

/-- What is encoded inline stays so while the value's object stays. -/
theorem Encodes.congr {isptr : Bool} {c : List UInt8} (h : Encodes R s ft isptr c v)
    (hobj : isptr = false → s'.objs v = s.objs v) : Encodes R s' ft isptr c v := by
  cases isptr with
  | true => exact h
  | false =>
    have hobj := hobj rfl
    have hbytes : s'.bytes v = s.bytes v := by simp only [Store.bytes, hobj]
    have htype : s'.typeOf v = s.typeOf v := by simp only [Store.typeOf, hobj]
    obtain ⟨hinl, hc, ho, ht, hinst⟩ := h
    exact ⟨hinl, hc.trans hbytes.symm, hobj ▸ ho, htype.trans ht, hinst⟩

/-- A container is not itself stored inline, so a write to it leaves what it holds
encoded. -/
theorem Encodes.set {isptr : Bool} {c : List UInt8} {m : Nat} {o : Obj}
    (h : Encodes R s ft isptr c v) (hm : s.objs m = some o) (hinl : o.type.isInlineField = false)
    (o' : Obj) : Encodes R (s.set m o') ft isptr c v := by
  refine h.congr fun hptr => Store.set_of_ne ?_
  rintro rfl
  subst hptr
  obtain ⟨hinl', -, -, htype, -⟩ := h
  rw [Store.typeOf, hm] at htype
  simp only at htype
  rw [htype, hinl'] at hinl
  cases hinl

/-- The new box of a read: no object changes, and the box has the bytes that were read. -/
theorem rebox_cases {m off n : Nat} {o : Obj} (R : Runtime) (ft : TypeObj) (hs : s.Valid)
    (hm : s.objs m = some o) (hlen : (window (s.bytes m) off n).length = n) :
    s.alloc R n (Obj.data ft) = (none, s.attempted) ∨
      ∃ s₁, s.alloc R n (Obj.data ft) = (some s.next, s₁) ∧
        s.Extends (s₁.write s.next 0 (window (s₁.bytes m) off n)) ∧
        (s₁.write s.next 0 (window (s₁.bytes m) off n)).objs s.next =
          some (.data ft (window (s.bytes m) off n)) := by
  rcases s.alloc_cases R n (Obj.data ft) with ⟨-, halloc⟩ | ⟨-, chunk, hchunk, halloc⟩
  · exact Or.inl halloc
  · refine Or.inr ⟨_, halloc, ?_⟩
    have hbytes : (s.extend (.data ft chunk)).bytes m = s.bytes m := by
      simp only [Store.bytes, hs.extend_of_some hm, hm]
    rw [hbytes, Store.write_data Store.extend_next, overwrite_all (hlen.trans hchunk.symm)]
    refine ⟨fun b o hb => ?_, Store.set_self⟩
    rw [Store.set_of_ne (hs.ne_next hb)]
    exact hs.extend_of_some hb

end

/-! ### Places -/

/-- The result of an operation that raised no exception. -/
def result {ε α : Type} : Except ε α × Store → Option (α × Store)
  | (.ok a, s) => some (a, s)
  | (.error _, _) => none

theorem result_eq_some {ε α : Type} {x : Except ε α × Store} {a : α} {s : Store} :
    result x = some (a, s) ↔ x = (.ok a, s) := by
  obtain ⟨e | b, s'⟩ := x <;> simp [result]

/-- A place that a value can be stored to: a field of a struct, an element of a buffer,
or an entry of an array. -/
inductive Place
  | field (v i : Nat)
  | element (m i : Nat)
  | entry (a i : Nat)

namespace Place

/-- The declared type. -/
def type (s : Store) : Place → TypeObj
  | field v i => (s.typeOf v).types[i]?.getD default
  | element m _ => Memory.elemTypeOf s m
  | entry a _ => Arr.elemTypeOf s a

/-- Store to the place; `none` is an exception. -/
def put (R : Runtime) (s : Store) (rhs : Nat) : Place → Option (Unit × Store)
  | field v i => result (setNthField R v i rhs s)
  | element m i => result (Memory.set R m i rhs s)
  | entry a i => result (Arr.aset R a i rhs s)

/-- Read the place; `none` is an exception. -/
def read (R : Runtime) (s : Store) : Place → Option (Nat × Store)
  | field v i => result (getNthField R v i s)
  | element m i => result (Memory.get R m i s)
  | entry a i => result (Arr.aref R a i s)

/-- Where the bytes of the place are: the object, the offset, and their number. -/
def spot (s : Store) : Place → Nat × Nat × Nat
  | field v i =>
    match (s.typeOf v).descs[i]? with
    | some d => (v, d.offset.toNat, d.size.toNat)
    | none => (v, 0, 0)
  | element m i => (m, elemSize (Memory.elemTypeOf s m) * i, elemSize (Memory.elemTypeOf s m))
  | entry a i =>
    (Arr.memOf s a, elemSize (Arr.elemTypeOf s a) * (Arr.offsetOf s a + i),
      elemSize (Arr.elemTypeOf s a))

/-- The bytes of the place. -/
def cell (s : Store) (p : Place) : List UInt8 :=
  window (s.bytes (p.spot s).1) (p.spot s).2.1 (p.spot s).2.2

end Place

/-- `v` is a struct: its type was defined with a size that is a word, and it has the size
that its type says. -/
def IsStruct (s : Store) (v : Nat) (t : TypeObj) (bs : List UInt8) : Prop :=
  s.objs v = some (.data t bs) ∧ t.Defined ∧ t.exactShape.size < 2 ^ 32 ∧
    bs.length = t.sizeOf.toNat

/-- `m` is a buffer with `n` elements. -/
def IsBuffer (s : Store) (m : Nat) (elem : TypeObj) (n : Nat) (bs : List UInt8) : Prop :=
  s.objs m = some (.memory elem n bs) ∧ bs.length = elemSize elem * n

theorem Holds.isBuffer {s : Store} {a mem cap : Nat} {elem : TypeObj} {cs : List (List UInt8)}
    (h : Holds s a elem mem cap cs) :
    IsBuffer s mem elem cap
      (cs.flatten ++ List.replicate (elemSize elem * (cap - cs.length)) 0) := by
  refine ⟨h.buffer, ?_⟩
  rw [List.length_append, h.length_flatten, List.length_replicate, ← Nat.mul_add,
    Nat.add_sub_cancel' h.le_cap]

/-- The place exists. -/
def Place.Exists (s : Store) : Place → Prop
  | .field v i => ∃ t bs, IsStruct s v t bs ∧ i < t.nfields
  | .element m i => ∃ elem n bs, IsBuffer s m elem n bs ∧ i < n
  | .entry a i => ∃ elem mem cap cs, Holds s a elem mem cap cs ∧ i < cs.length

/-! ### Buffers -/

section Buffers

variable {R : Runtime} {s s' : Store} {m i n v r : Nat} {elem : TypeObj} {bs : List UInt8}

/-- Elements that are not references have an inline type. -/
theorem elemKind_inline (h : elemKind elem ≠ .boxed) :
    elem.isInlineField ∧ elem ≠ .any ∧ elemSize elem = elem.sizeOf.toNat ∧
      (elemKind elem = .singleton ↔ elem.hasInstance) := by
  unfold elemSize
  cases hkind : elemKind elem with
  | boxed => exact absurd hkind h
  | bits n =>
    obtain ⟨hprim, hinl, hany, hn⟩ := elemKind_bits hkind
    refine ⟨hinl, hany, hn, iff_of_false (by simp) ?_⟩
    cases elem with
    | builtin b =>
      cases b <;> first
        | exact absurd hprim (by decide)
        | decide
    | struct | memory | array | inst | nonData => exact absurd hprim (by simp [isPrimitive])
  | singleton =>
    unfold elemKind at hkind
    split at hkind
    · cases hkind
    split at hkind
    · rename_i hc
      simp only [Bool.and_eq_true, beq_iff_eq] at hc
      obtain ⟨⟨-, hsize⟩, hinst⟩ := hc
      refine ⟨?_, ?_, by rw [hsize]; rfl, iff_of_true rfl hinst⟩
      · cases elem with
        | builtin b =>
          cases b <;> first
            | exact absurd hinst (by decide)
            | decide
        | struct =>
          simp only [hasInstance, Bool.and_eq_true, Bool.not_eq_true'] at hinst
          simp [isInlineField, isDatatype, isAbstract, isMutable, hasInstance, hinst]
        | memory | array | inst | nonData => exact absurd hinst (by simp [hasInstance])
      · rintro rfl
        exact absurd hinst (by decide)
    · cases hkind

theorem elemKind_boxed_ne_bool (h : elemKind elem = .boxed) : elem ≠ .builtin .bool := by
  rintro rfl
  exact absurd h (by decide)

/-- The bytes of a stored element encode it. -/
theorem encodes_cellOf (hs : s.Valid) (hv : Live R s v)
    (hacc : Memory.accepts R elem (s.typeOf v)) :
    Encodes R s elem (decide (elemKind elem = .boxed)) (cellOf s elem v) v := by
  by_cases hkind : elemKind elem = .boxed
  · rw [decide_eq_true hkind, cellOf, hkind]
    exact ⟨rfl, hv.lt hs, elemKind_boxed_ne_bool hkind⟩
  · obtain ⟨hinl, hany, hsize, -⟩ := elemKind_inline hkind
    have htype : s.typeOf v = elem := by
      simp only [Memory.accepts, Bool.or_eq_true, decide_eq_true_eq] at hacc
      rcases hacc with (h | h) | h
      · exact absurd h hany
      · exact h
      · exact typeOf_eq_of_isA hv hinl h
    have hcell : cellOf s elem v = window (s.bytes v) 0 (elemSize elem) := by
      unfold cellOf elemSize
      cases hk : elemKind elem with
      | boxed => exact absurd hk hkind
      | bits n => rfl
      | singleton => simp [window, Elem.size]
    rw [decide_eq_false hkind, hcell]
    exact encodes_inline hv hinl htype hsize

/-- A store to an element writes its bytes. -/
theorem memory_set_eq (hm : IsBuffer s m elem n bs) (hi : i < n)
    (h : Memory.set R m i v s = (.ok (), s')) :
    Memory.accepts R elem (s.typeOf v) ∧
      s' = s.set m (.memory elem n (overwrite bs (elemSize elem * i) (cellOf s elem v))) := by
  have hlen : Memory.len s m = n := by simp [Memory.len, hm.1]
  have helem : Memory.elemTypeOf s m = elem := by simp [Memory.elemTypeOf, hm.1]
  rw [← Store.write_memory hm.1]
  simp only [Memory.set, hlen, helem, if_neg (Nat.not_le.mpr hi)] at h
  split at h
  · refine ⟨‹_›, ?_⟩
    unfold cellOf elemSize
    cases hkind : elemKind elem with
    | boxed | bits n =>
      rw [hkind] at h
      exact (Prod.mk.inj h).2.symm
    | singleton =>
      rw [hkind] at h
      rw [Store.write_nil]
      exact (Prod.mk.inj h).2.symm
  · cases h

theorem element_end (hi : i < n) (sz : Nat) : sz * i + sz ≤ sz * n := by
  calc sz * i + sz = sz * (i + 1) := by rw [Nat.mul_succ]
    _ ≤ sz * n := Nat.mul_le_mul_left _ hi

/-- **Reading an element** gives back what its bytes encode. -/
theorem memory_get_recovers (hs : s.Valid) (hm : IsBuffer s m elem n bs) (hi : i < n)
    (hcell : Encodes R s elem (decide (elemKind elem = .boxed))
      (window bs (elemSize elem * i) (elemSize elem)) v)
    (h : Memory.get R m i s = (.ok r, s')) : Recovers s s' elem v r := by
  have hlen : Memory.len s m = n := by simp [Memory.len, hm.1]
  have helem : Memory.elemTypeOf s m = elem := by simp [Memory.elemTypeOf, hm.1]
  have hbytes : s.bytes m = bs := by simp [Store.bytes, hm.1]
  simp only [Memory.get, hlen, helem, if_neg (Nat.not_le.mpr hi)] at h
  cases hkind : elemKind elem with
  | boxed =>
    rw [hkind, elemSize, hkind] at hcell
    obtain ⟨hc, hlt, hbool⟩ := hcell
    simp only [hkind, hbytes] at h
    rw [show window bs (4 * i) 4 = wordBytes v from hc, bytesWord_wordBytes hlt] at h
    split at h
    · cases h
    · exact Or.inl ⟨(Except.ok.inj (Prod.mk.inj h).1).symm, hbool⟩
  | singleton =>
    have hne : elemKind elem ≠ .boxed := by simp [hkind]
    have hinst := (elemKind_inline hne).2.2.2.mp hkind
    rw [decide_eq_false hne] at hcell
    obtain ⟨-, -, -, -, hunique⟩ := hcell
    simp only [hkind] at h
    refine Or.inl ⟨(Except.ok.inj (Prod.mk.inj h).1).symm.trans (hunique hinst).symm, ?_⟩
    rintro rfl
    exact absurd hinst (by decide)
  | bits k =>
    have hne : elemKind elem ≠ .boxed := by simp [hkind]
    have hinst : elem.hasInstance = false := by
      rw [← Bool.not_eq_true, ← (elemKind_inline hne).2.2.2, hkind]
      simp
    have hk : elemSize elem = k := by rw [elemSize, hkind]; rfl
    rw [decide_eq_false hne, hk] at hcell
    obtain ⟨hinl, hc, ho, htype, -⟩ := hcell
    simp only [hkind] at h
    have hend := element_end hi k
    have hwlen : (window (s.bytes m) (k * i) k).length = k := by
      rw [hbytes]
      exact length_window (by rw [hm.2, hk]; exact hend)
    rcases rebox_cases R elem hs hm.1 hwlen with halloc | ⟨s₁, halloc, hext, hbox⟩
    · rw [halloc] at h
      cases h
    · rw [halloc] at h
      obtain ⟨hr, hs'⟩ := Prod.mk.inj h
      cases Except.ok.inj hr
      subst hs'
      rw [hbytes, hc] at hbox
      exact Or.inr ⟨hinl, hinst, ho, htype, rfl, hext, hbox⟩

end Buffers

/-! ### Structs -/

section Structs

variable {R : Runtime} {s s' : Store} {v i rhs r : Nat} {t ft : TypeObj} {d : FieldDesc}
  {bs : List UInt8}

theorem TypeObj.LaidOut.isLayout (h : t.LaidOut) :
    ∃ ptrs, IsLayout t.types (t.sizeOf, ptrs, t.descs) := by
  cases h with
  | struct layout => exact ⟨_, layout⟩
  | builtin | memory | array | inst | nonData =>
    exact ⟨[], rfl, List.Pairwise.nil, fun _ h => absurd h List.not_mem_nil,
      fun _ h => absurd h List.not_mem_nil, one_dvd _, rfl⟩

/-- What a struct's type says of its `i`-th field. -/
structure IsField (t : TypeObj) (i : Nat) (d : FieldDesc) (ft : TypeObj) : Prop where
  desc : t.descs[i]? = some d
  type : t.types[i]? = some ft
  kind : (d.size, d.isptr) = if ft.isInlineField then (ft.sizeOf, false) else (4, true)
  inside : d.offset.toNat + d.size.toNat ≤ t.sizeOf.toNat

theorem isField_of_lt (h : t.LaidOut) (hi : i < t.nfields) : ∃ d ft, IsField t i d ft := by
  obtain ⟨ptrs, hl⟩ := h.isLayout
  have hlen : t.descs.length = t.types.length := by
    simpa using congrArg List.length hl.kinds
  have hi' : i < t.descs.length := hlen ▸ hi
  refine ⟨t.descs[i], t.types[i], List.getElem?_eq_getElem hi', List.getElem?_eq_getElem hi, ?_,
    hl.inside _ (List.getElem_mem hi')⟩
  have hkind := congrArg (·[i]?) hl.kinds
  simp only [List.getElem?_map, List.getElem?_eq_getElem hi', List.getElem?_eq_getElem hi] at hkind
  exact Option.some.inj hkind

/-- Two fields of a struct do not overlap. -/
theorem IsField.disjoint (hl : t.LaidOut) {j : Nat} {d' : FieldDesc} {ft' : TypeObj}
    (h : IsField t i d ft) (h' : IsField t j d' ft') (hne : i ≠ j) :
    d.offset.toNat + d.size.toNat ≤ d'.offset.toNat ∨
      d'.offset.toNat + d'.size.toNat ≤ d.offset.toNat := by
  obtain ⟨ptrs, hl⟩ := hl.isLayout
  have hord := List.pairwise_iff_getElem.mp hl.ordered
  obtain ⟨hi, rfl⟩ := List.getElem?_eq_some_iff.mp h.desc
  obtain ⟨hj, rfl⟩ := List.getElem?_eq_some_iff.mp h'.desc
  rcases Nat.lt_or_gt_of_ne hne with hlt | hlt
  · exact Or.inl (hord i j hi hj hlt)
  · exact Or.inr (hord j i hj hi hlt)

/-- The bytes that a store of `v` puts into a field. -/
def fieldBytes (s : Store) (d : FieldDesc) (v : Nat) : List UInt8 :=
  if d.isptr then wordBytes v else window (s.bytes v) 0 d.size.toNat

theorem setFieldRaw_eq (v : Nat) (d : FieldDesc) (rhs : Nat) (s : Store) :
    setFieldRaw v d rhs s = s.write v d.offset.toNat (fieldBytes s d rhs) := by
  unfold setFieldRaw fieldBytes
  split <;> rfl

theorem IsField.cases (h : IsField t i d ft) :
    (d.isptr = true ∧ d.size.toNat = 4 ∧ ft ≠ .builtin .bool) ∨
      (d.isptr = false ∧ d.size.toNat = ft.sizeOf.toNat ∧ ft.isInlineField = true) := by
  have hkind := h.kind
  split at hkind
  · obtain ⟨hsize, hptr⟩ := Prod.mk.inj hkind
    exact Or.inr ⟨hptr, by rw [hsize], ‹_›⟩
  · obtain ⟨hsize, hptr⟩ := Prod.mk.inj hkind
    refine Or.inl ⟨hptr, by rw [hsize]; rfl, ?_⟩
    rintro rfl
    exact absurd rfl ‹¬ _›

/-- The bytes of a stored field encode it. -/
theorem encodes_fieldBytes (hs : s.Valid) (hv : Live R s rhs)
    (hf : IsField t i d ft) (hisA : isA R s rhs ft) :
    Encodes R s ft d.isptr (fieldBytes s d rhs) rhs := by
  unfold fieldBytes
  rcases hf.cases with ⟨hptr, -, hbool⟩ | ⟨hptr, hsize, hinl⟩
  · rw [hptr]
    exact ⟨rfl, hv.lt hs, hbool⟩
  · rw [hptr]
    exact encodes_inline hv hinl (typeOf_eq_of_isA hv hinl hisA) hsize

theorem length_fieldBytes (hv : Live R s rhs) (hf : IsField t i d ft)
    (hisA : isA R s rhs ft) : (fieldBytes s d rhs).length = d.size.toNat := by
  unfold fieldBytes
  rcases hf.cases with ⟨hptr, hsize, -⟩ | ⟨hptr, hsize, hinl⟩
  · rw [hptr, hsize]
    rfl
  · have htype := typeOf_eq_of_isA hv hinl hisA
    have hlen := hv.sized (htype ▸ hinl)
    rw [hptr]
    refine length_window ?_
    rw [hlen, htype]
    omega

/-- **Reading a field** gives back what its bytes encode. -/
theorem getNthField_recovers (hs : s.Valid) (hobj : s.objs v = some (.data t bs))
    (hlen : bs.length = t.sizeOf.toNat) (hf : IsField t i d ft)
    (hcell : Encodes R s ft d.isptr (window bs d.offset.toNat d.size.toNat) rhs)
    (h : getNthField R v i s = (.ok r, s')) : Recovers s s' ft rhs r := by
  have htype : s.typeOf v = t := by simp [Store.typeOf, hobj, Obj.type]
  have hbytes : s.bytes v = bs := by simp [Store.bytes, hobj]
  simp only [getNthField, htype, hf.desc, hf.type] at h
  rcases hf.cases with ⟨hptr, hsize, -⟩ | ⟨hptr, -, -⟩
  · rw [hptr, hsize] at hcell
    obtain ⟨hc, hlt, hbool⟩ := hcell
    rw [if_pos hptr, hbytes, hc, bytesWord_wordBytes hlt] at h
    exact Or.inl ⟨(Except.ok.inj (Prod.mk.inj h).1).symm, hbool⟩
  · rw [hptr] at hcell
    obtain ⟨hinl, hc, ho, hty, hunique⟩ := hcell
    rw [hptr, if_neg (by simp)] at h
    split at h
    · refine Or.inl ⟨(Except.ok.inj (Prod.mk.inj h).1).symm.trans (hunique ‹_›).symm, ?_⟩
      rintro rfl
      exact absurd ‹(TypeObj.builtin _).hasInstance = true› (by decide)
    · have hinst : ft.hasInstance = false := by simpa using ‹¬ ft.hasInstance = true›
      have hwlen : (window (s.bytes v) d.offset.toNat d.size.toNat).length = d.size.toNat := by
        rw [hbytes]
        exact length_window (by rw [hlen]; exact hf.inside)
      rcases rebox_cases R ft hs hobj hwlen with halloc | ⟨s₁, halloc, hext, hbox⟩
      · rw [halloc] at h
        cases h
      · rw [halloc] at h
        obtain ⟨hr, hs'⟩ := Prod.mk.inj h
        cases Except.ok.inj hr
        subst hs'
        rw [hbytes, hc] at hbox
        exact Or.inr ⟨hinl, hinst, ho, hty, rfl, hext, hbox⟩

/-- A store to a field writes its bytes. -/
theorem setNthField_eq (hobj : s.objs v = some (.data t bs)) (hf : IsField t i d ft)
    (h : setNthField R v i rhs s = (.ok (), s')) :
    t.isMutable ∧ isA R s rhs ft ∧
      s' = s.set v (.data t (overwrite bs d.offset.toNat (fieldBytes s d rhs))) := by
  have htype : s.typeOf v = t := by simp [Store.typeOf, hobj, Obj.type]
  simp only [setNthField, htype, hf.desc, hf.type] at h
  split at h
  · cases h
  · split at h
    · refine ⟨by simpa using ‹¬ (!t.isMutable) = true›, ‹_›, ?_⟩
      rw [← Store.write_data hobj, ← setFieldRaw_eq]
      exact (Prod.mk.inj h).2.symm
    · cases h

theorem not_isInlineField_of_isMutable (h : t.isMutable) : t.isInlineField = false := by
  simp [isInlineField, h]

/-! ### Construction -/

theorem isA_of_firstMisfit {k : Nat} {ps : List (Nat × TypeObj)}
    (h : firstMisfit R s k ps = none) : ∀ p ∈ ps, isA R s p.1 p.2 := by
  induction ps generalizing k with
  | nil => simp
  | cons p ps ih =>
    obtain ⟨a, ft⟩ := p
    rw [firstMisfit] at h
    split at h
    · rename_i hfits
      intro q hq
      rcases List.mem_cons.mp hq with rfl | hq
      · exact hfits
      · exact ih h q hq
    · cases h

/-- Storing the fields of a struct is a sequence of writes to its data.  The arguments
are other objects, so their bytes stay what they were. -/
theorem setFields_eq {ps : List (FieldDesc × Nat)} (hobj : s.objs v = some (.data t bs))
    (hne : ∀ p ∈ ps, p.2 ≠ v) :
    setFields v ps s = s.set v (.data t
      (overwriteAll bs (ps.map fun p => (p.1.offset.toNat, fieldBytes s p.1 p.2)))) := by
  induction ps generalizing s bs with
  | nil => exact (Store.set_eq_self hobj).symm
  | cons p ps ih =>
    obtain ⟨d, a⟩ := p
    have hne' : ∀ p ∈ ps, p.2 ≠ v := fun p hp => hne p (List.mem_cons_of_mem _ hp)
    rw [setFields, setFieldRaw_eq, Store.write_data hobj, ih Store.set_self hne']
    have hbytes : ∀ o, ∀ p ∈ ps, fieldBytes (s.set v o) p.1 p.2 = fieldBytes s p.1 p.2 := by
      intro o p hp
      simp only [fieldBytes, Store.bytes, Store.set_of_ne (hne' p hp)]
    have hmap := List.map_congr_left fun p hp =>
      congrArg (Prod.mk p.1.offset.toNat) (hbytes (.data t (overwrite bs d.offset.toNat
        (fieldBytes s d a))) p hp)
    rw [hmap]
    simp [Store.set, overwriteAll]

theorem Live.congr (h : Live R s v) (hobj : s'.objs v = s.objs v) : Live R s' v := by
  have hbytes : s'.bytes v = s.bytes v := by simp only [Store.bytes, hobj]
  have htype : s'.typeOf v = s.typeOf v := by simp only [Store.typeOf, hobj]
  refine ⟨hobj ▸ h.exists_obj, ?_, ?_, ?_⟩
  · rw [htype]; exact h.leaf
  · rw [htype, hbytes]; exact h.sized
  · rw [htype]; exact h.unique

/-- The writes that store these arguments stay inside the data of a struct, one after
the other. -/
theorem fieldWrites_spec {args : List Nat} (hl : t.LaidOut)
    (hlen : bs.length = t.sizeOf.toNat) (hargs : ∀ a ∈ args, Live R s a)
    (hcount : args.length = t.nfields) (hisA : ∀ p ∈ args.zip t.types, isA R s p.1 p.2) :
    (∀ w ∈ (t.descs.zip args).map fun p => (p.1.offset.toNat, fieldBytes s p.1 p.2),
      w.1 + w.2.length ≤ bs.length) ∧
    ((t.descs.zip args).map fun p => (p.1.offset.toNat, fieldBytes s p.1 p.2)).Pairwise
      fun w w' => w.1 + w.2.length ≤ w'.1 := by
  -- every write is the one of some field
  have hfield : ∀ p ∈ t.descs.zip args, (fieldBytes s p.1 p.2).length = p.1.size.toNat ∧
      p.1.offset.toNat + p.1.size.toNat ≤ bs.length := by
    intro p hp
    obtain ⟨i, hi, rfl⟩ := List.mem_iff_getElem.mp hp
    rw [List.length_zip] at hi
    have hia : i < args.length := by omega
    obtain ⟨d, ft, hf⟩ := isField_of_lt hl (hcount ▸ hia)
    obtain ⟨hid, rfl⟩ := List.getElem?_eq_some_iff.mp hf.desc
    obtain ⟨hit, rfl⟩ := List.getElem?_eq_some_iff.mp hf.type
    have hmem : (args[i], t.types[i]) ∈ args.zip t.types :=
      List.mem_iff_getElem.mpr ⟨i, by rw [List.length_zip]; omega, List.getElem_zip⟩
    rw [List.getElem_zip, hlen]
    exact ⟨length_fieldBytes (hargs _ (List.getElem_mem hia)) hf (hisA _ hmem), hf.inside⟩
  obtain ⟨ptrs, hlay⟩ := hl.isLayout
  constructor
  · intro w hw
    obtain ⟨p, hp, rfl⟩ := List.mem_map.mp hw
    obtain ⟨h₁, h₂⟩ := hfield p hp
    simp only [h₁]
    exact h₂
  · rw [List.pairwise_map]
    have hord := List.pairwise_iff_getElem.mp hlay.ordered
    refine List.pairwise_iff_getElem.mpr fun i j hi hj hij => ?_
    have h₁ := (hfield _ (List.getElem_mem hi)).1
    rw [List.length_zip] at hi hj
    simp only [h₁]
    simp only [List.getElem_zip]
    exact hord i j _ _ hij

/-- **A new struct** holds its arguments. -/
theorem newStruct_encodes {args : List Nat} {a : Nat} (hs : s.Valid)
    (hl : t.LaidOut) (hargs : ∀ a ∈ args, Live R s a) (h : newStruct R t args s = (.ok v, s'))
    (ha : args[i]? = some a) :
    ∃ d ft bs, IsField t i d ft ∧ s'.Valid ∧ s'.objs v = some (.data t bs) ∧
      bs.length = t.sizeOf.toNat ∧
      Encodes R s' ft d.isptr (window bs d.offset.toNat d.size.toNat) a := by
  have hia := (List.getElem?_eq_some_iff.mp ha).1
  unfold newStruct at h
  split at h
  · cases h
  split at h
  · cases h
  rename_i hcount
  rw [not_not] at hcount
  split at h
  · cases h
  rename_i hmisfit
  obtain ⟨d, ft, hf⟩ := isField_of_lt hl (hcount ▸ hia)
  split at h
  · -- a type with an instance has no fields
    rename_i hinst
    have hnil : t.types = [] := by
      cases t with
      | struct =>
        simp only [hasInstance, Bool.and_eq_true, List.isEmpty_iff] at hinst
        exact hinst.1
      | builtin | memory | array | inst | nonData => rfl
    have := hf.type
    rw [hnil] at this
    cases this
  rcases s.alloc_cases R t.sizeOf.toNat (Obj.data t) with ⟨-, halloc⟩
    | ⟨hgrant, chunk, hchunk, halloc⟩
  · rw [halloc] at h
    cases h
  rw [halloc] at h
  obtain ⟨hv, hs'⟩ := Prod.mk.inj h
  cases Except.ok.inj hv
  -- the arguments are live in the store that has the new object
  have hold : ∀ a ∈ args, a ≠ s.next := fun a ha => by
    obtain ⟨o, ho⟩ := (hargs a ha).exists_obj
    exact hs.ne_next ho
  set s₁ := s.extend (.data t chunk) with hs₁
  have hobj : ∀ a ∈ args, s₁.objs a = s.objs a := fun a ha => Store.extend_of_ne (hold a ha)
  have hargs₁ : ∀ a ∈ args, Live R s₁ a := fun a ha => (hargs a ha).congr (hobj a ha)
  have hisA₁ : ∀ p ∈ args.zip t.types, isA R s₁ p.1 p.2 := by
    intro p hp
    have := isA_of_firstMisfit hmisfit p hp
    rwa [isA, Store.typeOf, hobj p.1 (List.of_mem_zip hp).1]
  have hvalid₁ : s₁.Valid := hs.extend hgrant.1
  obtain ⟨hin, hord⟩ := fieldWrites_spec hl hchunk hargs₁ hcount hisA₁
  rw [setFields_eq Store.extend_next fun p hp => hold p.2 (List.of_mem_zip hp).2] at hs'
  subst hs'
  refine ⟨d, ft, _, hf, hvalid₁.set Store.extend_next, Store.set_self,
    (length_overwriteAll hin).trans hchunk, ?_⟩
  obtain ⟨hid, hd⟩ := List.getElem?_eq_some_iff.mp hf.desc
  obtain ⟨hit, hft⟩ := List.getElem?_eq_some_iff.mp hf.type
  obtain ⟨-, rfl⟩ := List.getElem?_eq_some_iff.mp ha
  have hmem : (d, args[i]) ∈ t.descs.zip args :=
    List.mem_iff_getElem.mpr ⟨i, by rw [List.length_zip]; omega, by rw [List.getElem_zip, hd]⟩
  have hfits : isA R s₁ args[i] ft := hisA₁ (args[i], ft)
    (List.mem_iff_getElem.mpr ⟨i, by rw [List.length_zip]; omega, by rw [List.getElem_zip, hft]⟩)
  have hlive := hargs₁ _ (List.getElem_mem hia)
  have hwin := window_overwriteAll hin hord _ (List.mem_map.mpr ⟨_, hmem, rfl⟩)
  simp only [length_fieldBytes hlive hf hfits] at hwin
  rw [hwin]
  exact (encodes_fieldBytes hvalid₁ hlive hf hfits).congr
    fun _ => Store.set_of_ne (hold _ (List.getElem_mem hia))

end Structs

/-! ### Stores to a place -/

/-- The object with other bytes. -/
def Obj.withBytes (bs : List UInt8) : Obj → Obj
  | data t _ => data t bs
  | memory e n _ => memory e n bs
  | o => o

section Places

variable {R : Runtime} {s s' : Store} {p q : Place} {rhs : Nat}

theorem bytes_set_withBytes {m : Nat} {o : Obj} {bs : List UInt8} (hm : s.objs m = some o)
    (hlen : bs.length = (s.bytes m).length) : (s.set m (o.withBytes bs)).bytes m = bs := by
  simp only [Store.bytes, hm, Store.set_self] at hlen ⊢
  cases o with
  | data | memory => rfl
  | array => exact (List.eq_nil_of_length_eq_zero hlen).symm

/-- What the header words say does not depend on any bytes. -/
theorem headers_set {m : Nat} {o : Obj} (hm : s.objs m = some o) (bs : List UInt8) (v : Nat) :
    (s.set m (o.withBytes bs)).typeOf v = s.typeOf v ∧
      Memory.elemTypeOf (s.set m (o.withBytes bs)) v = Memory.elemTypeOf s v ∧
      Arr.memOf (s.set m (o.withBytes bs)) v = Arr.memOf s v ∧
      Arr.offsetOf (s.set m (o.withBytes bs)) v = Arr.offsetOf s v ∧
      Arr.elemTypeOf (s.set m (o.withBytes bs)) v = Arr.elemTypeOf s v := by
  simp only [Store.typeOf, Memory.elemTypeOf, Arr.memOf, Arr.offsetOf, Arr.elemTypeOf]
  by_cases hv : v = m
  · subst hv
    simp only [Store.set_self, hm]
    cases o <;> exact ⟨rfl, rfl, rfl, rfl, rfl⟩
  · simp only [Store.set_of_ne hv, and_self]

theorem Place.spot_set {m : Nat} {o : Obj} (hm : s.objs m = some o) (bs : List UInt8) (q : Place) :
    q.spot (s.set m (o.withBytes bs)) = q.spot s := by
  have h := headers_set hm bs
  cases q with
  | field v i => simp only [Place.spot, (h v).1]
  | element m' i => simp only [Place.spot, (h m').2.1]
  | entry a i => simp only [Place.spot, (h a).2.2]

/-- A place is a field of a struct or an element of a buffer. -/
theorem Place.Exists.cases (h : p.Exists s) :
    (∃ v t bs i d ft, IsStruct s v t bs ∧ IsField t i d ft ∧
        p.spot s = (v, d.offset.toNat, d.size.toNat)) ∨
      ∃ m elem n bs i, IsBuffer s m elem n bs ∧ i < n ∧
        p.spot s = (m, elemSize elem * i, elemSize elem) := by
  cases p with
  | field v i =>
    obtain ⟨t, bs, hv, hi⟩ := h
    obtain ⟨d, ft, hf⟩ := isField_of_lt (laidOut_of_defined hv.2.1 hv.2.2.1) hi
    have htype : s.typeOf v = t := by simp [Store.typeOf, hv.1, Obj.type]
    exact Or.inl ⟨v, t, bs, i, d, ft, hv, hf, by simp [Place.spot, htype, hf.desc]⟩
  | element m i =>
    obtain ⟨elem, n, bs, hm, hi⟩ := h
    have helem : Memory.elemTypeOf s m = elem := by simp [Memory.elemTypeOf, hm.1]
    exact Or.inr ⟨m, elem, n, bs, i, hm, hi, by simp [Place.spot, helem]⟩
  | entry a i =>
    obtain ⟨elem, mem, cap, cs, ha, hi⟩ := h
    exact Or.inr ⟨mem, elem, cap, _, i, ha.isBuffer, lt_of_lt_of_le hi ha.le_cap,
      by simp [Place.spot, ha.memOf, ha.offsetOf, ha.elemTypeOf]⟩

/-- Places with different spots do not overlap. -/
theorem Place.Exists.disjoint (hp : p.Exists s) (hq : q.Exists s)
    (hobj : (q.spot s).1 = (p.spot s).1) (hne : q.spot s ≠ p.spot s) :
    (q.spot s).2.1 + (q.spot s).2.2 ≤ (p.spot s).2.1 ∨
      (p.spot s).2.1 + (p.spot s).2.2 ≤ (q.spot s).2.1 := by
  rcases hp.cases with ⟨v, t, bs, i, d, ft, hv, hf, hps⟩ | ⟨m, elem, n, bs, i, hm, -, hps⟩ <;>
    rcases hq.cases with ⟨v', t', bs', j, d', ft', hv', hf', hqs⟩ |
      ⟨m', elem', n', bs', j, hm', -, hqs⟩ <;>
    rw [hps, hqs] at hobj hne ⊢ <;> obtain rfl := hobj
  · cases hv.1.symm.trans hv'.1
    have hij : i ≠ j := by
      rintro rfl
      cases hf.desc.symm.trans hf'.desc
      exact hne rfl
    exact (hf.disjoint (laidOut_of_defined hv.2.1 hv.2.2.1) hf' hij).symm
  · cases hv.1.symm.trans hm'.1
  · cases hm.1.symm.trans hv'.1
  · cases hm.1.symm.trans hm'.1
    have hij : i ≠ j := by
      rintro rfl
      exact hne rfl
    rcases Nat.lt_or_gt_of_ne hij with h | h
    · exact Or.inr (element_end h _)
    · exact Or.inl (element_end h _)

/-- A store into a field changes that field only. -/
theorem setNthField_spec {v i : Nat} {t : TypeObj} {bs : List UInt8}
    (hs : s.Valid) (hst : IsStruct s v t bs) (hi : i < t.nfields) (hv : Live R s rhs)
    (h : setNthField R v i rhs s = (.ok (), s')) :
    ∃ d ft c, IsField t i d ft ∧ c.length = d.size.toNat ∧
      d.offset.toNat + c.length ≤ bs.length ∧
      s' = s.set v (.data t (overwrite bs d.offset.toNat c)) ∧
      ∀ r s'', getNthField R v i s' = (.ok r, s'') → Recovers s' s'' ft rhs r := by
  obtain ⟨hobj, hdef, hfits, hlen⟩ := hst
  obtain ⟨d, ft, hf⟩ := isField_of_lt (laidOut_of_defined hdef hfits) hi
  obtain ⟨hmut, hisA, rfl⟩ := setNthField_eq hobj hf h
  have hclen := length_fieldBytes hv hf hisA
  have hend : d.offset.toNat + (fieldBytes s d rhs).length ≤ bs.length := by
    rw [hclen, hlen]
    exact hf.inside
  refine ⟨d, ft, _, hf, hclen, hend, rfl, fun r s'' hget => ?_⟩
  refine getNthField_recovers (hs.set hobj) Store.set_self ((length_overwrite hend).trans hlen)
    hf ?_ hget
  rw [← hclen, window_overwrite hend]
  exact (encodes_fieldBytes hs hv hf hisA).set hobj (not_isInlineField_of_isMutable hmut) _

/-- A store into an element changes that element only. -/
theorem memory_set_spec {m i n : Nat} {elem : TypeObj} {bs : List UInt8}
    (hs : s.Valid) (hm : IsBuffer s m elem n bs) (hi : i < n) (hv : Live R s rhs)
    (h : Memory.set R m i rhs s = (.ok (), s')) :
    ∃ c, c.length = elemSize elem ∧ elemSize elem * i + c.length ≤ bs.length ∧
      s' = s.set m (.memory elem n (overwrite bs (elemSize elem * i) c)) ∧
      ∀ r s'', Memory.get R m i s' = (.ok r, s'') → Recovers s' s'' elem rhs r := by
  obtain ⟨hacc, rfl⟩ := memory_set_eq hm hi h
  have hclen := length_cellOf hv hacc
  have hend : elemSize elem * i + (cellOf s elem rhs).length ≤ bs.length := by
    rw [hclen, hm.2]
    exact element_end hi _
  refine ⟨_, hclen, hend, rfl, fun r s'' hget => ?_⟩
  refine memory_get_recovers (hs.set hm.1) ⟨Store.set_self, (length_overwrite hend).trans hm.2⟩
    hi ?_ hget
  have hwin := window_overwrite hend
  rw [hclen] at hwin
  rw [hwin]
  exact (encodes_cellOf hs hv hacc).set hm.1 rfl _

/-- **A store** writes bytes of the right number to the place, and reading the place
gives back the value. -/
theorem put_spec (hs : s.Valid) (hp : p.Exists s) (hv : Live R s rhs)
    (h : p.put R s rhs = some ((), s')) :
    s'.Valid ∧ ∃ o c, s.objs (p.spot s).1 = some o ∧ c.length = (p.spot s).2.2 ∧
      (p.spot s).2.1 + c.length ≤ (s.bytes (p.spot s).1).length ∧
      s' = s.set (p.spot s).1
        (o.withBytes (overwrite (s.bytes (p.spot s).1) (p.spot s).2.1 c)) ∧
      ∀ r s'', p.read R s' = some (r, s'') → Recovers s' s'' (p.type s) rhs r := by
  cases p with
  | field v i =>
    obtain ⟨t, bs, hst, hi⟩ := hp
    obtain ⟨d, ft, c, hf, hclen, hend, rfl, hread⟩ :=
      setNthField_spec hs hst hi hv (result_eq_some.mp h)
    have htype : s.typeOf v = t := by simp [Store.typeOf, hst.1, Obj.type]
    have hspot : (Place.field v i).spot s = (v, d.offset.toNat, d.size.toNat) := by
      simp [Place.spot, htype, hf.desc]
    have hty : (Place.field v i).type s = ft := by simp [Place.type, htype, hf.type]
    have hbytes : s.bytes v = bs := by simp [Store.bytes, hst.1]
    rw [hspot, hty, hbytes]
    exact ⟨hs.set hst.1, _, c, hst.1, hclen, hend, rfl,
      fun r s'' hr => hread r s'' (result_eq_some.mp hr)⟩
  | element m i =>
    obtain ⟨elem, n, bs, hm, hi⟩ := hp
    obtain ⟨c, hclen, hend, rfl, hread⟩ :=
      memory_set_spec hs hm hi hv (result_eq_some.mp h)
    have hty : Memory.elemTypeOf s m = elem := by simp [Memory.elemTypeOf, hm.1]
    have hbytes : s.bytes m = bs := by simp [Store.bytes, hm.1]
    rw [Place.spot, Place.type, hty, hbytes]
    exact ⟨hs.set hm.1, _, c, hm.1, hclen, hend, rfl,
      fun r s'' hr => hread r s'' (result_eq_some.mp hr)⟩
  | entry a i =>
    obtain ⟨elem, mem, cap, cs, ha, hi⟩ := hp
    have hset := result_eq_some.mp h
    rw [Arr.aset, ha.len, ha.memOf, ha.offsetOf, if_neg (by omega), Nat.zero_add] at hset
    obtain ⟨c, hclen, hend, rfl, hread⟩ :=
      memory_set_spec hs ha.isBuffer (lt_of_lt_of_le hi ha.le_cap) hv hset
    rw [Place.spot, Place.type, ha.elemTypeOf, ha.memOf, ha.offsetOf, Nat.zero_add, ha.bytes]
    refine ⟨hs.set ha.buffer, _, c, ha.buffer, hclen, hend, rfl, fun r s'' hr => hread r s'' ?_⟩
    -- the store did not touch the array
    have hget := result_eq_some.mp hr
    simp only [Arr.aref, Arr.len, Arr.memOf, Arr.offsetOf, Store.set_of_ne ha.ne, ha.array,
      if_neg (Nat.not_le.mpr hi), Nat.zero_add] at hget
    exact hget

/-- A store leaves every other place as it is. -/
theorem cell_of_put (hs : s.Valid) (hp : p.Exists s) (hq : q.Exists s)
    (hv : Live R s rhs) (h : p.put R s rhs = some ((), s')) (hne : q.spot s ≠ p.spot s) :
    q.cell s' = q.cell s := by
  obtain ⟨-, o, c, hobj, hclen, hend, rfl, -⟩ := put_spec hs hp hv h
  unfold Place.cell
  rw [Place.spot_set hobj]
  by_cases hsame : (q.spot s).1 = (p.spot s).1
  · have hbytes : (s.set (p.spot s).1 (o.withBytes
        (overwrite (s.bytes (p.spot s).1) (p.spot s).2.1 c))).bytes (p.spot s).1 =
        overwrite (s.bytes (p.spot s).1) (p.spot s).2.1 c :=
      bytes_set_withBytes hobj (length_overwrite hend)
    rw [hsame, hbytes]
    refine window_overwrite_of_disjoint hend ?_
    rw [hclen]
    exact hp.disjoint hq hsame hne
  · simp only [Store.bytes, Store.set_of_ne hsame]

end Places

/-- **Read-back.**  What is read after a construction or a store is what was stored,
exactly if the declared type is not `Bool`; and a store leaves every other place as it
is. -/
theorem readBack_iff (R : Runtime) (s : Store) (hs : s.Valid) :
    (∀ (t : TypeObj) (args : List Nat) (v : Nat) (s' : Store), t.Defined →
      t.exactShape.size < 2 ^ 32 → (∀ a ∈ args, Live R s a) →
      newStruct R t args s = (.ok v, s') → ∀ i a, args[i]? = some a →
        ∀ r s'', (Place.field v i).read R s' = some (r, s'') →
          (ReadsBack R s'' ((Place.field v i).type s') a r ↔
            (Place.field v i).type s' ≠ .builtin .bool)) ∧
    ∀ (p : Place) (rhs : Nat) (s' : Store), p.Exists s → Live R s rhs →
      p.put R s rhs = some ((), s') →
        (∀ r s'', p.read R s' = some (r, s'') →
          (ReadsBack R s'' (p.type s) rhs r ↔ p.type s ≠ .builtin .bool)) ∧
        ∀ q : Place, q.Exists s → q.spot s ≠ p.spot s → q.cell s' = q.cell s := by
  constructor
  · intro t args v s' hdef hfits hargs h i a ha r s'' hr
    obtain ⟨d, ft, bs, hf, hvalid, hobj, hlen, henc⟩ :=
      newStruct_encodes hs (laidOut_of_defined hdef hfits) hargs h ha
    have hty : (Place.field v i).type s' = ft := by
      simp [Place.type, Store.typeOf, hobj, Obj.type, hf.type]
    rw [hty]
    exact (getNthField_recovers hvalid hobj hlen hf henc (result_eq_some.mp hr)).readsBack_iff
      hvalid
  · intro p rhs s' hp hv h
    obtain ⟨hvalid, -, -, -, -, -, -, hread⟩ := put_spec hs hp hv h
    exact ⟨fun r s'' hr => (hread r s'' hr).readsBack_iff hvalid,
      fun q hq hne => cell_of_put hs hp hq hv h hne⟩

/-- A struct with a `Bool` and a reference. -/
def flagged : TypeObj :=
  TypeObj.defineStruct 0 "Flagged" (.builtin .any) [.builtin .bool, .any] true

/-- The store after constructing one from `true` and `nothing`. -/
def flaggedStore : Store := (newStruct grantingRuntime flagged [3, 1] bootStore).2

/-- **A `Bool` is not read back.**  The field was set to `true`, and what is read is a new
box that is not `egal` to it. -/
theorem bool_field_not_egal :
    (newStruct grantingRuntime flagged [3, 1] bootStore).1 = .ok 4 ∧
      (getNthField grantingRuntime 4 0 flaggedStore).1 = .ok 5 ∧
      egal grantingRuntime (getNthField grantingRuntime 4 0 flaggedStore).2 5 3 = false ∧
      ¬ ReadsBack grantingRuntime (getNthField grantingRuntime 4 0 flaggedStore).2
        (.builtin .bool) 3 5 :=
  ⟨rfl, rfl, by decide, by simp only [ReadsBack]; decide⟩

/-- The `Bool` of that struct, and its reference after a store of `true`. -/
theorem readBack_iff_flagged :
    (ReadsBack grantingRuntime (getNthField grantingRuntime 4 0 flaggedStore).2
        ((Place.field 4 0).type flaggedStore) 3 5 ↔
      (Place.field 4 0).type flaggedStore ≠ .builtin .bool) ∧
    (ReadsBack grantingRuntime (setNthField grantingRuntime 4 1 3 flaggedStore).2
        ((Place.field 4 1).type flaggedStore) 3 3 ↔
      (Place.field 4 1).type flaggedStore ≠ .builtin .bool) := by
  have hdef : flagged.Defined := .struct fun t ht => by
    simp only [List.mem_cons, List.not_mem_nil, or_false] at ht
    rcases ht with rfl | rfl <;> exact .builtin _
  have hlive : ∀ a ∈ [3, 1], Live grantingRuntime bootStore a := fun a ha => by
    simp only [List.mem_cons, List.not_mem_nil, or_false] at ha
    rcases ha with rfl | rfl
    · exact ⟨⟨_, rfl⟩, rfl, fun _ => rfl, fun h => absurd h (by decide)⟩
    · exact ⟨⟨_, rfl⟩, rfl, fun _ => rfl, fun _ => rfl⟩
  have hvalid : flaggedStore.Valid := ⟨by decide, by decide, fun a o h => by
    match a, h with
    | 1, _ | 2, _ | 3, _ | 4, _ => exact ⟨by decide, by decide⟩⟩
  constructor
  · exact (readBack_iff grantingRuntime bootStore bootStore_valid).1 flagged
      [3, 1] 4 flaggedStore hdef (by decide) hlive rfl 0 3 rfl 5 _ rfl
  · refine ((readBack_iff grantingRuntime flaggedStore hvalid).2 (.field 4 1) 3
      _ ⟨flagged, _, ⟨rfl, hdef, by decide, rfl⟩, by decide⟩ ?_ rfl).1 3 _ rfl
    exact (hlive 3 (by simp)).congr rfl

end Ruju.Storage
