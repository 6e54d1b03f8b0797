import Ruju.Storage.Types
import Ruju.Library.Placement
import Mathlib.Algebra.Order.Monoid.NatCast

/-!
# Struct layout

`compute_field_offsets` computes with 32-bit words, and the layout it is meant to
compute is a placement in the sense of `Ruju.Library.Placement`, over numbers that do
not wrap around (`exactShape`).  A record whose exact size is a word is laid out
exactly, because every intermediate value is below that size or below the next
multiple of an alignment that divides the word size.  What a layout promises
(`IsLayout`) is then read off the placement.

A struct keeps the layout it was given when it was defined, so an inline field of
struct type brings a layout of its own.  `LaidOut` says that this one is right as
well, and so on inwards.
-/

namespace Ruju.Storage

namespace TypeObj

/-! ### The exact layout -/

mutual

/-- Size and alignment of an inline value, computed exactly. -/
def exactShape : TypeObj → Shape
  | builtin b => ⟨b.size.toNat, if b.isPrimitive then max 1 (min b.size.toNat 8) else 1⟩
  | struct _ _ _ _ ts _ _ _ => ⟨recordSize (shapes ts), maxAlign (shapes ts)⟩
  | _ => ⟨0, 1⟩

/-- The shapes of fields of these types: a reference takes four bytes. -/
def shapes : List TypeObj → List Shape
  | [] => []
  | t :: ts => (if t.isInlineField then exactShape t else ⟨4, 4⟩) :: shapes ts

end

/-- The shape of a field of type `t`. -/
def shape (t : TypeObj) : Shape := if t.isInlineField then t.exactShape else ⟨4, 4⟩

theorem shapes_eq_map (ts : List TypeObj) : shapes ts = ts.map shape := by
  induction ts with
  | nil => rfl
  | cons t ts ih => rw [shapes, ih]; rfl

/-! ### What a layout is -/

/-- The alignment of a field of type `t`. -/
def fieldAlign (t : TypeObj) : UInt32 := t.fieldShape.2.1

/-- `(size, ptrs, descs)` lays out fields of these types: one descriptor for each, in
order and without overlap, aligned, inside the size, which is a multiple of the largest
alignment; `ptrs` are the offsets of the references. -/
structure IsLayout (types : List TypeObj) (layout : UInt32 × List UInt32 × List FieldDesc) :
    Prop where
  kinds : layout.2.2.map (fun d => (d.size, d.isptr)) =
    types.map fun t => if t.isInlineField then (t.sizeOf, false) else (4, true)
  ordered : layout.2.2.Pairwise fun d d' => d.offset.toNat + d.size.toNat ≤ d'.offset.toNat
  aligned : ∀ p ∈ layout.2.2.zip types, p.2.fieldAlign.toNat ∣ p.1.offset.toNat
  inside : ∀ d ∈ layout.2.2, d.offset.toNat + d.size.toNat ≤ layout.1.toNat
  padded : (types.map fieldAlign).foldr (fun a m => max a.toNat m) 1 ∣ layout.1.toNat
  pointers : layout.2.1 = (layout.2.2.filter (·.isptr)).map (·.offset)

/-- An inline value of the type takes the size and the alignment that the layout of its
own fields has, and the same holds inside it. -/
inductive LaidOut : TypeObj → Prop
  | builtin (b : Builtin) : LaidOut (builtin b)
  | memory (t : TypeObj) : LaidOut (memory t)
  | array (t : TypeObj) : LaidOut (array t)
  | inst (c : Con) (ps : List Ty) : LaidOut (inst c ps)
  | nonData (t : Ty) : LaidOut (nonData t)
  | struct {id : Nat} {name : String} {super : Nominal} {mutabl : Bool} {types : List TypeObj}
      {size : UInt32} {ptrs : List UInt32} {descs : List FieldDesc}
      (layout : IsLayout types (size, ptrs, descs))
      (align : (TypeObj.struct id name super mutabl types size ptrs descs).typeAlignment.toNat =
        (types.map fieldAlign).foldr (fun a m => max a.toNat m) 1)
      (inner : ∀ t ∈ types, t.isInlineField → LaidOut t) :
      LaidOut (.struct id name super mutabl types size ptrs descs)

/-! ### Words -/

theorem toNat_max (a b : UInt32) : (max a b).toNat = max a.toNat b.toNat := by
  show (if a ≤ b then b else a).toNat = _
  split
  · exact (max_eq_right (UInt32.le_iff_toNat_le.mp ‹_›)).symm
  · have h : ¬ a.toNat ≤ b.toNat := fun h => ‹¬ a ≤ b› (UInt32.le_iff_toNat_le.mpr h)
    exact (max_eq_left (by omega)).symm

/-- Rounding up a word by its mask. -/
theorem toNat_alignTo {off al : UInt32} {k : Nat} (hk : k ≤ 3) (hal : al.toNat = 2 ^ k)
    (h : roundUp off.toNat (2 ^ k) < 2 ^ 32) :
    (alignTo off al).toNat = roundUp off.toNat (2 ^ k) := by
  have hsum := add_lt_of_roundUp_lt (by omega) h
  have hpos : 0 < 2 ^ k := Nat.two_pow_pos k
  have hle : 2 ^ k ≤ 2 ^ 3 := Nat.pow_le_pow_right (by omega) hk
  have hoff : (off + al - 1).toNat = off.toNat + 2 ^ k - 1 := by
    rw [UInt32.toNat_sub, UInt32.toNat_add, hal]
    have : (1 : UInt32).toNat = 1 := rfl
    omega
  have hmask : (~~~(al - 1)).toNat = 2 ^ 32 - 2 ^ k := by
    rw [UInt32.toNat_not, UInt32.toNat_sub, hal]
    have : (1 : UInt32).toNat = 1 := rfl
    have : UInt32.size = 2 ^ 32 := rfl
    omega
  rw [alignTo, UInt32.toNat_and, hoff, hmask, and_mask (by omega) hsum]
  rfl

/-! ### Alignments -/

/-- Alignments are powers of two up to eight. -/
def IsAlignment (a : Nat) : Prop := ∃ k ≤ 3, a = 2 ^ k

theorem IsAlignment.pos {a : Nat} (h : IsAlignment a) : 0 < a := by
  obtain ⟨k, -, rfl⟩ := h
  exact Nat.two_pow_pos k

theorem isAlignment_max {a b : Nat} (ha : IsAlignment a) (hb : IsAlignment b) :
    IsAlignment (max a b) := by
  rcases le_total a b with h | h
  · rwa [max_eq_right h]
  · rwa [max_eq_left h]

theorem isAlignment_one : IsAlignment 1 := ⟨0, by omega, rfl⟩

theorem isAlignment_four : IsAlignment 4 := ⟨2, by omega, rfl⟩

theorem isAlignment_maxAlign {ss : List Shape} (h : ∀ s ∈ ss, IsAlignment s.align) :
    IsAlignment (maxAlign ss) := by
  rcases maxAlign_mem ss with hone | ⟨s, hs, heq⟩
  · rw [hone]
    exact isAlignment_one
  · rw [← heq]
    exact h s hs

theorem isAlignment_exactShape (t : TypeObj) : IsAlignment t.exactShape.align := by
  induction t with
  | builtin b =>
    have h : ∃ k ≤ 3, (exactShape (.builtin b)).align = 2 ^ k := by
      cases b <;> first
        | exact ⟨0, by omega, rfl⟩
        | exact ⟨1, by omega, rfl⟩
        | exact ⟨2, by omega, rfl⟩
        | exact ⟨3, by omega, rfl⟩
    exact h
  | struct i n s m ts z ps ds ih =>
    rw [exactShape, shapes_eq_map]
    refine isAlignment_maxAlign fun s hs => ?_
    obtain ⟨t, ht, rfl⟩ := List.mem_map.mp hs
    unfold shape
    split
    · exact ih t ht
    · exact isAlignment_four
  | memory | array | inst | nonData => exact isAlignment_one

theorem isAlignment_shape (t : TypeObj) : IsAlignment t.shape.align := by
  unfold shape
  split
  · exact isAlignment_exactShape t
  · exact isAlignment_four

theorem shape_align_pos (ts : List TypeObj) (s : Shape) (h : s ∈ ts.map shape) : 0 < s.align := by
  obtain ⟨t, -, rfl⟩ := List.mem_map.mp h
  exact (isAlignment_shape t).pos

/-! ### The loop -/

/-- The descriptors of the exact layout. -/
def exactDescs (cursor : Nat) (ts : List TypeObj) : List FieldDesc :=
  ((placements cursor (ts.map shape)).zip ts).map fun p =>
    ⟨.ofNat p.1, .ofNat p.2.shape.size, !p.2.isInlineField⟩

theorem exactDescs_cons (cursor : Nat) (t : TypeObj) (ts : List TypeObj) :
    exactDescs cursor (t :: ts) =
      ⟨.ofNat (roundUp cursor t.shape.align), .ofNat t.shape.size, !t.isInlineField⟩ ::
        exactDescs (roundUp cursor t.shape.align + t.shape.size) ts := rfl

/-- The words that the loop reads of a field type are the exact ones. -/
def Reads (t : TypeObj) : Prop :=
  t.fieldAlign.toNat = t.shape.align ∧
    (t.shape.size < 2 ^ 32 → t.fieldShape.1.toNat = t.shape.size)

theorem fieldShape_isptr (t : TypeObj) : t.fieldShape.2.2 = !t.isInlineField := by
  unfold fieldShape
  split <;> simp_all

/-- The offsets of the references among some descriptors. -/
def pointerOffsets (ds : List FieldDesc) : List UInt32 := (ds.filter (·.isptr)).map (·.offset)

/-- **The loop does not wrap around** if the padded end of the record is a word: it
appends the exact descriptors, and its size is the exact one. -/
theorem layoutLoop_eq {ts : List TypeObj} (hreads : ∀ t ∈ ts, t.Reads) (off alignm : UInt32)
    (ptrs : List UInt32) (ds : List FieldDesc) (halign : IsAlignment alignm.toNat)
    (hfits : roundUp (extent off.toNat (ts.map shape))
      (max alignm.toNat (maxAlign (ts.map shape))) < 2 ^ 32) :
    layoutLoop ts off alignm ptrs ds =
      (.ofNat (roundUp (extent off.toNat (ts.map shape))
          (max alignm.toNat (maxAlign (ts.map shape)))),
        ptrs ++ pointerOffsets (exactDescs off.toNat ts), ds ++ exactDescs off.toNat ts) := by
  induction ts generalizing off alignm ptrs ds with
  | nil =>
    obtain ⟨k, hk, hal⟩ := halign
    have hmax : max alignm.toNat (maxAlign (([] : List TypeObj).map shape)) = 2 ^ k := by
      rw [hal]
      exact max_eq_left Nat.one_le_two_pow
    rw [hmax] at hfits ⊢
    have hround : (alignTo off alignm).toNat = roundUp off.toNat (2 ^ k) :=
      toNat_alignTo hk hal hfits
    refine Prod.ext ?_ (by simp [layoutLoop, exactDescs, placements, pointerOffsets])
    show alignTo off alignm = .ofNat (roundUp off.toNat (2 ^ k))
    rw [← hround, UInt32.ofNat_toNat]
  | cons t ts ih =>
    obtain ⟨hal, hsize⟩ := hreads t List.mem_cons_self
    have hreads' : ∀ t ∈ ts, t.Reads := fun t ht => hreads t (List.mem_cons_of_mem _ ht)
    obtain ⟨k, hk, hk'⟩ := isAlignment_shape t
    set s := t.shape with hs
    -- everything up to the end of this field is below the end of the record
    have hend : roundUp off.toNat s.align + s.size < 2 ^ 32 := by
      have h1 := le_extent (shape_align_pos ts)
        (roundUp off.toNat s.align + s.size)
      have h2 := le_roundUp (extent off.toNat ((t :: ts).map shape))
        (a := max alignm.toNat (maxAlign ((t :: ts).map shape)))
        (lt_of_lt_of_le halign.pos (le_max_left _ _))
      have h3 : extent off.toNat ((t :: ts).map shape) =
        extent (roundUp off.toNat s.align + s.size) (ts.map shape) := rfl
      omega
    have hoff : (alignTo off t.fieldAlign).toNat = roundUp off.toNat s.align := by
      rw [hk']
      exact toNat_alignTo hk (hal.trans hk') (by rw [← hk']; omega)
    have hsz : t.fieldShape.1.toNat = s.size := hsize (by omega)
    have hnext : (alignTo off t.fieldAlign + t.fieldShape.1).toNat =
        roundUp off.toNat s.align + s.size := by
      rw [UInt32.toNat_add, hoff, hsz, Nat.mod_eq_of_lt hend]
    have hmax : max (max alignm t.fieldAlign).toNat (maxAlign (ts.map shape)) =
        max alignm.toNat (maxAlign ((t :: ts).map shape)) := by
      rw [toNat_max, hal, max_assoc]
      rfl
    have hdesc : (⟨alignTo off t.fieldAlign, t.fieldShape.1, t.fieldShape.2.2⟩ : FieldDesc) =
        ⟨.ofNat (roundUp off.toNat s.align), .ofNat s.size, !t.isInlineField⟩ := by
      rw [fieldShape_isptr, ← hoff, ← hsz, UInt32.ofNat_toNat, UInt32.ofNat_toNat]
    have hrec := ih hreads' (alignTo off t.fieldAlign + t.fieldShape.1) (max alignm t.fieldAlign)
      (if t.fieldShape.2.2 then ptrs ++ [alignTo off t.fieldAlign] else ptrs)
      (ds ++ [⟨alignTo off t.fieldAlign, t.fieldShape.1, t.fieldShape.2.2⟩])
      (by rw [toNat_max, hal, hk']; exact isAlignment_max halign ⟨k, hk, rfl⟩)
      (by rw [hmax, hnext]; exact hfits)
    rw [hmax, hnext] at hrec
    refine Eq.trans (by rw [layoutLoop]; rfl) (hrec.trans ?_)
    rw [exactDescs_cons, hdesc, fieldShape_isptr, ← hs]
    have hptr : alignTo off t.fieldAlign = .ofNat (roundUp off.toNat s.align) := by
      rw [← hoff, UInt32.ofNat_toNat]
    rw [hptr]
    refine Prod.ext rfl (Prod.ext ?_ (by simp))
    cases t.isInlineField <;> simp [pointerOffsets]

/-! ### Words of a defined type -/

/-- Which descriptors are references does not depend on the words. -/
theorem isptr_layoutLoop (ts : List TypeObj) (off alignm : UInt32) (ptrs : List UInt32)
    (ds : List FieldDesc) :
    (layoutLoop ts off alignm ptrs ds).2.2.map (·.isptr) =
      ds.map (·.isptr) ++ ts.map fun t => !t.isInlineField := by
  induction ts generalizing off alignm ptrs ds with
  | nil => simp [layoutLoop]
  | cons t ts ih =>
    rw [layoutLoop, ih]
    simp [fieldShape_isptr]

/-- The alignments of the fields are the exact ones if those of the inline fields are. -/
theorem toNat_fieldAlignments {ts : List TypeObj}
    (h : ∀ t ∈ ts, t.typeAlignment.toNat = t.exactShape.align) {ds : List FieldDesc}
    (hds : ds.map (·.isptr) = ts.map fun t => !t.isInlineField) :
    (fieldAlignments ts ds).toNat = maxAlign (ts.map shape) := by
  induction ts generalizing ds with
  | nil => rfl
  | cons t ts ih =>
    match ds, hds with
    | d :: ds, hds =>
      obtain ⟨hd, hds⟩ := List.cons.inj hds
      have hrest := ih (fun t ht => h t (List.mem_cons_of_mem _ ht)) hds
      have hhead : (if d.isptr then 4 else t.typeAlignment).toNat = t.shape.align := by
        rw [show d.isptr = !t.isInlineField from hd]
        unfold shape
        cases t.isInlineField
        · rfl
        · exact h t List.mem_cons_self
      rw [fieldAlignments, toNat_max, hrest, hhead]
      rfl

theorem typeAlignment_of_defined {t : TypeObj} (h : t.Defined) :
    t.typeAlignment.toNat = t.exactShape.align := by
  induction h with
  | builtin b => cases b <;> rfl
  | struct _ ih =>
    have hptr := isptr_layoutLoop ‹List TypeObj› 0 1 [] []
    rw [List.map_nil, List.nil_append] at hptr
    unfold defineStruct computeFieldOffsets
    rw [typeAlignment, exactShape, shapes_eq_map]
    exact toNat_fieldAlignments ih hptr
  | memory | array | inst | nonData => rfl

/-- The exact layout, as words. -/
def exactLayout (ts : List TypeObj) : UInt32 × List UInt32 × List FieldDesc :=
  (.ofNat (recordSize (ts.map shape)), pointerOffsets (exactDescs 0 ts), exactDescs 0 ts)

theorem computeFieldOffsets_eq {ts : List TypeObj} (hreads : ∀ t ∈ ts, t.Reads)
    (hfits : recordSize (ts.map shape) < 2 ^ 32) : computeFieldOffsets ts = exactLayout ts := by
  have hmax : max (1 : UInt32).toNat (maxAlign (ts.map shape)) = maxAlign (ts.map shape) :=
    max_eq_right (one_le_maxAlign _)
  have h := layoutLoop_eq hreads 0 1 [] [] isAlignment_one (by rw [hmax]; exact hfits)
  rw [hmax] at h
  exact h

theorem reads_of_words {t : TypeObj} (halign : t.typeAlignment.toNat = t.exactShape.align)
    (hsize : t.exactShape.size < 2 ^ 32 → t.sizeOf.toNat = t.exactShape.size) : t.Reads := by
  unfold Reads fieldAlign fieldShape shape
  split
  · exact ⟨halign, hsize⟩
  · exact ⟨rfl, fun _ => rfl⟩

theorem sizeOf_of_defined {t : TypeObj} (h : t.Defined) (hfits : t.exactShape.size < 2 ^ 32) :
    t.sizeOf.toNat = t.exactShape.size := by
  induction h with
  | builtin b => rfl
  | struct hdef ih =>
    have hreads := fun t ht => reads_of_words (typeAlignment_of_defined (hdef t ht)) (ih t ht)
    simp only [defineStruct, exactShape, shapes_eq_map] at hfits ⊢
    show (computeFieldOffsets _).1.toNat = _
    rw [computeFieldOffsets_eq hreads hfits]
    exact UInt32.toNat_ofNat_of_lt hfits
  | memory | array | inst | nonData => rfl

theorem reads_of_defined {t : TypeObj} (h : t.Defined) : t.Reads :=
  reads_of_words (typeAlignment_of_defined h) (sizeOf_of_defined h)

/-! ### The layout of a record -/

theorem foldr_fieldAlign {ts : List TypeObj} (hreads : ∀ t ∈ ts, t.Reads) :
    (ts.map fieldAlign).foldr (fun a m => max a.toNat m) 1 = maxAlign (ts.map shape) := by
  rw [maxAlign, List.foldr_map, List.foldr_map]
  refine List.foldr_ext _ _ _ fun t ht m => ?_
  rw [(hreads t ht).1]

theorem map_snd_placements (ts : List TypeObj) :
    ((placements 0 (ts.map shape)).zip ts).map (·.2) = ts :=
  List.map_snd_zip (by simp)

section
variable {ts : List TypeObj} (hfits : recordSize (ts.map shape) < 2 ^ 32)
include hfits

/-- Every field lies inside the record, so its offset and its size are words. -/
theorem exact_bounds {p : Nat × TypeObj} (hp : p ∈ (placements 0 (ts.map shape)).zip ts) :
    p.2.shape.align ∣ p.1 ∧ p.1 + p.2.shape.size ≤ recordSize (ts.map shape) ∧
      (UInt32.ofNat p.1).toNat = p.1 ∧ (UInt32.ofNat p.2.shape.size).toNat = p.2.shape.size := by
  have hmem : (p.1, p.2.shape) ∈ (placements 0 (ts.map shape)).zip (ts.map shape) := by
    rw [List.zip_map_right]
    exact List.mem_map.mpr ⟨p, hp, rfl⟩
  obtain ⟨-, hdvd, hle⟩ := placements_bounds (shape_align_pos _) 0 _ hmem
  have hend : p.1 + p.2.shape.size ≤ recordSize (ts.map shape) :=
    le_trans hle (extent_le_recordSize _)
  have hword : UInt32.size = 2 ^ 32 := rfl
  exact ⟨hdvd, hend, UInt32.toNat_ofNat_of_lt (by omega), UInt32.toNat_ofNat_of_lt (by omega)⟩

/-- A field's descriptor comes from its position. -/
theorem mem_exactDescs {d : FieldDesc} (hd : d ∈ exactDescs 0 ts) :
    ∃ p ∈ (placements 0 (ts.map shape)).zip ts, d.offset.toNat = p.1 ∧
      d.size.toNat = p.2.shape.size := by
  obtain ⟨p, hp, rfl⟩ := List.mem_map.mp hd
  obtain ⟨-, -, hoff, hsize⟩ := exact_bounds hfits hp
  exact ⟨p, hp, hoff, hsize⟩

theorem ordered_exactDescs :
    (exactDescs 0 ts).Pairwise fun d d' => d.offset.toNat + d.size.toNat ≤ d'.offset.toNat := by
  have hpair := placements_pairwise (shape_align_pos ts) 0
  rw [List.zip_map_right, List.pairwise_map] at hpair
  refine List.pairwise_map.mpr (hpair.imp_of_mem fun {p q} hp hq hle => ?_)
  obtain ⟨-, -, hoff, hsize⟩ := exact_bounds hfits hp
  obtain ⟨-, -, hoff', -⟩ := exact_bounds hfits hq
  rw [hoff, hsize, hoff']
  exact hle

theorem kinds_exactDescs (hreads : ∀ t ∈ ts, t.Reads) :
    (exactDescs 0 ts).map (fun d => (d.size, d.isptr)) =
      ts.map fun t => if t.isInlineField then (t.sizeOf, false) else (4, true) := by
  conv_rhs => rw [← map_snd_placements ts]
  rw [exactDescs, List.map_map, List.map_map]
  refine List.map_congr_left fun p hp => ?_
  obtain ⟨-, hle, -, hsize⟩ := exact_bounds hfits hp
  have hword := (hreads p.2 (List.of_mem_zip hp).2).2 (by omega)
  simp only [Function.comp_apply]
  unfold fieldShape shape at *
  cases hinl : p.2.isInlineField
  · rfl
  · simp only [hinl, if_true] at hword hsize ⊢
    rw [← hword, UInt32.ofNat_toNat]
    rfl

/-- The unbounded computation has all properties of a layout. -/
theorem isLayout_exactLayout (hreads : ∀ t ∈ ts, t.Reads) : IsLayout ts (exactLayout ts) where
  kinds := kinds_exactDescs hfits hreads
  ordered := ordered_exactDescs hfits
  aligned := by
    intro p hp
    have hzip : (exactDescs 0 ts).zip ts = ((placements 0 (ts.map shape)).zip ts).map
        fun q => (⟨.ofNat q.1, .ofNat q.2.shape.size, !q.2.isInlineField⟩, q.2) := by
      conv_lhs =>
        rw [exactDescs]
        arg 2
        rw [← map_snd_placements ts]
      rw [List.zip_map', List.map_congr_left]
      intro q _
      rfl
    rw [show (exactLayout ts).2.2 = exactDescs 0 ts from rfl, hzip] at hp
    obtain ⟨q, hq, rfl⟩ := List.mem_map.mp hp
    obtain ⟨hdvd, -, hoff, -⟩ := exact_bounds hfits hq
    rw [(hreads q.2 (List.of_mem_zip hq).2).1, hoff]
    exact hdvd
  inside := by
    intro d hd
    obtain ⟨p, hp, hoff, hsize⟩ := mem_exactDescs hfits hd
    rw [hoff, hsize, show (exactLayout ts).1.toNat = _ from UInt32.toNat_ofNat_of_lt hfits]
    exact (exact_bounds hfits hp).2.1
  padded := by
    rw [show (exactLayout ts).1.toNat = _ from UInt32.toNat_ofNat_of_lt hfits,
      foldr_fieldAlign hreads]
    exact dvd_roundUp _ _
  pointers := rfl

end

/-- An inline field is no larger than its record. -/
theorem exactShape_lt_of_mem {ts : List TypeObj} (hfits : recordSize (ts.map shape) < 2 ^ 32)
    {t : TypeObj} (ht : t ∈ ts) (hinl : t.isInlineField) : t.exactShape.size < 2 ^ 32 := by
  rw [← map_snd_placements ts] at ht
  obtain ⟨p, hp, rfl⟩ := List.mem_map.mp ht
  have hle := (exact_bounds hfits hp).2.1
  rw [shape, if_pos hinl] at hle
  omega

theorem laidOut_of_defined {t : TypeObj} (h : t.Defined) (hfits : t.exactShape.size < 2 ^ 32) :
    t.LaidOut := by
  induction h with
  | builtin b => exact .builtin b
  | @struct id name super ts mutabl hdef ih =>
    have halign : (defineStruct id name super ts mutabl).typeAlignment.toNat = _ :=
      typeAlignment_of_defined (.struct hdef)
    simp only [exactShape, shapes_eq_map, defineStruct] at hfits halign
    have hreads := fun t ht => reads_of_defined (hdef t ht)
    refine .struct ?_ ?_ fun t ht hinl => ih t ht (exactShape_lt_of_mem hfits ht hinl)
    · rw [computeFieldOffsets_eq hreads hfits]
      exact isLayout_exactLayout hfits hreads
    · rw [foldr_fieldAlign hreads]
      exact halign
  | memory => exact .memory _
  | array => exact .array _
  | inst c ps => exact .inst c ps
  | nonData t => exact .nonData t

/-- **Struct layout.**  Fields whose exact record size is a word are laid out in order,
aligned and without overlap, and the layouts of inline fields are right as well, at
every depth. -/
theorem computeFieldOffsets_isLayout (types : List TypeObj) (hdef : ∀ t ∈ types, t.Defined)
    (hfits : recordSize (types.map shape) < 2 ^ 32) :
    IsLayout types (computeFieldOffsets types) ∧
      ∀ t ∈ types, t.isInlineField → t.LaidOut := by
  have hreads := fun t ht => reads_of_defined (hdef t ht)
  refine ⟨?_, fun t ht hinl => laidOut_of_defined (hdef t ht) (exactShape_lt_of_mem hfits ht hinl)⟩
  rw [computeFieldOffsets_eq hreads hfits]
  exact isLayout_exactLayout hfits hreads

/-- A byte, an inline pair of a byte and an `Int64`, and a reference. -/
theorem computeFieldOffsets_isLayout_nested :
    IsLayout [builtin .bool,
        defineStruct 0 "P" (.builtin .any) [builtin .uint8, builtin .int64] false, any]
      (24 + 8, [24], [⟨0, 1, false⟩, ⟨8, 16, false⟩, ⟨24, 4, true⟩]) ∧
    (defineStruct 0 "P" (.builtin .any) [builtin .uint8, builtin .int64] false).LaidOut := by
  have h := computeFieldOffsets_isLayout [builtin .bool,
      defineStruct 0 "P" (.builtin .any) [builtin .uint8, builtin .int64] false, any]
    (by
      intro t ht
      simp only [List.mem_cons, List.not_mem_nil, or_false] at ht
      rcases ht with rfl | rfl | rfl
      · exact .builtin _
      · refine .struct fun t ht => ?_
        simp only [List.mem_cons, List.not_mem_nil, or_false] at ht
        rcases ht with rfl | rfl <;> exact .builtin _
      · exact .builtin _)
    (by decide)
  exact ⟨h.1, h.2 _ (by simp) (by decide)⟩

end TypeObj

end Ruju.Storage
