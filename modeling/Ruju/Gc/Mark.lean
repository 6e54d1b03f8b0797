import Ruju.Gc.Allocator

/-!
# What the mark phase computes

The two bits of a header are read as a colour.  Between collections, 1 is the
colour of the remembered objects and of no other (`Colors.one`), and an object of
colour 3 is left out of the next minor collection, so what it refers to must be
marked already (`Colors.three`).  Everything marked is sound: it leads to allocated
objects only.  Unmarked old objects, of colour 2, carry no promise: the ones that
are garbage may refer to freed cells, and nothing ever looks at them.

`Marking` is what holds in the middle of `mark`, with the remembered objects still
to be restored and the work list.  Besides the usual tri-colour clause (`trace`) it
keeps track of what the *next* collection will rely on: an object of colour 3 is
remembered unless everything it refers to is old (`young`).  At the end of the
phase everything marked is old or has just been marked young, and the sweep turns
the latter into colour 2, which is why `young` and not only `trace` is needed.
-/

namespace Ruju.Gc

open Heap

/-! ### Colours -/

section Bits

variable {h : Heap} {v w bits : Nat}

theorem gcBits_lt (h : Heap) (v : Nat) : h.gcBits v < 4 := Nat.mod_lt _ (by omega)

theorem marked_iff : h.marked v = true ↔ h.gcBits v = 1 ∨ h.gcBits v = 3 := by
  have := gcBits_lt h v
  simp only [Heap.marked, beq_iff_eq]
  omega

theorem not_marked_iff : h.marked v = false ↔ h.gcBits v = 0 ∨ h.gcBits v = 2 := by
  have := gcBits_lt h v
  rw [← Bool.not_eq_true, marked_iff]
  omega

theorem isOld_iff : h.isOld v = true ↔ h.gcBits v = 2 ∨ h.gcBits v = 3 := by
  have := gcBits_lt h v
  simp only [Heap.isOld, decide_eq_true_eq]
  omega

@[simp] theorem gcBits_setGcBits_self : (setGcBits v bits h).gcBits v = bits % 4 := by
  simp only [Heap.gcBits, Heap.setGcBits, Function.update_self, Heap.typeOf]
  omega

theorem gcBits_setGcBits_of_ne (hne : w - headerSize ≠ v - headerSize) :
    (setGcBits v bits h).gcBits w = h.gcBits w := by
  simp only [Heap.gcBits, Heap.setGcBits, Function.update_of_ne hne]

end Bits

/-! ### Finding the page of an object -/

/-- The binary search finds the page that holds the offset. -/
theorem pageSearch_eq {ps : List Page} {off idx : Nat}
    (hidx : ∀ j < ps.length, (ps.getD j default).start + pageSize ≤ off ↔ j < idx) :
    ∀ {fuel lo hi : Nat}, lo ≤ idx → idx ≤ hi → hi ≤ ps.length → hi - lo ≤ fuel →
      pageSearch ps off fuel lo hi = idx := by
  intro fuel
  induction fuel with
  | zero =>
    intro lo hi hlo hhi _ hfuel
    show lo = idx
    omega
  | succ fuel ih =>
    intro lo hi hlo hhi hlen hfuel
    unfold pageSearch
    split
    · rename_i hlt
      have hmid := hidx ((lo + hi) / 2) (by omega)
      simp only
      split
      · rename_i hle
        exact ih (by have := hmid.mp hle; omega) hhi hlen (by omega)
      · rename_i hnle
        exact ih hlo (by have := mt hmid.mpr hnle; omega) (by omega) (by omega)
    · omega

variable {h h' h₀ : Heap} {objects : Finset Nat}

/-- `page_of` finds the page in use that holds an offset. -/
theorem pageOf_eq (inv : Layout h objects) {idx off : Nat} {pg : Page}
    (hpg : h.pages[idx]? = some pg) (hin : pg.inUse = true) (hholds : pg.Holds off) :
    pageOf off h = some idx := by
  have hlt : idx < h.pages.length := (List.getElem?_eq_some_iff.mp hpg).1
  have hbefore : ∀ j < h.pages.length,
      (h.pages.getD j default).start + pageSize ≤ off ↔ j < idx := by
    intro j hj
    have hq : h.pages[j]? = some (h.pages.getD j default) := by
      simp [List.getD_eq_getElem?_getD, hj]
    obtain ⟨hlow, hhigh⟩ := hholds
    constructor
    · intro hle
      by_contra hge
      rcases Nat.eq_or_lt_of_le (Nat.not_lt.mp hge) with rfl | hgt
      · obtain rfl : pg = h.pages.getD idx default := Option.some.inj (hpg.symm.trans hq)
        omega
      · have := inv.start_lt hgt hpg hq
        omega
    · intro hji
      have := inv.start_lt hji hq hpg
      omega
  unfold pageOf
  rw [pageSearch_eq hbefore (Nat.zero_le _) hlt.le le_rfl (by omega)]
  simp only [page_eq hpg]
  rw [if_pos ⟨hlt, hholds.1, hin⟩]

/-- The page in use that holds the object has a mark flag, or `flag` in general. -/
def Flagged (flag : Page → Bool) (h : Heap) (v : Nat) : Prop :=
  ∀ (idx : Nat) (pg : Page), h.pages[idx]? = some pg → pg.inUse = true →
    pg.Holds (v - headerSize) → flag pg = true

theorem setMarked_cells (wasOld : Bool) (pg : Page) :
    (pg.setMarked wasOld).toPageCells = pg.toPageCells := by
  unfold Page.setMarked
  split <;> rfl

theorem setMarked_hasMarked (wasOld : Bool) (pg : Page) :
    (pg.setMarked wasOld).hasMarked = true := by
  unfold Page.setMarked
  split <;> rfl

theorem setMarked_hasYoung (pg : Page) : (pg.setMarked false).hasYoung = true := rfl

theorem hasYoung_setMarked {wasOld : Bool} {pg : Page} (h : pg.hasYoung = true) :
    (pg.setMarked wasOld).hasYoung = true := by
  unfold Page.setMarked
  split
  · exact h
  · rfl

/-- `on_marked` sets flags of one page and touches nothing else. -/
theorem onMarked_eq (v : Nat) (wasOld : Bool) (h : Heap) :
    ∃ pages, onMarked v wasOld h = { h with pages := pages } ∧
      pages.map Page.toPageCells = h.table := by
  unfold onMarked
  cases pageOf (v - headerSize) h with
  | none => exact ⟨h.pages, rfl, rfl⟩
  | some idx => exact ⟨_, rfl, map_modify_of_eq _ _ (setMarked_cells wasOld) _ _⟩

/-- A page after `on_marked`: the page of `v` has its flags set. -/
theorem onMarked_page {v idx : Nat} {wasOld : Bool} {pg : Page}
    (hpg : (onMarked v wasOld h).pages[idx]? = some pg) :
    ∃ pg₀, h.pages[idx]? = some pg₀ ∧ pg.toPageCells = pg₀.toPageCells ∧
      pg = if pageOf (v - headerSize) h = some idx then pg₀.setMarked wasOld else pg₀ := by
  unfold onMarked at hpg
  cases hof : pageOf (v - headerSize) h with
  | none =>
    rw [hof] at hpg
    exact ⟨pg, hpg, rfl, by simp⟩
  | some i =>
    simp only [hof, List.getElem?_modify] at hpg
    obtain ⟨pg₀, hpg₀, heq⟩ := Option.map_eq_some_iff.mp hpg
    simp only [Option.some.injEq]
    refine ⟨pg₀, hpg₀, ?_, heq.symm⟩
    rw [← heq]
    split
    · exact setMarked_cells wasOld pg₀
    · rfl

/-- Flags only get set. -/
theorem Flagged.onMarked {flag : Page → Bool} {v w : Nat} {wasOld : Bool}
    (hmono : ∀ pg : Page, flag pg = true → flag (pg.setMarked wasOld) = true)
    (hw : Flagged flag h w) : Flagged flag (onMarked v wasOld h) w := by
  intro idx pg hpg hin hholds
  obtain ⟨pg₀, hpg₀, hcells, hpg'⟩ := onMarked_page hpg
  have hflag : flag pg₀ = true := hw idx pg₀ hpg₀ (hcells ▸ hin) (hcells ▸ hholds)
  rw [hpg']
  split
  · exact hmono pg₀ hflag
  · exact hflag

/-- The page of the object that was marked has its flag set. -/
theorem onMarked_flagged (inv : Layout h objects) {flag : Page → Bool} {v : Nat}
    {wasOld : Bool} (hset : ∀ pg : Page, flag (pg.setMarked wasOld) = true) :
    Flagged flag (onMarked v wasOld h) v := by
  intro idx pg hpg hin hholds
  obtain ⟨pg₀, hpg₀, hcells, hpg'⟩ := onMarked_page hpg
  rw [hpg', if_pos (pageOf_eq inv hpg₀ (hcells ▸ hin) (hcells ▸ hholds))]
  exact hset pg₀

/-! ### What stays during the mark phase -/

/-- Only the colours of objects, the flags of pages and the remembered set differ. -/
structure Still (objects : Finset Nat) (h h' : Heap) : Prop where
  top : h'.top = h.top
  table : h'.table = h.table
  pools : h'.pools = h.pools
  freePages : h'.freePages = h.freePages
  live : h'.live = h.live
  heapSize : h'.heapSize = h.heapSize
  bigsYoung : h'.bigsYoung = h.bigsYoung
  bigsOld : h'.bigsOld = h.bigsOld
  freeBigs : h'.freeBigs = h.freeBigs
  fields : h'.fields = h.fields
  shadow : h'.shadow = h.shadow
  pinned : h'.pinned = h.pinned
  word : ∀ s, s + headerSize ∉ objects → h'.word s = h.word s
  type : ∀ s, h'.word s / 4 = h.word s / 4

namespace Still

theorem refl (objects : Finset Nat) (h : Heap) : Still objects h h :=
  ⟨rfl, rfl, rfl, rfl, rfl, rfl, rfl, rfl, rfl, rfl, rfl, rfl, fun _ _ => rfl, fun _ => rfl⟩

theorem trans {h₁ h₂ h₃ : Heap} (s : Still objects h₁ h₂) (t : Still objects h₂ h₃) :
    Still objects h₁ h₃ where
  top := t.top.trans s.top
  table := t.table.trans s.table
  pools := t.pools.trans s.pools
  freePages := t.freePages.trans s.freePages
  live := t.live.trans s.live
  heapSize := t.heapSize.trans s.heapSize
  bigsYoung := t.bigsYoung.trans s.bigsYoung
  bigsOld := t.bigsOld.trans s.bigsOld
  freeBigs := t.freeBigs.trans s.freeBigs
  fields := t.fields.trans s.fields
  shadow := t.shadow.trans s.shadow
  pinned := t.pinned.trans s.pinned
  word := fun a ha => (t.word a ha).trans (s.word a ha)
  type := fun a => (t.type a).trans (s.type a)

theorem eachRef (s : Still objects h h') (v : Nat) : h'.eachRef v = h.eachRef v := by
  have htype : h'.typeOf v = h.typeOf v := by
    simp only [Heap.typeOf, s.type]
  simp only [Heap.eachRef, htype, s.fields]

theorem ref_eq (s : Still objects h h') : h'.Ref = h.Ref := by
  funext v w
  simp only [Heap.Ref, s.eachRef]

theorem roots (s : Still objects h h') : h'.roots = h.roots := by
  simp only [Heap.roots, s.shadow, s.pinned]

theorem bigs (s : Still objects h h') : h'.bigs = h.bigs := by
  simp only [Heap.bigs, s.bigsYoung, s.bigsOld]

theorem layout (s : Still objects h h') (inv : Layout h objects) : Layout h' objects :=
  inv.congr s.top s.table s.pools s.freePages s.bigs s.freeBigs s.word

theorem allocInv (s : Still objects h h') (inv : AllocInv h objects) : AllocInv h' objects :=
  inv.congr (s.layout inv.toLayout) s.table s.bigs s.live s.heapSize

end Still

theorem still_setGcBits {s : Nat} (hv : s + headerSize ∈ objects) (bits : Nat) (h : Heap) :
    Still objects h (setGcBits (s + headerSize) bits h) := by
  refine { Still.refl objects h with word := ?_, type := ?_ }
  · intro t ht
    refine Function.update_of_ne ?_ _ _
    rintro rfl
    exact ht hv
  · intro t
    simp only [Heap.setGcBits, Heap.typeOf, Nat.add_sub_cancel]
    by_cases hts : t = s
    · subst hts
      rw [Function.update_self]
      omega
    · rw [Function.update_of_ne hts]

theorem still_onMarked (v : Nat) (wasOld : Bool) (h : Heap) :
    Still objects h (onMarked v wasOld h) := by
  obtain ⟨pages, heq, htable⟩ := onMarked_eq v wasOld h
  rw [heq]
  exact { Still.refl objects h with table := htable }

theorem still_remember (v : Nat) (h : Heap) : Still objects h (remember v h) := by
  unfold remember
  split
  · exact { Still.refl objects h with }
  · exact Still.refl objects h

/-! ### The invariant between collections -/

/-- What the colours mean between collections. -/
structure Colors (h : Heap) (objects : Finset Nat) : Prop where
  nodup : h.remembered.Nodup
  remembered : ∀ p ∈ h.remembered, p ∈ objects ∧ h.gcBits p = 1
  one : ∀ v ∈ objects, h.gcBits v = 1 → v ∈ h.remembered
  three : ∀ v ∈ objects, h.gcBits v = 3 → ∀ r, h.Ref v r → h.marked r = true
  roots : ∀ r ∈ h.roots, r ≠ null → Sound h.Ref objects r
  sound : ∀ v ∈ objects, h.marked v = true → Sound h.Ref objects v
  flag : ∀ v ∈ objects, h.marked v = true → Flagged Page.hasMarked h v
  old : ∀ b ∈ h.bigsOld, h.marked (b.1 + headerSize) = true

/-- Led to by a root or by an object that is marked. -/
def Grey (h : Heap) (objects : Finset Nat) (v : Nat) : Prop :=
  ∃ r, ((r ∈ h.roots ∧ r ≠ null) ∨ (r ∈ objects ∧ h.marked r = true)) ∧
    Relation.ReflTransGen h.Ref r v

theorem Grey.ref {v w : Nat} (hv : Grey h objects v) (hvw : h.Ref v w) : Grey h objects w := by
  obtain ⟨r, hr, hpath⟩ := hv
  exact ⟨r, hr, hpath.tail hvw⟩

/-- What is grey is allocated. -/
theorem Colors.mem_of_grey (c : Colors h objects) {v : Nat} (hv : Grey h objects v) :
    v ∈ objects := by
  obtain ⟨r, ⟨hr, hne⟩ | ⟨hr, hmarked⟩, hpath⟩ := hv
  · exact c.roots r hr hne v hpath
  · exact c.sound r hr hmarked v hpath

/-! ### In the middle of the mark phase -/

/-- The state of `mark` with the remembered objects `pending` still to be restored
and the references `work` to be visited, where the phase began in `h₀`. -/
structure Marking (h₀ : Heap) (objects : Finset Nat) (pending work : List Nat) (h : Heap) :
    Prop where
  still : Still objects h₀ h
  grows : ∀ v ∈ objects, h₀.marked v = true → h.marked v = true
  grey : ∀ v ∈ objects, h.marked v = true → Grey h₀ objects v
  work_grey : ∀ v ∈ work, v ≠ null → Grey h₀ objects v
  pending_nodup : pending.Nodup
  pending_one : ∀ p ∈ pending, p ∈ objects ∧ h.gcBits p = 1
  trace : ∀ v ∈ objects, h.marked v = true → v ∉ pending →
    ∀ r, h₀.Ref v r → h.marked r = true ∨ r ∈ work
  roots : ∀ r ∈ h₀.roots, r ≠ null → h.marked r = true ∨ r ∈ work
  nodup : h.remembered.Nodup
  remembered : ∀ p ∈ h.remembered, p ∈ objects ∧ h.gcBits p = 3
  young : ∀ v ∈ objects, h.gcBits v = 3 →
    v ∈ h.remembered ∨ ∀ r, h₀.Ref v r → h.isOld r = true ∨ r ∈ pending
  one : ∀ v ∈ objects, h.gcBits v = 1 →
    v ∈ pending ∨ (h₀.marked v = false ∧ Flagged Page.hasYoung h v)
  flag : ∀ v ∈ objects, h.marked v = true → Flagged Page.hasMarked h v

/-- The phase begins with all remembered objects pending. -/
theorem Marking.start (c : Colors h objects) :
    Marking h objects h.remembered h.roots.reverse { h with remembered := [] } where
  still := { Still.refl objects h with }
  grows := fun _ _ hm => hm
  grey := fun v hv hm => ⟨v, Or.inr ⟨hv, hm⟩, Relation.ReflTransGen.refl⟩
  work_grey := fun v hv hne => ⟨v, Or.inl ⟨List.mem_reverse.mp hv, hne⟩, Relation.ReflTransGen.refl⟩
  pending_nodup := c.nodup
  pending_one := c.remembered
  trace := fun v hv hm hnot r hr => by
    -- a marked object that is not remembered has colour 3
    have h3 : h.gcBits v = 3 := (marked_iff.mp hm).resolve_left fun h1 => hnot (c.one v hv h1)
    exact Or.inl (c.three v hv h3 r hr)
  roots := fun r hr _ => Or.inr (List.mem_reverse.mpr hr)
  nodup := List.nodup_nil
  remembered := fun p hp => absurd hp List.not_mem_nil
  young := fun v hv h3 => Or.inr fun r hr => by
    have hm := c.three v hv h3 r hr
    have hrobj : r ∈ objects := (c.sound v hv (marked_iff.mpr (Or.inr h3))).step hr |>.mem
    rcases marked_iff.mp hm with h1 | h3
    · exact Or.inr (c.one r hrobj h1)
    · exact Or.inl (isOld_iff.mpr (Or.inr h3))
  one := fun v hv h1 => Or.inl (c.one v hv h1)
  flag := c.flag

section Remember

variable (v w : Nat) (h : Heap)

theorem remember_word : (remember v h).word = h.word := by
  unfold remember
  split <;> rfl

theorem remember_pages : (remember v h).pages = h.pages := by
  unfold remember
  split <;> rfl

theorem remember_remembered :
    (remember v h).remembered = h.remembered ++ if h.hasYoungRef v then [v] else [] := by
  unfold remember
  split <;> simp_all

end Remember

/-- An object whose references are all old or null. -/
theorem isOld_of_not_hasYoungRef {v : Nat} (hno : h.hasYoungRef v = false) {r : Nat}
    (hr : h.Ref v r) : h.isOld r = true := by
  have hall := List.any_eq_false.mp hno r hr.1
  simpa [hr.2] using hall

/-- The end of a visit: an object that is old now is remembered if need be. -/
def settle (v : Nat) (h : Heap) : Heap := if h.gcBits v = 3 then remember v h else h

theorem settle_word (v : Nat) (h : Heap) : (settle v h).word = h.word := by
  unfold settle
  split
  · exact remember_word v h
  · rfl

theorem settle_gcBits (v w : Nat) (h : Heap) : (settle v h).gcBits w = h.gcBits w := by
  simp only [Heap.gcBits, settle_word]

theorem settle_marked (v w : Nat) (h : Heap) : (settle v h).marked w = h.marked w := by
  simp only [Heap.marked, settle_gcBits]

theorem settle_flagged {flag : Page → Bool} {v w : Nat} :
    Flagged flag (settle v h) w ↔ Flagged flag h w := by
  have hpages : (settle v h).pages = h.pages := by
    unfold settle
    split
    · exact remember_pages v h
    · rfl
  simp only [Flagged, hpages]

/-- What happens to the object that a step of `mark` treats: it gets marked, keeps
its age, and its page gets its flags. -/
structure Marks (h₀ h : Heap) (v : Nat) (h₁ : Heap) : Prop where
  remembered : h₁.remembered = h.remembered
  other : ∀ w, w - headerSize ≠ v - headerSize → h₁.gcBits w = h.gcBits w
  marked : h₁.marked v = true
  old : h.isOld v = true → h₁.isOld v = true
  flags : ∀ w, Flagged Page.hasMarked h w → Flagged Page.hasMarked h₁ w
  youngs : ∀ w, Flagged Page.hasYoung h w → Flagged Page.hasYoung h₁ w
  flag : Flagged Page.hasMarked h₁ v
  one : h₁.gcBits v = 1 → h₀.marked v = false ∧ Flagged Page.hasYoung h₁ v

namespace Marks

variable {h₁ : Heap} {v : Nat}

theorem grows (m : Marks h₀ h v h₁) {w : Nat} (hw : h.marked w = true) :
    h₁.marked w = true := by
  by_cases heq : w - headerSize = v - headerSize
  · have hm := m.marked
    simp only [Heap.marked, Heap.gcBits, heq] at hm ⊢
    exact hm
  · simpa only [Heap.marked, m.other w heq] using hw

theorem ages (m : Marks h₀ h v h₁) {w : Nat} (hw : h.isOld w = true) : h₁.isOld w = true := by
  by_cases heq : w - headerSize = v - headerSize
  · have hold := m.old
    simp only [Heap.isOld, Heap.gcBits, heq] at hold hw ⊢
    exact hold hw
  · simpa only [Heap.isOld, m.other w heq] using hw

end Marks

/-- **One step of the mark phase.** -/
theorem Marking.step {pending work rest : List Nat} {h₁ : Heap} {v : Nat}
    (m : Marking h₀ objects pending work h) (inv : Layout h₀ objects) (hv : v ∈ objects)
    (hgrey : Grey h₀ objects v) (hstill : Still objects h h₁) (hmarks : Marks h₀ h v h₁)
    (hnot : h.gcBits v ≠ 3) (hrest : ∀ p, p ∈ rest ↔ p ∈ pending ∧ p ≠ v)
    (hnodup : rest.Nodup) (hpending : v ∈ pending → h₁.isOld v = true) :
    Marking h₀ objects rest ((h₁.eachRef v).reverse ++ work) (settle v h₁) := by
  have hother : ∀ w ∈ objects, w ≠ v → h₁.gcBits w = h.gcBits w := by
    intro w hw hne
    refine hmarks.other w ?_
    obtain ⟨s, rfl⟩ := inv.object_eq hw
    obtain ⟨t, rfl⟩ := inv.object_eq hv
    simpa using hne
  have hsettle : Still objects h₁ (settle v h₁) := by
    unfold settle
    split
    · exact still_remember v h₁
    · exact Still.refl objects h₁
  have href : ∀ w r, h₀.Ref w r ↔ h₁.Ref w r := by
    intro w r
    rw [(m.still.trans hstill).ref_eq]
  have hfresh : v ∉ h₁.remembered := by
    rw [hmarks.remembered]
    exact fun hmem => hnot (m.remembered v hmem).2
  have hrem : (settle v h₁).remembered =
      h₁.remembered ++ if h₁.gcBits v = 3 ∧ h₁.hasYoungRef v = true then [v] else [] := by
    unfold settle
    by_cases h3 : h₁.gcBits v = 3
    · rw [if_pos h3, remember_remembered]
      simp only [h3, true_and]
    · simp [h3]
  refine ⟨m.still.trans (hstill.trans hsettle), ?_, ?_, ?_, hnodup, ?_, ?_, ?_, ?_, ?_, ?_, ?_, ?_⟩
  · intro w hw hm
    rw [settle_marked]
    exact hmarks.grows (m.grows w hw hm)
  · intro w hw hm
    rw [settle_marked] at hm
    by_cases hwv : w = v
    · exact hwv ▸ hgrey
    · refine m.grey w hw ?_
      simpa only [Heap.marked, hother w hw hwv] using hm
  · intro r hr hne
    rcases List.mem_append.mp hr with hr | hr
    · exact hgrey.ref ((href v r).mpr ⟨List.mem_reverse.mp hr, hne⟩)
    · exact m.work_grey r hr hne
  · intro p hp
    obtain ⟨hp, hne⟩ := (hrest p).mp hp
    obtain ⟨hobj, h1⟩ := m.pending_one p hp
    rw [settle_gcBits, hother p hobj hne]
    exact ⟨hobj, h1⟩
  · intro w hw hm hnew r hr
    rw [settle_marked] at hm ⊢
    by_cases hwv : w = v
    · -- the references of the object itself are pending now
      subst hwv
      exact Or.inr (List.mem_append_left _ (List.mem_reverse.mpr ((href w r).mp hr).1))
    · have hm' : h.marked w = true := by
        simpa only [Heap.marked, hother w hw hwv] using hm
      have hnp : w ∉ pending := fun hp => hnew ((hrest w).mpr ⟨hp, hwv⟩)
      exact (m.trace w hw hm' hnp r hr).imp hmarks.grows (List.mem_append_right _)
  · intro r hr hne
    rw [settle_marked]
    exact (m.roots r hr hne).imp hmarks.grows (List.mem_append_right _)
  · rw [hrem, List.nodup_append]
    refine ⟨hmarks.remembered ▸ m.nodup, by split <;> simp, ?_⟩
    intro a ha b hb hab
    split at hb
    · rw [List.mem_singleton.mp hb] at hab
      exact hfresh (hab ▸ ha)
    · exact absurd hb List.not_mem_nil
  · intro p hp
    rw [settle_gcBits]
    rw [hrem] at hp
    rcases List.mem_append.mp hp with hp | hp
    · obtain ⟨hobj, h3⟩ := m.remembered p (hmarks.remembered ▸ hp)
      have hne : p ≠ v := fun hpv => hfresh (hpv ▸ hp)
      exact ⟨hobj, (hother p hobj hne).trans h3⟩
    · split at hp
      · rename_i h3
        rw [List.mem_singleton.mp hp]
        exact ⟨hv, h3.1⟩
      · exact absurd hp List.not_mem_nil
  · intro w hw h3
    rw [settle_gcBits] at h3
    have hold : ∀ r, (settle v h₁).isOld r = h₁.isOld r := fun r => by
      simp only [Heap.isOld, settle_gcBits]
    simp only [hold, hrem]
    by_cases hwv : w = v
    · subst hwv
      cases hy : h₁.hasYoungRef w with
      | true => exact Or.inl (by simp [h3])
      | false =>
        exact Or.inr fun r hr => Or.inl (isOld_of_not_hasYoungRef hy ((href w r).mp hr))
    · rw [hother w hw hwv] at h3
      refine (m.young w hw h3).imp (fun hmem => ?_) (fun hall r hr => ?_)
      · exact List.mem_append_left _ (hmarks.remembered ▸ hmem)
      · rcases hall r hr with hro | hrp
        · exact Or.inl (hmarks.ages hro)
        · by_cases hrv : r = v
          · exact Or.inl (hrv ▸ hpending (hrv ▸ hrp))
          · exact Or.inr ((hrest r).mpr ⟨hrp, hrv⟩)
  · intro w hw h1
    rw [settle_gcBits] at h1
    rw [settle_flagged]
    by_cases hwv : w = v
    · subst hwv
      exact Or.inr (hmarks.one h1)
    · rw [hother w hw hwv] at h1
      refine (m.one w hw h1).imp (fun hp => (hrest w).mpr ⟨hp, hwv⟩) ?_
      exact fun ⟨hm, hf⟩ => ⟨hm, hmarks.youngs w hf⟩
  · intro w hw hm
    rw [settle_marked] at hm
    rw [settle_flagged]
    by_cases hwv : w = v
    · exact hwv ▸ hmarks.flag
    · refine hmarks.flags w (m.flag w hw ?_)
      simpa only [Heap.marked, hother w hw hwv] using hm

/-! ### The two loops of `mark` -/

/-- A remembered object is restored. -/
theorem Marking.restoreEntry {work rest : List Nat} {p : Nat} (inv : Layout h₀ objects)
    (m : Marking h₀ objects (p :: rest) work h) :
    Marking h₀ objects rest (restoreEntry (work, h) p).1 (restoreEntry (work, h) p).2 := by
  obtain ⟨hobj, h1⟩ := m.pending_one p List.mem_cons_self
  obtain ⟨hnew, hnodup⟩ := List.nodup_cons.mp m.pending_nodup
  have hm : h.marked p = true := marked_iff.mpr (Or.inl h1)
  have h3 : (setGcBits p 3 h).gcBits p = 3 := gcBits_setGcBits_self
  have hstill : Still objects h (setGcBits p 3 h) := by
    obtain ⟨s, rfl⟩ := inv.object_eq hobj
    exact still_setGcBits hobj _ _
  have hmarks : Marks h₀ h p (setGcBits p 3 h) :=
    { remembered := rfl
      other := fun w hw => gcBits_setGcBits_of_ne hw
      marked := marked_iff.mpr (Or.inr h3)
      old := fun _ => isOld_iff.mpr (Or.inr h3)
      flags := fun _ hw => hw
      youngs := fun _ hw => hw
      flag := m.flag p hobj hm
      one := fun hone => absurd (h3.symm.trans hone) (by omega) }
  show Marking h₀ objects rest _ (remember p (setGcBits p 3 h))
  rw [show remember p (setGcBits p 3 h) = settle p (setGcBits p 3 h) by rw [settle, if_pos h3]]
  refine m.step inv hobj (m.grey p hobj hm) hstill hmarks (by omega) ?_ hnodup fun _ =>
    isOld_iff.mpr (Or.inr h3)
  intro q
  constructor
  · exact fun hq => ⟨List.mem_cons_of_mem p hq, fun hqp => hnew (hqp ▸ hq)⟩
  · exact fun ⟨hq, hne⟩ => (List.mem_cons.mp hq).resolve_left hne

/-- **The first loop**: all remembered objects are restored. -/
theorem Marking.restore (c : Colors h objects) (inv : Layout h objects) :
    Marking h objects [] h.restore.1 h.restore.2 := by
  have hfold : ∀ (pending work : List Nat) (h' : Heap), Marking h objects pending work h' →
      Marking h objects [] (pending.foldl Heap.restoreEntry (work, h')).1
        (pending.foldl Heap.restoreEntry (work, h')).2 := by
    intro pending
    induction pending with
    | nil => exact fun _ _ m => m
    | cons p rest ih => exact fun work h' m => ih _ _ (m.restoreEntry inv)
  exact hfold _ _ _ (Marking.start c)

theorem onMarked_word (v : Nat) (wasOld : Bool) (h : Heap) :
    (onMarked v wasOld h).word = h.word := by
  obtain ⟨pages, heq, -⟩ := onMarked_eq v wasOld h
  rw [heq]

theorem onMarked_remembered (v : Nat) (wasOld : Bool) (h : Heap) :
    (onMarked v wasOld h).remembered = h.remembered := by
  obtain ⟨pages, heq, -⟩ := onMarked_eq v wasOld h
  rw [heq]

theorem onMarked_gcBits (v w : Nat) (wasOld : Bool) (h : Heap) :
    (onMarked v wasOld h).gcBits w = h.gcBits w := by
  simp only [Heap.gcBits, onMarked_word]

/-- The heap of a visit after the object got its mark. -/
def blacken (v : Nat) (h : Heap) : Heap :=
  onMarked v (h.isOld v) (setGcBits v (h.gcBits v + 1) h)

theorem blacken_gcBits {v : Nat} (hm : h.marked v = false) :
    (blacken v h).gcBits v = h.gcBits v + 1 := by
  rw [blacken, onMarked_gcBits, gcBits_setGcBits_self]
  rcases not_marked_iff.mp hm with h0 | h2 <;> omega

/-- Marking an object moves no reference and no page. -/
theorem still_blacken {v : Nat} (inv : Layout h₀ objects) (hv : v ∈ objects) :
    Still objects h (blacken v h) := by
  obtain ⟨s, rfl⟩ := inv.object_eq hv
  exact (still_setGcBits hv _ _).trans (still_onMarked _ _ _)

/-- Blackening marks one object, and no other. -/
theorem marks_blacken {v : Nat} (inv : Layout h objects) (hv : v ∈ objects)
    (hm₀ : h₀.marked v = true → h.marked v = true) (hm : h.marked v = false) :
    Marks h₀ h v (blacken v h) := by
  have hbits := blacken_gcBits hm
  have inv' : Layout (setGcBits v (h.gcBits v + 1) h) objects := by
    obtain ⟨s, rfl⟩ := inv.object_eq hv
    exact (still_setGcBits hv _ _).layout inv
  refine { remembered := onMarked_remembered _ _ _, other := fun w hw => ?_, marked := ?_,
           old := fun hold => ?_, flags := fun w hw => ?_, youngs := fun w hw => ?_,
           flag := ?_, one := fun hone => ?_ }
  · rw [blacken, onMarked_gcBits, gcBits_setGcBits_of_ne hw]
  · rw [marked_iff, hbits]
    rcases not_marked_iff.mp hm with h0 | h2 <;> omega
  · rw [isOld_iff, hbits]
    have := isOld_iff.mp hold
    rcases not_marked_iff.mp hm with h0 | h2 <;> omega
  · exact Flagged.onMarked (fun pg _ => setMarked_hasMarked _ pg) hw
  · exact Flagged.onMarked (fun pg hpg => hasYoung_setMarked hpg) hw
  · exact onMarked_flagged inv' (setMarked_hasMarked _)
  · have hyoung : h.isOld v = false := by
      rw [← Bool.not_eq_true, isOld_iff]
      omega
    refine ⟨?_, ?_⟩
    · rw [← Bool.not_eq_true]
      exact fun h => by simp [hm₀ h] at hm
    · rw [blacken, hyoung]
      exact onMarked_flagged inv' setMarked_hasYoung

/-- A marked object is not visited again. -/
theorem markVisit_skip {v : Nat} (hskip : v = null ∨ h.marked v = true) :
    markVisit v h = ([], h) := by
  rw [markVisit, if_pos hskip]

/-- An unmarked object is blackened, and its references are queued. -/
theorem markVisit_mark {v : Nat} (hne : v ≠ null) (hm : h.marked v = false) :
    markVisit v h = (((blacken v h).eachRef v).reverse, settle v (blacken v h)) := by
  have hiff : (blacken v h).gcBits v = 3 ↔ h.isOld v = true := by
    rw [blacken_gcBits hm, isOld_iff]
    rcases not_marked_iff.mp hm with h0 | h2 <;> omega
  have hcond : ¬ (v = null ∨ h.marked v = true) := by simp [hne, hm]
  rw [markVisit, if_neg hcond]
  show (_, if h.isOld v = true then remember v (blacken v h) else blacken v h) = _
  simp only [settle, hiff]
  rfl

/-- Work that is done may be dropped. -/
theorem Marking.drop {pending work work' : List Nat} (m : Marking h₀ objects pending work h)
    (hsub : ∀ r ∈ work', r ∈ work)
    (hdone : ∀ r ∈ work, r ≠ null → h.marked r = true ∨ r ∈ work') :
    Marking h₀ objects pending work' h := by
  have hkeep : ∀ r, r ≠ null → h.marked r = true ∨ r ∈ work →
      h.marked r = true ∨ r ∈ work' := fun r hne hr => hr.elim Or.inl fun hr => hdone r hr hne
  exact { m with
    work_grey := fun r hr => m.work_grey r (hsub r hr)
    trace := fun w hw hm hnp r hr => hkeep r hr.2 (m.trace w hw hm hnp r hr)
    roots := fun r hr hne => hkeep r hne (m.roots r hr hne) }

/-- **The second loop**, one visit. -/
theorem Marking.visit {work : List Nat} {v : Nat} (c : Colors h₀ objects)
    (inv : Layout h₀ objects) (m : Marking h₀ objects [] (v :: work) h) :
    Marking h₀ objects [] ((markVisit v h).1 ++ work) (markVisit v h).2 := by
  by_cases hskip : v = null ∨ h.marked v = true
  · rw [markVisit_skip hskip]
    refine m.drop (fun r hr => List.mem_cons_of_mem v hr) fun r hr hne => ?_
    rcases List.mem_cons.mp hr with rfl | hr
    · exact Or.inl (hskip.resolve_left hne)
    · exact Or.inr hr
  · obtain ⟨hne, hm⟩ := not_or.mp hskip
    rw [Bool.not_eq_true] at hm
    have hgrey := m.work_grey v List.mem_cons_self hne
    have hv := c.mem_of_grey hgrey
    have hmarks : Marks h₀ h v (blacken v h) :=
      marks_blacken (m.still.layout inv) hv (m.grows v hv) hm
    have hnot : h.gcBits v ≠ 3 := by
      have := not_marked_iff.mp hm
      omega
    rw [markVisit_mark hne hm]
    have hrest : ∀ p : Nat, p ∈ [] ↔ p ∈ [] ∧ p ≠ v := by simp
    have m' := m.step inv hv hgrey (still_blacken inv hv) hmarks hnot hrest
      List.nodup_nil fun hmem => absurd hmem List.not_mem_nil
    refine m'.drop (fun r hr => ?_) fun r hr _ => ?_
    · exact (List.mem_append.mp hr).elim (List.mem_append_left _)
        fun hr => List.mem_append_right _ (List.mem_cons_of_mem v hr)
    · rcases List.mem_append.mp hr with hr | hr
      · exact Or.inr (List.mem_append_left _ hr)
      · rcases List.mem_cons.mp hr with rfl | hr
        · exact Or.inl (by rw [settle_marked]; exact hmarks.marked)
        · exact Or.inr (List.mem_append_right _ hr)

/-- **The mark phase ends with everything traced.** -/
theorem mark_spec (c : Colors h objects) (inv : Layout h objects) {fuel : Nat}
    (hmark : mark fuel h = some h') : Marking h objects [] [] h' :=
  drain_induct (fun work h' => Marking h objects [] work h')
    (fun _ _ _ m => m.visit c inv) hmark (Marking.restore c inv)

/-- The objects that are not marked yet. -/
def whites (objects : Finset Nat) (h : Heap) : Finset Nat :=
  objects.filter fun v => h.marked v = false

/-- Every visit that pushes work marks an object, so the mark phase ends. -/
theorem mark_terminates (c : Colors h objects) (inv : Layout h objects) :
    ∃ fuel h', mark fuel h = some h' := by
  refine drain_terminates (fun work h' => Marking h objects [] work h')
    (fun _ _ _ m => m.visit c inv) (fun h' => (whites objects h').card) ?_
    (Marking.restore c inv)
  intro v work h' m
  by_cases hskip : v = null ∨ h'.marked v = true
  · rw [markVisit_skip hskip]
    exact Or.inr ⟨rfl, le_rfl⟩
  · obtain ⟨hne, hm⟩ := not_or.mp hskip
    rw [Bool.not_eq_true] at hm
    have hv := c.mem_of_grey (m.work_grey v List.mem_cons_self hne)
    have hmarks : Marks h h' v (blacken v h') :=
      marks_blacken (m.still.layout inv) hv (m.grows v hv) hm
    rw [markVisit_mark hne hm]
    refine Or.inl (Finset.card_lt_card ?_)
    simp only [whites, settle_marked]
    refine Finset.ssubset_iff_subset_ne.mpr ⟨fun w hw => ?_, fun heq => ?_⟩
    · obtain ⟨hwobj, hwm⟩ := Finset.mem_filter.mp hw
      refine Finset.mem_filter.mpr ⟨hwobj, ?_⟩
      rw [← Bool.not_eq_true] at hwm ⊢
      exact fun h => hwm (hmarks.grows h)
    · have hmem : v ∈ objects.filter fun w => h'.marked w = false :=
        Finset.mem_filter.mpr ⟨hv, hm⟩
      rw [← heq] at hmem
      have := (Finset.mem_filter.mp hmem).2
      simp [hmarks.marked] at this

end Ruju.Gc
