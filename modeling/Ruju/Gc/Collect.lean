import Ruju.Gc.SweepBig

/-!
# A collection

Mark and sweep put together.  After the mark phase the marked objects are closed
under references and contain the roots; they are the set that shows every root and
every marked object of the next cycle to be sound.  A full collection leaves no
object marked.  A minor one leaves the old objects marked, and the two clauses of
`Marking` about ages say that what they refer to is marked as well.
-/

namespace Ruju.Gc

open Heap

variable {h h' h₁ : Heap} {objects left : Finset Nat} {full : Bool}

/-! ### The objects that a collection frees -/

/-- A free cell holds no object. -/
theorem Layout.not_freed (inv : Layout h left) {a : Nat} (ha : a + headerSize ∈ left) :
    ¬ h.Freed a := by
  rintro (⟨pg, hpg, hin, fl, hfl, hmem⟩ | ⟨pg, hpg, hout, hholds⟩ | ⟨b, hb, rfl⟩)
  · obtain ⟨j, hj⟩ := List.getElem?_of_mem hpg
    obtain ⟨fl', used, c⟩ :=
      (inv.page j _ (getElem?_table.mpr ⟨pg, hj, rfl⟩)).carved hin
    obtain rfl := hfl.unique c.thread
    exact c.free_not_object hmem ha
  · obtain ⟨j, hj⟩ := List.getElem?_of_mem hpg
    exact ((inv.page j _ (getElem?_table.mpr ⟨pg, hj, rfl⟩)).released hout).2 a hholds ha
  · exact inv.free_block_not_object hb ha

/-- **What is left out of the layout is free**: when the pages and the blocks are the
same as before, an object that is not allocated any more lies in a free cell. -/
theorem Layout.freed (inv : Layout h objects) (inv' : Layout h' left)
    (hlength : h'.pages.length = h.pages.length)
    (hshape : ∀ (j : Nat) (pg' : Page), h'.pages[j]? = some pg' → ∃ pg, h.pages[j]? = some pg ∧
      pg'.start = pg.start ∧ pg'.osize = pg.osize ∧ pg'.bump = pg.bump)
    (hblocks : (h'.bigs ++ h'.freeBigs).Perm (h.bigs ++ h.freeBigs)) {a : Nat}
    (ha : a + headerSize ∈ objects) (hnot : a + headerSize ∉ left) : h'.Freed a := by
  obtain ⟨a', heq, hcase⟩ := inv.cover _ ha
  obtain rfl : a = a' := Nat.add_right_cancel heq
  rcases hcase with ⟨st, hst, hholds⟩ | ⟨b, hb, rfl⟩
  · -- on a page: the page was released, or the cell is one of the freed ones
    obtain ⟨p, hp, rfl⟩ := List.mem_map.mp hst
    obtain ⟨pg, hpg, rfl⟩ := List.mem_map.mp hp
    obtain ⟨j, hj⟩ := List.getElem?_of_mem hpg
    have hlt : j < h'.pages.length := by
      rw [hlength]
      exact (List.getElem?_eq_some_iff.mp hj).1
    obtain ⟨pg', hj'⟩ : ∃ pg', h'.pages[j]? = some pg' := ⟨_, List.getElem?_eq_getElem hlt⟩
    obtain ⟨pg₀, hpg₀, hstart, hosize, hbump⟩ := hshape j pg' hj'
    obtain rfl := Option.some.inj (hj.symm.trans hpg₀)
    have hholds' : pg'.Holds a := by
      rw [PageCells.Holds, hstart]
      exact hholds
    have hok := inv.page j _ (getElem?_table.mpr ⟨pg, hj, rfl⟩)
    have hok' := inv'.page j _ (getElem?_table.mpr ⟨pg', hj', rfl⟩)
    have hin : pg.inUse = true := by
      by_contra hout
      exact (hok.released (by simpa using hout)).2 a hholds ha
    obtain ⟨fl₀, used₀, c₀⟩ := hok.carved hin
    have hslot₀ : pg.IsSlot used₀ a := ((c₀.objects a hholds).mp ha).1
    cases hin' : pg'.inUse with
    | false => exact Or.inr (Or.inl ⟨pg', List.mem_of_getElem? hj', hin', hholds'⟩)
    | true =>
      obtain ⟨fl, used, c⟩ := hok'.carved hin'
      have hused : used = used₀ := by
        rw [← c.used_eq, ← c₀.used_eq, hstart, hosize, hbump]
      have hslot : pg'.IsSlot used a := by
        rw [hused, PageCells.IsSlot, hstart, hosize]
        exact hslot₀
      refine Or.inl ⟨pg', List.mem_of_getElem? hj', hin', fl, c.thread, ?_⟩
      by_contra hfl
      exact hnot ((c.objects a hholds').mpr ⟨hslot, hfl⟩)
  · -- a big object: its block is one of the free ones
    have hmem : b ∈ h'.bigs ++ h'.freeBigs := hblocks.symm.subset (List.mem_append_left _ hb)
    rcases List.mem_append.mp hmem with hmem | hmem
    · exact absurd (inv'.big b hmem) hnot
    · exact Or.inr (Or.inr ⟨b, hmem, rfl⟩)

/-! ### Mark, then sweep -/

/-- The mark phase leaves the heap ready for the sweep. -/
theorem Marking.done (c : Colors h objects) (inv : Layout h objects)
    (m : Marking h objects [] [] h₁) : MarkDone h₁ objects where
  layout := m.still.layout inv
  flag := m.flag
  young := fun v hv h1 => ((m.one v hv h1).resolve_left List.not_mem_nil).2
  old := fun b hb => by
    have hb' : b ∈ h.bigsOld := m.still.bigsOld ▸ hb
    have hobj : b.1 + headerSize ∈ objects := inv.big b (List.mem_append_right _ hb')
    have hm := c.old b hb'
    refine (marked_iff.mp (m.grows _ hobj hm)).resolve_left fun h1 => ?_
    have := ((m.one _ hobj h1).resolve_left List.not_mem_nil).1
    simp [hm] at this

/-- After the mark phase, what a marked object refers to is marked. -/
theorem Marking.closed (m : Marking h objects [] [] h₁) {v r : Nat} (hv : v ∈ objects)
    (hm : h₁.marked v = true) (hr : h.Ref v r) : h₁.marked r = true :=
  (m.trace v hv hm List.not_mem_nil r hr).resolve_right List.not_mem_nil

theorem Marking.root_marked (m : Marking h objects [] [] h₁) {r : Nat} (hr : r ∈ h.roots)
    (hne : r ≠ null) : h₁.marked r = true :=
  (m.roots r hr hne).resolve_right List.not_mem_nil

/-- **Exactly what roots and marked objects lead to is marked.** -/
theorem Marking.marked_iff_grey (c : Colors h objects) (m : Marking h objects [] [] h₁) {v : Nat} :
    (v ∈ objects ∧ h₁.marked v = true) ↔ Grey h objects v := by
  constructor
  · exact fun ⟨hv, hm⟩ => m.grey v hv hm
  · intro hv
    refine ⟨c.mem_of_grey hv, ?_⟩
    obtain ⟨r, hr, hpath⟩ := hv
    refine (mem_of_reaches (S := {v | Grey h objects v ∧ h₁.marked v = true}) ?_ ?_ hpath).2
    · rintro u ⟨hu, hm⟩ w huw
      exact ⟨hu.ref huw, m.closed (c.mem_of_grey hu) hm huw⟩
    · refine ⟨⟨r, hr, Relation.ReflTransGen.refl⟩, ?_⟩
      rcases hr with ⟨hr, hne⟩ | ⟨hr, hm⟩
      · exact m.root_marked hr hne
      · exact m.grows r hr hm

/-! ### The remembered set is queued again -/

/-- The objects in `l` get the colour of remembered objects, and nothing else happens. -/
structure Queued (left : Finset Nat) (l : List Nat) (h h' : Heap) : Prop where
  still : Still left h h'
  pages : h'.pages = h.pages
  remembered : h'.remembered = h.remembered
  bits : ∀ v ∈ left, h'.gcBits v = if v ∈ l then 1 else h.gcBits v

theorem foldl_queue (hleft : ∀ v ∈ left, ∃ s, v = s + headerSize) :
    ∀ (l : List Nat) (h : Heap), (∀ p ∈ l, p ∈ left) →
      Queued left l h (l.foldl (fun h p => setGcBits p 1 h) h) := by
  intro l
  induction l with
  | nil => exact fun h _ => ⟨Still.refl left h, rfl, rfl, by simp⟩
  | cons p l ih =>
    intro h hl
    obtain ⟨s, rfl⟩ := hleft p (hl p List.mem_cons_self)
    have q := ih (setGcBits (s + headerSize) 1 h) fun r hr => hl r (List.mem_cons_of_mem _ hr)
    refine ⟨(still_setGcBits (hl _ List.mem_cons_self) _ _).trans q.still, q.pages, q.remembered, ?_⟩
    intro v hv
    rw [List.foldl_cons, q.bits v hv]
    by_cases hvl : v ∈ l
    · rw [if_pos hvl, if_pos (List.mem_cons_of_mem _ hvl)]
    · by_cases hvs : v = s + headerSize
      · rw [if_neg hvl, if_pos (by rw [hvs]; exact List.mem_cons_self), hvs,
          gcBits_setGcBits_self]
      · have hne : v - headerSize ≠ s + headerSize - headerSize := by
          obtain ⟨t, rfl⟩ := hleft v hv
          simpa using hvs
        rw [if_neg hvl, if_neg (by simp [hvs, hvl]), gcBits_setGcBits_of_ne hne]

/-! ### The whole collection -/

/-- What a collection does to a heap and to the objects in it. -/
structure Collected (full : Bool) (h : Heap) (objects : Finset Nat) (h' : Heap)
    (left : Finset Nat) : Prop where
  inv : AllocInv h' left
  colors : Colors h' left
  sub : left ⊆ objects
  freed : ∀ v ∈ objects, h'.Freed (v - headerSize) ↔ v ∉ left
  keeps : ∀ v, Grey h objects v → v ∈ left
  drops : full = true → ∀ v ∈ left, Grey h objects v
  cleared : full = true → ∀ v ∈ left, h'.marked v = false
  ref : ∀ v ∈ left, ∀ r, h'.Ref v r ↔ h.Ref v r
  roots : h'.roots = h.roots
  shape : ∀ (j : Nat) (pg' : Page), h'.pages[j]? = some pg' → ∃ pg, h.pages[j]? = some pg ∧
    pg'.start = pg.start ∧ pg'.osize = pg.osize ∧ pg'.bump = pg.bump
  length : h'.pages.length = h.pages.length
  blocks : (h'.bigs ++ h'.freeBigs).Perm (h.bigs ++ h.freeBigs)

section Collect

variable {s : Sweep}

theorem SweepDone.ref (done : SweepDone full h objects s left) {v : Nat} (hv : v ∈ left) (r : Nat) :
    s.heap.Ref v r ↔ h.Ref v r := by
  simp only [Heap.Ref, Heap.eachRef, done.type v hv, done.fields]

theorem Still.shape (st : Still objects h h') {j : Nat} {pg' : Page}
    (hj : h'.pages[j]? = some pg') : ∃ pg, h.pages[j]? = some pg ∧
      pg'.toPageCells = pg.toPageCells := by
  have hj' : h.table[j]? = some pg'.toPageCells := by
    rw [← st.table]
    exact getElem?_table.mpr ⟨pg', hj, rfl⟩
  obtain ⟨pg, hpg, heq⟩ := getElem?_table.mp hj'
  exact ⟨pg, hpg, heq.symm⟩

theorem Still.length (st : Still objects h h') : h'.pages.length = h.pages.length := by
  have := congrArg List.length st.table
  simpa [Heap.table] using this

/-- The heap after the sweep, with its counters set. -/
def swept (s : Sweep) : Heap := { s.heap with live := s.survivors, heapSize := s.liveBytes }

theorem SweepDone.allocInv (done : SweepDone full h₁ objects s left) :
    AllocInv (swept s) left := by
  have hlayout : Layout (swept s) left :=
    done.layout.congr rfl rfl rfl rfl rfl rfl fun _ _ => rfl
  exact { hlayout with live := done.survivors, heapSize := done.liveBytes }

/-- What was marked is closed under references after the sweep as well, so it is
sound. -/
theorem SweepDone.sound (c : Colors h objects) (m : Marking h objects [] [] h₁)
    (done : SweepDone full h₁ objects s left) (hstill : Still left (swept s) h') {v : Nat}
    (hv : v ∈ objects) (hm : h₁.marked v = true) : Sound h'.Ref left v := by
  refine sound_of_closed (S := {v | v ∈ objects ∧ h₁.marked v = true}) ?_ ?_ ⟨hv, hm⟩
  · rintro u ⟨hu, hmu⟩
    exact done.keeps u hu hmu
  · rintro u ⟨hu, hmu⟩ w huw
    have huw' : h.Ref u w := by
      rw [hstill.ref_eq] at huw
      rw [← m.still.ref_eq]
      exact (done.ref (done.keeps u hu hmu) w).mp huw
    exact ⟨c.mem_of_grey ((m.grey u hu hmu).ref huw'), m.closed hu hmu huw'⟩

/-- A full collection leaves nothing marked and nothing remembered. -/
theorem SweepDone.colors_full (c : Colors h objects) (m : Marking h objects [] [] h₁)
    (done : SweepDone true h₁ objects s left) :
    Colors { swept s with remembered := [] } left := by
  have hbits : ∀ v ∈ left, s.heap.gcBits v = 2 := by
    intro v hv
    rw [done.marked v hv (done.drops rfl v hv), recolor, if_pos (Or.inr rfl)]
  have hunmarked : ∀ v ∈ left, s.heap.marked v = false := fun v hv =>
    not_marked_iff.mpr (Or.inr (hbits v hv))
  have hstill : Still left (swept s) { swept s with remembered := [] } :=
    { Still.refl left (swept s) with }
  refine ⟨List.nodup_nil, fun p hp => absurd hp List.not_mem_nil, ?_, ?_, ?_, ?_, ?_, ?_⟩
  · intro v hv h1
    have h1 : s.heap.gcBits v = 1 := h1
    have := hbits v hv
    omega
  · intro v hv h3
    have h3 : s.heap.gcBits v = 3 := h3
    have := hbits v hv
    omega
  · intro r hr hne
    have hr' : r ∈ h.roots := by
      have hr : r ∈ s.heap.roots := hr
      rw [done.roots, m.still.roots] at hr
      exact hr
    exact done.sound c m hstill (c.roots r hr' hne).mem (m.root_marked hr' hne)
  · intro v hv hm
    exact absurd ((hunmarked v hv).symm.trans hm) (by simp)
  · intro v hv hm
    exact absurd ((hunmarked v hv).symm.trans hm) (by simp)
  · intro b hb
    -- a block of the oldest list would have colour 3
    have h3 := done.old b hb
    have := hbits _ (done.layout.big b (List.mem_append_right _ hb))
    omega

/-- A minor collection leaves the old objects marked, and what they refer to. -/
theorem SweepDone.colors_quick (c : Colors h objects) (m : Marking h objects [] [] h₁)
    (done : SweepDone false h₁ objects s left) (q : Queued left h₁.remembered (swept s) h') :
    Colors h' left := by
  have hrem : h'.remembered = h₁.remembered := q.remembered.trans done.remembered
  have hmem : ∀ p ∈ h₁.remembered, p ∈ left := fun p hp =>
    done.keeps p (m.remembered p hp).1 (marked_iff.mpr (Or.inr (m.remembered p hp).2))
  -- the sweep keeps colour 3 and turns colour 1 into 2
  have hswept : ∀ v ∈ left, s.heap.marked v = true → h₁.gcBits v = 3 := by
    intro v hv hm
    cases hm₁ : h₁.marked v with
    | false =>
      rw [Heap.marked, done.unmarked v hv hm₁] at hm
      exact absurd (hm₁.symm.trans hm) (by simp)
    | true =>
      refine (marked_iff.mp hm₁).resolve_left fun h1 => ?_
      have h2 : s.heap.gcBits v = 2 := by
        rw [done.marked v hv hm₁, recolor, if_pos (Or.inl h1)]
      have := not_marked_iff.mpr (Or.inr h2)
      simp [this] at hm
  have hthree : ∀ v ∈ objects, h₁.gcBits v = 3 → v ∈ left ∧ h'.marked v = true := by
    intro v hv h3
    have hm : h₁.marked v = true := marked_iff.mpr (Or.inr h3)
    have hleft := done.keeps v hv hm
    have h3' : s.heap.gcBits v = 3 := by
      rw [done.marked v hleft hm, recolor, if_neg (by simp [h3]), h3]
    refine ⟨hleft, ?_⟩
    rw [marked_iff, q.bits v hleft]
    split
    · exact Or.inl rfl
    · exact Or.inr h3'
  -- conversely, what is marked now had colour 3 after the mark phase
  have hback : ∀ v ∈ left, h'.marked v = true → h₁.gcBits v = 3 := by
    intro v hv hm
    by_cases hvr : v ∈ h₁.remembered
    · exact (m.remembered v hvr).2
    · rw [Heap.marked, q.bits v hv, if_neg hvr] at hm
      exact hswept v hv hm
  have hsound : ∀ v ∈ objects, h₁.marked v = true → Sound h'.Ref left v := fun v hv hm =>
    done.sound c m q.still hv hm
  refine ⟨hrem ▸ m.nodup, ?_, ?_, ?_, ?_, ?_, ?_, ?_⟩
  · intro p hp
    rw [hrem] at hp
    exact ⟨hmem p hp, by rw [q.bits p (hmem p hp), if_pos hp]⟩
  · intro v hv h1
    rw [hrem]
    by_contra hvr
    rw [q.bits v hv, if_neg hvr] at h1
    have h3 := hswept v hv (marked_iff.mpr (Or.inl h1))
    have hm : h₁.marked v = true := marked_iff.mpr (Or.inr h3)
    have h1 : s.heap.gcBits v = 1 := h1
    rw [done.marked v hv hm, recolor, if_neg (by simp [h3]), h3] at h1
    omega
  · intro v hv h3 r hr
    have hvr : v ∉ h₁.remembered := by
      intro hvr
      rw [q.bits v hv, if_pos hvr] at h3
      omega
    have h3₁ := hback v hv (marked_iff.mpr (Or.inr h3))
    have hm₁ : h₁.marked v = true := marked_iff.mpr (Or.inr h3₁)
    have hv₀ := done.sub hv
    have hr₀ : h.Ref v r := by
      rw [q.still.ref_eq] at hr
      rw [← m.still.ref_eq]
      exact (done.ref hv r).mp hr
    have hold : h₁.isOld r = true :=
      (((m.young v hv₀ h3₁).resolve_left hvr) r hr₀).resolve_right List.not_mem_nil
    have hmr := m.closed hv₀ hm₁ hr₀
    have hr3 : h₁.gcBits r = 3 := by
      have := isOld_iff.mp hold
      have := marked_iff.mp hmr
      omega
    exact (hthree r (c.mem_of_grey ((m.grey v hv₀ hm₁).ref hr₀)) hr3).2
  · intro r hr hne
    have hr' : r ∈ h.roots := by
      rw [q.still.roots] at hr
      have hr : r ∈ s.heap.roots := hr
      rw [done.roots, m.still.roots] at hr
      exact hr
    exact hsound r (c.roots r hr' hne).mem (m.root_marked hr' hne)
  · intro v hv hm
    exact hsound v (done.sub hv) (marked_iff.mpr (Or.inr (hback v hv hm)))
  · intro v hv _
    have hflag := done.flag v hv
    unfold Flagged at hflag ⊢
    rw [q.pages]
    exact hflag
  · intro b hb
    rw [q.still.bigsOld] at hb
    have hleft := done.layout.big b (List.mem_append_right _ hb)
    have h3 := hswept _ hleft (marked_iff.mpr (Or.inr (done.old b hb)))
    exact (hthree _ (done.sub hleft) h3).2

/-- The two kinds of collection have the same effect on the layout. -/
theorem SweepDone.collected (c : Colors h objects) (inv : Layout h objects)
    (m : Marking h objects [] [] h₁) (done : SweepDone full h₁ objects s left)
    (hstill : Still left (swept s) h') (hpages : h'.pages = (swept s).pages)
    (hbits : full = true → ∀ v ∈ left, h'.marked v = false) (hcolors : Colors h' left) :
    Collected full h objects h' left := by
  have hinv : AllocInv h' left := hstill.allocInv done.allocInv
  have hlength : h'.pages.length = h.pages.length := by
    rw [hpages]
    exact done.length.trans m.still.length
  have hshape : ∀ (j : Nat) (pg' : Page), h'.pages[j]? = some pg' →
      ∃ pg, h.pages[j]? = some pg ∧
        pg'.start = pg.start ∧ pg'.osize = pg.osize ∧ pg'.bump = pg.bump := by
    intro j pg' hj
    rw [hpages] at hj
    obtain ⟨pg₁, hpg₁, hstart, hosize, hbump⟩ := done.shape j pg' hj
    obtain ⟨pg, hpg, hcells⟩ := m.still.shape hpg₁
    refine ⟨pg, hpg, ?_⟩
    rw [hstart, hosize, hbump, hcells]
    exact ⟨rfl, rfl, rfl⟩
  have hblocks : (h'.bigs ++ h'.freeBigs).Perm (h.bigs ++ h.freeBigs) := by
    rw [hstill.bigs, hstill.freeBigs, ← m.still.bigs, ← m.still.freeBigs]
    exact done.blocks
  refine ⟨hinv, hcolors, done.sub, ?_, ?_, ?_, hbits, ?_, ?_, hshape, hlength, hblocks⟩
  · intro v hv
    obtain ⟨a, rfl⟩ := inv.object_eq hv
    rw [Nat.add_sub_cancel]
    constructor
    · exact fun hfreed hleft => hinv.toLayout.not_freed hleft hfreed
    · exact fun hnot => inv.freed hinv.toLayout hlength hshape hblocks hv hnot
  · intro v hv
    obtain ⟨hobj, hm⟩ := (m.marked_iff_grey c).mpr hv
    exact done.keeps v hobj hm
  · exact fun hfull v hv => m.grey v (done.sub hv) (done.drops hfull v hv)
  · intro v hv r
    rw [hstill.ref_eq, ← m.still.ref_eq]
    exact done.ref hv r
  · rw [hstill.roots, ← m.still.roots]
    exact done.roots

/-- **A collection**: what is left, and that the invariants hold of it again. -/
theorem collect_spec (c : Colors h objects) (inv : Layout h objects) {fuel freed : Nat}
    (hcollect : collectInner full fuel h = some (freed, h')) :
    (∃ left, Collected full h objects h' left) ∧ freed = u32 (h.live + 2 ^ 32 - h'.live) := by
  obtain ⟨h₁, hmark, heq⟩ := Option.map_eq_some_iff.mp hcollect
  have m := mark_spec c inv hmark
  obtain ⟨left, done⟩ := sweep_spec full (m.done c inv)
  obtain ⟨rfl, rfl⟩ := Prod.mk.inj heq
  cases full with
  | true =>
    refine ⟨⟨left, ?_⟩, by rw [m.still.live]; rfl⟩
    refine done.collected c inv m { Still.refl left (swept _) with } rfl ?_ (done.colors_full c m)
    intro _ v hv
    refine not_marked_iff.mpr (Or.inr ?_)
    show (sweep true h₁).heap.gcBits v = 2
    rw [done.marked v hv (done.drops rfl v hv), recolor, if_pos (Or.inr rfl)]
  | false =>
    have hrem : (swept (sweep false h₁)).remembered = h₁.remembered := done.remembered
    have hmem : ∀ p ∈ h₁.remembered, p ∈ left := fun p hp =>
      done.keeps p (m.remembered p hp).1 (marked_iff.mpr (Or.inr (m.remembered p hp).2))
    have q : Queued left h₁.remembered (swept (sweep false h₁))
        (requeue false (swept (sweep false h₁))) := by
      unfold requeue
      rw [if_neg (by simp), hrem]
      exact foldl_queue (fun v hv => done.layout.object_eq hv) _ _ hmem
    refine ⟨⟨left, ?_⟩, ?_⟩
    · exact done.collected c inv m q.still q.pages (by simp) (done.colors_quick c m q)
    · have hlive : (requeue false (swept (sweep false h₁))).live = (sweep false h₁).survivors :=
        q.still.live
      rw [m.still.live]
      exact congrArg (fun n => u32 (h.live + 2 ^ 32 - n)) hlive.symm

/-- A collection comes to an end. -/
theorem collect_terminates (c : Colors h objects) (inv : Layout h objects) (full : Bool) :
    ∃ fuel freed h', collectInner full fuel h = some (freed, h') := by
  obtain ⟨fuel, h₁, hmark⟩ := mark_terminates c inv
  exact ⟨fuel, _, _, by rw [collectInner, hmark]; rfl⟩

end Collect

end Ruju.Gc
