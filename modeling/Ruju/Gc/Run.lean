import Ruju.Gc.Collect

/-!
# Runs of the heap

The invariant of all runs: the allocator's, and what the colours mean.  Every step
of the mutator that leaves the colours alone is an instance of `Colors.transport`;
only a store into an old object changes one, and the write barrier makes that object a
remembered one first (`Colors.queueRoot`).

Requests are limited to `maxRequest` here.  A request close to `2 ^ 32` wraps the region's
bump pointer around, and the block handed out next would overlap one that is in use; what
keeps such a request out of a run is that its caller cannot fill the object
(`Ruju.Gc.Buffers`).
-/

namespace Ruju.Gc

open Heap

variable {h h' : Heap} {objects objects' : Finset Nat}

/-! ### Counting objects -/

theorem Carved.card {word : Nat → Nat} {p : PageCells} {fl : List Nat} {used : Nat}
    (c : Carved word objects p fl used) (hobj : ∀ v ∈ objects, ∃ s, v = s + headerSize) :
    (objects.filter fun v => p.Holds (v - headerSize)).card = p.liveN := by
  have hinj : Function.Injective fun k => p.start + k * p.osize + headerSize := fun k l hkl =>
    c.slot_injective (Nat.add_right_cancel hkl)
  have hcells : (objects.filter fun v => p.Holds (v - headerSize)) ∪
      (fl.map (· + headerSize)).toFinset =
        (Finset.range used).image fun k => p.start + k * p.osize + headerSize := by
    ext v
    simp only [Finset.mem_union, Finset.mem_filter, List.mem_toFinset, List.mem_map,
      Finset.mem_image, Finset.mem_range]
    constructor
    · rintro (⟨hv, hholds⟩ | ⟨s, hs, rfl⟩)
      · obtain ⟨s, rfl⟩ := hobj v hv
        rw [Nat.add_sub_cancel] at hholds
        obtain ⟨⟨k, hk, rfl⟩, -⟩ := (c.objects s hholds).mp hv
        exact ⟨k, hk, rfl⟩
      · obtain ⟨k, hk, rfl⟩ := c.slot s hs
        exact ⟨k, hk, rfl⟩
    · rintro ⟨k, hk, rfl⟩
      have hslot : p.IsSlot used (p.start + k * p.osize) := ⟨k, hk, rfl⟩
      by_cases hfl : p.start + k * p.osize ∈ fl
      · exact Or.inr ⟨_, hfl, rfl⟩
      · have hholds := c.holds_of_isSlot hslot
        exact Or.inl ⟨(c.objects _ hholds).mpr ⟨hslot, hfl⟩, by rwa [Nat.add_sub_cancel]⟩
  have hdisjoint : Disjoint (objects.filter fun v => p.Holds (v - headerSize))
      (fl.map (· + headerSize)).toFinset := by
    refine Finset.disjoint_left.mpr fun v hv hfl => ?_
    obtain ⟨s, hs, rfl⟩ := List.mem_map.mp (List.mem_toFinset.mp hfl)
    exact c.free_not_object hs (Finset.mem_filter.mp hv).1
  have hfl : (fl.map (· + headerSize)).toFinset.card = fl.length := by
    rw [List.toFinset_card_of_nodup (c.nodup.map fun a b hab => Nat.add_right_cancel hab),
      List.length_map]
  have hcard := congrArg Finset.card hcells
  rw [Finset.card_union_of_disjoint hdisjoint, Finset.card_image_of_injective _ hinj,
    Finset.card_range, hfl] at hcard
  have := c.liveN
  omega

theorem PageOk.card {word : Nat → Nat} {p : PageCells} (ok : PageOk word objects p)
    (hobj : ∀ v ∈ objects, ∃ s, v = s + headerSize) :
    (objects.filter fun v => p.Holds (v - headerSize)).card = p.liveN := by
  cases hin : p.inUse with
  | true =>
    obtain ⟨fl, used, c⟩ := ok.carved hin
    exact c.card hobj
  | false =>
    obtain ⟨hlive, hnone⟩ := ok.released hin
    rw [hlive, Finset.card_eq_zero, Finset.filter_eq_empty_iff]
    intro v hv hholds
    obtain ⟨s, rfl⟩ := hobj v hv
    rw [Nat.add_sub_cancel] at hholds
    exact hnone s hholds hv

/-- **The counters of pages and lists count the objects.** -/
theorem Layout.card (inv : Layout h objects) :
    objects.card = (h.table.map PageCells.liveN).sum + h.bigs.length := by
  have hobj : ∀ v ∈ objects, ∃ s, v = s + headerSize := fun v hv => inv.object_eq hv
  have hpages : (objects.filter fun v => ∃ p ∈ h.table, p.Holds (v - headerSize)).card =
      (h.table.map PageCells.liveN).sum := by
    rw [card_filter_exists objects fun (p : PageCells) v => p.Holds (v - headerSize)]
    · congr 1
      refine List.map_congr_left fun p hp => ?_
      obtain ⟨idx, hidx⟩ := List.getElem?_of_mem hp
      exact (inv.page idx p hidx).card hobj
    · refine (List.pairwise_map.mp inv.geometry.sorted).imp ?_
      intro p q hpq v hp hq
      unfold PageCells.Holds at hp hq
      omega
  have hbigs : (objects.filter fun v => ¬ ∃ p ∈ h.table, p.Holds (v - headerSize)) =
      (h.bigs.map fun b => b.1 + headerSize).toFinset := by
    ext v
    simp only [Finset.mem_filter, List.mem_toFinset, List.mem_map]
    constructor
    · rintro ⟨hv, hnone⟩
      obtain ⟨s, rfl, hcase⟩ := inv.cover v hv
      rcases hcase with ⟨a, ha, hholds⟩ | ⟨b, hb, rfl⟩
      · obtain ⟨p, hp, rfl⟩ := List.mem_map.mp ha
        exact absurd ⟨p, hp, by rwa [Nat.add_sub_cancel]⟩ hnone
      · exact ⟨b, hb, rfl⟩
    · rintro ⟨b, hb, rfl⟩
      refine ⟨inv.big b hb, ?_⟩
      rintro ⟨p, hp, hholds⟩
      rw [Nat.add_sub_cancel] at hholds
      exact inv.block_not_held (List.mem_append_left _ hb) (List.mem_map_of_mem hp) hholds
  have hnodup : (h.bigs.map fun b => b.1 + headerSize).Nodup := by
    have hoffsets := inv.geometry.offsets_nodup
    rw [List.map_append] at hoffsets
    have hmap : (h.bigs.map fun b => b.1 + headerSize) =
        (h.bigs.map Prod.fst).map (· + headerSize) := by
      rw [List.map_map]
      rfl
    rw [hmap]
    exact hoffsets.of_append_left.map fun a b hab => Nat.add_right_cancel hab
  rw [← Finset.card_filter_add_card_filter_not fun v => ∃ p ∈ h.table, p.Holds (v - headerSize),
    hpages, hbigs, List.toFinset_card_of_nodup hnodup, List.length_map]

theorem AllocInv.live_eq_card (inv : AllocInv h objects) : h.live = objects.card :=
  inv.live.trans inv.toLayout.card.symm

/-- The region holds far fewer objects than a counter can count. -/
theorem Layout.card_lt (inv : Layout h objects) : objects.card < 2 ^ 32 := by
  have hsub : objects ⊆ Finset.range (regionSize + headerSize) := by
    intro v hv
    obtain ⟨s, rfl⟩ := inv.object_eq hv
    have := inv.object_lt_top hv
    have := inv.geometry.high
    rw [Finset.mem_range]
    omega
  have := Finset.card_le_card hsub
  rw [Finset.card_range] at this
  unfold regionSize headerSize at this
  omega

variable {v : Nat}

/-- References are aligned, so the collector's bits are no part of them. -/
theorem Layout.object_aligned (inv : Layout h objects) (hv : v ∈ objects) : 8 ∣ v := by
  obtain ⟨s, rfl, hcase⟩ := inv.cover v hv
  refine (Nat.dvd_add_left (by decide)).mpr ?_
  rcases hcase with ⟨a, ha, hholds⟩ | ⟨b, hb, rfl⟩
  · obtain ⟨p, hp, rfl⟩ := List.mem_map.mp ha
    obtain ⟨idx, hidx⟩ := List.getElem?_of_mem hp
    have hok := inv.page idx p hidx
    have hin : p.inUse = true := by
      by_contra hout
      exact (hok.released (by simpa using hout)).2 s hholds hv
    obtain ⟨fl, used, c⟩ := hok.carved hin
    exact c.slot_aligned (inv.start hidx).2.1 ((c.objects s hholds).mp hv).1
  · exact (inv.geometry.block b (List.mem_append_left _ hb)).2.1

/-! ### The mutator and the colours -/

/-- An object's references are in its header and its fields. -/
theorem ref_congr (htype : h'.typeOf v = h.typeOf v)
    (hfields : h'.fields v = h.fields v) {w : Nat} : h'.Ref v w ↔ h.Ref v w := by
  simp only [Heap.Ref, Heap.eachRef, htype, hfields]

/-- **Steps that leave the colours alone.**  A reference that is new in an object
leads to allocated objects only, and to a marked one if the object has colour 3. -/
theorem Colors.transport (c : Colors h objects) (inv : Layout h objects)
    (hsub : objects ⊆ objects') (hbits : ∀ v ∈ objects, h'.gcBits v = h.gcBits v)
    (hnew : ∀ v ∈ objects', v ∉ objects → h'.marked v = false)
    (href : ∀ v ∈ objects, ∀ w, h'.Ref v w → h.Ref v w ∨
      Sound h.Ref objects w ∧ (h.gcBits v = 3 → h.marked w = true))
    (hroots : ∀ r ∈ h'.roots, r ≠ null → Sound h.Ref objects r)
    (hrem : h'.remembered = h.remembered) (hold : h'.bigsOld = h.bigsOld)
    (hflag : ∀ v ∈ objects, Flagged Page.hasMarked h v → Flagged Page.hasMarked h' v) :
    Colors h' objects' := by
  have hmarked : ∀ v ∈ objects, h'.marked v = h.marked v := fun v hv => by
    rw [Heap.marked, Heap.marked, hbits v hv]
  have hobj : ∀ v ∈ objects', h'.marked v = true → v ∈ objects ∧ h.marked v = true := by
    intro v hv hm
    have hv' : v ∈ objects := by
      by_contra hnot
      simp [hnew v hv hnot] at hm
    exact ⟨hv', (hmarked v hv') ▸ hm⟩
  have hsound : ∀ v, Sound h.Ref objects v → Sound h'.Ref objects' v := by
    intro v hv
    refine hv.mono (fun w hw => hsub hw.mem) fun u w hu huw => ?_
    exact (href u hu.mem w huw).elim hu.step And.left
  refine ⟨hrem ▸ c.nodup, ?_, ?_, ?_, ?_, ?_, ?_, ?_⟩
  · intro p hp
    obtain ⟨hp, h1⟩ := c.remembered p (hrem ▸ hp)
    exact ⟨hsub hp, (hbits p hp).trans h1⟩
  · intro v hv h1
    obtain ⟨hv, -⟩ := hobj v hv (marked_iff.mpr (Or.inl h1))
    rw [hrem]
    exact c.one v hv ((hbits v hv).symm.trans h1)
  · intro v hv h3 r hr
    obtain ⟨hv, hm⟩ := hobj v hv (marked_iff.mpr (Or.inr h3))
    have h3 : h.gcBits v = 3 := (hbits v hv).symm.trans h3
    rcases href v hv r hr with hr | ⟨hr, hmr⟩
    · rw [hmarked r ((c.sound v hv hm).step hr).mem]
      exact c.three v hv h3 r hr
    · rw [hmarked r hr.mem]
      exact hmr h3
  · exact fun r hr hne => hsound r (hroots r hr hne)
  · intro v hv hm
    obtain ⟨hv, hm⟩ := hobj v hv hm
    exact hsound v (c.sound v hv hm)
  · intro v hv hm
    obtain ⟨hv, hm⟩ := hobj v hv hm
    exact hflag v hv (c.flag v hv hm)
  · intro b hb
    rw [hold] at hb
    rw [hmarked _ (inv.big b (List.mem_append_right _ hb))]
    exact c.old b hb

/-- An object of colour 3 becomes a remembered one. -/
theorem Colors.queueRoot (c : Colors h objects) (inv : Layout h objects) {v : Nat}
    (hv : v ∈ objects) (h3 : h.gcBits v = 3) : Colors (queueRoot v h) objects := by
  obtain ⟨s, rfl⟩ := inv.object_eq hv
  have hstill : Still objects h (Heap.queueRoot (s + headerSize) h) :=
    { still_setGcBits hv 1 h with }
  have hself : (Heap.queueRoot (s + headerSize) h).gcBits (s + headerSize) = 1 :=
    gcBits_setGcBits_self
  have hother : ∀ w ∈ objects, w ≠ s + headerSize →
      (Heap.queueRoot (s + headerSize) h).gcBits w = h.gcBits w := by
    intro w hw hne
    obtain ⟨t, rfl⟩ := inv.object_eq hw
    exact gcBits_setGcBits_of_ne (by simpa using hne)
  have hmarked : ∀ w ∈ objects,
      (Heap.queueRoot (s + headerSize) h).marked w = h.marked w := by
    intro w hw
    by_cases hne : w = s + headerSize
    · rw [hne, marked_iff.mpr (Or.inl hself), marked_iff.mpr (Or.inr h3)]
    · rw [Heap.marked, Heap.marked, hother w hw hne]
  have hfresh : s + headerSize ∉ h.remembered := fun hmem => by
    have := (c.remembered _ hmem).2
    omega
  refine ⟨?_, ?_, ?_, ?_, ?_, ?_, ?_, ?_⟩
  · show (h.remembered ++ [s + headerSize]).Nodup
    refine List.nodup_append.mpr ⟨c.nodup, List.nodup_singleton _, ?_⟩
    intro a ha b hb hab
    exact hfresh (List.mem_singleton.mp hb ▸ hab ▸ ha)
  · intro p hp
    rcases List.mem_append.mp hp with hp | hp
    · obtain ⟨hpobj, h1⟩ := c.remembered p hp
      exact ⟨hpobj, (hother p hpobj fun heq => hfresh (heq ▸ hp)).trans h1⟩
    · rw [List.mem_singleton.mp hp]
      exact ⟨hv, hself⟩
  · intro w hw h1
    refine List.mem_append.mpr ?_
    by_cases hne : w = s + headerSize
    · exact Or.inr (List.mem_singleton.mpr hne)
    · exact Or.inl (c.one w hw ((hother w hw hne).symm.trans h1))
  · intro w hw hw3 r hr
    have hne : w ≠ s + headerSize := fun heq => by
      rw [heq] at hw3
      omega
    rw [hstill.ref_eq] at hr
    have hw3 : h.gcBits w = 3 := (hother w hw hne).symm.trans hw3
    have hr' := ((c.sound w hw (marked_iff.mpr (Or.inr hw3))).step hr).mem
    rw [hmarked r hr']
    exact c.three w hw hw3 r hr
  · rw [hstill.roots, hstill.ref_eq]
    exact c.roots
  · intro w hw hm
    rw [hstill.ref_eq]
    exact c.sound w hw ((hmarked w hw) ▸ hm)
  · exact fun w hw hm => c.flag w hw ((hmarked w hw) ▸ hm)
  · intro b hb
    rw [hmarked _ (inv.big b (List.mem_append_right _ hb))]
    exact c.old b hb

theorem still_writeBarrier {s child : Nat} (hv : s + headerSize ∈ objects) :
    Still objects h (writeBarrier (s + headerSize) child h) := by
  unfold writeBarrier
  split
  · exact { still_setGcBits hv 1 h with }
  · exact Still.refl objects h

/-- **The write barrier**: afterwards a parent of colour 3 may refer to the child. -/
theorem Colors.writeBarrier (c : Colors h objects) (inv : Layout h objects) {v : Nat}
    (hv : v ∈ objects) (child : Nat) : Colors (writeBarrier v child h) objects ∧
      ((Heap.writeBarrier v child h).gcBits v = 3 → child ≠ null →
        (Heap.writeBarrier v child h).marked child = true) := by
  by_cases hcond : child ≠ null ∧ h.gcBits v = 3 ∧ ¬ h.marked child
  · rw [Heap.writeBarrier, if_pos hcond]
    refine ⟨c.queueRoot inv hv hcond.2.1, fun h3 => ?_⟩
    have hself : (Heap.queueRoot v h).gcBits v = 1 := gcBits_setGcBits_self
    omega
  · rw [Heap.writeBarrier, if_neg hcond]
    refine ⟨c, fun h3 hne => ?_⟩
    by_contra hm
    exact hcond ⟨hne, h3, hm⟩

/-! ### Every step keeps the invariant -/

/-- The invariant of runs. -/
structure Inv (c : Config) : Prop where
  alloc : AllocInv c.heap c.objects
  colors : Colors c.heap c.objects

theorem inv_init : Inv ⟨Heap.init, ∅⟩ where
  alloc :=
    { geometry := by
        refine ⟨le_rfl, by decide, by decide, ?_, List.Pairwise.nil, ?_, List.Pairwise.nil, ?_⟩
        · intro a ha
          exact absurd ha List.not_mem_nil
        · intro b hb
          exact absurd hb List.not_mem_nil
        · intro b hb
          exact absurd hb List.not_mem_nil
      page := fun idx p hp => by simp [Heap.init, Heap.table] at hp
      big := fun b hb => absurd hb List.not_mem_nil
      cover := fun v hv => absurd hv (Finset.notMem_empty v)
      queues := by
        refine ⟨?_, List.nodup_nil, ?_, List.nodup_nil⟩
        · intro q hq
          exact absurd hq List.not_mem_nil
        · intro idx hidx
          exact absurd hidx List.not_mem_nil
      live := rfl
      heapSize := rfl }
  colors := by
    refine ⟨List.nodup_nil, ?_, ?_, ?_, ?_, ?_, ?_, ?_⟩
    · exact fun p hp => absurd hp List.not_mem_nil
    · exact fun v hv => absurd hv (Finset.notMem_empty v)
    · exact fun v hv => absurd hv (Finset.notMem_empty v)
    · exact fun r hr => absurd hr List.not_mem_nil
    · exact fun v hv => absurd hv (Finset.notMem_empty v)
    · exact fun v hv => absurd hv (Finset.notMem_empty v)
    · exact fun b hb => absurd hb List.not_mem_nil

theorem Quiet.flagged (q : Quiet objects h h') (inv : Layout h objects)
    (hv : v ∈ objects) (hflag : Flagged Page.hasMarked h v) : Flagged Page.hasMarked h' v := by
  intro idx pg' hpg' hin hholds
  obtain ⟨s, rfl⟩ := inv.object_eq hv
  rw [Nat.add_sub_cancel] at hholds
  obtain ⟨pg, hpg, hin₀, hstart, hmarked⟩ := q.flag idx pg' hpg' hin s hholds hv
  rw [← hmarked]
  refine hflag idx pg hpg hin₀ ?_
  rw [Nat.add_sub_cancel, PageCells.Holds, hstart]
  exact hholds

/-- An allocation that found no cell. -/
theorem Quiet.colors (q : Quiet objects h h') (inv : Layout h objects) (c : Colors h objects) :
    Colors h' objects := by
  refine c.transport inv (Finset.Subset.refl _) ?_ (fun v hv hnot => absurd hv hnot) ?_ ?_
    q.remembered q.bigsOld fun v hv => q.flagged inv hv
  · exact fun v _ => by rw [Heap.gcBits, Heap.gcBits, q.word]
  · intro v _ w hw
    refine Or.inl ((ref_congr ?_ ?_).mp hw)
    · rw [Heap.typeOf, Heap.typeOf, q.word]
    · rw [q.fields]
  · exact fun r hr => c.roots r (q.roots ▸ hr)

/-- **An allocation.** -/
theorem Inv.allocObject {c : Config} (i : Inv c) {ty size : Nat} {refs : List Nat}
    (hsize : size ≤ maxRequest) {v : Nat} {h : Heap}
    (halloc : allocObject ty size refs c.heap = (v, h)) :
    Inv ⟨h, if v = null then c.objects else insert v c.objects⟩ ∧ (v ≠ null → v ∉ c.objects) := by
  obtain ⟨h8, hlow, hmax⟩ := chunkSize_spec hsize
  have hspec := allocChunk_spec i.alloc h8 hlow hmax
  unfold Heap.allocObject at halloc
  rcases hspec with out | ⟨hnull, hinv, quiet⟩
  · -- a fresh cell gets its header and its references
    have hne : (allocChunk (chunkSize size) c.heap).1 + headerSize ≠ null := by
      unfold headerSize null
      omega
    simp only [if_neg out.ne_null, Prod.mk.injEq] at halloc
    obtain ⟨rfl, rfl⟩ := halloc
    rw [if_neg hne]
    generalize hs : (allocChunk (chunkSize size) c.heap).1 = s at out hne
    generalize hh : (allocChunk (chunkSize size) c.heap).2 = h₁ at out
    have hother : ∀ w ∈ c.objects, w - headerSize ≠ s := by
      rintro w hw rfl
      obtain ⟨t, rfl⟩ := i.alloc.object_eq hw
      exact out.fresh (by rwa [Nat.add_sub_cancel])
    have hword : ∀ w ∈ c.objects,
        Function.update h₁.word s (ty / 4 * 4) (w - headerSize) = c.heap.word (w - headerSize) := by
      intro w hw
      rw [Function.update_of_ne (hother w hw), out.quiet.word]
    refine ⟨⟨?_, ?_⟩, fun _ => out.fresh⟩
    · refine out.inv.congr (out.inv.toLayout.congr rfl rfl rfl rfl rfl rfl ?_) rfl rfl rfl rfl
      intro t ht
      refine Function.update_of_ne ?_ _ _
      rintro rfl
      exact ht (Finset.mem_insert_self _ _)
    · refine i.colors.transport i.alloc.toLayout (Finset.subset_insert _ _) ?_ ?_ ?_ ?_
        out.quiet.remembered out.quiet.bigsOld fun w hw => out.quiet.flagged i.alloc.toLayout hw
      · intro w hw
        rw [Heap.gcBits, Heap.gcBits]
        exact congrArg (· % 4) (hword w hw)
      · intro w hw hnot
        obtain rfl := (Finset.mem_insert.mp hw).resolve_right hnot
        refine not_marked_iff.mpr (Or.inl ?_)
        show Function.update h₁.word s (ty / 4 * 4) (s + headerSize - headerSize) % 4 = 0
        rw [Nat.add_sub_cancel, Function.update_self]
        omega
      · intro w hw r hr
        have hne : w ≠ s + headerSize := fun heq => out.fresh (heq ▸ hw)
        refine Or.inl ((ref_congr ?_ ?_).mp hr)
        · rw [Heap.typeOf, Heap.typeOf]
          exact congrArg (· / 4 * 4) (hword w hw)
        · show Function.update h₁.fields (s + headerSize) refs w = c.heap.fields w
          rw [Function.update_of_ne hne, out.quiet.fields]
      · exact fun r hr => i.colors.roots r (out.quiet.roots ▸ hr)
  · simp only [if_pos hnull, Prod.mk.injEq] at halloc
    obtain ⟨rfl, rfl⟩ := halloc
    exact ⟨⟨hinv, quiet.colors i.alloc.toLayout i.colors⟩, fun hne => absurd rfl hne⟩

variable {c : Config}

/-- A layout is carved from the region. -/
theorem Inv.regionAlloc (i : Inv c) {size : Nat} (hsize : size ≤ maxRequest) :
    Inv ⟨(Heap.regionAlloc size c.heap).2, c.objects⟩ := by
  have hmax : size + 7 + regionSize < 2 ^ 32 := by
    unfold maxRequest at hsize
    unfold regionSize
    omega
  rw [regionAlloc_eq i.alloc.geometry.high hmax]
  split
  · exact i
  · rename_i hroom
    have hgeo := i.alloc.geometry.grow (Nat.not_lt.mp hroom) (Dvd.intro_left _ rfl)
    refine ⟨?_, ?_⟩
    · exact { i.alloc with geometry := hgeo }
    · have quiet : Quiet c.objects c.heap
          { c.heap with top := c.heap.top + (size + 7) / 8 * 8 } :=
        Quiet.of_pages rfl rfl rfl rfl rfl rfl
      exact quiet.colors i.alloc.toLayout i.colors

/-- A change of the roots. -/
theorem Inv.with_roots (i : Inv c) {shadow pinned : List Nat}
    (hroots : ∀ r ∈ shadow ++ pinned, r ≠ null → c.Valid r) :
    Inv ⟨{ c.heap with shadow := shadow, pinned := pinned }, c.objects⟩ := by
  refine ⟨?_, ?_⟩
  · exact i.alloc.congr (i.alloc.toLayout.congr rfl rfl rfl rfl rfl rfl
      fun _ _ => rfl) rfl rfl rfl rfl
  · exact i.colors.transport i.alloc.toLayout (Finset.Subset.refl _) (fun _ _ => rfl)
      (fun v hv hnot => absurd hv hnot) (fun _ _ _ hw => Or.inl hw) hroots rfl rfl
      fun _ _ hflag => hflag

/-- **A reference store behind the write barrier.** -/
theorem Inv.setRef (i : Inv c) {j r : Nat} (hv : c.Valid v)
    (hr : r ≠ null → c.Valid r) : Inv ⟨Heap.setRef v j r c.heap, c.objects⟩ := by
  have hvobj : v ∈ c.objects := hv.mem
  obtain ⟨hcolors, hbarrier⟩ := i.colors.writeBarrier i.alloc.toLayout hvobj r
  have hstill : Still c.objects c.heap (Heap.writeBarrier v r c.heap) := by
    obtain ⟨s, rfl⟩ := i.alloc.object_eq hvobj
    exact still_writeBarrier hvobj
  have hinv := hstill.allocInv i.alloc
  refine ⟨?_, ?_⟩
  · exact hinv.congr (hinv.toLayout.congr rfl rfl rfl rfl rfl rfl fun _ _ => rfl) rfl rfl rfl rfl
  · refine hcolors.transport hinv.toLayout (Finset.Subset.refl _) (fun _ _ => rfl)
      (fun w hw hnot => absurd hw hnot) ?_ hcolors.roots rfl rfl fun _ _ hflag => hflag
    intro w _ u huw
    by_cases hwv : w = v
    · subst hwv
      obtain ⟨hmem, hne⟩ := huw
      have hmem : u ∈ (if (Heap.writeBarrier w r c.heap).typeOf w = null then []
          else [(Heap.writeBarrier w r c.heap).typeOf w]) ++
          Function.update (Heap.writeBarrier w r c.heap).fields w
            (((Heap.writeBarrier w r c.heap).fields w).set j r) w := hmem
      rw [Function.update_self] at hmem
      rcases List.mem_append.mp hmem with hmem | hmem
      · exact Or.inl ⟨List.mem_append_left _ hmem, hne⟩
      · rcases List.mem_or_eq_of_mem_set hmem with hmem | rfl
        · exact Or.inl ⟨List.mem_append_right _ hmem, hne⟩
        · refine Or.inr ⟨?_, fun h3 => hbarrier h3 hne⟩
          rw [hstill.ref_eq]
          exact hr hne
    · refine Or.inl ?_
      obtain ⟨hmem, hne⟩ := huw
      refine ⟨?_, hne⟩
      have hmem : u ∈ (if (Heap.writeBarrier v r c.heap).typeOf w = null then []
          else [(Heap.writeBarrier v r c.heap).typeOf w]) ++
          Function.update (Heap.writeBarrier v r c.heap).fields v
            (((Heap.writeBarrier v r c.heap).fields v).set j r) w := hmem
      rwa [Function.update_of_ne hwv] at hmem

/-- The bootstrap's `set_type` on an unmarked object. -/
theorem Inv.setType (i : Inv c) {ty : Nat} (hv : c.Valid v) (hty : c.Valid ty)
    (hm : c.heap.marked v = false) : Inv ⟨Heap.setType v ty c.heap, c.objects⟩ := by
  have hvobj : v ∈ c.objects := hv.mem
  have haligned : ty / 4 * 4 = ty := by
    have := i.alloc.toLayout.object_aligned hty.mem
    omega
  have hword : ∀ t, t ≠ v - headerSize → (Heap.setType v ty c.heap).word t = c.heap.word t :=
    fun t ht => Function.update_of_ne ht _ _
  have hself : (Heap.setType v ty c.heap).word (v - headerSize) = ty + c.heap.gcBits v := by
    show Function.update _ _ _ _ = _
    rw [Function.update_self, haligned]
  have hbits : ∀ w, (Heap.setType v ty c.heap).gcBits w = c.heap.gcBits w := by
    intro w
    by_cases hw : w - headerSize = v - headerSize
    · have := gcBits_lt c.heap v
      rw [Heap.gcBits, Heap.gcBits, hw, hself]
      rw [Heap.gcBits] at this ⊢
      omega
    · rw [Heap.gcBits, Heap.gcBits, hword _ hw]
  refine ⟨?_, ?_⟩
  · refine i.alloc.congr (i.alloc.toLayout.congr rfl rfl rfl rfl rfl rfl ?_) rfl rfl rfl rfl
    intro t ht
    refine hword t ?_
    rintro rfl
    obtain ⟨s, rfl⟩ := i.alloc.object_eq hvobj
    exact ht (by rwa [Nat.add_sub_cancel])
  · refine i.colors.transport i.alloc.toLayout (Finset.Subset.refl _) (fun w _ => hbits w)
      (fun w hw hnot => absurd hw hnot) ?_ i.colors.roots rfl rfl fun _ _ hflag => hflag
    intro w hw r hr
    by_cases hwv : w = v
    · subst hwv
      have htype : (Heap.setType w ty c.heap).typeOf w = ty := by
        have := gcBits_lt c.heap w
        rw [Heap.typeOf, hself]
        omega
      obtain ⟨hmem, hne⟩ := hr
      rw [Heap.eachRef, htype] at hmem
      rcases List.mem_append.mp hmem with hmem | hmem
      · have hr : r = ty := by
          split at hmem
          · exact absurd hmem List.not_mem_nil
          · exact List.mem_singleton.mp hmem
        refine Or.inr ⟨hr ▸ hty, fun h3 => ?_⟩
        have := not_marked_iff.mp hm
        omega
      · exact Or.inl ⟨List.mem_append_right _ hmem, hne⟩
    · have hne : w - headerSize ≠ v - headerSize := by
        obtain ⟨s, rfl⟩ := i.alloc.object_eq hw
        obtain ⟨t, rfl⟩ := i.alloc.object_eq hvobj
        simpa using hwv
      refine Or.inl ((ref_congr ?_ ?_).mp hr)
      · rw [Heap.typeOf, Heap.typeOf, hword _ hne]
      · rfl

/-- What a collection leaves is what it does not free. -/
theorem Collected.survivors_eq {full : Bool} {left : Finset Nat}
    (k : Collected full c.heap c.objects h' left) : c.survivors h' = left := by
  ext v
  simp only [Config.survivors, Finset.mem_filter]
  constructor
  · rintro ⟨hv, hnot⟩
    by_contra hleft
    exact hnot ((k.freed v hv).mpr hleft)
  · exact fun hv => ⟨k.sub hv, fun hfreed => (k.freed v (k.sub hv)).mp hfreed hv⟩

theorem Inv.collect (i : Inv c) {full : Bool} {fuel freed : Nat}
    (hcollect : collectInner full fuel c.heap = some (freed, h')) :
    Collected full c.heap c.objects h' (c.survivors h') := by
  obtain ⟨⟨left, k⟩, -⟩ := collect_spec i.colors i.alloc.toLayout hcollect
  rw [k.survivors_eq]
  exact k

/-- **One step keeps the invariant.** -/
theorem Inv.step {c' : Config} (i : Inv c) (hstep : Step maxRequest c c') : Inv c' := by
  cases hstep with
  | alloc ty size refs v h hsize _ halloc => exact (i.allocObject hsize halloc).1
  | carve size hsize => exact i.regionAlloc hsize
  | store v j r hv hr => exact i.setRef hv hr
  | setType v ty hv hty hm => exact i.setType hv hty hm
  | push v hv =>
    refine i.with_roots fun r hr hne => ?_
    rw [List.append_assoc, List.mem_append, List.singleton_append, List.mem_cons] at hr
    rcases hr with hr | rfl | hr
    · exact i.colors.roots r (List.mem_append_left _ hr) hne
    · exact hv hne
    · exact i.colors.roots r (List.mem_append_right _ hr) hne
  | pop n =>
    refine i.with_roots fun r hr hne => i.colors.roots r ?_ hne
    exact (List.mem_append.mp hr).elim (fun hr => List.mem_append_left _ (List.mem_of_mem_take hr))
      (List.mem_append_right _)
  | setSlot j v hv =>
    refine i.with_roots fun r hr hne => ?_
    rcases List.mem_append.mp hr with hr | hr
    · rcases List.mem_or_eq_of_mem_set hr with hr | rfl
      · exact i.colors.roots r (List.mem_append_left _ hr) hne
      · exact hv hne
    · exact i.colors.roots r (List.mem_append_right _ hr) hne
  | pin v hv =>
    refine i.with_roots fun r hr hne => ?_
    rw [List.mem_append, List.mem_cons] at hr
    rcases hr with hr | rfl | hr
    · exact i.colors.roots r (List.mem_append_left _ hr) hne
    · exact hv hne
    · exact i.colors.roots r (List.mem_append_right _ hr) hne
  | unpin v =>
    refine i.with_roots fun r hr hne => i.colors.roots r ?_ hne
    exact (List.mem_append.mp hr).elim (List.mem_append_left _)
      (fun hr => List.mem_append_right _ (List.mem_of_mem_erase hr))
  | collect full fuel freed h hcollect =>
    have k := i.collect hcollect
    exact ⟨k.inv, k.colors⟩

end Ruju.Gc
