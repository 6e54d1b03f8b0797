import Mathlib.Data.List.Pairwise
import Ruju.Gc.Run
import Ruju.Storage.Store

/-!
# Allocating buffers

`memory::alloc` turns an element type and a length into a request, and the request goes
through `object::alloc`, `alloc_chunk` and `region::alloc`.  The check in
`memory::alloc` keeps the number of bytes below `2 ^ 32`, but not the sums that the
others form with it, so for the largest buffers the arithmetic does wrap around, and
`object::alloc` then returns a chunk that is much too small.

No buffer comes of it.  `memory::alloc` clears the elements before it returns.  If a
sum wrapped around, the elements reach past the end of any linear memory a 32-bit target
can have, so the fill traps (`attempt_large`).  Whatever is returned is a chunk as large as
it was meant to be.

The chunks of objects are apart from each other by the allocator's invariant
(`Layout.chunks_apart`).  Layouts of types are carved from the region as well, and are
not objects; that nothing is laid over them follows from how pages and blocks come about
(`Grows`): inside of old ones, or at the region's top.
-/

namespace Ruju.Gc

open Heap

/-! ### Chunks -/

/-- The object with its header at `s` has `n` bytes: the cell of its page, or its block. -/
def Heap.Chunk (h : Heap) (s n : Nat) : Prop :=
  (∃ pg ∈ h.pages, pg.inUse = true ∧ pg.Holds s ∧ pg.osize = n) ∨ (s, n) ∈ h.bigs

namespace Layout

variable {h : Heap} {objects : Finset Nat}

/-- An object on a page fills one of its cells. -/
theorem cell_of_holds (inv : Layout h objects) {idx : Nat} {pg : Page}
    (hpg : h.pages[idx]? = some pg) (hin : pg.inUse = true) {s : Nat} (hholds : pg.Holds s)
    (hobj : s + headerSize ∈ objects) :
    ∃ k, s = pg.start + k * pg.osize ∧ (k + 1) * pg.osize ≤ pageSize := by
  obtain ⟨fl, used, c⟩ := (inv.page idx _ (getElem?_table.mpr ⟨pg, hpg, rfl⟩)).carved hin
  obtain ⟨⟨k, hk, rfl⟩, -⟩ := (c.objects s hholds).mp hobj
  exact ⟨k, rfl, le_trans (Nat.mul_le_mul_right _ hk) c.room⟩

theorem exists_chunk (inv : Layout h objects) {s : Nat} (hobj : s + headerSize ∈ objects) :
    ∃ n, h.Chunk s n := by
  obtain ⟨s', heq, hcase⟩ := inv.cover _ hobj
  obtain rfl : s = s' := Nat.add_right_cancel heq
  rcases hcase with ⟨a, ha, hholds⟩ | ⟨b, hb, rfl⟩
  · obtain ⟨p, hp, rfl⟩ := List.mem_map.mp ha
    obtain ⟨idx, hidx⟩ := List.getElem?_of_mem hp
    obtain ⟨pg, hpg, rfl⟩ := getElem?_table.mp hidx
    have hin : pg.inUse = true := by
      by_contra hout
      exact ((inv.page idx _ hidx).released (by simpa using hout)).2 s hholds hobj
    exact ⟨pg.osize, Or.inl ⟨pg, List.mem_of_getElem? hpg, hin, hholds, rfl⟩⟩
  · exact ⟨b.2, Or.inr hb⟩

/-- The chunk of an object lies in one page or is one block. -/
theorem chunk_cases (inv : Layout h objects) {s n : Nat} (hobj : s + headerSize ∈ objects)
    (hchunk : h.Chunk s n) :
    (∃ (idx : Nat) (pg : Page) (k : Nat), h.pages[idx]? = some pg ∧ n = pg.osize ∧
        s = pg.start + k * n ∧ (k + 1) * n ≤ pageSize) ∨ (s, n) ∈ h.bigs := by
  rcases hchunk with ⟨pg, hmem, hin, hholds, rfl⟩ | hb
  · obtain ⟨idx, hpg⟩ := List.getElem?_of_mem hmem
    obtain ⟨k, hs, hroom⟩ := inv.cell_of_holds hpg hin hholds hobj
    exact Or.inl ⟨idx, pg, k, hpg, rfl, hs, hroom⟩
  · exact Or.inr hb

theorem start_mem {idx : Nat} {pg : Page} (hpg : h.pages[idx]? = some pg) :
    pg.start ∈ h.table.map PageCells.start :=
  List.mem_map_of_mem (f := PageCells.start)
    (List.mem_of_getElem? (getElem?_table.mpr ⟨pg, hpg, rfl⟩))

/-- A chunk is inside a page or is a block, so what is apart from these is apart from it. -/
theorem apart_chunk (inv : Layout h objects) {s n : Nat} (hobj : s + headerSize ∈ objects)
    (hchunk : h.Chunk s n) {r : Nat × Nat}
    (hpages : ∀ a ∈ h.table.map PageCells.start, Apart r (a, pageSize))
    (hblocks : ∀ b ∈ h.bigs, Apart r b) : Apart r (s, n) := by
  rcases inv.chunk_cases hobj hchunk with ⟨idx, pg, k, hpg, -, rfl, hroom⟩ | hb
  · have hapart := hpages pg.start (start_mem hpg)
    rw [Nat.succ_mul] at hroom
    unfold Apart at hapart ⊢
    simp only at hapart ⊢
    omega
  · exact hblocks _ hb

/-- **The chunks of two objects do not overlap.** -/
theorem chunks_apart (inv : Layout h objects) {s n t m : Nat} (hs : s + headerSize ∈ objects)
    (ht : t + headerSize ∈ objects) (hne : s ≠ t) (hn : h.Chunk s n) (hm : h.Chunk t m) :
    Apart (s, n) (t, m) := by
  have hg := inv.geometry
  rcases inv.chunk_cases hs hn with ⟨i, pg, k, hpg, hos, rfl, hroom⟩ | hb
  · rw [Nat.succ_mul] at hroom
    rcases inv.chunk_cases ht hm with ⟨j, pg', l, hpg', hos', rfl, hroom'⟩ | hb'
    · rw [Nat.succ_mul] at hroom'
      unfold Apart
      simp only
      rcases Nat.lt_trichotomy i j with hij | rfl | hij
      · have := inv.start_lt hij hpg hpg'
        omega
      · -- two cells of one page
        obtain rfl := Option.some.inj (hpg.symm.trans hpg')
        subst hos hos'
        have hkl : k ≠ l := fun hkl => hne (by rw [hkl])
        rcases Nat.lt_or_gt_of_ne hkl with hkl | hkl
        · have := Nat.mul_le_mul_right pg.osize hkl
          rw [Nat.succ_mul] at this
          omega
        · have := Nat.mul_le_mul_right pg.osize hkl
          rw [Nat.succ_mul] at this
          omega
      · have := inv.start_lt hij hpg' hpg
        omega
    · have hapart := hg.block_start _ (List.mem_append_left _ hb') pg.start (start_mem hpg)
      unfold Apart at hapart ⊢
      simp only at hapart ⊢
      omega
  · rcases inv.chunk_cases ht hm with ⟨j, pg', l, hpg', -, rfl, hroom'⟩ | hb'
    · have hapart := hg.block_start _ (List.mem_append_left _ hb) pg'.start (start_mem hpg')
      rw [Nat.succ_mul] at hroom'
      unfold Apart at hapart ⊢
      simp only at hapart ⊢
      omega
    · have : Std.Symm Apart := ⟨fun _ _ => Apart.symm⟩
      exact hg.blocks_apart.forall (List.mem_append_left _ hb) (List.mem_append_left _ hb')
        fun heq => hne (congrArg Prod.fst heq)

/-- A chunk lies inside the region. -/
theorem chunk_range (inv : Layout h objects) {s n : Nat} (hobj : s + headerSize ∈ objects)
    (hchunk : h.Chunk s n) : 8 ≤ s ∧ s + n ≤ regionSize := by
  have hhigh := inv.geometry.high
  refine ⟨(inv.object_lt_top hobj).1, ?_⟩
  rcases inv.chunk_cases hobj hchunk with ⟨idx, pg, k, hpg, -, rfl, hroom⟩ | hb
  · have := inv.geometry.start _ (start_mem hpg)
    rw [Nat.succ_mul] at hroom
    omega
  · have := inv.geometry.block _ (List.mem_append_left _ hb)
    simp only at this
    omega

end Layout

/-! ### Where pages and blocks come from -/

/-- Every page and every block of `h'` is one of `h`, the front of a block, or was carved
from the region since. -/
structure Grows (h h' : Heap) : Prop where
  top : h.top ≤ h'.top
  start : ∀ a ∈ h'.table.map PageCells.start, a ∈ h.table.map PageCells.start ∨ h.top ≤ a
  block : ∀ b ∈ h'.bigs ++ h'.freeBigs,
    (∃ b₀ ∈ h.bigs ++ h.freeBigs, b₀.1 ≤ b.1 ∧ b.1 + b.2 ≤ b₀.1 + b₀.2) ∨ h.top ≤ b.1

/-- The ranges carved for layouts lie below the region's top, apart from pages and
blocks. -/
def Reserved (h : Heap) (layouts : List (Nat × Nat)) : Prop :=
  ∀ r ∈ layouts, r.1 + r.2 ≤ h.top ∧ (∀ a ∈ h.table.map PageCells.start, Apart r (a, pageSize)) ∧
    ∀ b ∈ h.bigs ++ h.freeBigs, Apart r b

namespace Grows

variable {h h₁ h₂ h₃ : Heap}

theorem of_eq (htop : h₂.top = h₁.top)
    (hstart : h₂.table.map PageCells.start = h₁.table.map PageCells.start)
    (hblocks : ∀ b ∈ h₂.bigs ++ h₂.freeBigs, b ∈ h₁.bigs ++ h₁.freeBigs) : Grows h₁ h₂ where
  top := le_of_eq htop.symm
  start := fun _ ha => Or.inl (hstart ▸ ha)
  block := fun b hb => Or.inl ⟨b, hblocks b hb, le_rfl, le_rfl⟩

theorem refl (h : Heap) : Grows h h := of_eq rfl rfl fun _ hb => hb

theorem trans (g : Grows h₁ h₂) (g' : Grows h₂ h₃) : Grows h₁ h₃ where
  top := le_trans g.top g'.top
  start := fun a ha => by
    rcases g'.start a ha with ha | ha
    · exact g.start a ha
    · exact Or.inr (le_trans g.top ha)
  block := fun b hb => by
    rcases g'.block b hb with ⟨b₁, hb₁, hlo₁, hhi₁⟩ | hb
    · rcases g.block b₁ hb₁ with ⟨b₀, hb₀, hlo₀, hhi₀⟩ | hb₁
      · exact Or.inl ⟨b₀, hb₀, by omega, by omega⟩
      · exact Or.inr (by omega)
    · exact Or.inr (le_trans g.top hb)

/-- What was apart from everything stays apart. -/
theorem reserved (g : Grows h h₁) {layouts : List (Nat × Nat)} (hres : Reserved h layouts) :
    Reserved h₁ layouts := by
  intro r hr
  obtain ⟨htop, hstarts, hblocks⟩ := hres r hr
  refine ⟨le_trans htop g.top, fun a ha => ?_, fun b hb => ?_⟩
  · rcases g.start a ha with ha | ha
    · exact hstarts a ha
    · exact Or.inl (le_trans htop ha)
  · rcases g.block b hb with ⟨b₀, hb₀, hlo, hhi⟩ | hb
    · have := hblocks b₀ hb₀
      unfold Apart at this ⊢
      omega
    · exact Or.inl (le_trans htop hb)

end Grows

/-! ### The steps of an allocation -/

section Allocation

variable {h h' : Heap} {objects : Finset Nat}

theorem grows_poolFor (osize : Nat) (h : Heap) : Grows h (poolFor osize h).2 := by
  unfold poolFor
  split
  · exact Grows.refl h
  · exact Grows.of_eq rfl rfl fun _ hb => hb

theorem map_start_modify {pages : List Page} {idx : Nat} {f : Page → Page}
    (hf : ∀ pg, (f pg).start = pg.start) :
    ((pages.modify idx f).map Page.toPageCells).map PageCells.start =
      (pages.map Page.toPageCells).map PageCells.start := by
  simp only [List.map_map]
  refine List.ext_getElem? fun j => ?_
  rw [List.getElem?_map, List.getElem?_map, List.getElem?_modify]
  cases pages[j]? with
  | none => rfl
  | some pg =>
    simp only [Option.map_some]
    split
    · exact congrArg some (hf pg)
    · rfl

theorem grows_pageFor (inv : AllocInv h objects) (osize pi : Nat) :
    Grows h (pageFor osize pi h).2 := by
  have htrim : Grows h (trimQueue pi h) := Grows.of_eq rfl rfl fun _ hb => hb
  unfold pageFor
  dsimp only
  split
  · exact htrim
  · split
    · refine htrim.trans (Grows.of_eq rfl ?_ fun _ hb => hb)
      exact map_start_modify fun _ => rfl
    · rw [regionAlloc_page (show (trimQueue pi h).top ≤ regionSize from inv.geometry.high)]
      split
      · split
        · exact htrim
        · exact absurd rfl ‹¬ _›
      · split
        · exact ⟨Nat.le_add_right _ _, fun a ha => Or.inl ha, fun b hb =>
            Or.inl ⟨b, hb, le_rfl, le_rfl⟩⟩
        · refine ⟨Nat.le_add_right _ _, fun a ha => ?_, fun b hb => Or.inl ⟨b, hb, le_rfl, le_rfl⟩⟩
          have ha : a ∈ ((h.pages ++ [(Page.carve h.top osize).reset]).map Page.toPageCells).map
              PageCells.start := ha
          rw [List.map_append, List.map_append, List.mem_append] at ha
          rcases ha with ha | ha
          · exact Or.inl ha
          · exact Or.inr (le_of_eq (List.mem_singleton.mp ha).symm)

theorem grows_takeCell {idx osize : Nat} {pg : Page} (hpg : h.pages[idx]? = some pg) :
    Grows h (takeCell idx osize h).2 := by
  refine Grows.of_eq rfl ?_ fun _ hb => hb
  unfold takeCell
  simp only [page_eq hpg]
  show ((h.pages.set idx _).map Page.toPageCells).map PageCells.start = _
  rw [List.map_set]
  refine set_starts (getElem?_table.mpr ⟨pg, hpg, rfl⟩) ?_
  split <;> rfl

theorem grows_bigAlloc (inv : AllocInv h objects) {total : Nat} (h8 : 8 ∣ total)
    (hmax : total + 7 + regionSize < 2 ^ 32) : Grows h (bigAlloc total h).2 := by
  have haligned : alignUp total = total := by
    rw [alignUp_eq (by omega)]
    omega
  have hround : (total + 7) / 8 * 8 = total := by omega
  unfold bigAlloc
  simp only [haligned]
  cases hfind : h.freeBigs.findIdx? (fun b => decide (total ≤ b.2)) with
  | some i =>
    obtain ⟨hlt, hle, -⟩ := List.findIdx?_eq_some_iff_getElem.mp hfind
    have hget : h.freeBigs[i]? = some h.freeBigs[i] := List.getElem?_eq_getElem hlt
    have hperm := swapRemove_perm hget
    refine ⟨le_rfl, fun a ha => Or.inl ha, fun b hb => Or.inl ?_⟩
    have hb : b ∈ h.bigsYoung ++ [((h.freeBigs.getD i (null, 0)).1, total)] ++ h.bigsOld ++
        swapRemove h.freeBigs i := hb
    simp only [List.mem_append, List.mem_singleton] at hb
    rcases hb with ((hb | rfl) | hb) | hb
    · exact ⟨b, by simp [Heap.bigs, hb], le_rfl, le_rfl⟩
    · refine ⟨h.freeBigs[i], by simp, ?_⟩
      simp only [List.getD_eq_getElem?_getD, hget, Option.getD_some]
      have hle : total ≤ h.freeBigs[i].2 := by simpa using hle
      exact ⟨le_rfl, by omega⟩
    · exact ⟨b, by simp [Heap.bigs, hb], le_rfl, le_rfl⟩
    · exact ⟨b, List.mem_append_right _ (hperm.subset (List.mem_cons_of_mem _ hb)), le_rfl, le_rfl⟩
  | none =>
    simp only [regionAlloc_eq inv.geometry.high hmax, hround]
    split
    · exact Grows.refl h
    · split
      · exact ⟨Nat.le_add_right _ _, fun a ha => Or.inl ha, fun b hb =>
          Or.inl ⟨b, hb, le_rfl, le_rfl⟩⟩
      · refine ⟨Nat.le_add_right _ _, fun a ha => Or.inl ha, fun b hb => ?_⟩
        have hb : b ∈ h.bigsYoung ++ [(h.top, total)] ++ h.bigsOld ++ h.freeBigs := hb
        simp only [List.mem_append, List.mem_singleton] at hb
        rcases hb with ((hb | rfl) | hb) | hb
        · exact Or.inl ⟨b, by simp [Heap.bigs, hb], le_rfl, le_rfl⟩
        · exact Or.inr le_rfl
        · exact Or.inl ⟨b, by simp [Heap.bigs, hb], le_rfl, le_rfl⟩
        · exact Or.inl ⟨b, by simp [hb], le_rfl, le_rfl⟩

theorem takeCell_chunk (inv : AllocInv h objects) {idx osize : Nat} (hopen : Open h idx osize) :
    (takeCell idx osize h).2.Chunk (takeCell idx osize h).1 osize := by
  obtain ⟨pg, hpg, hin, rfl, hfree⟩ := hopen
  have hp : h.table[idx]? = some pg.toPageCells := getElem?_table.mpr ⟨pg, hpg, rfl⟩
  obtain ⟨fl, used, c⟩ := (inv.page idx _ hp).carved hin
  have hmem : ∀ pg' : Page, pg' ∈ h.pages.set idx pg' := fun pg' =>
    List.mem_set (List.getElem?_eq_some_iff.mp hpg).1 pg'
  unfold takeCell
  simp only [page_eq hpg]
  cases fl with
  | nil =>
    have hnull : pg.freelist = null := c.thread
    rw [if_neg (not_not.mpr hnull)]
    exact Or.inl ⟨_, hmem _, hin, (c.bump_next hfree rfl).1, rfl⟩
  | cons s rest =>
    obtain ⟨hhead, hne, -⟩ := c.thread
    rw [if_pos (hhead ▸ hne), hhead]
    exact Or.inl ⟨_, hmem _, hin, c.free_holds List.mem_cons_self, rfl⟩

theorem bigAlloc_chunk {total : Nat} (h8 : 8 ∣ total) (hmax : total + 7 < 2 ^ 32)
    (hne : (bigAlloc total h).1 ≠ null) :
    (bigAlloc total h).2.Chunk (bigAlloc total h).1 total := by
  have haligned : alignUp total = total := by
    rw [alignUp_eq hmax]
    omega
  revert hne
  unfold bigAlloc
  simp only [haligned]
  split
  · exact fun _ => Or.inr (by simp [Heap.bigs, linkBig])
  · split
    · exact fun hne => absurd rfl hne
    · exact fun _ => Or.inr (by simp [Heap.bigs, linkBig])

/-- **A chunk of the class or of the size** that was asked for. -/
theorem allocChunk_chunk (inv : AllocInv h objects) {total : Nat} (h8 : 8 ∣ total)
    (hlow : 8 ≤ total) (hmax : total + 7 + regionSize < 2 ^ 32) :
    Grows h (allocChunk total h).2 ∧
      ((allocChunk total h).1 ≠ null →
        ∃ n, total ≤ n ∧ (allocChunk total h).2.Chunk (allocChunk total h).1 n) := by
  unfold allocChunk
  cases hclass : sizeClass total with
  | none =>
    exact ⟨grows_bigAlloc inv h8 hmax, fun hne => ⟨total, le_rfl, bigAlloc_chunk h8 (by omega) hne⟩⟩
  | some osize =>
    have hle : total ≤ osize := by simpa using List.find?_some hclass
    obtain ⟨pools, hpools, hqueues, q, hpi, hq⟩ := poolFor_spec inv.queues osize
    have inv₁ : AllocInv (poolFor osize h).2 objects := by
      rw [hpools]
      exact inv.with_pools hqueues
    obtain ⟨inv₂, -, hopen⟩ :=
      pageFor_spec inv₁ (by rw [hpools]; exact hpi) hq (sizeClass_some hclass hlow)
    have hgrows := (grows_poolFor osize h).trans (grows_pageFor inv₁ osize (poolFor osize h).1)
    dsimp only
    cases hfound : (pageFor osize (poolFor osize h).1 (poolFor osize h).2).1 with
    | none => exact ⟨hgrows, fun hne => absurd rfl hne⟩
    | some idx =>
      obtain ⟨pg, hpg, -⟩ := hopen idx hfound
      exact ⟨hgrows.trans (grows_takeCell hpg),
        fun _ => ⟨osize, hle, takeCell_chunk inv₂ (hopen idx hfound)⟩⟩

/-! ### Requests that wrap around -/

theorem takeCell_bump {idx osize : Nat} {pg : Page} (hpg : h.pages[idx]? = some pg)
    (hnull : pg.freelist = null) : (takeCell idx osize h).1 = pg.bump := by
  unfold takeCell
  simp only [page_eq hpg, if_neg (not_not.mpr hnull)]

/-- With no page of the class left, a whole page is taken, or there is none. -/
theorem pageFor_empty (inv : AllocInv h objects) {pi : Nat} (osize : Nat)
    (hempty : (trimmed pi h).getLast? = none) :
    pageFor osize pi h = (none, trimQueue pi h) ∨
      ∃ idx pg, (pageFor osize pi h).1 = some idx ∧ (pageFor osize pi h).2.pages[idx]? = some pg ∧
        pg.freelist = null ∧ 8 ≤ pg.bump := by
  have hhigh : (trimQueue pi h).top ≤ regionSize := inv.geometry.high
  have hlow : 8 ≤ (trimQueue pi h).top := inv.geometry.low
  simp only [pageFor, hempty]
  cases hfree : (trimQueue pi h).freePages.getLast? with
  | some idx =>
    obtain ⟨p, hp, -⟩ := inv.queues.free idx (List.mem_of_getLast? hfree)
    obtain ⟨pg, hpg, rfl⟩ := getElem?_table.mp hp
    refine Or.inr ⟨idx, Page.reset { pg with osize := osize }, rfl, ?_, rfl, (inv.start hp).1⟩
    show (h.pages.modify idx _)[idx]? = _
    rw [List.getElem?_modify, hpg]
    simp
  | none =>
    rw [regionAlloc_page hhigh]
    by_cases hroom : (trimQueue pi h).top + pageSize > regionSize
    · exact Or.inl (by simp [hroom])
    · have hne : (trimQueue pi h).top ≠ null := by
        unfold null
        omega
      refine Or.inr ⟨h.pages.length, (Page.carve (trimQueue pi h).top osize).reset, ?_, ?_, rfl,
        hlow⟩
      · simp only [if_neg hroom, if_neg hne]
        rfl
      · simp only [if_neg hroom, if_neg hne]
        show (h.pages ++ [_])[h.pages.length]? = _
        simp

/-- A request for nothing is one for a cell of four bytes, and no page has such cells. -/
theorem allocChunk_zero (inv : AllocInv h objects) :
    ((allocChunk 0 h).1 = null ∧ AllocInv (allocChunk 0 h).2 objects ∧
        Quiet objects h (allocChunk 0 h).2 ∧ Grows h (allocChunk 0 h).2) ∨
      8 ≤ (allocChunk 0 h).1 := by
  obtain ⟨pools, hpools, hqueues, q, hpi, hq⟩ := poolFor_spec inv.queues 4
  have inv₁ : AllocInv (poolFor 4 h).2 objects := by
    rw [hpools]
    exact inv.with_pools hqueues
  have hpi₁ : (poolFor 4 h).2.pools[(poolFor 4 h).1]? = some q := by rw [hpools]; exact hpi
  have quiet₁ : Quiet objects h (poolFor 4 h).2 := by
    rw [hpools]
    exact Quiet.of_pages rfl rfl rfl rfl rfl rfl
  obtain ⟨inv₂, quiet₂, -, hopen₂⟩ := trimQueue_spec inv₁ hpi₁
  have hempty : (trimmed (poolFor 4 h).1 (poolFor 4 h).2).getLast? = none := by
    by_contra hsome
    obtain ⟨idx, hidx⟩ := Option.ne_none_iff_exists'.mp hsome
    obtain ⟨pg, hpg, hin, hosize, -⟩ := hopen₂ idx hidx
    obtain ⟨fl, used, c⟩ := (inv₂.page idx _ (getElem?_table.mpr ⟨pg, hpg, rfl⟩)).carved hin
    have := c.osize.1
    omega
  have hclass : sizeClass 0 = some 4 := rfl
  simp only [allocChunk, hclass]
  rcases pageFor_empty inv₁ 4 hempty with hnone | ⟨idx, pg, hidx, hpg, hnull, hbump⟩
  · left
    rw [hnone]
    exact ⟨rfl, inv₂, quiet₁.trans quiet₂,
      (grows_poolFor 4 h).trans (Grows.of_eq rfl rfl fun _ hb => hb)⟩
  · right
    rw [hidx]
    simp only
    rw [takeCell_bump hpg hnull]
    exact hbump

/-- A request that is too large for the region fails, or wraps the region's top
around. -/
theorem allocChunk_huge (inv : AllocInv h objects) {total : Nat} (h8 : 8 ∣ total)
    (hlow : regionSize < total) (hmax : total + 7 < 2 ^ 32) :
    allocChunk total h = (null, h) ∨
      (allocChunk total h).1 = h.top ∧ 2 ^ 32 ≤ h.top + total := by
  have hhigh := inv.geometry.high
  have haligned : alignUp total = total := by
    rw [alignUp_eq hmax]
    omega
  have hclass : sizeClass total = none := by
    have hall : ∀ c ∈ sizeClasses, c ≤ regionSize := by decide
    refine List.find?_eq_none.mpr fun c hc hle => ?_
    have := hall c hc
    have hle : total ≤ c := by simpa using hle
    omega
  have hfind : h.freeBigs.findIdx? (fun b => decide (total ≤ b.2)) = none := by
    refine List.findIdx?_eq_none_iff.mpr fun b hb => ?_
    have := inv.geometry.block b (List.mem_append_right _ hb)
    simp only [decide_eq_false_iff_not]
    omega
  have hlow' := inv.geometry.low
  simp only [allocChunk, hclass, bigAlloc, haligned, hfind, regionAlloc]
  by_cases hwrap : h.top + total < 2 ^ 32
  · left
    have hbig : h.top + total > regionSize := by omega
    simp only [u32, Nat.mod_eq_of_lt hwrap, if_pos hbig, if_true]
  · right
    have hne : h.top ≠ null := by
      unfold null
      omega
    have hsmall : ¬ u32 (h.top + total) > regionSize := by
      unfold u32 regionSize at *
      omega
    simp only [if_neg hsmall, if_neg hne]
    exact ⟨trivial, by omega⟩

end Allocation

/-! ### Collections -/

section Collection

variable {h h' : Heap} {c : Config}

/-- What every step of a fold leaves alone, the fold does. -/
theorem foldl_leaves {σ α β : Type} {f : σ → α → σ} {g : σ → β} (hf : ∀ s a, g (f s a) = g s)
    (l : List α) (s : σ) : g (l.foldl f s) = g s := by
  induction l generalizing s with
  | nil => rfl
  | cons a l ih => exact (ih (f s a)).trans (hf s a)

theorem top_mark {fuel : Nat} (hmark : mark fuel h = some h') : h'.top = h.top := by
  have hvisit : ∀ v (g : Heap), (markVisit v g).2.top = g.top := by
    intro v g
    unfold markVisit onMarked remember setGcBits
    dsimp only
    split
    · rfl
    · split <;> split <;> first | rfl | (split <;> rfl)
  have hentry : ∀ (acc : List Nat × Heap) p, (restoreEntry acc p).2.top = acc.2.top := by
    intro acc p
    unfold restoreEntry remember setGcBits
    dsimp only
    split <;> rfl
  have hrestore : h.restore.2.top = h.top :=
    foldl_leaves (g := fun acc : List Nat × Heap => acc.2.top) hentry _ _
  exact drain_induct (fun _ g => g.top = h.top)
    (fun v _ g hg => (hvisit v g).trans hg) hmark hrestore

theorem top_walkPage (full : Bool) (idx : Nat) (h : Heap) : (walkPage full idx h).top = h.top := by
  unfold walkPage enqueue poolFor pushPage
  dsimp only
  split
  · split <;> split <;> rfl
  · rfl

theorem top_sweep (full : Bool) (h : Heap) : (sweep full h).heap.top = h.top := by
  have hpage : ∀ (s : Sweep) idx, (sweepPage full s idx).heap.top = s.heap.top := by
    intro s idx
    unfold sweepPage
    dsimp only
    split
    · rfl
    split
    · rfl
    split
    · rfl
    · exact top_walkPage full idx s.heap
  have hbig : ∀ (s : Sweep) b, (sweepBig full s b).heap.top = s.heap.top := by
    intro s b
    unfold sweepBig
    dsimp only
    split
    · split <;> rfl
    · rfl
  have hpages : (sweepPages full h).heap.top = h.top :=
    foldl_leaves (g := fun s : Sweep => s.heap.top) hpage _ _
  have hyoung : ∀ (l : List (Nat × Nat)) (s : Sweep),
      (l.foldl (sweepBig full) s).heap.top = s.heap.top :=
    fun l s => foldl_leaves (g := fun s : Sweep => s.heap.top) hbig l s
  have hdemote : ∀ (s : Sweep) b, (demoteBig s b).heap.top = s.heap.top := fun _ _ => rfl
  have hold : ∀ (l : List (Nat × Nat)) (s : Sweep), (l.foldl demoteBig s).heap.top = s.heap.top :=
    fun l s => foldl_leaves (g := fun s : Sweep => s.heap.top) hdemote l s
  refine Eq.trans ?_ hpages
  show (sweepBigs full (sweepPages full h)).heap.top = _
  unfold sweepBigs
  dsimp only
  split
  · rw [hold]
    exact hyoung _ _
  · exact hyoung _ _

theorem top_collectInner {full : Bool} {fuel freed : Nat}
    (hcollect : collectInner full fuel h = some (freed, h')) : h'.top = h.top := by
  obtain ⟨h₁, hmark, heq⟩ := Option.map_eq_some_iff.mp hcollect
  obtain ⟨-, rfl⟩ := Prod.mk.inj heq
  have hentry : ∀ (g : Heap) (p : Nat), (setGcBits p 1 g).top = g.top := fun _ _ => rfl
  have hqueue : ∀ g : Heap, (requeue full g).top = g.top := by
    intro g
    unfold requeue
    split
    · rfl
    · exact foldl_leaves (g := Heap.top) hentry _ _
  rw [hqueue]
  exact (top_sweep full h₁).trans (top_mark hmark)

theorem grows_collect (i : Inv c) {full : Bool} {fuel freed : Nat}
    (hcollect : collectInner full fuel c.heap = some (freed, h')) : Grows c.heap h' := by
  have k := i.collect hcollect
  refine Grows.of_eq (top_collectInner hcollect) ?_ fun b hb => k.blocks.subset hb
  refine List.ext_getElem? fun j => ?_
  simp only [Heap.table, List.getElem?_map]
  cases hj : h'.pages[j]? with
  | some pg' =>
    obtain ⟨pg, hpg, hstart, -⟩ := k.shape j pg' hj
    simp [hpg, hstart]
  | none =>
    have : c.heap.pages[j]? = none := by
      rw [List.getElem?_eq_none_iff] at hj ⊢
      rw [← k.length]
      exact hj
    simp [this]

end Collection

/-! ### `memory::alloc` -/

/-- The linear memory of a `wasm32` instance, and where the region is in it.  The linker
places no data in the first kilobyte, and what the Rust allocator hands out (the page
table, for one) lies behind the statics. -/
structure LinearMemory where
  base : Nat
  size : Nat
  low : 2 ^ 10 ≤ base
  inside : base + regionSize + 2 ^ 16 ≤ size
  limit : size ≤ 2 ^ 32

/-- The object of `size` bytes at `v` can be filled.  Its fields end at most seven bytes
before it does, and writing one outside of the linear memory traps. -/
def LinearMemory.CanFill (M : LinearMemory) (v size : Nat) : Prop :=
  M.base + v + size ≤ M.size + 7

instance (M : LinearMemory) (v size : Nat) : Decidable (M.CanFill v size) := Nat.decLe _ _

/-- What a call of `memory::alloc` ends in. -/
inductive Outcome
  | ok (v : Nat)
  | tooLarge
  | outOfMemory
  /-- The fill left the linear memory; this is the end of the instance. -/
  | trap
deriving DecidableEq, Repr

/-- `collect_inner`; `none` if the fuel does not suffice. -/
noncomputable def Config.collect (full : Bool) (fuel : Nat) (c : Config) : Option Config :=
  (collectInner full fuel c.heap).map fun r => ⟨r.2, c.survivors r.2⟩

/-- One attempt of `object::alloc`. -/
def Config.attempt (ty size : Nat) (refs : List Nat) (c : Config) : Nat × Config :=
  let r := allocObject ty size refs c.heap
  (r.1, ⟨r.2, if r.1 = null then c.objects else insert r.1 c.objects⟩)

/-- `maybe_collect`; whether it collects, and how, is up to the policy. -/
noncomputable def Config.maybeCollect (trigger : Option Bool) (fuel : Nat) (c : Config) :
    Option Config :=
  match trigger with
  | some full => c.collect full fuel
  | none => some c

/-- `object::alloc`: under pressure it collects and tries again, once the core types
exist. -/
noncomputable def Config.objectAlloc (trigger : Option Bool) (bootstrapped : Bool) (fuel : Nat)
    (ty size : Nat) (refs : List Nat) (c : Config) : Option (Nat × Config) := do
  let c ← c.maybeCollect trigger fuel
  let r := c.attempt ty size refs
  if r.1 ≠ null ∨ bootstrapped = false then return r
  let c ← r.2.collect false fuel
  let r := c.attempt ty size refs
  if r.1 ≠ null then return r
  let c ← r.2.collect true fuel
  return c.attempt ty size refs

/-- `memory::alloc`, after it has looked up the type.  Two words come before the elements;
the elements are zeroed, which traps if they are not inside the linear memory. -/
noncomputable def Config.memoryAlloc (M : LinearMemory) (trigger : Option Bool)
    (bootstrapped : Bool) (fuel : Nat) (mtype : Nat) (elem : Storage.TypeObj) (len : Nat)
    (c : Config) : Option (Outcome × Config) :=
  let nbytes := len * Storage.elemSize elem
  if nbytes < 2 ^ 32 - 1 - 8 then
    (c.objectAlloc trigger bootstrapped fuel mtype (8 + nbytes) []).map fun r =>
      if r.1 = null then (.outOfMemory, r.2)
      else if M.size < M.base + (r.1 + 8) + nbytes then (.trap, r.2)
      else (.ok r.1, r.2)
  else some (.tooLarge, c)

section Buffers

variable {c c' : Config} {v : Nat}

/-- A new object of `size` bytes is in a chunk that holds its header and its data. -/
def Placed (c : Config) (v size : Nat) : Prop :=
  v ∈ c.objects ∧ ∃ s n, v = s + headerSize ∧ headerSize + size ≤ n ∧ c.heap.Chunk s n

/-- How `object::alloc` ends for a request of `size` bytes: it fails, or it hands out a
chunk of that size, or the object goes beyond every linear memory. -/
inductive Ends (size : Nat) (c : Config) : Nat × Config → Prop
  | fails {c' : Config} : Inv c' → Grows c.heap c'.heap → Ends size c (null, c')
  | places {v : Nat} {c' : Config} : v ≠ null → Inv c' → Grows c.heap c'.heap →
      Placed c' v size → Ends size c (v, c')
  | overruns {v : Nat} {c' : Config} :
      v ≠ null → 2 ^ 32 + 7 < 2 ^ 10 + v + size → Ends size c (v, c')

theorem grows_allocObject (ty : Nat) (refs : List Nat) {h : Heap} {size : Nat}
    (g : Grows h (allocChunk (chunkSize size) h).2) : Grows h (allocObject ty size refs h).2 := by
  unfold allocObject
  dsimp only
  split
  · exact g
  · exact g.trans (Grows.of_eq rfl rfl fun _ hb => hb)

theorem allocObject_fst (h : Heap) (ty size : Nat) (refs : List Nat) :
    (allocObject ty size refs h).1 = if (allocChunk (chunkSize size) h).1 = null then null
      else (allocChunk (chunkSize size) h).1 + headerSize := by
  unfold allocObject
  dsimp only
  split <;> rfl

theorem allocObject_eq_null {h : Heap} {ty size : Nat} {refs : List Nat}
    (hnull : (allocChunk (chunkSize size) h).1 = null) :
    allocObject ty size refs h = (null, (allocChunk (chunkSize size) h).2) := by
  unfold allocObject
  dsimp only
  rw [if_pos hnull]

/-- A request within the limit. -/
theorem attempt_small (i : Inv c) {ty size : Nat} (refs : List Nat) (hsize : size ≤ maxRequest) :
    Ends size c (c.attempt ty size refs) := by
  obtain ⟨h8, hlow, hmax⟩ := chunkSize_spec hsize
  obtain ⟨g, hchunk⟩ := allocChunk_chunk i.alloc h8 hlow hmax
  have g := grows_allocObject ty refs g
  have inv : Inv ⟨(allocObject ty size refs c.heap).2,
      if (allocObject ty size refs c.heap).1 = null then c.objects
      else insert (allocObject ty size refs c.heap).1 c.objects⟩ := (i.allocObject hsize rfl).1
  have hfst := allocObject_fst c.heap ty size refs
  unfold Config.attempt
  dsimp only
  by_cases hnull : (allocChunk (chunkSize size) c.heap).1 = null
  · rw [if_pos hnull] at hfst
    rw [hfst] at inv ⊢
    exact .fails inv g
  · rw [if_neg hnull] at hfst
    have hne : (allocObject ty size refs c.heap).1 ≠ null := by
      rw [hfst]
      unfold headerSize null
      omega
    obtain ⟨n, hle, hn⟩ := hchunk hnull
    refine .places hne inv g ⟨?_, _, n, hfst, ?_, ?_⟩
    · rw [if_neg hne]
      exact Finset.mem_insert_self _ _
    · rw [chunkSize_eq hsize] at hle
      unfold headerSize
      omega
    · unfold allocObject
      simp only [if_neg hnull]
      exact hn

/-- A request beyond the limit fails, or the object overruns the linear memory. -/
theorem attempt_large (i : Inv c) {ty size : Nat} (refs : List Nat) (hsize : maxRequest < size)
    (hmax : size < 2 ^ 32) : Ends size c (c.attempt ty size refs) := by
  have hfst := allocObject_fst c.heap ty size refs
  have hfail : (allocChunk (chunkSize size) c.heap).1 = null →
      AllocInv (allocChunk (chunkSize size) c.heap).2 c.objects →
      Quiet c.objects c.heap (allocChunk (chunkSize size) c.heap).2 →
      Grows c.heap (allocChunk (chunkSize size) c.heap).2 →
      Ends size c (c.attempt ty size refs) := by
    intro hnull inv quiet g
    rw [Config.attempt, allocObject_eq_null hnull]
    exact .fails ⟨inv, quiet.colors i.alloc.toLayout i.colors⟩ g
  have hover : ∀ s, (allocChunk (chunkSize size) c.heap).1 = s → 8 ≤ s →
      2 ^ 32 + 7 < 2 ^ 10 + (s + headerSize) + size → Ends size c (c.attempt ty size refs) := by
    intro s hs hlow hend
    have hne : s ≠ null := by
      unfold null
      omega
    rw [hs, if_neg hne] at hfst
    have hne' : s + headerSize ≠ null := by
      unfold headerSize null
      omega
    refine .overruns ?_ ?_
    · rw [hfst]
      exact hne'
    · rw [hfst]
      exact hend
  have hlow := i.alloc.geometry.low
  unfold headerSize at hover
  unfold maxRequest at hsize
  by_cases hwrap : size < 2 ^ 32 - 15
  · -- the chunk size is right, and too large for the region
    have hchunk : chunkSize size = 8 + (size + 7) / 8 * 8 := by
      unfold chunkSize u32 headerSize
      rw [alignUp_eq (by omega), Nat.mod_eq_of_lt (by omega)]
    have hbig : regionSize < chunkSize size := by
      unfold regionSize
      omega
    rcases allocChunk_huge i.alloc (by omega) hbig (by omega) with hnull | ⟨htop, hend⟩
    · rw [hnull] at hfail
      exact hfail rfl i.alloc (Quiet.of_pages rfl rfl rfl rfl rfl rfl) (Grows.refl _)
    · exact hover _ htop hlow (by omega)
  · by_cases hzero : size < 2 ^ 32 - 7
    · -- the header wraps the size around to nothing
      have hchunk : chunkSize size = 0 := by
        unfold chunkSize u32 headerSize
        rw [alignUp_eq (by omega)]
        omega
      rw [hchunk] at hfail hover
      rcases allocChunk_zero i.alloc with ⟨hnull, inv, quiet, g⟩ | hge
      · exact hfail hnull inv quiet g
      · exact hover _ rfl hge (by omega)
    · -- rounding up wraps it around, and the header is left
      have hchunk : chunkSize size = 8 := by
        unfold chunkSize alignUp u32 headerSize
        omega
      rw [hchunk] at hfail hover
      have g := (allocChunk_chunk i.alloc (dvd_refl 8) le_rfl (by decide)).1
      rcases allocChunk_spec i.alloc (dvd_refl 8) le_rfl (by decide) with
        out | ⟨hnull, inv, quiet⟩
      · have := (out.inv.object_lt_top (Finset.mem_insert_self _ _)).1
        exact hover _ rfl this (by omega)
      · exact hfail hnull inv quiet g

theorem attempt_ends (i : Inv c) (ty : Nat) {size : Nat} (refs : List Nat)
    (hsize : size < 2 ^ 32) : Ends size c (c.attempt ty size refs) := by
  by_cases hle : size ≤ maxRequest
  · exact attempt_small i refs hle
  · exact attempt_large i refs (by omega) hsize

theorem collect_spec_config (i : Inv c) {full : Bool} {fuel : Nat}
    (hcollect : c.collect full fuel = some c') : Inv c' ∧ Grows c.heap c'.heap := by
  obtain ⟨⟨freed, h⟩, hinner, rfl⟩ := Option.map_eq_some_iff.mp hcollect
  have k := i.collect hinner
  exact ⟨⟨k.inv, k.colors⟩, grows_collect i hinner⟩

/-- What an attempt ends in after other steps, the whole ends in. -/
theorem Ends.after {size : Nat} {r : Nat × Config} (h : Ends size c' r)
    (g : Grows c.heap c'.heap) : Ends size c r := by
  cases h with
  | fails i g' => exact .fails i (g.trans g')
  | places hne i g' hplaced => exact .places hne i (g.trans g') hplaced
  | overruns hne hover => exact .overruns hne hover

/-- A failed attempt leaves the invariant. -/
theorem Ends.of_null {size : Nat} {r : Nat × Config} (h : Ends size c r) (hnull : r.1 = null) :
    Inv r.2 ∧ Grows c.heap r.2.heap := by
  cases h with
  | fails i g => exact ⟨i, g⟩
  | places hne => exact absurd hnull hne
  | overruns hne => exact absurd hnull hne

/-- **`object::alloc`**, with its collections. -/
theorem objectAlloc_ends (i : Inv c) {trigger : Option Bool} {bootstrapped : Bool}
    {fuel ty size : Nat} {refs : List Nat} (hsize : size < 2 ^ 32) {r : Nat × Config}
    (h : c.objectAlloc trigger bootstrapped fuel ty size refs = some r) : Ends size c r := by
  unfold Config.objectAlloc at h
  obtain ⟨c₁, hc₁, h⟩ := Option.bind_eq_some_iff.mp h
  have h₁ : Inv c₁ ∧ Grows c.heap c₁.heap := by
    cases trigger with
    | none =>
      obtain rfl := Option.some.inj hc₁
      exact ⟨i, Grows.refl _⟩
    | some full => exact collect_spec_config i hc₁
  have e₁ := (attempt_ends h₁.1 ty refs hsize).after h₁.2
  dsimp only at h
  split at h
  · obtain rfl := Option.some.inj h
    exact e₁
  · rename_i hnull
    obtain ⟨i₁, g₁⟩ := e₁.of_null (by simpa using (not_or.mp hnull).1)
    obtain ⟨c₂, hc₂, h⟩ := Option.bind_eq_some_iff.mp h
    obtain ⟨i₂, g₂⟩ := collect_spec_config i₁ hc₂
    have e₂ := (attempt_ends i₂ ty refs hsize).after (g₁.trans g₂)
    split at h
    · obtain rfl := Option.some.inj h
      exact e₂
    · rename_i hnull₂
      obtain ⟨i₃, g₃⟩ := e₂.of_null (by simpa using hnull₂)
      obtain ⟨c₃, hc₃, h⟩ := Option.bind_eq_some_iff.mp h
      obtain ⟨i₄, g₄⟩ := collect_spec_config i₃ hc₃
      obtain rfl := Option.some.inj h
      exact (attempt_ends i₄ ty refs hsize).after (g₃.trans g₄)

/-- **`memory::alloc` keeps the invariant** unless it traps, and a buffer it returns is
placed. -/
theorem memoryAlloc_spec (i : Inv c) {M : LinearMemory} {trigger : Option Bool}
    {bootstrapped : Bool} {fuel mtype len : Nat} {elem : Storage.TypeObj} {o : Outcome}
    (h : c.memoryAlloc M trigger bootstrapped fuel mtype elem len = some (o, c')) :
    o = .trap ∨ Inv c' ∧ Grows c.heap c'.heap ∧
      ∀ v, o = .ok v → Placed c' v (8 + len * Storage.elemSize elem) := by
  unfold Config.memoryAlloc at h
  dsimp only at h
  split at h
  · obtain ⟨r, hr, h⟩ := Option.map_eq_some_iff.mp h
    have e := objectAlloc_ends i (by omega) hr
    cases e with
    | fails i' g =>
      rw [if_pos rfl] at h
      obtain ⟨rfl, rfl⟩ := Prod.mk.inj h
      exact Or.inr ⟨i', g, by simp⟩
    | places hne i' g hplaced =>
      rw [if_neg hne] at h
      split at h
      · exact Or.inl (Prod.mk.inj h).1.symm
      · obtain ⟨rfl, rfl⟩ := Prod.mk.inj h
        refine Or.inr ⟨i', g, ?_⟩
        rintro v ⟨⟩
        exact hplaced
    | @overruns v c'' hne hover =>
      -- the elements end behind the largest linear memory
      have htrap : M.size < M.base + (v + 8) + len * Storage.elemSize elem := by
        have h₁ := M.low
        have h₂ := M.limit
        omega
      rw [if_neg hne, if_pos htrap] at h
      exact Or.inl (Prod.mk.inj h).1.symm
  · obtain ⟨rfl, rfl⟩ := Prod.mk.inj (Option.some.inj h)
    exact Or.inr ⟨i, Grows.refl _, by simp⟩

/-- A run: requests of any size, and the ranges of the region that were carved for layouts.
Whoever allocates an object, a buffer or a layout fills it before anything else happens, and
a trap there is the end of the run. -/
inductive Runs (M : LinearMemory) : Config → List (Nat × Nat) → Prop
  | init : Runs M ⟨Heap.init, ∅⟩ []
  | step {c c' : Config} {layouts : List (Nat × Nat)} : Runs M c layouts → Step maxRequest c c' →
      Runs M c' layouts
  | layout {c : Config} {layouts : List (Nat × Nat)} {size off : Nat} {h : Heap} :
      Runs M c layouts → size < 2 ^ 32 → regionAlloc size c.heap = (off, h) → off ≠ null →
      M.CanFill off size → Runs M ⟨h, c.objects⟩ ((off, alignUp size) :: layouts)
  /-- `object::alloc`; what the object refers to is looked at when it is used. -/
  | object {c c' : Config} {layouts : List (Nat × Nat)} {trigger : Option Bool}
      {bootstrapped : Bool} {fuel ty size : Nat} {refs : List Nat} {v : Nat} :
      Runs M c layouts → size < 2 ^ 32 →
      c.objectAlloc trigger bootstrapped fuel ty size refs = some (v, c') →
      (v ≠ null → M.CanFill v size) → Runs M c' layouts
  | memory {c c' : Config} {layouts : List (Nat × Nat)} {trigger : Option Bool}
      {bootstrapped : Bool} {fuel mtype len : Nat} {elem : Storage.TypeObj} {o : Outcome} :
      Runs M c layouts →
      c.memoryAlloc M trigger bootstrapped fuel mtype elem len = some (o, c') → o ≠ .trap →
      Runs M c' layouts

/-- No step gives memory back to the region. -/
theorem grows_step (i : Inv c) (hstep : Step maxRequest c c') : Grows c.heap c'.heap := by
  cases hstep with
  | alloc ty size refs v h hsize _ halloc =>
    obtain ⟨h8, hlow, hmax⟩ := chunkSize_spec hsize
    have g := grows_allocObject ty refs (allocChunk_chunk i.alloc h8 hlow hmax).1
    rw [halloc] at g
    exact g
  | carve size hsize =>
    have hmax : size + 7 + regionSize < 2 ^ 32 := by
      unfold maxRequest at hsize
      unfold regionSize
      omega
    simp only [regionAlloc_eq i.alloc.geometry.high hmax]
    split
    · exact Grows.refl _
    · exact ⟨Nat.le_add_right _ _, fun a ha => Or.inl ha, fun b hb =>
        Or.inl ⟨b, hb, le_rfl, le_rfl⟩⟩
  | store v j r hv hr =>
    have hbarrier : Grows c.heap (writeBarrier v r c.heap) := by
      unfold writeBarrier
      split
      · exact Grows.of_eq rfl rfl fun _ hb => hb
      · exact Grows.refl _
    exact hbarrier.trans (Grows.of_eq rfl rfl fun _ hb => hb)
  | setType | push | pop | setSlot | pin | unpin => exact Grows.of_eq rfl rfl fun _ hb => hb
  | collect full fuel freed h hcollect => exact grows_collect i hcollect

/-- What is carved from the region and can be filled was within the limit: a larger request
is answered only where the sum wraps around. -/
theorem le_maxRequest_of_canFill {h h' : Heap} (hhigh : h.top ≤ regionSize) {size off : Nat}
    (hsize : size < 2 ^ 32) (halloc : regionAlloc size h = (off, h')) (hne : off ≠ null)
    {M : LinearMemory} (hfill : M.CanFill off size) : size ≤ maxRequest := by
  have hlow := M.low
  have hlimit := M.limit
  unfold LinearMemory.CanFill at hfill
  unfold regionAlloc at halloc
  dsimp only at halloc
  split at halloc
  · exact absurd (Prod.mk.inj halloc).1.symm hne
  · rename_i hroom
    obtain ⟨rfl, -⟩ := Prod.mk.inj halloc
    unfold regionSize alignUp u32 at *
    unfold maxRequest
    omega

/-- **Every run keeps the invariant**, and no page or block is laid over a layout. -/
theorem Runs.inv {M : LinearMemory} {layouts : List (Nat × Nat)} (hc : Runs M c layouts) :
    Inv c ∧ Reserved c.heap layouts := by
  induction hc with
  | init => exact ⟨inv_init, fun r hr => absurd hr List.not_mem_nil⟩
  | step _ hstep ih => exact ⟨ih.1.step hstep, (grows_step ih.1 hstep).reserved ih.2⟩
  | @layout c layouts size off h _ hlt halloc hne hfill ih =>
    have hsize := le_maxRequest_of_canFill ih.1.alloc.geometry.high hlt halloc hne hfill
    have hmax : size + 7 + regionSize < 2 ^ 32 := by
      unfold maxRequest at hsize
      unfold regionSize
      omega
    have inv := ih.1.regionAlloc hsize
    have g := grows_step ih.1 (Step.carve c size hsize)
    rw [halloc] at inv g
    refine ⟨inv, fun r hr => ?_⟩
    rcases List.mem_cons.mp hr with rfl | hr
    · rw [regionAlloc_eq ih.1.alloc.geometry.high hmax] at halloc
      split at halloc
      · exact absurd (Prod.mk.inj halloc).1.symm hne
      · obtain ⟨rfl, rfl⟩ := Prod.mk.inj halloc
        have hgeo := ih.1.alloc.geometry
        rw [alignUp_eq (by omega)]
        exact ⟨le_rfl, fun a ha => Or.inr (hgeo.start a ha).2.2,
          fun b hb => Or.inr (hgeo.block b hb).2.2.2⟩
    · exact g.reserved ih.2 r hr
  | @object c c' layouts _ _ _ _ size _ v _ hlt halloc hfill ih =>
    cases objectAlloc_ends ih.1 hlt halloc with
    | fails inv g => exact ⟨inv, g.reserved ih.2⟩
    | places _ inv g => exact ⟨inv, g.reserved ih.2⟩
    | overruns hne hover =>
      have hfill : M.base + v + size ≤ M.size + 7 := hfill hne
      have hlow := M.low
      have hlimit := M.limit
      omega
  | memory _ hmem hne ih =>
    rcases memoryAlloc_spec ih.1 hmem with htrap | ⟨inv, g, -⟩
    · exact absurd htrap hne
    · exact ⟨inv, g.reserved ih.2⟩

/-- **Buffers fit.**  If `memory::alloc` returns a buffer, of whatever element type and
length, then its chunk has room for the header, the two words and the elements, lies
inside the region, and overlaps no other object and no layout. -/
theorem memoryAlloc_fits (M : LinearMemory) {c : Config} {layouts : List (Nat × Nat)}
    (hc : Runs M c layouts) (trigger : Option Bool) (bootstrapped : Bool) (fuel mtype : Nat)
    (elem : Storage.TypeObj) (len v : Nat) (c' : Config)
    (h : c.memoryAlloc M trigger bootstrapped fuel mtype elem len = some (.ok v, c')) :
    ∃ s n, v = s + headerSize ∧ v ∈ c'.objects ∧ c'.heap.Chunk s n ∧
      headerSize + (8 + len * Storage.elemSize elem) ≤ n ∧ 8 ≤ s ∧ s + n ≤ regionSize ∧
      (∀ t, t + headerSize ∈ c'.objects → t ≠ s →
        (∃ m, c'.heap.Chunk t m) ∧ ∀ m, c'.heap.Chunk t m → Apart (s, n) (t, m)) ∧
      ∀ r ∈ layouts, Apart (s, n) r := by
  obtain ⟨i, hres⟩ := hc.inv
  rcases memoryAlloc_spec i h with htrap | ⟨i', g, hplaced⟩
  · cases htrap
  · obtain ⟨hmem, s, n, rfl, hle, hchunk⟩ := hplaced v rfl
    have inv := i'.alloc.toLayout
    obtain ⟨hlow, hhigh⟩ := inv.chunk_range hmem hchunk
    refine ⟨s, n, rfl, hmem, hchunk, hle, hlow, hhigh, fun t ht hne => ?_, fun r hr => ?_⟩
    · exact ⟨inv.exists_chunk ht, fun m hm => inv.chunks_apart hmem ht hne.symm hchunk hm⟩
    · obtain ⟨-, hstarts, hblocks⟩ := g.reserved hres r hr
      exact (inv.apart_chunk hmem hchunk hstarts fun b hb =>
        hblocks b (List.mem_append_left _ hb)).symm

end Buffers

/-- Four mebibytes of memory, with the region in the second. -/
def smallMemory : LinearMemory where
  base := 2 ^ 20
  size := 2 ^ 22
  low := by decide
  inside := by decide
  limit := by decide

/-- The initial heap with one layout of 12 bytes. -/
def withLayout : Config := ⟨(regionAlloc 12 Heap.init).2, ∅⟩

/-- Three elements of eight bytes. -/
theorem memoryAlloc_fits_three :
    ∃ c' s n, withLayout.memoryAlloc smallMemory none true 0 0 (.builtin .int64) 3 =
        some (.ok 32, c') ∧
      32 = s + headerSize ∧ c'.heap.Chunk s n ∧ 8 + (8 + 3 * 8) ≤ n ∧ s + n ≤ regionSize ∧
      Apart (s, n) (8, 16) := by
  have hc : Runs smallMemory withLayout [(8, 16)] := by
    have h : regionAlloc 12 Heap.init = (8, withLayout.heap) := rfl
    exact Runs.layout .init (by decide) h (by decide) (by decide)
  have hok : withLayout.memoryAlloc smallMemory none true 0 0 (.builtin .int64) 3 =
      some (.ok 32, (withLayout.attempt 0 32 []).2) := rfl
  obtain ⟨s, n, hs, -, hchunk, hle, -, hin, -, hapart⟩ :=
    memoryAlloc_fits smallMemory hc none true 0 0 (.builtin .int64) 3 32 _ hok
  exact ⟨_, s, n, hok, hs, hchunk, hle, hin, hapart (8, 16) (by simp)⟩

end Ruju.Gc
