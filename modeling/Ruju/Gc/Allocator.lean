import Mathlib.Tactic.Ring
import Ruju.Gc.Heap

/-!
# The allocator's invariant

The allocator hands out cells of pages and big blocks.  Its invariant `AllocInv`
relates the heap to the set of objects in it.  It consists of the counters and of a
`Layout`, in parts that change independently.

* `Geometry`: where pages and blocks lie.  It depends on the page starts only, so
  nothing that happens inside a page touches it.
* `PageOk`, one for every page: the free list and the never-used tail are exactly
  the cells without an object.
* `Queues`: a pool's queue lists pages of its class that are in use, the list of
  released pages those that are not.

Whatever happens to one page is an instance of `Layout.set_page`.  The invariant
reads the header words of free cells only, so what the mark phase or the mutator does to the
headers of objects leaves it alone (`Layout.congr`).
-/

namespace Ruju.Gc

open Heap

/-! ### The parts -/

/-- Two blocks, as offset and size, do not overlap. -/
def Apart (a b : Nat × Nat) : Prop := a.1 + a.2 ≤ b.1 ∨ b.1 + b.2 ≤ a.1

variable {b : Nat × Nat}

theorem Apart.symm {a : Nat × Nat} (h : Apart a b) : Apart b a := Or.symm h

/-- Where the pages (by their starts) and the big blocks lie. -/
structure Geometry (top : Nat) (starts : List Nat) (blocks : List (Nat × Nat)) :
    Prop where
  low : 8 ≤ top
  high : top ≤ regionSize
  aligned : 8 ∣ top
  start : ∀ a ∈ starts, 8 ≤ a ∧ 8 ∣ a ∧ a + pageSize ≤ top
  sorted : starts.Pairwise fun a b => a + pageSize ≤ b
  block : ∀ b ∈ blocks, 8 ≤ b.1 ∧ 8 ∣ b.1 ∧ 0 < b.2 ∧ b.1 + b.2 ≤ top
  blocks_apart : blocks.Pairwise Apart
  block_start : ∀ b ∈ blocks, ∀ a ∈ starts, Apart b (a, pageSize)

namespace PageCells

/-- The page's range. -/
def Holds (p : PageCells) (s : Nat) : Prop := p.start ≤ s ∧ s < p.start + pageSize

instance (p : PageCells) (s : Nat) : Decidable (p.Holds s) :=
  inferInstanceAs (Decidable (_ ∧ _))

/-- One of the first `used` cells. -/
def IsSlot (p : PageCells) (used : Nat) (s : Nat) : Prop :=
  ∃ k < used, s = p.start + k * p.osize

end PageCells

/-- A page of which the first `used` cells have been handed out at some time, those
in `fl` being free again. -/
structure Carved (word : Nat → Nat) (objects : Finset Nat) (p : PageCells)
    (fl : List Nat) (used : Nat) : Prop where
  osize : 8 ≤ p.osize ∧ 8 ∣ p.osize
  bump : p.bump = p.start + used * p.osize
  room : used * p.osize ≤ pageSize
  thread : Threaded null word p.freelist fl
  nodup : fl.Nodup
  slot : ∀ s ∈ fl, p.IsSlot used s
  objects : ∀ s, p.Holds s → (s + headerSize ∈ objects ↔ p.IsSlot used s ∧ s ∉ fl)
  nfree : p.nfree = fl.length + (pageSize / p.osize - used)
  liveN : p.liveN + fl.length = used

/-- A page in use is carved, any other holds nothing. -/
structure PageOk (word : Nat → Nat) (objects : Finset Nat) (p : PageCells) : Prop where
  carved : p.inUse = true → ∃ fl used, Carved word objects p fl used
  released : p.inUse = false →
    p.liveN = 0 ∧ ∀ s, p.Holds s → s + headerSize ∉ objects

/-- What the pools' queues and the list of released pages point at. -/
structure Queues (table : List PageCells) (pools : List Pool) (freePages : List Nat) :
    Prop where
  queue : ∀ q ∈ pools, ∀ idx ∈ q.pageQ,
    ∃ p, table[idx]? = some p ∧ p.inUse = true ∧ p.osize = q.osize
  classes : (pools.map Pool.osize).Nodup
  free : ∀ idx ∈ freePages, ∃ p, table[idx]? = some p ∧ p.inUse = false
  free_nodup : freePages.Nodup

namespace Heap

/-- The cell bookkeeping of all pages. -/
def table (h : Heap) : List PageCells := h.pages.map Page.toPageCells

/-- The big objects. -/
def bigs (h : Heap) : List (Nat × Nat) := h.bigsYoung ++ h.bigsOld

end Heap

/-- Where the objects are, and what the free lists and queues say about the rest. -/
structure Layout (h : Heap) (objects : Finset Nat) : Prop where
  geometry : Geometry h.top (h.table.map PageCells.start) (h.bigs ++ h.freeBigs)
  page : ∀ (idx : Nat) (p : PageCells), h.table[idx]? = some p → PageOk h.word objects p
  big : ∀ b ∈ h.bigs, b.1 + headerSize ∈ objects
  cover : ∀ v ∈ objects, ∃ s, v = s + headerSize ∧
    ((∃ a ∈ h.table.map PageCells.start, a ≤ s ∧ s < a + pageSize) ∨ ∃ b ∈ h.bigs, b.1 = s)
  queues : Queues h.table h.pools h.freePages

/-- **The allocator's invariant**: the layout, and counters that agree with it. -/
structure AllocInv (h : Heap) (objects : Finset Nat) : Prop extends Layout h objects where
  live : h.live = (h.table.map PageCells.liveN).sum + h.bigs.length
  heapSize : h.heapSize =
    (h.table.map fun p => p.liveN * p.osize).sum + (h.bigs.map Prod.snd).sum

/-! ### Geometry -/

variable {i j s n off : Nat}

namespace Geometry

variable {top : Nat} {starts : List Nat} {blocks : List (Nat × Nat)}

theorem perm (g : Geometry top starts blocks) {blocks' : List (Nat × Nat)}
    (h : blocks'.Perm blocks) : Geometry top starts blocks' where
  low := g.low
  high := g.high
  aligned := g.aligned
  start := g.start
  sorted := g.sorted
  block := fun b hb => g.block b (h.subset hb)
  blocks_apart := (h.pairwise_iff fun hab => hab.symm).mpr g.blocks_apart
  block_start := fun b hb => g.block_start b (h.subset hb)

/-- Two pages that hold the same offset are the same. -/
theorem start_unique (g : Geometry top starts blocks) {a b : Nat}
    (hi : starts[i]? = some a) (hj : starts[j]? = some b)
    (ha : a ≤ s ∧ s < a + pageSize) (hb : b ≤ s ∧ s < b + pageSize) : i = j := by
  obtain ⟨hil, rfl⟩ := List.getElem?_eq_some_iff.mp hi
  obtain ⟨hjl, rfl⟩ := List.getElem?_eq_some_iff.mp hj
  have hsorted := List.pairwise_iff_getElem.mp g.sorted
  rcases Nat.lt_trichotomy i j with hij | hij | hij
  · have := hsorted i j hil hjl hij
    omega
  · exact hij
  · have := hsorted j i hjl hil hij
    omega

/-- Blocks are told apart by where they start. -/
theorem offsets_nodup (g : Geometry top starts blocks) : (blocks.map Prod.fst).Nodup := by
  refine List.pairwise_map.mpr (g.blocks_apart.imp_of_mem ?_)
  intro a b ha hb hab heq
  have := (g.block a ha).2.2.1
  have := (g.block b hb).2.2.1
  unfold Apart at hab
  omega

/-- Space taken from the region lies behind everything else. -/
theorem grow (g : Geometry top starts blocks) (hn : top + n ≤ regionSize)
    (h8 : 8 ∣ n) : Geometry (top + n) starts blocks where
  low := by have := g.low; omega
  high := hn
  aligned := (Nat.dvd_add_right g.aligned).mpr h8
  start := fun a ha => by have := g.start a ha; omega
  sorted := g.sorted
  block := fun b hb => by have := g.block b hb; omega
  blocks_apart := g.blocks_apart
  block_start := g.block_start

/-- A page carved from the region. -/
theorem add_start (g : Geometry top starts blocks) (hn : top + pageSize ≤ regionSize) :
    Geometry (top + pageSize) (starts ++ [top]) blocks := by
  have g' := g.grow hn (by decide)
  refine { g' with start := ?_, sorted := ?_, block_start := ?_ }
  · intro a ha
    rcases List.mem_append.mp ha with ha | ha
    · exact g'.start a ha
    · obtain rfl := List.mem_singleton.mp ha
      exact ⟨g.low, g.aligned, le_rfl⟩
  · refine List.pairwise_append.mpr ⟨g.sorted, List.pairwise_singleton _ _, ?_⟩
    intro a ha b hb
    obtain rfl := List.mem_singleton.mp hb
    exact (g.start a ha).2.2
  · intro b hb a ha
    rcases List.mem_append.mp ha with ha | ha
    · exact g.block_start b hb a ha
    · obtain rfl := List.mem_singleton.mp ha
      exact Or.inl (g.block b hb).2.2.2

/-- A block carved from the region. -/
theorem add_block (g : Geometry top starts blocks) (hn : top + n ≤ regionSize)
    (h8 : 8 ∣ n) (hpos : 0 < n) : Geometry (top + n) starts ((top, n) :: blocks) := by
  have g' := g.grow hn h8
  refine { g' with block := ?_, blocks_apart := ?_, block_start := ?_ }
  · intro b hb
    rcases List.mem_cons.mp hb with rfl | hb
    · exact ⟨g.low, g.aligned, hpos, le_rfl⟩
    · exact g'.block b hb
  · refine List.pairwise_cons.mpr ⟨fun b hb => ?_, g.blocks_apart⟩
    exact Or.inr (g.block b hb).2.2.2
  · intro b hb a ha
    rcases List.mem_cons.mp hb with rfl | hb
    · exact Or.inr (g.start a ha).2.2
    · exact g.block_start b hb a ha

/-- The front part of a block takes its place. -/
theorem shrink_block {sz : Nat} (g : Geometry top starts ((off, sz) :: blocks))
    (hpos : 0 < n) (hle : n ≤ sz) : Geometry top starts ((off, n) :: blocks) := by
  obtain ⟨hhead, htail⟩ := List.pairwise_cons.mp g.blocks_apart
  refine { g with block := ?_, blocks_apart := ?_, block_start := ?_ }
  · intro b hb
    rcases List.mem_cons.mp hb with rfl | hb
    · have := g.block (off, sz) List.mem_cons_self
      refine ⟨this.1, this.2.1, hpos, ?_⟩
      have := this.2.2.2
      simp only at this ⊢
      omega
    · exact g.block b (List.mem_cons_of_mem _ hb)
  · refine List.pairwise_cons.mpr ⟨fun b hb => ?_, htail⟩
    refine (hhead b hb).imp (fun h => ?_) id
    simp only at h ⊢
    omega
  · intro b hb a ha
    rcases List.mem_cons.mp hb with rfl | hb
    · refine (g.block_start (off, sz) List.mem_cons_self a ha).imp (fun h => ?_) id
      simp only at h ⊢
      omega
    · exact g.block_start b (List.mem_cons_of_mem _ hb) a ha

end Geometry

/-! ### The table and its pages -/

variable {idx : Nat}

theorem Heap.getElem?_table {h : Heap} {p : PageCells} :
    h.table[idx]? = some p ↔ ∃ pg, h.pages[idx]? = some pg ∧ pg.toPageCells = p := by
  simp [Heap.table, List.getElem?_map, Option.map_eq_some_iff]

variable {pg : Page}

theorem Heap.page_eq {h : Heap} (hpg : h.pages[idx]? = some pg) :
    h.page idx = pg := by
  simp [Heap.page, List.getD_eq_getElem?_getD, hpg]

theorem Heap.modify_pages {h : Heap} (hpg : h.pages[idx]? = some pg)
    (f : Page → Page) : h.pages.modify idx f = h.pages.set idx (f pg) := by
  simp [List.modify_eq_set, hpg]

/-- A list with one entry overwritten, read at any place. -/
theorem getElem?_set_cases {α : Type*} {l : List α} {a b : α}
    (h : (l.set i a)[j]? = some b) : (j = i ∧ b = a) ∨ (j ≠ i ∧ l[j]? = some b) := by
  rw [List.getElem?_set] at h
  split at h
  · rename_i hij
    split at h
    · exact Or.inl ⟨hij.symm, (Option.some.inj h).symm⟩
    · simp at h
  · rename_i hij
    exact Or.inr ⟨fun hji => hij hji.symm, h⟩

variable {table : List PageCells} {p' : PageCells}

theorem set_starts {p : PageCells}
    (hp : table[idx]? = some p) (hstart : p'.start = p.start) :
    (table.set idx p').map PageCells.start = table.map PageCells.start := by
  obtain ⟨hlt, rfl⟩ := List.getElem?_eq_some_iff.mp hp
  have hlt' : idx < (table.map PageCells.start).length := by simpa using hlt
  have hget : table[idx].start = (table.map PageCells.start)[idx] := by simp
  rw [List.map_set, hstart, hget, List.set_getElem_self]

section Carved

variable {word word' : Nat → Nat} {objects objects' : Finset Nat} {p : PageCells}
  {fl : List Nat} {used : Nat}

theorem Carved.holds_of_isSlot (c : Carved word objects p fl used)
    (h : p.IsSlot used s) : p.Holds s := by
  obtain ⟨k, hk, rfl⟩ := h
  have hroom : (k + 1) * p.osize ≤ used * p.osize := Nat.mul_le_mul_right _ hk
  have hsucc : (k + 1) * p.osize = k * p.osize + p.osize := Nat.succ_mul _ _
  have := c.room
  have := c.osize.1
  unfold PageCells.Holds
  omega

/-- The number of carved cells, as the sweep computes it. -/
theorem Carved.used_eq (c : Carved word objects p fl used) :
    (p.bump - p.start) / p.osize = used := by
  rw [c.bump, Nat.add_sub_cancel_left, Nat.mul_div_cancel _ (by have := c.osize.1; omega)]

theorem Carved.free_holds (c : Carved word objects p fl used) (hs : s ∈ fl) :
    p.Holds s :=
  c.holds_of_isSlot (c.slot s hs)

theorem Carved.free_not_object (c : Carved word objects p fl used) (hs : s ∈ fl) :
    s + headerSize ∉ objects :=
  fun hobj => ((c.objects s (c.free_holds hs)).mp hobj).2 hs

theorem Carved.slot_aligned (c : Carved word objects p fl used) (h8 : 8 ∣ p.start)
    (h : p.IsSlot used s) : 8 ∣ s := by
  obtain ⟨k, -, rfl⟩ := h
  exact (Nat.dvd_add_right h8).mpr (Dvd.dvd.mul_left c.osize.2 k)

/-- The link in a free cell leaves the collector's bits clear. -/
theorem Carved.free_bits (c : Carved word objects p fl used) (h8 : 8 ∣ p.start)
    (hs : s ∈ fl) : word s % 4 = 0 := by
  rcases c.thread.next_mem hs with hnull | hnext
  · rw [hnull]
    rfl
  · have := c.slot_aligned h8 (c.slot _ hnext)
    omega

theorem Carved.congr (c : Carved word objects p fl used)
    (hword : ∀ s, p.Holds s → s + headerSize ∉ objects → word' s = word s)
    (hobj : ∀ s, p.Holds s → (s + headerSize ∈ objects' ↔ s + headerSize ∈ objects)) :
    Carved word' objects' p fl used :=
  { c with
    thread := c.thread.congr fun s hs => hword s (c.free_holds hs) (c.free_not_object hs)
    objects := fun s hs => (hobj s hs).trans (c.objects s hs) }

/-- Slots of a page are told apart by their number. -/
theorem Carved.slot_injective (c : Carved word objects p fl used) {k l : Nat}
    (h : p.start + k * p.osize = p.start + l * p.osize) : k = l :=
  Nat.eq_of_mul_eq_mul_right (by have := c.osize.1; omega) (Nat.add_left_cancel h)

end Carved

theorem PageOk.congr {word word' : Nat → Nat} {objects objects' : Finset Nat} {p : PageCells}
    (ok : PageOk word objects p)
    (hword : ∀ s, p.Holds s → s + headerSize ∉ objects → word' s = word s)
    (hobj : ∀ s, p.Holds s → (s + headerSize ∈ objects' ↔ s + headerSize ∈ objects)) :
    PageOk word' objects' p where
  carved := fun hin => by
    obtain ⟨fl, used, c⟩ := ok.carved hin
    exact ⟨fl, used, c.congr hword hobj⟩
  released := fun hout => by
    refine ⟨(ok.released hout).1, fun s hs hmem => ?_⟩
    exact (ok.released hout).2 s hs ((hobj s hs).mp hmem)

variable {pg' : Page}

namespace Layout

variable {h h' : Heap} {objects : Finset Nat}

theorem start (inv : Layout h objects) {p : PageCells}
    (hp : h.table[idx]? = some p) :
    8 ≤ p.start ∧ 8 ∣ p.start ∧ p.start + pageSize ≤ h.top :=
  inv.geometry.start p.start (List.mem_map_of_mem (List.mem_of_getElem? hp))

theorem holds_unique (inv : Layout h objects) {p q : PageCells}
    (hp : h.table[i]? = some p) (hq : h.table[j]? = some q) (hps : p.Holds s)
    (hqs : q.Holds s) : i = j :=
  inv.geometry.start_unique (by simp [hp]) (by simp [hq]) hps hqs

theorem start_lt (inv : Layout h objects) {p q : Page} (hij : i < j)
    (hp : h.pages[i]? = some p) (hq : h.pages[j]? = some q) : p.start + pageSize ≤ q.start := by
  have hsorted := List.pairwise_map.mp (List.pairwise_map.mp inv.geometry.sorted)
  obtain ⟨hi, rfl⟩ := List.getElem?_eq_some_iff.mp hp
  obtain ⟨hj, rfl⟩ := List.getElem?_eq_some_iff.mp hq
  exact List.pairwise_iff_getElem.mp hsorted i j hi hj hij

/-- An object is the data behind a header. -/
theorem object_eq (inv : Layout h objects) {v : Nat} (hv : v ∈ objects) :
    ∃ s, v = s + headerSize := by
  obtain ⟨s, hs, -⟩ := inv.cover v hv
  exact ⟨s, hs⟩

/-- No object lies at or behind the bump pointer of the region. -/
theorem object_lt_top (inv : Layout h objects) (hs : s + headerSize ∈ objects) :
    8 ≤ s ∧ s < h.top := by
  obtain ⟨s', heq, hcase⟩ := inv.cover _ hs
  obtain rfl : s = s' := Nat.add_right_cancel heq
  rcases hcase with ⟨a, ha, hholds⟩ | ⟨b, hb, rfl⟩
  · have := inv.geometry.start a ha
    omega
  · have := inv.geometry.block b (List.mem_append_left _ hb)
    omega

/-- No page holds the start of a block. -/
theorem block_not_held (inv : Layout h objects)
    (hb : b ∈ h.bigs ++ h.freeBigs) {a : Nat} (ha : a ∈ h.table.map PageCells.start) :
    ¬ (a ≤ b.1 ∧ b.1 < a + pageSize) := by
  intro hholds
  have hapart := inv.geometry.block_start b hb a ha
  have hpos := (inv.geometry.block b hb).2.2.1
  unfold Apart at hapart
  simp only at hapart
  omega

theorem free_block_not_object (inv : Layout h objects)
    (hb : b ∈ h.freeBigs) : b.1 + headerSize ∉ objects := by
  intro hobj
  obtain ⟨s, heq, hcase⟩ := inv.cover _ hobj
  obtain rfl : b.1 = s := Nat.add_right_cancel heq
  rcases hcase with ⟨a, ha, hholds⟩ | ⟨b', hb', hb1⟩
  · exact inv.block_not_held (List.mem_append_right _ hb) ha hholds
  · have hapart := (List.pairwise_append.mp inv.geometry.blocks_apart).2.2 b' hb' b hb
    have hpos := (inv.geometry.block b (List.mem_append_right _ hb)).2.2.1
    have hpos' := (inv.geometry.block b' (List.mem_append_left _ hb')).2.2.1
    unfold Apart at hapart
    omega

/-- **A step that touches one page.** -/
theorem set_page (inv : Layout h objects) {objects' : Finset Nat}
    (hpg : h.pages[idx]? = some pg) (hpages : h'.pages = h.pages.set idx pg')
    (hstart : pg'.start = pg.start) (htop : h'.top = h.top)
    (hbigs : h'.bigs = h.bigs) (hfreeBigs : h'.freeBigs = h.freeBigs)
    (hword : ∀ s, ¬ pg.Holds s → h'.word s = h.word s)
    (hobj : ∀ s, ¬ pg.Holds s → (s + headerSize ∈ objects' ↔ s + headerSize ∈ objects))
    (hnew : ∀ v ∈ objects', v ∈ objects ∨ ∃ s, v = s + headerSize ∧ pg.Holds s)
    (hok : PageOk h'.word objects' pg'.toPageCells)
    (hqueues : Queues (h.table.set idx pg'.toPageCells) h'.pools h'.freePages) :
    Layout h' objects' := by
  have hp : h.table[idx]? = some pg.toPageCells := getElem?_table.mpr ⟨pg, hpg, rfl⟩
  have htable : h'.table = h.table.set idx pg'.toPageCells := by
    rw [Heap.table, hpages, List.map_set]
    rfl
  have hstarts : h'.table.map PageCells.start = h.table.map PageCells.start := by
    rw [htable, set_starts hp hstart]
  have hmem : pg.start ∈ h.table.map PageCells.start :=
    List.mem_map_of_mem (List.mem_of_getElem? hp)
  refine ⟨?_, ?_, ?_, ?_, htable ▸ hqueues⟩
  · rw [htop, hstarts, hbigs, hfreeBigs]
    exact inv.geometry
  · intro j q hj
    rw [htable] at hj
    rcases getElem?_set_cases hj with ⟨rfl, rfl⟩ | ⟨hne, hj⟩
    · exact hok
    · have hnot : ∀ s, q.Holds s → ¬ pg.Holds s := fun s hqs hps =>
        hne (inv.holds_unique hj hp hqs hps)
      exact (inv.page j q hj).congr (fun s hs _ => hword s (hnot s hs))
        fun s hs => hobj s (hnot s hs)
  · intro b hb
    rw [hbigs] at hb
    refine (hobj b.1 ?_).mpr (inv.big b hb)
    exact inv.block_not_held (List.mem_append_left _ hb) hmem
  · intro v hv
    rw [hstarts, hbigs]
    rcases hnew v hv with hold | ⟨s, rfl, hs⟩
    · exact inv.cover v hold
    · exact ⟨s, rfl, Or.inl ⟨pg.start, hmem, hs⟩⟩

end Layout

/-- **The invariant does not read what belongs to objects.** -/
theorem Layout.congr {h h' : Heap} {objects : Finset Nat} (inv : Layout h objects)
    (htop : h'.top = h.top) (htable : h'.table = h.table) (hpools : h'.pools = h.pools)
    (hfree : h'.freePages = h.freePages) (hbigs : h'.bigs = h.bigs)
    (hfreeBigs : h'.freeBigs = h.freeBigs)
    (hword : ∀ s, s + headerSize ∉ objects → h'.word s = h.word s) : Layout h' objects where
  geometry := by rw [htop, htable, hbigs, hfreeBigs]; exact inv.geometry
  page := fun idx p hp =>
    (inv.page idx p (htable ▸ hp)).congr (fun s _ => hword s) fun _ _ => Iff.rfl
  big := by rw [hbigs]; exact inv.big
  cover := by rw [htable, hbigs]; exact inv.cover
  queues := by rw [htable, hpools, hfree]; exact inv.queues

theorem AllocInv.congr {h h' : Heap} {objects : Finset Nat} (inv : AllocInv h objects)
    (hlayout : Layout h' objects) (htable : h'.table = h.table) (hbigs : h'.bigs = h.bigs)
    (hlive : h'.live = h.live) (hsize : h'.heapSize = h.heapSize) : AllocInv h' objects :=
  { hlayout with
    live := by rw [hlive, htable, hbigs]; exact inv.live
    heapSize := by rw [hsize, htable, hbigs]; exact inv.heapSize }

/-- The counters follow a step that touches one page. -/
theorem AllocInv.set_page {h h' : Heap} {objects objects' : Finset Nat}
    (inv : AllocInv h objects) (hpg : h.pages[idx]? = some pg)
    (hpages : h'.pages = h.pages.set idx pg') (hbigs : h'.bigs = h.bigs)
    (hlayout : Layout h' objects') (hlive : h'.live + pg.liveN = h.live + pg'.liveN)
    (hsize : h'.heapSize + pg.liveN * pg.osize = h.heapSize + pg'.liveN * pg'.osize) :
    AllocInv h' objects' := by
  have hp : h.table[idx]? = some pg.toPageCells := getElem?_table.mpr ⟨pg, hpg, rfl⟩
  have htable : h'.table = h.table.set idx pg'.toPageCells := by
    rw [Heap.table, hpages, List.map_set]
    rfl
  refine { hlayout with live := ?_, heapSize := ?_ }
  · have hsum := sum_map_set PageCells.liveN (b := pg'.toPageCells) hp
    have := inv.live
    rw [htable, hbigs]
    omega
  · have hsum := sum_map_set (fun p : PageCells => p.liveN * p.osize)
      (b := pg'.toPageCells) hp
    have := inv.heapSize
    rw [htable, hbigs]
    omega

/-! ### What an allocation leaves alone -/

/-- Allocating reads and writes no object: headers, references, roots and the
remembered set stay, and a page that holds an object keeps its mark flag. -/
structure Quiet (objects : Finset Nat) (h h' : Heap) : Prop where
  word : h'.word = h.word
  fields : h'.fields = h.fields
  remembered : h'.remembered = h.remembered
  roots : h'.roots = h.roots
  bigsOld : h'.bigsOld = h.bigsOld
  flag : ∀ (idx : Nat) (pg' : Page), h'.pages[idx]? = some pg' → pg'.inUse = true →
    ∀ s, pg'.Holds s → s + headerSize ∈ objects →
      ∃ pg, h.pages[idx]? = some pg ∧ pg.inUse = true ∧ pg.start = pg'.start ∧
        pg.hasMarked = pg'.hasMarked

namespace Quiet

variable {objects : Finset Nat} {h₁ h₂ h₃ : Heap}

/-- Nothing but the pools, the counters or the region's top differs. -/
theorem of_pages (hword : h₂.word = h₁.word) (hfields : h₂.fields = h₁.fields)
    (hrem : h₂.remembered = h₁.remembered) (hroots : h₂.roots = h₁.roots)
    (hold : h₂.bigsOld = h₁.bigsOld) (hpages : h₂.pages = h₁.pages) :
    Quiet objects h₁ h₂ :=
  ⟨hword, hfields, hrem, hroots, hold,
    fun _ pg' hpg' hin _ _ _ => ⟨pg', hpages ▸ hpg', hin, rfl, rfl⟩⟩

theorem trans (h : Quiet objects h₁ h₂) (h' : Quiet objects h₂ h₃) : Quiet objects h₁ h₃ where
  word := h'.word.trans h.word
  fields := h'.fields.trans h.fields
  remembered := h'.remembered.trans h.remembered
  roots := h'.roots.trans h.roots
  bigsOld := h'.bigsOld.trans h.bigsOld
  flag := fun idx pg₃ hpg₃ hin₃ s hs hobj => by
    obtain ⟨pg₂, hpg₂, hin₂, hstart₂, hflag₂⟩ := h'.flag idx pg₃ hpg₃ hin₃ s hs hobj
    have hs₂ : pg₂.Holds s := by
      unfold PageCells.Holds at hs ⊢
      rwa [hstart₂]
    obtain ⟨pg₁, hpg₁, hin₁, hstart₁, hflag₁⟩ := h.flag idx pg₂ hpg₂ hin₂ s hs₂ hobj
    exact ⟨pg₁, hpg₁, hin₁, hstart₁.trans hstart₂, hflag₁.trans hflag₂⟩

end Quiet

/-! ### Requests that do not wrap around -/

/-- The largest request for which the arithmetic on sizes stays below `2 ^ 32`
wherever the region's top is. -/
def maxRequest : Nat := 2 ^ 32 - 2 ^ 20 - 16

theorem alignUp_eq (h : n + 7 < 2 ^ 32) : alignUp n = (n + 7) / 8 * 8 := by
  unfold alignUp u32
  rw [Nat.mod_eq_of_lt h]

variable {size : Nat}

theorem chunkSize_eq (h : size ≤ maxRequest) :
    chunkSize size = 8 + (size + 7) / 8 * 8 := by
  unfold maxRequest at h
  unfold chunkSize u32 headerSize
  rw [alignUp_eq (by omega), Nat.mod_eq_of_lt (by omega)]

/-- Without wrap-around the region's top moves up, or the request fails. -/
theorem regionAlloc_eq {h : Heap} (htop : h.top ≤ regionSize)
    (hsize : size + 7 + regionSize < 2 ^ 32) :
    regionAlloc size h =
      if h.top + (size + 7) / 8 * 8 > regionSize then (null, h)
      else (h.top, { h with top := h.top + (size + 7) / 8 * 8 }) := by
  unfold regionAlloc u32
  rw [alignUp_eq (by omega)]
  simp only [Nat.mod_eq_of_lt (show h.top + (size + 7) / 8 * 8 < 2 ^ 32 by omega)]

theorem regionAlloc_page {h : Heap} (htop : h.top ≤ regionSize) :
    regionAlloc pageSize h =
      if h.top + pageSize > regionSize then (null, h)
      else (h.top, { h with top := h.top + pageSize }) := by
  have haligned : (pageSize + 7) / 8 * 8 = pageSize := by unfold pageSize; omega
  rw [regionAlloc_eq htop (by unfold pageSize regionSize; omega), haligned]

variable {total osize : Nat}

theorem sizeClass_some (h : sizeClass total = some osize)
    (htotal : 8 ≤ total) : 8 ≤ osize ∧ 8 ∣ osize ∧ osize ≤ pageSize := by
  have hle : total ≤ osize := by simpa using List.find?_some h
  have hmem : osize ∈ sizeClasses := List.mem_of_find?_eq_some h
  have hall : ∀ c ∈ sizeClasses, 8 ≤ c → 8 ∣ c ∧ c ≤ pageSize := by decide
  exact ⟨by omega, hall osize hmem (by omega)⟩

/-! ### Pools and pages -/

section Pools

variable {h : Heap} {objects : Finset Nat}

variable {pools : List Pool}

theorem AllocInv.with_pools (inv : AllocInv h objects)
    (hq : Queues h.table pools h.freePages) : AllocInv { h with pools := pools } objects :=
  { inv with queues := hq }

/-- `pool_for` finds or adds the pool of the class. -/
theorem poolFor_spec (hq : Queues h.table h.pools h.freePages) (osize : Nat) :
    ∃ pools, (poolFor osize h).2 = { h with pools := pools } ∧
      Queues h.table pools h.freePages ∧
      ∃ q, pools[(poolFor osize h).1]? = some q ∧ q.osize = osize := by
  unfold poolFor
  cases hfind : h.pools.findIdx? (fun p => decide (p.osize = osize)) with
  | some i =>
    obtain ⟨hlt, hp, -⟩ := List.findIdx?_eq_some_iff_getElem.mp hfind
    exact ⟨h.pools, rfl, hq, h.pools[i], by simp, by simpa using hp⟩
  | none =>
    have hnone := List.findIdx?_eq_none_iff.mp hfind
    refine ⟨_, rfl, ?_, ⟨osize, []⟩, by simp, rfl⟩
    refine { hq with queue := ?_, classes := ?_ }
    · intro q hmem idx hidx
      rcases List.mem_append.mp hmem with hmem | hmem
      · exact hq.queue q hmem idx hidx
      · rw [List.mem_singleton.mp hmem] at hidx
        exact absurd hidx List.not_mem_nil
    · rw [List.map_append, List.map_singleton]
      refine List.nodup_append.mpr ⟨hq.classes, List.nodup_singleton _, ?_⟩
      intro a ha b hb
      obtain ⟨q, hmem, rfl⟩ := List.mem_map.mp ha
      obtain rfl := List.mem_singleton.mp hb
      simpa using hnone q hmem

variable {freePages : List Nat} {pi : Nat} {q : Pool}

/-- A queue may be replaced by pages of the class that are in use. -/
theorem Queues.modify
    (hq : Queues table pools freePages) (hpi : pools[pi]? = some q)
    {f : Pool → Pool} (hf : ∀ p, (f p).osize = p.osize) (hnew : ∀ idx ∈ (f q).pageQ,
      ∃ p, table[idx]? = some p ∧ p.inUse = true ∧ p.osize = q.osize) :
    Queues table (pools.modify pi f) freePages := by
  refine { hq with queue := ?_, classes := ?_ }
  · intro q' hq' idx hidx
    obtain ⟨j, hj⟩ := List.getElem?_of_mem hq'
    rw [List.getElem?_modify] at hj
    obtain ⟨q₀, hq₀, heq⟩ := Option.map_eq_some_iff.mp hj
    split at heq
    · rename_i hij
      subst hij heq
      obtain rfl : q₀ = q := Option.some.inj (hq₀.symm.trans hpi)
      rw [hf]
      exact hnew idx hidx
    · subst heq
      exact hq.queue q₀ (List.mem_of_getElem? hq₀) idx hidx
  · rw [map_modify_of_eq Pool.osize f hf]
    exact hq.classes

/-- A page that was not in use, with all its cells free. -/
theorem Carved.fresh {word : Nat → Nat} {objects : Finset Nat} {p : PageCells}
    (hosize : 8 ≤ p.osize ∧ 8 ∣ p.osize) (hempty : ∀ s, p.Holds s → s + headerSize ∉ objects)
    (hbump : p.bump = p.start) (hfree : p.freelist = null)
    (hnfree : p.nfree = pageSize / p.osize) (hlive : p.liveN = 0) :
    Carved word objects p [] 0 where
  osize := hosize
  bump := by simp [hbump]
  room := by simp
  thread := hfree
  nodup := List.nodup_nil
  slot := by simp
  objects := fun s hs => by simp [hempty s hs, PageCells.IsSlot]
  nfree := by simp [hnfree]
  liveN := by simp [hlive]

/-- The pages a queue lists are in use, so they are not among the released ones. -/
theorem Queues.set_page
    (hq : Queues table pools freePages) {p : PageCells}
    (hidx : idx < table.length) {freePages' : List Nat}
    (hqueue : ∀ q ∈ pools, idx ∈ q.pageQ → p.inUse = true ∧ p.osize = q.osize)
    (hfree : ∀ j ∈ freePages', if j = idx then p.inUse = false else j ∈ freePages)
    (hnodup : freePages'.Nodup) : Queues (table.set idx p) pools freePages' where
  queue := by
    intro q hmem j hj
    by_cases hji : j = idx
    · subst hji
      exact ⟨p, List.getElem?_set_self hidx, hqueue q hmem hj⟩
    · rw [List.getElem?_set_ne (Ne.symm hji)]
      exact hq.queue q hmem j hj
  classes := hq.classes
  free := by
    intro j hj
    have hcase := hfree j hj
    by_cases hji : j = idx
    · subst hji
      exact ⟨p, List.getElem?_set_self hidx, by simpa using hcase⟩
    · rw [List.getElem?_set_ne (Ne.symm hji)]
      exact hq.free j (by simpa [hji] using hcase)
  free_nodup := hnodup

/-- A page in use stays in use, for the same class. -/
theorem Queues.set_inUse
    (hq : Queues table pools freePages) {p : PageCells}
    (hp : table[idx]? = some p) (hin : p.inUse = true) (hin' : p'.inUse = true)
    (hosize : p'.osize = p.osize) : Queues (table.set idx p') pools freePages := by
  refine hq.set_page (List.getElem?_eq_some_iff.mp hp).1 ?_ ?_ hq.free_nodup
  · intro q hmem hidx
    obtain ⟨q', hq', -, hos⟩ := hq.queue q hmem idx hidx
    obtain rfl := Option.some.inj (hp.symm.trans hq')
    exact ⟨hin', hosize.trans hos⟩
  · intro j hj
    split
    · rename_i hji
      subst hji
      obtain ⟨q', hq', hout⟩ := hq.free j hj
      obtain rfl := Option.some.inj (hp.symm.trans hq')
      simp [hin] at hout
    · exact hj

variable {rest : List Nat}

/-- A released page comes back into use for any class. -/
theorem AllocInv.recycle (inv : AllocInv h objects)
    (hfree : h.freePages = rest ++ [idx]) (hosize : 8 ≤ osize ∧ 8 ∣ osize)
    (hpg : h.pages[idx]? = some pg) (hout : pg.inUse = false) :
    AllocInv
      { h with
        freePages := rest
        pages := h.pages.set idx (Page.reset { pg with osize := osize }) } objects := by
  have hp : h.table[idx]? = some pg.toPageCells := getElem?_table.mpr ⟨pg, hpg, rfl⟩
  obtain ⟨hzero, hempty⟩ := (inv.page idx _ hp).released hout
  have hnodup := inv.queues.free_nodup
  rw [hfree] at hnodup
  obtain ⟨hrest, -, hnotin⟩ := List.nodup_append.mp hnodup
  refine inv.set_page hpg rfl rfl (inv.toLayout.set_page hpg rfl rfl rfl rfl rfl
    (fun _ _ => rfl) (fun _ _ => Iff.rfl) (fun _ hv => Or.inl hv) ?_ ?_) ?_ ?_
  · exact ⟨fun _ => ⟨[], 0, Carved.fresh hosize hempty rfl rfl rfl rfl⟩, by simp [Page.reset]⟩
  · refine inv.queues.set_page (List.getElem?_eq_some_iff.mp hp).1 ?_ ?_ hrest
    · intro q hq hidx
      obtain ⟨p, hp', hin, -⟩ := inv.queues.queue q hq idx hidx
      obtain rfl := Option.some.inj (hp.symm.trans hp')
      exact absurd hin (by simp [hout])
    · intro j hj
      rw [if_neg fun hji => hnotin j hj idx (List.mem_singleton_self idx) hji, hfree]
      exact List.mem_append_left _ hj
  · simp [hzero, Page.reset]
  · simp [hzero, Page.reset]

/-- A page carved from the region. -/
theorem AllocInv.add_page (inv : AllocInv h objects)
    (hosize : 8 ≤ osize ∧ 8 ∣ osize) (hroom : h.top + pageSize ≤ regionSize) :
    AllocInv
      { h with
        top := h.top + pageSize
        pages := h.pages ++ [(Page.carve h.top osize).reset] } objects := by
  have htable : (h.pages ++ [(Page.carve h.top osize).reset]).map Page.toPageCells =
      h.table ++ [(Page.carve h.top osize).reset.toPageCells] := by
    simp [Heap.table]
  have hlookup : ∀ {idx : Nat} {p : PageCells}, h.table[idx]? = some p →
      (h.table ++ [(Page.carve h.top osize).reset.toPageCells])[idx]? = some p := by
    intro idx p hp
    rw [List.getElem?_append_left (List.getElem?_eq_some_iff.mp hp).1, hp]
  refine ⟨⟨?_, ?_, inv.big, ?_, ?_⟩, ?_, ?_⟩
  all_goals simp only [Heap.table, htable]
  · rw [List.map_append]
    exact inv.geometry.add_start hroom
  · intro idx p hp
    rw [List.getElem?_append] at hp
    split at hp
    · exact inv.page idx p hp
    · obtain rfl := List.mem_singleton.mp (List.mem_of_getElem? hp)
      refine ⟨fun _ => ⟨[], 0, Carved.fresh hosize ?_ rfl rfl rfl rfl⟩, by simp [Page.reset]⟩
      intro s hs hobj
      have hlt := inv.object_lt_top hobj
      have hge : h.top ≤ s := hs.1
      omega
  · intro v hv
    obtain ⟨s, rfl, hcase⟩ := inv.cover v hv
    refine ⟨s, rfl, hcase.imp_left ?_⟩
    rintro ⟨a, ha, hs⟩
    exact ⟨a, by rw [List.map_append]; exact List.mem_append_left _ ha, hs⟩
  · refine { inv.queues with queue := ?_, free := ?_ }
    · intro q hq idx hidx
      obtain ⟨p, hp, hin⟩ := inv.queues.queue q hq idx hidx
      exact ⟨p, hlookup hp, hin⟩
    · intro idx hidx
      obtain ⟨p, hp, hout⟩ := inv.queues.free idx hidx
      exact ⟨p, hlookup hp, hout⟩
  · show h.live = ((h.table ++ [_]).map PageCells.liveN).sum + h.bigs.length
    rw [List.map_append, List.sum_append, inv.live]
    rfl
  · show h.heapSize = ((h.table ++ [_]).map fun p : PageCells => p.liveN * p.osize).sum + _
    rw [List.map_append, List.sum_append, inv.heapSize]
    simp [Page.reset, Heap.bigs]

/-- The page is open for allocation in its class. -/
def Open (h : Heap) (idx osize : Nat) : Prop :=
  ∃ pg, h.pages[idx]? = some pg ∧ pg.inUse = true ∧ pg.osize = osize ∧ 0 < pg.nfree

theorem Queues.push
    (hq : Queues table pools freePages) (hpi : pools[pi]? = some q)
    (hidx : ∃ p, table[idx]? = some p ∧ p.inUse = true ∧ p.osize = q.osize) :
    Queues table (pools.modify pi fun p => { p with pageQ := p.pageQ ++ [idx] }) freePages := by
  refine hq.modify hpi (fun _ => rfl) fun j hj => ?_
  rcases List.mem_append.mp hj with hj | hj
  · exact hq.queue q (List.mem_of_getElem? hpi) j hj
  · obtain rfl := List.mem_singleton.mp hj
    exact hidx

theorem pushPage_spec (inv : AllocInv h objects)
    (hpi : h.pools[pi]? = some q) (hopen : Open h idx q.osize) :
    AllocInv (pushPage pi idx h) objects := by
  obtain ⟨pg, hpg, hin, hosize, -⟩ := hopen
  exact inv.with_pools (inv.queues.push hpi
    ⟨pg.toPageCells, getElem?_table.mpr ⟨pg, hpg, rfl⟩, hin, hosize⟩)

theorem trimQueue_spec (inv : AllocInv h objects)
    (hpi : h.pools[pi]? = some q) :
    AllocInv (trimQueue pi h) objects ∧ Quiet objects h (trimQueue pi h) ∧
      (trimQueue pi h).pools[pi]? = some { q with pageQ := trimmed pi h } ∧
      ∀ idx, (trimmed pi h).getLast? = some idx → Open (trimQueue pi h) idx q.osize := by
  have hpool : h.pool pi = q := by simp [Heap.pool, List.getD_eq_getElem?_getD, hpi]
  have hsub : ∀ idx ∈ trimmed pi h, idx ∈ q.pageQ := by
    rw [trimmed, hpool]
    exact fun idx hidx => (List.rdropWhile_prefix _ _).subset hidx
  refine ⟨?_, Quiet.of_pages rfl rfl rfl rfl rfl rfl, by simp [trimQueue, hpi], ?_⟩
  · refine inv.with_pools (inv.queues.modify hpi (fun _ => rfl) fun idx hidx => ?_)
    exact inv.queues.queue q (List.mem_of_getElem? hpi) idx (hsub idx hidx)
  · intro idx hlast
    have hmem := List.mem_of_getLast? hlast
    obtain ⟨p, hp, hin, hosize⟩ :=
      inv.queues.queue q (List.mem_of_getElem? hpi) idx (hsub idx hmem)
    obtain ⟨pg, hpg, rfl⟩ := getElem?_table.mp hp
    -- the last page that was not dropped has a free cell
    have hne : trimmed pi h ≠ [] := List.ne_nil_of_mem hmem
    have hnot : ¬ ((h.page ((trimmed pi h).getLast hne)).nfree == 0) = true :=
      List.rdropWhile_last_not _ _ hne
    rw [List.getLast?_eq_some_getLast hne, Option.some.injEq] at hlast
    rw [hlast, page_eq hpg] at hnot
    exact ⟨pg, hpg, hin, hosize, by simpa [Nat.pos_iff_ne_zero] using hnot⟩

theorem recyclePage_spec (inv : AllocInv h objects)
    (hfree : h.freePages = rest ++ [idx])
    (hosize : 8 ≤ osize ∧ 8 ∣ osize ∧ osize ≤ pageSize) :
    AllocInv (recyclePage osize idx h) objects ∧ Quiet objects h (recyclePage osize idx h) ∧
      Open (recyclePage osize idx h) idx osize := by
  obtain ⟨p, hp, hout⟩ := inv.queues.free idx (by simp [hfree])
  obtain ⟨pg, hpg, rfl⟩ := getElem?_table.mp hp
  have heq : recyclePage osize idx h =
      { h with
        freePages := rest
        pages := h.pages.set idx (Page.reset { pg with osize := osize }) } := by
    simp only [recyclePage, hfree, List.dropLast_concat, modify_pages hpg]
  rw [heq]
  refine ⟨inv.recycle hfree ⟨hosize.1, hosize.2.1⟩ hpg hout,
    ⟨rfl, rfl, rfl, rfl, rfl, ?_⟩, ?_⟩
  · intro j pg' hj hin s hs hobj
    rcases getElem?_set_cases hj with ⟨rfl, rfl⟩ | ⟨-, hj⟩
    · exact absurd hobj (((inv.page j _ hp).released hout).2 s hs)
    · exact ⟨pg', hj, hin, rfl, rfl⟩
  · refine ⟨_, List.getElem?_set_self (List.getElem?_eq_some_iff.mp hpg).1, rfl, rfl, ?_⟩
    exact Nat.div_pos hosize.2.2 (show 0 < osize by omega)

/-- The end of the page table is open after a page was carved. -/
theorem add_page_spec (inv : AllocInv h objects)
    (hosize : 8 ≤ osize ∧ 8 ∣ osize ∧ osize ≤ pageSize) :
    Quiet objects h
        { h with
          top := h.top + pageSize
          pages := h.pages ++ [(Page.carve h.top osize).reset] } ∧
      Open
        { h with
          top := h.top + pageSize
          pages := h.pages ++ [(Page.carve h.top osize).reset] } h.pages.length osize := by
  refine ⟨⟨rfl, rfl, rfl, rfl, rfl, ?_⟩, ?_⟩
  · intro j pg' hj hin s hs hobj
    rw [show _ = _ from List.getElem?_append] at hj
    split at hj
    · exact ⟨pg', hj, hin, rfl, rfl⟩
    · obtain rfl := List.mem_singleton.mp (List.mem_of_getElem? hj)
      have hlt := inv.object_lt_top hobj
      have hge : h.top ≤ s := hs.1
      omega
  · refine ⟨(Page.carve h.top osize).reset, by simp, rfl, rfl, ?_⟩
    exact Nat.div_pos hosize.2.2 (show 0 < osize by omega)

/-- A page is found, recycled or opened, and the invariant stays. -/
theorem pageFor_spec (inv : AllocInv h objects)
    (hpi : h.pools[pi]? = some q) (hq : q.osize = osize)
    (hosize : 8 ≤ osize ∧ 8 ∣ osize ∧ osize ≤ pageSize) :
    AllocInv (pageFor osize pi h).2 objects ∧ Quiet objects h (pageFor osize pi h).2 ∧
      ∀ idx, (pageFor osize pi h).1 = some idx → Open (pageFor osize pi h).2 idx osize := by
  obtain ⟨inv₁, quiet₁, hpi₁, hopen₁⟩ := trimQueue_spec inv hpi
  subst hq
  unfold pageFor
  dsimp only
  cases hlast : (trimmed pi h).getLast? with
  | some idx =>
    refine ⟨inv₁, quiet₁, fun j hj => ?_⟩
    obtain rfl := Option.some.inj hj
    exact hopen₁ idx hlast
  | none =>
    dsimp only
    cases hfree : (trimQueue pi h).freePages.getLast? with
    | some idx =>
      obtain ⟨rest, hrest⟩ := List.getLast?_eq_some_iff.mp hfree
      obtain ⟨inv₂, quiet₂, hopen₂⟩ := recyclePage_spec inv₁ hrest hosize
      refine ⟨pushPage_spec inv₂ hpi₁ hopen₂, quiet₁.trans (quiet₂.trans ?_), fun j hj => ?_⟩
      · exact Quiet.of_pages rfl rfl rfl rfl rfl rfl
      · obtain rfl := Option.some.inj hj
        exact hopen₂
    | none =>
      simp only [regionAlloc_page inv₁.geometry.high]
      split
      · exact ⟨inv₁, quiet₁, by simp⟩
      · rename_i hroom
        have hroom' : (trimQueue pi h).top + pageSize ≤ regionSize := Nat.not_lt.mp hroom
        have hne : (trimQueue pi h).top ≠ null := by
          have := inv₁.geometry.low
          unfold null
          omega
        obtain ⟨quiet₂, hopen₂⟩ := add_page_spec inv₁ hosize
        simp only [if_neg hne]
        have inv₂ := inv₁.add_page ⟨hosize.1, hosize.2.1⟩ hroom'
        refine ⟨pushPage_spec inv₂ hpi₁ hopen₂,
          quiet₁.trans (quiet₂.trans ?_), fun j hj => ?_⟩
        · exact Quiet.of_pages rfl rfl rfl rfl rfl rfl
        · obtain rfl := Option.some.inj hj
          exact hopen₂

/-! ### Cells and blocks -/

variable {used : Nat}

/-- The first cell of the free list is handed out. -/
theorem Carved.pop {word : Nat → Nat} {p : PageCells}
    (c : Carved word objects p (s :: rest) used)
    (hp' : p' = { p with freelist := word s, nfree := p.nfree - 1, liveN := p.liveN + 1 }) :
    Carved word (insert (s + headerSize) objects) p' rest used := by
  obtain ⟨hnot, hnodup⟩ := List.nodup_cons.mp c.nodup
  have hnfree := c.nfree
  have hlive := c.liveN
  simp only [List.length_cons] at hnfree hlive
  subst hp'
  refine { c with thread := c.thread.2.2, nodup := hnodup, slot := ?_, objects := ?_,
                  nfree := ?_, liveN := ?_ }
  · exact fun t ht => c.slot t (List.mem_cons_of_mem _ ht)
  · intro t ht
    rw [Finset.mem_insert, c.objects t ht, List.mem_cons]
    constructor
    · rintro (heq | ⟨hslot, hnew⟩)
      · obtain rfl := Nat.add_right_cancel heq
        exact ⟨c.slot t List.mem_cons_self, hnot⟩
      · exact ⟨hslot, fun hmem => hnew (Or.inr hmem)⟩
    · rintro ⟨hslot, hnew⟩
      by_cases hts : t = s
      · exact Or.inl (by rw [hts])
      · exact Or.inr ⟨hslot, by simp [hts, hnew]⟩
  · show p.nfree - 1 = rest.length + (pageSize / p.osize - used)
    omega
  · show p.liveN + 1 + rest.length = used
    omega

/-- The first never-used cell is handed out. -/
theorem Carved.bump_next {word : Nat → Nat} {p : PageCells}
    (c : Carved word objects p [] used) (hfree : 0 < p.nfree)
    (hp' : p' = { p with bump := p.bump + p.osize, nfree := p.nfree - 1, liveN := p.liveN + 1 }) :
    p.Holds p.bump ∧ p.bump + headerSize ∉ objects ∧
      Carved word (insert (p.bump + headerSize) objects) p' [] (used + 1) := by
  have hnfree := c.nfree
  have hlive := c.liveN
  simp only [List.length_nil, Nat.zero_add, Nat.add_zero] at hnfree hlive
  have hpos : 0 < p.osize := by have := c.osize.1; omega
  have hroom : (used + 1) * p.osize ≤ pageSize :=
    (Nat.le_div_iff_mul_le hpos).mp (by omega)
  have hsucc : (used + 1) * p.osize = used * p.osize + p.osize := Nat.succ_mul _ _
  have hbump := c.bump
  have hholds : p.Holds p.bump := by
    unfold PageCells.Holds
    omega
  have hslot : ∀ t, p.IsSlot (used + 1) t ↔ p.IsSlot used t ∨ t = p.bump := by
    intro t
    rw [hbump]
    constructor
    · rintro ⟨k, hk, rfl⟩
      rcases Nat.lt_succ_iff_lt_or_eq.mp hk with hk | rfl
      · exact Or.inl ⟨k, hk, rfl⟩
      · exact Or.inr rfl
    · rintro (⟨k, hk, rfl⟩ | rfl)
      · exact ⟨k, by omega, rfl⟩
      · exact ⟨used, by omega, rfl⟩
  have hfresh : p.bump + headerSize ∉ objects := by
    intro hobj
    obtain ⟨⟨k, hk, heq⟩, -⟩ := (c.objects _ hholds).mp hobj
    have := c.slot_injective (hbump.symm.trans heq)
    omega
  refine ⟨hholds, hfresh, ?_⟩
  subst hp'
  refine { c with bump := ?_, room := hroom, slot := by simp, objects := ?_,
                  nfree := ?_, liveN := ?_ }
  · show p.bump + p.osize = p.start + (used + 1) * p.osize
    omega
  · intro t ht
    have hiff := c.objects t ht
    simp only [List.not_mem_nil, not_false_eq_true, and_true] at hiff
    show _ ↔ p.IsSlot (used + 1) t ∧ _
    rw [Finset.mem_insert, hslot, hiff]
    simp only [List.not_mem_nil, not_false_eq_true, and_true]
    constructor
    · rintro (heq | h)
      · exact Or.inr (Nat.add_right_cancel heq)
      · exact Or.inl h
    · rintro (h | rfl)
      · exact Or.inr h
      · exact Or.inl rfl
  · show p.nfree - 1 = 0 + (pageSize / p.osize - (used + 1))
    omega
  · show p.liveN + 1 + 0 = used + 1
    omega

/-- What an allocation achieves when it returns the cell `s`. -/
structure HandsOut (objects : Finset Nat) (h : Heap) (s : Nat) (h' : Heap) : Prop where
  ne_null : s ≠ null
  fresh : s + headerSize ∉ objects
  inv : AllocInv h' (insert (s + headerSize) objects)
  quiet : Quiet objects h h'

/-- A page from which one more cell is taken. -/
theorem AllocInv.hand_out (inv : AllocInv h objects)
    (hpg : h.pages[idx]? = some pg) (hin : pg.inUse = true) (hin' : pg'.inUse = true)
    (hstart : pg'.start = pg.start) (hosize : pg.osize = osize ∧ pg'.osize = osize)
    (hlive : pg'.liveN = pg.liveN + 1) (hmarked : pg'.hasMarked = pg.hasMarked)
    (hholds : pg.Holds s) (hfresh : s + headerSize ∉ objects) {fl : List Nat}
    (hcarved : Carved h.word (insert (s + headerSize) objects) pg'.toPageCells fl used) :
    HandsOut objects h s
      { h with
        pages := h.pages.set idx pg', live := h.live + 1, heapSize := h.heapSize + osize } := by
  have hp : h.table[idx]? = some pg.toPageCells := getElem?_table.mpr ⟨pg, hpg, rfl⟩
  refine ⟨?_, hfresh, ?_, ⟨rfl, rfl, rfl, rfl, rfl, ?_⟩⟩
  · have := inv.start hp
    have := hholds.1
    unfold null
    omega
  · refine inv.set_page hpg rfl rfl (inv.toLayout.set_page hpg rfl hstart rfl rfl rfl
      (fun _ _ => rfl) ?_ ?_ ⟨fun _ => ⟨fl, used, hcarved⟩, by simp [hin']⟩ ?_) ?_ ?_
    · intro t ht
      have hne : t ≠ s := fun hts => ht (hts ▸ hholds)
      simp [hne]
    · intro v hv
      rcases Finset.mem_insert.mp hv with rfl | hv
      · exact Or.inr ⟨s, rfl, hholds⟩
      · exact Or.inl hv
    · exact inv.queues.set_inUse hp hin hin' (hosize.2.trans hosize.1.symm)
    · show h.live + 1 + pg.liveN = h.live + pg'.liveN
      omega
    · show h.heapSize + osize + pg.liveN * pg.osize = h.heapSize + pg'.liveN * pg'.osize
      rw [hlive, hosize.1, hosize.2]
      ring
  · intro j pg'' hj hin'' t _ _
    rcases getElem?_set_cases hj with ⟨rfl, rfl⟩ | ⟨-, hj⟩
    · exact ⟨pg, hpg, hin, hstart.symm, hmarked.symm⟩
    · exact ⟨pg'', hj, hin'', rfl, rfl⟩

/-- The cell that is handed out is no live one. -/
theorem takeCell_spec (inv : AllocInv h objects)
    (hopen : Open h idx osize) :
    HandsOut objects h (takeCell idx osize h).1 (takeCell idx osize h).2 := by
  obtain ⟨pg, hpg, hin, rfl, hfree⟩ := hopen
  have hp : h.table[idx]? = some pg.toPageCells := getElem?_table.mpr ⟨pg, hpg, rfl⟩
  obtain ⟨fl, used, c⟩ := (inv.page idx _ hp).carved hin
  unfold takeCell
  simp only [page_eq hpg]
  cases fl with
  | nil =>
    -- the free list is empty: the never-used tail
    have hnull : pg.freelist = null := c.thread
    rw [if_neg (not_not.mpr hnull)]
    obtain ⟨hholds, hfresh, hcarved⟩ := c.bump_next hfree rfl
    exact inv.hand_out hpg hin hin rfl ⟨rfl, rfl⟩ rfl rfl hholds hfresh hcarved
  | cons s rest =>
    obtain ⟨hhead, hne, -⟩ := c.thread
    rw [if_pos (hhead ▸ hne), hhead]
    exact inv.hand_out hpg hin hin rfl ⟨rfl, rfl⟩ rfl rfl (c.free_holds List.mem_cons_self)
      (c.free_not_object List.mem_cons_self) (c.pop rfl)

/-- Whatever lies apart from the big blocks and the pages is nobody's cell. -/
theorem AllocInv.block_fresh (inv : AllocInv h objects) {top : Nat}
    {free : List (Nat × Nat)}
    (hgeo : Geometry top (h.table.map PageCells.start) ((off, n) :: (h.bigs ++ free))) :
    (∀ a ∈ h.table.map PageCells.start, ¬ (a ≤ off ∧ off < a + pageSize)) ∧
      off + headerSize ∉ objects := by
  have hpos : 0 < n := (hgeo.block (off, n) List.mem_cons_self).2.2.1
  have hheld : ∀ a ∈ h.table.map PageCells.start, ¬ (a ≤ off ∧ off < a + pageSize) := by
    intro a ha hs
    have hapart := hgeo.block_start (off, n) List.mem_cons_self a ha
    unfold Apart at hapart
    simp only at hapart
    omega
  refine ⟨hheld, fun hobj => ?_⟩
  obtain ⟨s, heq, hcase⟩ := inv.cover _ hobj
  obtain rfl : off = s := Nat.add_right_cancel heq
  rcases hcase with ⟨a, ha, hs⟩ | ⟨b, hb, hb1⟩
  · exact hheld a ha hs
  · have hmem : b ∈ h.bigs ++ free := List.mem_append_left _ hb
    have hapart := (List.pairwise_cons.mp hgeo.blocks_apart).1 b hmem
    have := hgeo.block b (List.mem_cons_of_mem _ hmem)
    unfold Apart at hapart
    simp only at hapart
    omega

/-- A big block that lies apart from everything else is handed out. -/
theorem AllocInv.link_big (inv : AllocInv h objects) {top : Nat}
    {free : List (Nat × Nat)}
    (hgeo : Geometry top (h.table.map PageCells.start) ((off, n) :: (h.bigs ++ free))) :
    HandsOut objects h off (linkBig off n { h with top := top, freeBigs := free }) := by
  obtain ⟨hheld, hfresh⟩ := inv.block_fresh hgeo
  have hbigs : (linkBig off n { h with top := top, freeBigs := free }).bigs =
      h.bigsYoung ++ [(off, n)] ++ h.bigsOld := rfl
  have hperm : (h.bigsYoung ++ [(off, n)] ++ h.bigsOld).Perm ((off, n) :: h.bigs) := by
    rw [List.append_assoc, List.singleton_append]
    exact List.perm_middle
  refine ⟨?_, hfresh, ⟨⟨?_, ?_, ?_, ?_, inv.queues⟩, ?_, ?_⟩,
    Quiet.of_pages rfl rfl rfl rfl rfl rfl⟩
  · have := (hgeo.block (off, n) List.mem_cons_self).1
    unfold null
    simp only at this
    omega
  · refine hgeo.perm ?_
    rw [hbigs]
    exact hperm.append_right free
  · intro idx p hp
    refine (inv.page idx p hp).congr (fun _ _ _ => rfl) fun s hs => ?_
    have hne : s ≠ off := fun hso =>
      hheld p.start (List.mem_map_of_mem (List.mem_of_getElem? hp)) (hso ▸ hs)
    simp [hne]
  · intro b hb
    rw [hbigs] at hb
    rcases List.mem_cons.mp (hperm.subset hb) with rfl | hb
    · exact Finset.mem_insert_self _ _
    · exact Finset.mem_insert_of_mem (inv.big b hb)
  · intro v hv
    rw [hbigs]
    rcases Finset.mem_insert.mp hv with rfl | hv
    · exact ⟨off, rfl, Or.inr ⟨(off, n), by simp, rfl⟩⟩
    · obtain ⟨s, rfl, hcase⟩ := inv.cover v hv
      refine ⟨s, rfl, hcase.imp_right ?_⟩
      rintro ⟨b, hb, rfl⟩
      exact ⟨b, hperm.symm.subset (List.mem_cons_of_mem _ hb), rfl⟩
  · rw [hbigs, hperm.length_eq]
    show h.live + 1 = _ + (h.bigs.length + 1)
    rw [inv.live]
    rfl
  · rw [hbigs, (hperm.map Prod.snd).sum_eq, List.map_cons, List.sum_cons]
    show h.heapSize + n = (h.table.map fun p => p.liveN * p.osize).sum + (n + _)
    rw [inv.heapSize]
    ring

open scoped List in
theorem swapRemove_perm {l : List (Nat × Nat)}
    (h : l[i]? = some b) : b :: swapRemove l i ~ l := by
  obtain ⟨hi, rfl⟩ := List.getElem?_eq_some_iff.mp h
  have hne : l ≠ [] := List.ne_nil_of_length_pos (by omega)
  obtain ⟨ys, z, rfl⟩ : ∃ ys z, l = ys ++ [z] :=
    ⟨l.dropLast, l.getLast hne, (List.dropLast_append_getLast hne).symm⟩
  rw [swapRemove, List.getLastD_concat]
  by_cases hlt : i < ys.length
  · rw [List.set_append_left _ _ hlt, List.dropLast_concat, List.getElem_append_left hlt]
    calc ys[i] :: ys.set i z
        ~ ys[i] :: z :: ys.eraseIdx i := (List.set_perm_cons_eraseIdx hlt z).cons _
      _ ~ z :: ys[i] :: ys.eraseIdx i := List.Perm.swap _ _ _
      _ ~ z :: ys := (List.getElem_cons_eraseIdx_perm hlt).cons _
      _ ~ ys ++ [z] := (List.perm_append_singleton z ys).symm
  · have hi' : i = ys.length := by
      simp only [List.length_append, List.length_singleton] at hi
      omega
    subst hi'
    simpa using (List.perm_append_singleton z ys).symm

/-- An allocation hands out a fresh cell or fails, and is quiet either way. -/
def Allocates (objects : Finset Nat) (h : Heap) (r : Nat × Heap) : Prop :=
  HandsOut objects h r.1 r.2 ∨
    (r.1 = null ∧ AllocInv r.2 objects ∧ Quiet objects h r.2)

/-- A big block, recycled or new, keeps the invariant. -/
theorem bigAlloc_spec (inv : AllocInv h objects) (h8 : 8 ∣ total)
    (hpos : 0 < total) (hmax : total + 7 + regionSize < 2 ^ 32) :
    Allocates objects h (bigAlloc total h) := by
  have haligned : alignUp total = total := by
    rw [alignUp_eq (by omega)]
    omega
  have hround : (total + 7) / 8 * 8 = total := by omega
  unfold bigAlloc
  simp only [haligned]
  cases hfind : h.freeBigs.findIdx? (fun b => decide (total ≤ b.2)) with
  | some i =>
    obtain ⟨hlt, hle, -⟩ := List.findIdx?_eq_some_iff_getElem.mp hfind
    have hget : h.freeBigs[i]? = some h.freeBigs[i] := List.getElem?_eq_getElem hlt
    have hperm := swapRemove_perm hget
    have hgeo : Geometry h.top (h.table.map PageCells.start)
        (h.freeBigs[i] :: (h.bigs ++ swapRemove h.freeBigs i)) :=
      inv.geometry.perm (List.perm_middle.symm.trans (hperm.append_left h.bigs))
    simp only [List.getD_eq_getElem?_getD, hget, Option.getD_some]
    exact Or.inl (inv.link_big (hgeo.shrink_block hpos (by simpa using hle)))
  | none =>
    simp only [regionAlloc_eq inv.geometry.high hmax, hround]
    split
    · exact Or.inr ⟨rfl, inv, Quiet.of_pages rfl rfl rfl rfl rfl rfl⟩
    · rename_i hroom
      have hne : h.top ≠ null := by
        have := inv.geometry.low
        unfold null
        omega
      simp only [if_neg hne]
      exact Or.inl (inv.link_big (inv.geometry.add_block (Nat.not_lt.mp hroom) h8 hpos))

/-- `alloc_chunk` keeps the invariant with one object more. -/
theorem allocChunk_spec (inv : AllocInv h objects) (h8 : 8 ∣ total)
    (hlow : 8 ≤ total) (hmax : total + 7 + regionSize < 2 ^ 32) :
    Allocates objects h (allocChunk total h) := by
  unfold allocChunk
  cases hclass : sizeClass total with
  | none => exact bigAlloc_spec inv h8 (by omega) hmax
  | some osize =>
    have hosize := sizeClass_some hclass hlow
    obtain ⟨pools, hpools, hqueues, q, hpi, hq⟩ := poolFor_spec inv.queues osize
    have quiet₁ : Quiet objects h (poolFor osize h).2 := by
      rw [hpools]
      exact Quiet.of_pages rfl rfl rfl rfl rfl rfl
    have inv₁ : AllocInv (poolFor osize h).2 objects := by
      rw [hpools]
      exact inv.with_pools hqueues
    obtain ⟨inv₂, quiet₂, hopen⟩ := pageFor_spec inv₁ (by rw [hpools]; exact hpi) hq hosize
    dsimp only
    cases hfound : (pageFor osize (poolFor osize h).1 (poolFor osize h).2).1 with
    | none => exact Or.inr ⟨rfl, inv₂, quiet₁.trans quiet₂⟩
    | some idx =>
      have hout := takeCell_spec inv₂ (hopen idx hfound)
      exact Or.inl { hout with quiet := (quiet₁.trans quiet₂).trans hout.quiet }

/-- The requested size of an object, within the limit, is a size the allocator
handles without wrap-around. -/
theorem chunkSize_spec (h : size ≤ maxRequest) :
    8 ∣ chunkSize size ∧ 8 ≤ chunkSize size ∧ chunkSize size + 7 + regionSize < 2 ^ 32 := by
  rw [chunkSize_eq h]
  unfold maxRequest at h
  unfold regionSize
  omega

end Pools

end Ruju.Gc
