import Mathlib.Data.List.DropRight
import Mathlib.Data.Finset.Basic
import Ruju.Library.Linked

/-!
# The heap: allocator, write barrier, mark and sweep

The runtime's heap as `gc.rs`, `object.rs` and `region.rs` have it.  All of the
state the sources keep in statics is one record, `Heap`; every function takes it
and returns it.

Offsets into the region and references are numbers; a reference is the offset of
an object's data, just past its header, and 0 is the null reference.  Memory is cut
down to what the collector reads.  `word` holds the header words,
by the offset of the header: the offset of the object's type with the collector's
two bits below it, or, in a free cell, the link to the next one.  `fields` holds
the references that `each_ref` visits after the type, whatever kind of object it
visits them for.  Vectors are lists with the end at the end; the work list of
`mark` is a list with its top at the head.

The target is `wasm32`: `usize` and `u32` have 32 bits and additions wrap around
(`u32`).  The places where this matters are those that compute with a requested
size (`alignUp`, `regionAlloc`, `chunkSize`); the counters and the positions inside the
one-mebibyte region never come near the limit and are plain numbers.

Not here: the policy that picks the kind and the moment of the next collection
(heap target, promotion ratio).  Results are about every order of collections.
-/

namespace Ruju.Gc

/-- `region::NULL`. -/
def null : Nat := 0

/-- `REGION_SIZE`. -/
def regionSize : Nat := 2 ^ 20

/-- `PAGE_SIZE`. -/
def pageSize : Nat := 2 ^ 14

/-- `HEADER_SIZE`. -/
def headerSize : Nat := 8

/-- `SIZE_CLASSES`. -/
def sizeClasses : List Nat :=
  [4, 8,
   16, 24, 32, 40, 48, 56, 64, 72, 80, 88, 96, 104, 112, 120, 128, 136,
   144, 160, 176, 192, 208, 224, 240, 256,
   272, 288, 304, 336, 368, 400, 448, 496,
   544, 576, 624, 672, 736, 816, 896, 1008,
   1088, 1168, 1248, 1360, 1488, 1632, 1808, 2032]

/-- Arithmetic of the target wraps around at 32 bits. -/
def u32 (n : Nat) : Nat := n % 2 ^ 32

/-- `align_up`: `(n + 7) & !7`. -/
def alignUp (n : Nat) : Nat := u32 (n + 7) / 8 * 8

/-- A size class's pool: the pages of this class that still have free cells. -/
structure Pool where
  osize : Nat
  pageQ : List Nat
deriving DecidableEq, Repr, Inhabited

/-- The part of a page's record that says which of its cells are free. -/
structure PageCells where
  start : Nat
  osize : Nat
  freelist : Nat
  nfree : Nat
  liveN : Nat
  inUse : Bool
  bump : Nat
deriving DecidableEq, Repr, Inhabited

/-- A page's record (`Page`), with the mark and age bookkeeping. -/
structure Page extends PageCells where
  hasMarked : Bool
  hasYoung : Bool
  nold : Nat
  prevNold : Nat
deriving DecidableEq, Repr, Inhabited

/-- `reset_page`, on the record. -/
def Page.reset (pg : Page) : Page :=
  { pg with
    freelist := null, bump := pg.start, nfree := pageSize / pg.osize, liveN := 0
    hasMarked := false, hasYoung := false, nold := 0, prevNold := 0, inUse := true }

/-- `on_marked`, on the record. -/
def Page.setMarked (wasOld : Bool) (pg : Page) : Page :=
  if wasOld then { pg with hasMarked := true, nold := pg.nold + 1 }
  else { pg with hasMarked := true, hasYoung := true }

/-- The record of a page carved from the region at `start`, before its reset. -/
def Page.carve (start osize : Nat) : Page where
  start := start
  osize := osize
  freelist := null
  nfree := 0
  liveN := 0
  hasMarked := false
  hasYoung := false
  nold := 0
  prevNold := 0
  inUse := true
  bump := start

/-- The statics of `region.rs` and `gc.rs`, and the memory they manage. -/
structure Heap where
  /-- The region's bump pointer. -/
  top : Nat
  /-- Header words, by header offset. -/
  word : Nat → Nat
  /-- The references in an object's data. -/
  fields : Nat → List Nat
  pools : List Pool
  pages : List Page
  freePages : List Nat
  remembered : List Nat
  prevFull : Bool
  live : Nat
  heapSize : Nat
  bigsYoung : List (Nat × Nat)
  bigsOld : List (Nat × Nat)
  freeBigs : List (Nat × Nat)
  /-- The live slots of the shadow stack, oldest first. -/
  shadow : List Nat
  /-- The other roots: builtins, symbols, signatures, the Main module, exceptions. -/
  pinned : List Nat

/-- The heap after `region::init` and `reset_heap`. -/
def Heap.init : Heap where
  top := 8
  word := fun _ => 0
  fields := fun _ => []
  pools := []
  pages := []
  freePages := []
  remembered := []
  prevFull := false
  live := 0
  heapSize := 0
  bigsYoung := []
  bigsOld := []
  freeBigs := []
  shadow := []
  pinned := []

namespace Heap

/-- `pages()[idx]`. -/
def page (h : Heap) (idx : Nat) : Page := h.pages.getD idx default

/-- `pools()[pi]`. -/
def pool (h : Heap) (pi : Nat) : Pool := h.pools.getD pi default

/-! ### Object headers -/

/-- `object::gc_bits`: the low two bits of the header. -/
def gcBits (h : Heap) (v : Nat) : Nat := h.word (v - headerSize) % 4

/-- `object::type_of`: the header without them. -/
def typeOf (h : Heap) (v : Nat) : Nat := h.word (v - headerSize) / 4 * 4

/-- `object::set_gc_bits`. -/
def setGcBits (v : Nat) (bits : Nat) (h : Heap) : Heap :=
  { h with
    word := Function.update h.word (v - headerSize) (h.typeOf v + bits % 4) }

/-- `object::set_type`. -/
def setType (v : Nat) (ty : Nat) (h : Heap) : Heap :=
  { h with
    word := Function.update h.word (v - headerSize) (ty / 4 * 4 + h.gcBits v) }

/-- `bits & BIT_MARKED != 0`. -/
def marked (h : Heap) (v : Nat) : Bool := h.gcBits v % 2 == 1

/-- `bits & BIT_OLD != 0`. -/
def isOld (h : Heap) (v : Nat) : Bool := decide (2 ≤ h.gcBits v)

/-! ### Allocation -/

/-- `region::alloc`. -/
def regionAlloc (size : Nat) (h : Heap) : Nat × Heap :=
  let newTop := u32 (h.top + alignUp size)
  if newTop > regionSize then (null, h) else (h.top, { h with top := newTop })

/-- `size_class`. -/
def sizeClass (total : Nat) : Option Nat := sizeClasses.find? fun c => total ≤ c

/-- `Vec::swap_remove`: the last element takes the place of the one removed. -/
def swapRemove (l : List (Nat × Nat)) (i : Nat) : List (Nat × Nat) :=
  (l.set i (l.getLastD (null, 0))).dropLast

/-- The block `big_alloc` takes is linked into the young generation. -/
def linkBig (off aligned : Nat) (h : Heap) : Heap :=
  { h with
    bigsYoung := h.bigsYoung ++ [(off, aligned)]
    live := h.live + 1
    heapSize := h.heapSize + aligned }

/-- `big_alloc`. -/
def bigAlloc (total : Nat) (h : Heap) : Nat × Heap :=
  let aligned := alignUp total
  match h.freeBigs.findIdx? fun b => aligned ≤ b.2 with
  | some i =>
    let off := (h.freeBigs.getD i (null, 0)).1
    (off, linkBig off aligned { h with freeBigs := swapRemove h.freeBigs i })
  | none =>
    let r := regionAlloc aligned h
    if r.1 = null then (null, r.2) else (r.1, linkBig r.1 aligned r.2)

/-- `pool_for`. -/
def poolFor (osize : Nat) (h : Heap) : Nat × Heap :=
  match h.pools.findIdx? fun p => p.osize = osize with
  | some i => (i, h)
  | none => (h.pools.length, { h with pools := h.pools ++ [⟨osize, []⟩] })

/-- `page_q.push(idx)`. -/
def pushPage (pi idx : Nat) (h : Heap) : Heap :=
  { h with pools := h.pools.modify pi fun p => { p with pageQ := p.pageQ ++ [idx] } }

/-- The pool's queue without the exhausted pages at its end. -/
def trimmed (pi : Nat) (h : Heap) : List Nat :=
  (h.pool pi).pageQ.rdropWhile fun idx => (h.page idx).nfree == 0

/-- The exhausted pages leave the queue. -/
def trimQueue (pi : Nat) (h : Heap) : Heap :=
  { h with pools := h.pools.modify pi fun p => { p with pageQ := trimmed pi h } }

/-- A released page joins the class. -/
def recyclePage (osize idx : Nat) (h : Heap) : Heap :=
  { h with
    freePages := h.freePages.dropLast
    pages := h.pages.modify idx fun pg => Page.reset { pg with osize := osize } }

/-- The loop of `alloc_chunk` that looks for a page with free cells: exhausted
pages leave the end of the pool's queue; with none left, a released page is
recycled, or a fresh one carved. -/
def pageFor (osize pi : Nat) (h : Heap) : Option Nat × Heap :=
  let h₁ := trimQueue pi h
  match (trimmed pi h).getLast? with
  | some idx => (some idx, h₁)
  | none =>
    match h₁.freePages.getLast? with
    | some idx => (some idx, pushPage pi idx (recyclePage osize idx h₁))
    | none =>
      let r := regionAlloc pageSize h₁
      if r.1 = null then (none, r.2)
      else
        (some r.2.pages.length, pushPage pi r.2.pages.length
          { r.2 with pages := r.2.pages ++ [(Page.carve r.1 osize).reset] })

/-- The end of `alloc_chunk`: the free list first, otherwise the never-used tail. -/
def takeCell (idx osize : Nat) (h : Heap) : Nat × Heap :=
  let pg := h.page idx
  let taken : Nat × Page :=
    if pg.freelist ≠ null then (pg.freelist, { pg with freelist := h.word pg.freelist })
    else (pg.bump, { pg with bump := pg.bump + osize })
  let pg' := { taken.2 with nfree := pg.nfree - 1, liveN := pg.liveN + 1, hasYoung := true }
  (taken.1,
    { h with
      pages := h.pages.set idx pg'
      live := h.live + 1
      heapSize := h.heapSize + osize })

/-- `alloc_chunk`: the offset of a cell of at least `total` bytes, or `null`. -/
def allocChunk (total : Nat) (h : Heap) : Nat × Heap :=
  match sizeClass total with
  | none => bigAlloc total h
  | some osize =>
    let p := poolFor osize h
    let r := pageFor osize p.1 p.2
    match r.1 with
    | none => (null, r.2)
    | some idx => takeCell idx osize r.2

/-- The bytes a cell for `size` bytes of data must have. -/
def chunkSize (size : Nat) : Nat := u32 (headerSize + alignUp size)

/-- One attempt of `object::alloc`: a cell, its header, and the references its
constructor stores before anything else is allocated. -/
def allocObject (ty : Nat) (size : Nat) (refs : List Nat) (h : Heap) : Nat × Heap :=
  let r := allocChunk (chunkSize size) h
  if r.1 = null then (null, r.2)
  else
    (r.1 + headerSize,
      { r.2 with
        word := Function.update r.2.word r.1 (ty / 4 * 4)
        fields := Function.update r.2.fields (r.1 + headerSize) refs })

/-! ### Pages and the write barrier -/

/-- The binary search of `page_of`: the first page between `lo` and `hi` that ends
behind `off`. -/
def pageSearch (ps : List Page) (off : Nat) : Nat → Nat → Nat → Nat
  | 0, lo, _ => lo
  | fuel + 1, lo, hi =>
    if lo < hi then
      let mid := (lo + hi) / 2
      if (ps.getD mid default).start + pageSize ≤ off then pageSearch ps off fuel (mid + 1) hi
      else pageSearch ps off fuel lo mid
    else lo

/-- `page_of`. -/
def pageOf (off : Nat) (h : Heap) : Option Nat :=
  let lo := pageSearch h.pages off h.pages.length 0 h.pages.length
  if lo < h.pages.length ∧ (h.page lo).start ≤ off ∧ (h.page lo).inUse then some lo else none

/-- `on_marked`. -/
def onMarked (v : Nat) (wasOld : Bool) (h : Heap) : Heap :=
  match pageOf (v - headerSize) h with
  | some idx => { h with pages := h.pages.modify idx (Page.setMarked wasOld) }
  | none => h

/-- `queue_root`. -/
def queueRoot (parent : Nat) (h : Heap) : Heap :=
  let h := setGcBits parent 1 h
  { h with remembered := h.remembered ++ [parent] }

/-- `write_barrier`. -/
def writeBarrier (parent child : Nat) (h : Heap) : Heap :=
  if child ≠ null ∧ h.gcBits parent = 3 ∧ ¬ h.marked child then queueRoot parent h else h

/-- `object::set_ref`, for the `i`th reference of the object. -/
def setRef (v : Nat) (i : Nat) (r : Nat) (h : Heap) : Heap :=
  let h := writeBarrier v r h
  { h with fields := Function.update h.fields v ((h.fields v).set i r) }

/-! ### Mark -/

/-- `push_roots`, in the order of the pushes. -/
def roots (h : Heap) : List Nat := h.shadow ++ h.pinned

/-- `each_ref`: the type, then the references in the data. -/
def eachRef (h : Heap) (v : Nat) : List Nat :=
  (if h.typeOf v = null then [] else [h.typeOf v]) ++ h.fields v

/-- `has_young_ref`. -/
def hasYoungRef (h : Heap) (v : Nat) : Bool :=
  (h.eachRef v).any fun r => r ≠ null && !h.isOld r

/-- `remembered().push(v)` if the scanned object still refers to a young one. -/
def remember (v : Nat) (h : Heap) : Heap :=
  if h.hasYoungRef v then { h with remembered := h.remembered ++ [v] } else h

/-- The first loop of `mark`: a remembered object is old again and its references
are pending. -/
def restoreEntry (acc : List Nat × Heap) (p : Nat) : List Nat × Heap :=
  let h := setGcBits p 3 acc.2
  ((h.eachRef p).reverse ++ acc.1, remember p h)

/-- One round of the second loop of `mark`. -/
def markVisit (v : Nat) (h : Heap) : List Nat × Heap :=
  if v = null ∨ h.marked v then ([], h)
  else
    let wasOld := h.isOld v
    let h := onMarked v wasOld (setGcBits v (h.gcBits v + 1) h)
    ((h.eachRef v).reverse, if wasOld then remember v h else h)

/-- The remembered objects restored: the work list `mark` starts from. -/
def restore (h : Heap) : List Nat × Heap :=
  h.remembered.foldl restoreEntry (h.roots.reverse, { h with remembered := [] })

/-- `mark`. -/
def mark (fuel : Nat) (h : Heap) : Option Heap :=
  drain markVisit fuel h.restore.1 h.restore.2

/-! ### Sweep -/

/-- What the walk over a page's cells accumulates. -/
structure Walk where
  word : Nat → Nat
  fl : Nat
  nfree : Nat
  liveN : Nat

/-- One cell of a walked page: a marked one is promoted, or on a full sweep
demoted; any other goes on the free list. -/
def walkCell (full : Bool) (start osize : Nat) (w : Walk) (k : Nat) : Walk :=
  let slot := start + k * osize
  let bits := w.word slot % 4
  if bits % 2 = 1 then
    { w with
      word :=
        if bits = 1 ∨ full then Function.update w.word slot (w.word slot / 4 * 4 + 2)
        else w.word
      liveN := w.liveN + 1 }
  else
    { w with word := Function.update w.word slot w.fl, fl := slot, nfree := w.nfree + 1 }

/-- The walk over the cells below the bump pointer. -/
def walk (full : Bool) (pg : Page) (word : Nat → Nat) : Walk :=
  (List.range ((pg.bump - pg.start) / pg.osize)).foldl (walkCell full pg.start pg.osize)
    ⟨word, null, 0, 0⟩

/-- A page leaves the queue of its class. -/
def unqueue (idx osize : Nat) (pools : List Pool) : List Pool :=
  match pools.findIdx? fun p => p.osize = osize with
  | some pi => pools.modify pi fun p => { p with pageQ := p.pageQ.filter (· ≠ idx) }
  | none => pools

/-- The whole-page release of `sweep`. -/
def releasePage (idx : Nat) (h : Heap) : Heap :=
  { h with
    pages := h.pages.modify idx fun pg => { pg with inUse := false, liveN := 0 }
    freePages := h.freePages ++ [idx]
    pools := unqueue idx (h.page idx).osize h.pools }

/-- The record of a page after its walk. -/
def walkedPage (full : Bool) (w : Walk) (pg : Page) : Page :=
  { pg with
    freelist := w.fl
    nfree := w.nfree + (pageSize / pg.osize - (pg.bump - pg.start) / pg.osize)
    liveN := w.liveN
    hasMarked := decide (w.liveN > 0)
    hasYoung := false
    prevNold := if full then w.liveN else pg.prevNold
    nold := if full then 0 else pg.nold }

/-- The walked page joins its pool's queue if the walk freed a cell. -/
def enqueue (idx osize nfree : Nat) (h : Heap) : Heap :=
  if nfree > 0 then
    let p := poolFor osize h
    if idx ∈ (p.2.pool p.1).pageQ then p.2 else pushPage p.1 idx p.2
  else h

/-- The walk of `sweep` over one page. -/
def walkPage (full : Bool) (idx : Nat) (h : Heap) : Heap :=
  let pg := h.page idx
  let w := walk full pg h.word
  enqueue idx pg.osize w.nfree
    { h with word := w.word, pages := h.pages.set idx (walkedPage full w pg) }

/-- The state of `sweep` with its counts of survivors and of their bytes. -/
structure Sweep where
  heap : Heap
  survivors : Nat
  liveBytes : Nat

/-- One page of `sweep`: not in use, released whole, skipped, or walked. -/
def sweepPage (full : Bool) (s : Sweep) (idx : Nat) : Sweep :=
  let pg := s.heap.page idx
  if !pg.inUse then s
  else if !pg.hasMarked then { s with heap := releasePage idx s.heap }
  else if !full && !pg.hasYoung && (!s.heap.prevFull || pg.prevNold == pg.nold) then
    { s with
      survivors := s.survivors + pg.liveN
      liveBytes := s.liveBytes + pg.liveN * pg.osize }
  else
    let liveN := (walk full pg s.heap.word).liveN
    { heap := walkPage full idx s.heap
      survivors := s.survivors + liveN
      liveBytes := s.liveBytes + liveN * pg.osize }

/-- One big object of the young list. -/
def sweepBig (full : Bool) (s : Sweep) (b : Nat × Nat) : Sweep :=
  let v := b.1 + headerSize
  if s.heap.marked v then
    { heap :=
        if full || s.heap.gcBits v == 1 then
          { setGcBits v 2 s.heap with bigsYoung := s.heap.bigsYoung ++ [b] }
        else { s.heap with bigsOld := s.heap.bigsOld ++ [b] }
      survivors := s.survivors + 1
      liveBytes := s.liveBytes + b.2 }
  else { s with heap := { s.heap with freeBigs := s.heap.freeBigs ++ [b] } }

/-- One big object of the oldest list, on a full sweep. -/
def demoteBig (s : Sweep) (b : Nat × Nat) : Sweep where
  heap := { setGcBits (b.1 + headerSize) 2 s.heap with bigsYoung := s.heap.bigsYoung ++ [b] }
  survivors := s.survivors + 1
  liveBytes := s.liveBytes + b.2

/-- The pages of `sweep`. -/
def sweepPages (full : Bool) (h : Heap) : Sweep :=
  (List.range h.pages.length).foldl (sweepPage full) ⟨h, 0, 0⟩

/-- The big objects of `sweep`.  The oldest list is counted as it was before the
young list moved entries into it. -/
def sweepBigs (full : Bool) (s : Sweep) : Sweep :=
  let old := s.heap.bigsOld
  let s := s.heap.bigsYoung.foldl (sweepBig full)
    { s with heap := { s.heap with bigsYoung := [] } }
  if full then
    s.heap.bigsOld.foldl demoteBig { s with heap := { s.heap with bigsOld := [] } }
  else
    { s with
      survivors := s.survivors + old.length
      liveBytes := s.liveBytes + (old.map Prod.snd).sum }

/-- `sweep`. -/
def sweep (full : Bool) (h : Heap) : Sweep :=
  let s := sweepBigs full (sweepPages full h)
  { s with heap := { s.heap with prevFull := full } }

/-- The handling of the remembered set after the sweep. -/
def requeue (full : Bool) (h : Heap) : Heap :=
  if full then { h with remembered := [] }
  else h.remembered.foldl (fun h p => setGcBits p 1 h) h

/-- `collect_inner`: the number of objects freed, and the heap. -/
def collectInner (full : Bool) (fuel : Nat) (h : Heap) : Option (Nat × Heap) :=
  (mark fuel h).map fun h =>
    let s := sweep full h
    (u32 (h.live + 2 ^ 32 - s.survivors),
      requeue full { s.heap with live := s.survivors, heapSize := s.liveBytes })

end Heap

/-! ### Runs

What the heap is used for.  A run is a sequence of steps from the initial heap,
with the set of objects that were handed out and not freed since.  The mutator
may use a reference as long as everything it leads to is still allocated; what is
reachable from the roots always is. -/

/-- `w` is a reference in the object `v`. -/
def Heap.Ref (h : Heap) (v w : Nat) : Prop := w ∈ h.eachRef v ∧ w ≠ null

/-- The cell is on the free list of a page in use, on a page that is not, or a
free block. -/
def Heap.Freed (h : Heap) (cell : Nat) : Prop :=
  (∃ pg ∈ h.pages, pg.inUse = true ∧
      ∃ fl, Threaded null h.word pg.freelist fl ∧ cell ∈ fl) ∨
    (∃ pg ∈ h.pages, pg.inUse = false ∧ pg.start ≤ cell ∧ cell < pg.start + pageSize) ∨
    ∃ b ∈ h.freeBigs, b.1 = cell

/-- The heap with the objects allocated in it. -/
structure Config where
  heap : Heap
  objects : Finset Nat

/-- The object and everything it leads to is allocated. -/
def Config.Valid (c : Config) (v : Nat) : Prop :=
  Sound c.heap.Ref (c.objects : Set Nat) v

/-- Reachable from the roots. -/
def Heap.Reachable (h : Heap) (v : Nat) : Prop :=
  ∃ r ∈ h.roots, r ≠ null ∧ Relation.ReflTransGen h.Ref r v

/-- The objects left after a collection ended in `h`. -/
noncomputable def Config.survivors (c : Config) (h : Heap) : Finset Nat :=
  open Classical in c.objects.filter fun v => ¬ h.Freed (v - headerSize)

/-- One step, with every requested size at most `limit`. -/
inductive Step (limit : Nat) : Config → Config → Prop
  | alloc (c : Config) (ty : Nat) (size : Nat) (refs : List Nat) (v : Nat) (h : Heap) :
      size ≤ limit →
      (∀ r ∈ ty :: refs, r ≠ null → c.Valid r) →
      c.heap.allocObject ty size refs = (v, h) →
      Step limit c ⟨h, if v = null then c.objects else insert v c.objects⟩
  /-- `region::alloc` for a layout, which the collector does not manage. -/
  | carve (c : Config) (size : Nat) : size ≤ limit →
      Step limit c ⟨(c.heap.regionAlloc size).2, c.objects⟩
  | store (c : Config) (v : Nat) (i : Nat) (r : Nat) :
      c.Valid v → (r ≠ null → c.Valid r) →
      Step limit c ⟨c.heap.setRef v i r, c.objects⟩
  /-- The bootstrap closes the cycle `DataType : DataType` without a barrier, on an
  object that no collection has seen. -/
  | setType (c : Config) (v ty : Nat) : c.Valid v → c.Valid ty → c.heap.marked v = false →
      Step limit c ⟨c.heap.setType v ty, c.objects⟩
  | push (c : Config) (v : Nat) : (v ≠ null → c.Valid v) →
      Step limit c ⟨{ c.heap with shadow := c.heap.shadow ++ [v] }, c.objects⟩
  | pop (c : Config) (n : Nat) :
      Step limit c ⟨{ c.heap with shadow := c.heap.shadow.take n }, c.objects⟩
  | setSlot (c : Config) (i : Nat) (v : Nat) : (v ≠ null → c.Valid v) →
      Step limit c ⟨{ c.heap with shadow := c.heap.shadow.set i v }, c.objects⟩
  | pin (c : Config) (v : Nat) : (v ≠ null → c.Valid v) →
      Step limit c ⟨{ c.heap with pinned := v :: c.heap.pinned }, c.objects⟩
  | unpin (c : Config) (v : Nat) :
      Step limit c ⟨{ c.heap with pinned := c.heap.pinned.erase v }, c.objects⟩
  | collect (c : Config) (full : Bool) (fuel freed : Nat) (h : Heap) :
      c.heap.collectInner full fuel = some (freed, h) →
      Step limit c ⟨h, c.survivors h⟩

end Ruju.Gc
