import Ruju.Gc.Run

/-!
# What becomes of the bytes of big blocks

`big_alloc` takes a block from the region, or one that an earlier sweep has freed, and a
sweep moves blocks between the lists of young, old and free ones.  A run is followed here
together with the number of bytes that `big_alloc` has obtained from the region.

A sweep keeps the blocks as they are (`sweep_blocks`).  `big_alloc` does not: a free block
that is larger than the request is linked into the young list with the size of the
request, and its remainder is in no list any more.  `Accounted` has the three things that a
step can do to the blocks.  What a run has lost does not come back, so the lists account for
all bytes at its end exactly when every free block that was taken had the size asked for
(`big_blocks_conserved_iff`).
-/

namespace Ruju.Gc

namespace Heap

/-- The blocks of big objects, in use or free. -/
def blocks (h : Heap) : List (Nat × Nat) := h.bigsYoung ++ h.bigsOld ++ h.freeBigs

/-- The bytes of the blocks in the three lists. -/
def bigBytes (h : Heap) : Nat := (h.blocks.map Prod.snd).sum

/-- The bytes that `big_alloc` obtains from the region. -/
def bigObtained (total : Nat) (h : Heap) : Nat :=
  let aligned := alignUp total
  match h.freeBigs.findIdx? fun b => aligned ≤ b.2 with
  | some _ => 0
  | none => if (regionAlloc aligned h).1 = null then 0 else aligned

end Heap

open Heap

/-! ### Runs with an account -/

/-- What the runtime does to the heap. -/
inductive Op
  | alloc (ty size : Nat) (refs : List Nat)
  | carve (size : Nat)
  | store (v i r : Nat)
  | setType (v ty : Nat)
  | push (v : Nat)
  | pop (n : Nat)
  | setSlot (i v : Nat)
  | pin (v : Nat)
  | unpin (v : Nat)
  | collect (full : Bool) (fuel : Nat)

namespace Op

/-- The operation on the heap. -/
def run : Op → Heap → Option Heap
  | alloc ty size refs, h => some (h.allocObject ty size refs).2
  | carve size, h => some (h.regionAlloc size).2
  | store v i r, h => some (h.setRef v i r)
  | setType v ty, h => some (h.setType v ty)
  | push v, h => some { h with shadow := h.shadow ++ [v] }
  | pop n, h => some { h with shadow := h.shadow.take n }
  | setSlot i v, h => some { h with shadow := h.shadow.set i v }
  | pin v, h => some { h with pinned := v :: h.pinned }
  | unpin v, h => some { h with pinned := h.pinned.erase v }
  | collect full fuel, h => (h.collectInner full fuel).map Prod.snd

/-- The rounded size that an allocation asks `big_alloc` for. -/
def bigRequest : Op → Option Nat
  | alloc _ size _ =>
    if sizeClass (chunkSize size) = none then some (alignUp (chunkSize size)) else none
  | _ => none

/-- The bytes that `big_alloc` obtains from the region in the operation. -/
def obtained : Op → Heap → Nat
  | alloc _ size _, h =>
    if sizeClass (chunkSize size) = none then h.bigObtained (chunkSize size) else 0
  | _, _ => 0

end Op

/-- A run, with the bytes `big_alloc` has obtained in it. -/
def runOps : List Op → Heap → Option (Heap × Nat)
  | [], h => some (h, 0)
  | op :: ops, h =>
    (op.run h).bind fun h' => (runOps ops h').map fun r => (r.1, op.obtained h + r.2)

/-! ### What leaves the blocks alone -/

section Frame

variable (h : Heap)

theorem regionAlloc_blocks (size : Nat) : (h.regionAlloc size).2.blocks = h.blocks := by
  unfold regionAlloc
  dsimp only
  split <;> rfl

theorem poolFor_blocks (osize : Nat) : (h.poolFor osize).2.blocks = h.blocks := by
  unfold poolFor
  split <;> rfl

theorem pageFor_blocks (osize pi : Nat) : (h.pageFor osize pi).2.blocks = h.blocks := by
  have hregion : (regionAlloc pageSize (trimQueue pi h)).2.blocks = h.blocks :=
    regionAlloc_blocks (trimQueue pi h) pageSize
  unfold pageFor
  dsimp only
  generalize regionAlloc pageSize (trimQueue pi h) = r at hregion ⊢
  split
  · rfl
  split
  · rfl
  split
  · exact hregion
  · exact hregion

theorem onMarked_blocks (v : Nat) (wasOld : Bool) : (h.onMarked v wasOld).blocks = h.blocks := by
  unfold onMarked
  split <;> rfl

theorem writeBarrier_blocks (parent child : Nat) :
    (h.writeBarrier parent child).blocks = h.blocks := by
  unfold writeBarrier
  split <;> rfl

theorem remember_blocks (v : Nat) : (h.remember v).blocks = h.blocks := by
  unfold remember
  split <;> rfl

theorem markVisit_blocks (v : Nat) : (h.markVisit v).2.blocks = h.blocks := by
  unfold markVisit
  split
  · rfl
  · dsimp only
    split
    · rw [remember_blocks, onMarked_blocks]
      rfl
    · rw [onMarked_blocks]
      rfl

theorem foldl_restoreEntry_blocks (l : List Nat) (acc : List Nat × Heap) :
    (l.foldl restoreEntry acc).2.blocks = acc.2.blocks := by
  induction l generalizing acc with
  | nil => rfl
  | cons p l ih =>
    rw [List.foldl_cons, ih]
    exact remember_blocks _ p

variable {h} in
theorem mark_blocks {fuel : Nat} {h' : Heap} (hmark : h.mark fuel = some h') :
    h'.blocks = h.blocks := by
  refine drain_induct (fun _ s => s.blocks = h.blocks) (fun v _ s hs => ?_) hmark ?_
  · exact (markVisit_blocks s v).trans hs
  · exact foldl_restoreEntry_blocks _ _

theorem enqueue_blocks (idx osize nfree : Nat) :
    (h.enqueue idx osize nfree).blocks = h.blocks := by
  unfold enqueue
  split
  · dsimp only
    split
    · exact poolFor_blocks h osize
    · exact poolFor_blocks h osize
  · rfl

theorem requeue_blocks (full : Bool) : (h.requeue full).blocks = h.blocks := by
  unfold requeue
  cases full with
  | true => rfl
  | false =>
    suffices hfold : ∀ (l : List Nat) (g : Heap),
        (l.foldl (fun h p => setGcBits p 1 h) g).blocks = g.blocks from hfold _ _
    intro l
    induction l with
    | nil => exact fun g => rfl
    | cons p l ih => exact fun g => ih _

end Frame

/-! ### Sweeps keep the blocks -/

theorem sweepPage_blocks (full : Bool) (s : Sweep) (idx : Nat) :
    (sweepPage full s idx).heap.blocks = s.heap.blocks := by
  unfold sweepPage
  dsimp only
  split
  · rfl
  split
  · rfl
  split
  · rfl
  · exact enqueue_blocks _ _ _ _

theorem sweepPages_blocks (full : Bool) (h : Heap) :
    (sweepPages full h).heap.blocks = h.blocks := by
  unfold sweepPages
  generalize List.range h.pages.length = l
  suffices hfold : ∀ s : Sweep, (l.foldl (sweepPage full) s).heap.blocks = s.heap.blocks from
    hfold _
  induction l with
  | nil => exact fun s => rfl
  | cons idx l ih => exact fun s => (ih _).trans (sweepPage_blocks full s idx)

theorem push_young_perm (b : Nat × Nat) (ys os fs : List (Nat × Nat)) :
    ((ys ++ [b]) ++ os ++ fs).Perm (b :: (ys ++ os ++ fs)) := by
  rw [List.append_assoc, List.append_assoc, List.append_assoc]
  exact List.perm_middle

/-- The block goes to the end of one of the three lists. -/
theorem sweepBig_blocks (full : Bool) (s : Sweep) (b : Nat × Nat) :
    (sweepBig full s b).heap.blocks.Perm (b :: s.heap.blocks) := by
  unfold sweepBig
  dsimp only
  split
  · dsimp only
    split
    · exact push_young_perm b _ _ _
    · show (s.heap.bigsYoung ++ (s.heap.bigsOld ++ [b]) ++ s.heap.freeBigs).Perm _
      rw [← List.append_assoc, List.append_assoc _ [b]]
      exact List.perm_middle
  · show (s.heap.bigsYoung ++ s.heap.bigsOld ++ (s.heap.freeBigs ++ [b])).Perm _
    rw [← List.append_assoc]
    exact List.perm_append_singleton b _

theorem demoteBig_blocks (s : Sweep) (b : Nat × Nat) :
    (demoteBig s b).heap.blocks.Perm (b :: s.heap.blocks) :=
  push_young_perm b _ _ _

/-- A walk over blocks that puts each of them somewhere keeps them all. -/
theorem foldl_blocks {f : Sweep → Nat × Nat → Sweep}
    (hf : ∀ s b, (f s b).heap.blocks.Perm (b :: s.heap.blocks)) (bs : List (Nat × Nat))
    (s : Sweep) : (bs.foldl f s).heap.blocks.Perm (bs ++ s.heap.blocks) := by
  induction bs generalizing s with
  | nil => exact List.Perm.refl _
  | cons b bs ih =>
    have hmid : (bs ++ b :: s.heap.blocks).Perm (b :: (bs ++ s.heap.blocks)) :=
      List.perm_middle
    exact ((ih (f s b)).trans ((hf s b).append_left bs)).trans hmid

theorem sweepBigs_blocks (full : Bool) (s : Sweep) :
    (sweepBigs full s).heap.blocks.Perm s.heap.blocks := by
  set s₀ : Sweep := { s with heap := { s.heap with bigsYoung := [] } } with hs₀
  set s₁ := s.heap.bigsYoung.foldl (sweepBig full) s₀ with hs₁
  have hyoung : s₁.heap.blocks.Perm s.heap.blocks := by
    have hfold := foldl_blocks (sweepBig_blocks full) s.heap.bigsYoung s₀
    simpa [blocks, hs₀] using hfold
  cases full with
  | false => exact hyoung
  | true =>
    have hfold := foldl_blocks demoteBig_blocks s₁.heap.bigsOld
      { s₁ with heap := { s₁.heap with bigsOld := [] } }
    refine List.Perm.trans ?_ hyoung
    refine List.Perm.trans hfold ?_
    have hcomm : (s₁.heap.bigsOld ++ s₁.heap.bigsYoung).Perm
        (s₁.heap.bigsYoung ++ s₁.heap.bigsOld) := List.perm_append_comm
    simpa [blocks] using hcomm.append_right s₁.heap.freeBigs

/-- The sweep moves blocks between the lists, and loses none. -/
theorem sweep_blocks (full : Bool) (h : Heap) : (sweep full h).heap.blocks.Perm h.blocks := by
  have hbigs := sweepBigs_blocks full (sweepPages full h)
  rw [sweepPages_blocks] at hbigs
  exact hbigs

/-- A collection keeps the blocks of the three lists. -/
theorem collectInner_blocks {full : Bool} {fuel : Nat} {h : Heap} {r : Nat × Heap}
    (hc : h.collectInner full fuel = some r) : r.2.blocks.Perm h.blocks := by
  obtain ⟨h₁, hmark, rfl⟩ := Option.map_eq_some_iff.mp hc
  have hsweep := sweep_blocks full h₁
  rw [mark_blocks hmark] at hsweep
  dsimp only
  rw [requeue_blocks]
  exact hsweep

/-! ### What an allocation does to them -/

/-- The free block that `big_alloc` takes for `n` bytes: the first that is large enough. -/
def Heap.fit (n : Nat) (h : Heap) : Option (Nat × Nat) := h.freeBigs.find? fun b => n ≤ b.2

/-- The blocks from `h` to `h'` by a request for `req` bytes, if any, that obtains `got` bytes
from the region: nothing, a new block, or a free one that is cut down to the request. -/
inductive Accounted (req : Option Nat) (h h' : Heap) : Nat → Prop
  | same : (∀ n ∈ req, h.fit n = none) → h'.blocks.Perm h.blocks → Accounted req h h' 0
  | fresh (off n : Nat) : req = some n → h.fit n = none →
      h'.blocks.Perm ((off, n) :: h.blocks) → Accounted req h h' n
  | reuse (off size n : Nat) (rest : List (Nat × Nat)) : req = some n →
      h.fit n = some (off, size) → h.blocks.Perm ((off, size) :: rest) →
      h'.blocks.Perm ((off, n) :: rest) → Accounted req h h' 0

theorem linkBig_blocks (off n : Nat) (h : Heap) :
    (linkBig off n h).blocks.Perm ((off, n) :: h.blocks) :=
  push_young_perm (off, n) _ _ _

/-- What `big_alloc` loses is what the recycled block has too much. -/
theorem bigAlloc_accounted (total : Nat) (h : Heap) :
    Accounted (some (alignUp total)) h (bigAlloc total h).2 (bigObtained total h) := by
  unfold bigAlloc bigObtained
  cases hfind : h.freeBigs.findIdx? fun b => decide (alignUp total ≤ b.2) with
  | some i =>
    -- only the offset of the block found is kept
    obtain ⟨hlt, hfits, hfirst⟩ := List.findIdx?_eq_some_iff_getElem.mp hfind
    have hget : h.freeBigs[i]? = some h.freeBigs[i] := List.getElem?_eq_getElem hlt
    have hgetD : h.freeBigs.getD i (null, 0) = h.freeBigs[i] := by
      rw [List.getD_eq_getElem?_getD, hget]
      rfl
    have hfit : h.fit (alignUp total) = some h.freeBigs[i] :=
      List.find?_eq_some_iff_getElem.mpr ⟨hfits, i, hlt, rfl,
        fun j hj => by simpa using hfirst j hj⟩
    have hfree := (swapRemove_perm hget).symm.append_left (h.bigsYoung ++ h.bigsOld)
    simp only [hfind, hgetD]
    exact .reuse h.freeBigs[i].1 h.freeBigs[i].2 _ _ rfl hfit (hfree.trans List.perm_middle)
      (linkBig_blocks _ _ _)
  | none =>
    have hfit : h.fit (alignUp total) = none := by
      refine List.find?_eq_none.mpr fun b hb => ?_
      simpa using List.findIdx?_eq_none_iff.mp hfind b hb
    have hregion := regionAlloc_blocks h (alignUp total)
    simp only [hfind]
    split
    · refine .same ?_ (List.Perm.of_eq hregion)
      rintro n ⟨⟩
      exact hfit
    · refine .fresh (regionAlloc (alignUp total) h).1 _ rfl hfit ?_
      rw [← hregion]
      exact linkBig_blocks _ _ _

/-- The pool cells are no blocks. -/
theorem allocChunk_accounted (total : Nat) (h : Heap) :
    Accounted (if sizeClass total = none then some (alignUp total) else none) h
      (allocChunk total h).2 (if sizeClass total = none then h.bigObtained total else 0) := by
  unfold allocChunk
  cases hclass : sizeClass total with
  | none => exact bigAlloc_accounted total h
  | some osize =>
    refine .same (by simp) (List.Perm.of_eq ?_)
    have hpage : (pageFor osize (h.poolFor osize).1 (h.poolFor osize).2).2.blocks = h.blocks :=
      (pageFor_blocks _ _ _).trans (poolFor_blocks _ _)
    dsimp only
    split <;> exact hpage

theorem allocObject_blocks (ty size : Nat) (refs : List Nat) (h : Heap) :
    (h.allocObject ty size refs).2.blocks = (allocChunk (chunkSize size) h).2.blocks := by
  unfold allocObject
  dsimp only
  split <;> rfl

theorem Accounted.congr {req : Option Nat} {h h₁ h₂ : Heap} {got : Nat}
    (a : Accounted req h h₁ got) (heq : h₂.blocks = h₁.blocks) : Accounted req h h₂ got := by
  cases a with
  | same hfit hperm => exact .same hfit (heq ▸ hperm)
  | fresh off n hreq hfit hperm => exact .fresh off _ hreq hfit (heq ▸ hperm)
  | reuse off size n rest hreq hfit hfrom hto =>
    exact .reuse off size n rest hreq hfit hfrom (heq ▸ hto)

/-- **What one step does to the blocks.** -/
theorem Op.run_accounted {op : Op} {h h' : Heap} (hrun : op.run h = some h') :
    Accounted op.bigRequest h h' (op.obtained h) := by
  cases op with
  | alloc ty size refs =>
    cases hrun
    exact (allocChunk_accounted (chunkSize size) h).congr (allocObject_blocks ty size refs h)
  | carve size =>
    cases hrun
    exact .same (by simp [bigRequest]) (List.Perm.of_eq (regionAlloc_blocks h size))
  | store v i r =>
    cases hrun
    exact .same (by simp [bigRequest]) (List.Perm.of_eq (writeBarrier_blocks h v r))
  | setType v ty | push v | pop n | setSlot i v | pin v | unpin v =>
    cases hrun
    exact .same (by simp [bigRequest]) (List.Perm.refl _)
  | collect full fuel =>
    obtain ⟨r, hc, rfl⟩ := Option.map_eq_some_iff.mp hrun
    exact .same (by simp [bigRequest]) (collectInner_blocks hc)

/-! ### The account -/

section Account

variable {req : Option Nat} {h h' : Heap} {got : Nat}

theorem bigBytes_perm {l : List (Nat × Nat)} (hperm : h.blocks.Perm l) :
    h.bigBytes = (l.map Prod.snd).sum :=
  (hperm.map Prod.snd).sum_eq

/-- A step loses bytes exactly when it takes a block that is larger than the request. -/
theorem Accounted.bigBytes_eq_iff (a : Accounted req h h' got) :
    h'.bigBytes ≤ h.bigBytes + got ∧
      (h'.bigBytes = h.bigBytes + got ↔ ∀ n ∈ req, ∀ b ∈ h.fit n, b.2 = n) := by
  cases a with
  | same hfit hperm =>
    have hbytes : h'.bigBytes = h.bigBytes := bigBytes_perm hperm
    refine ⟨hbytes.le, iff_of_true hbytes fun n hn b hb => ?_⟩
    rw [hfit n hn] at hb
    cases hb
  | fresh off n hreq hfit hperm =>
    have hbytes : h'.bigBytes = h.bigBytes + got := by
      rw [bigBytes_perm hperm, List.map_cons, List.sum_cons, Nat.add_comm]
      rfl
    refine ⟨hbytes.le, iff_of_true hbytes fun n hn b hb => ?_⟩
    obtain rfl := Option.some.inj (hreq.symm.trans hn)
    rw [hfit] at hb
    cases hb
  | reuse off size n rest hreq hfit hfrom hto =>
    have hle : n ≤ size := by simpa using List.find?_some hfit
    rw [bigBytes_perm hto, bigBytes_perm hfrom, List.map_cons, List.map_cons, List.sum_cons,
      List.sum_cons]
    dsimp only
    refine ⟨by omega, fun heq m hm b hb => ?_, fun hall => ?_⟩
    · obtain rfl := Option.some.inj (hreq.symm.trans hm)
      obtain rfl := Option.some.inj (hfit.symm.trans hb)
      dsimp only
      omega
    · have hsize : size = n := hall n hreq (off, size) hfit
      omega

end Account

/-- The block that the step takes from the free list, if it takes one, has the size that is
asked for. -/
def Op.Exact (op : Op) (h : Heap) : Prop := ∀ n ∈ op.bigRequest, ∀ b ∈ h.fit n, b.2 = n

/-- Every step of the run is exact in the heap it starts from. -/
def FitsExactly : List Op → Heap → Prop
  | [], _ => True
  | op :: ops, h => op.Exact h ∧ ∀ h' ∈ op.run h, FitsExactly ops h'

instance (op : Op) (h : Heap) : Decidable (op.Exact h) :=
  inferInstanceAs (Decidable (∀ n ∈ op.bigRequest, ∀ b ∈ h.fit n, b.2 = n))

instance decidableFitsExactly : (ops : List Op) → (h : Heap) → Decidable (FitsExactly ops h)
  | [], _ => .isTrue trivial
  | op :: ops, h =>
    have (h' : Heap) : Decidable (FitsExactly ops h') := decidableFitsExactly ops h'
    inferInstanceAs (Decidable (op.Exact h ∧ ∀ h' ∈ op.run h, FitsExactly ops h'))

theorem runOps_cons {op : Op} {ops : List Op} {h h' : Heap} {got : Nat}
    (hrun : runOps (op :: ops) h = some (h', got)) :
    ∃ h₁ n, op.run h = some h₁ ∧ runOps ops h₁ = some (h', n) ∧ got = op.obtained h + n := by
  obtain ⟨h₁, hop, hrest⟩ := Option.bind_eq_some_iff.mp hrun
  obtain ⟨⟨h₂, n⟩, hops, heq⟩ := Option.map_eq_some_iff.mp hrest
  cases heq
  exact ⟨h₁, n, hop, hops, rfl⟩

/-- What a run loses does not come back. -/
theorem runOps_bigBytes {ops : List Op} {h h' : Heap} {got : Nat}
    (hrun : runOps ops h = some (h', got)) :
    h'.bigBytes ≤ h.bigBytes + got ∧ (h'.bigBytes = h.bigBytes + got ↔ FitsExactly ops h) := by
  induction ops generalizing h got with
  | nil =>
    cases hrun
    exact ⟨le_rfl, iff_of_true rfl trivial⟩
  | cons op ops ih =>
    obtain ⟨h₁, n, hop, hops, rfl⟩ := runOps_cons hrun
    obtain ⟨hle, hiff⟩ := (Op.run_accounted hop).bigBytes_eq_iff
    obtain ⟨hle', hiff'⟩ := ih hops
    refine ⟨by omega, fun heq => ⟨?_, fun h₂ hh₂ => ?_⟩, fun hexact => ?_⟩
    · exact hiff.mp (by omega)
    · obtain rfl := Option.some.inj (hop.symm.trans hh₂)
      exact hiff'.mp (by omega)
    · have h₁ := hiff.mpr hexact.1
      have h₂ := hiff'.mpr (hexact.2 _ hop)
      omega

/-- **The bytes of big blocks are conserved** in a run if and only if, before every step that
asks `big_alloc` for a block, the first free block that is large enough has exactly the size
asked for, or there is none. -/
theorem big_blocks_conserved_iff {ops : List Op} {h : Heap} {got : Nat}
    (hrun : runOps ops Heap.init = some (h, got)) :
    h.bigBytes = got ↔ FitsExactly ops Heap.init := by
  have hbytes := (runOps_bigBytes hrun).2
  rwa [show Heap.init.bigBytes = 0 from rfl, Nat.zero_add] at hbytes

/-- An unrooted object of 4096 bytes is collected, and its block serves one of 2400. -/
def shrinkingRun : List Op := [.alloc 0 4096 [], .collect true 5, .alloc 0 2400 []]

/-- 4104 bytes were obtained, and the lists hold 2408. -/
theorem big_blocks_lost :
    ∃ h, runOps shrinkingRun Heap.init = some (h, 4104) ∧ h.bigBytes = 2408 :=
  ⟨_, rfl, rfl⟩

/-- Two objects are collected, and each of their blocks serves a request of its own size. -/
def recyclingRun : List Op :=
  [.alloc 0 4096 [], .alloc 0 2400 [], .collect true 5, .alloc 0 4096 [], .alloc 0 2400 []]

theorem big_blocks_conserved_iff_recycling :
    ∃ h, runOps recyclingRun Heap.init = some (h, 6512) ∧ h.freeBigs = [] ∧ h.bigBytes = 6512 :=
  ⟨_, rfl, rfl, (big_blocks_conserved_iff (show runOps recyclingRun Heap.init = _ from rfl)).mpr
    (by decide)⟩

end Ruju.Gc
