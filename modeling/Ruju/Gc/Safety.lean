import Ruju.Gc.Buffers

/-!
# Safety, precision and accounting of the collector

What the invariant of runs says about a collection, in the collector's own terms:
nothing that the roots lead to is freed, two full collections in a row leave nothing
else, and the counters and lists account for every cell.

The runs are those of `Ruju.Gc.Runs`, with requests of any size.  A request close to
`2 ^ 32` does wrap the region's bump pointer around, but the object it is for cannot be
filled, and the trap ends the run before the allocator is asked again.

A minor collection does not look into old objects, so the results rest on what the write
barrier remembers.  The run that the results are applied to has each of the cases: a root
that two collections have made old, a young object that only this root refers to, and
garbage of both kinds of allocation.
-/

namespace Ruju.Gc

open Heap

variable {M : LinearMemory} {c : Config} {layouts : List (Nat × Nat)} {v : Nat}

/-! ### Safety -/

/-- What roots lead to is allocated. -/
theorem Inv.mem_of_reachable (i : Inv c) (hv : c.heap.Reachable v) : v ∈ c.objects := by
  obtain ⟨r, hr, hne, hpath⟩ := hv
  exact i.colors.roots r hr hne v hpath

variable {h : Heap} {objects : Finset Nat}

theorem Reachable.grey (hv : h.Reachable v) :
    Grey h objects v := by
  obtain ⟨r, hr, hne, hpath⟩ := hv
  exact ⟨r, Or.inl ⟨hr, hne⟩, hpath⟩

variable {full : Bool} {h' : Heap} {left : Finset Nat}

/-- A page that holds an object stays in use, with its class and its bump pointer. -/
theorem Collected.page_kept
    (k : Collected full h objects h' left) (hv : v ∈ left) {idx : Nat} {pg : Page}
    (hpg : h.pages[idx]? = some pg) (hholds : pg.Holds (v - headerSize)) :
    ∃ pg', h'.pages[idx]? = some pg' ∧ pg'.inUse = true ∧ pg'.start = pg.start ∧
      pg'.osize = pg.osize ∧ pg'.bump = pg.bump := by
  have hlt : idx < h'.pages.length := by
    rw [k.length]
    exact (List.getElem?_eq_some_iff.mp hpg).1
  obtain ⟨pg', hpg'⟩ : ∃ pg', h'.pages[idx]? = some pg' := ⟨_, List.getElem?_eq_getElem hlt⟩
  obtain ⟨pg₀, hpg₀, hstart, hosize, hbump⟩ := k.shape idx pg' hpg'
  obtain rfl := Option.some.inj (hpg.symm.trans hpg₀)
  refine ⟨pg', hpg', ?_, hstart, hosize, hbump⟩
  by_contra hout
  obtain ⟨s, rfl⟩ := k.inv.object_eq hv
  rw [Nat.add_sub_cancel] at hholds
  have hok := k.inv.page idx _ (getElem?_table.mpr ⟨pg', hpg', rfl⟩)
  refine (hok.released (by simpa using hout)).2 s ?_ hv
  rw [PageCells.Holds, hstart]
  exact hholds

/-- A big object that is left keeps its block. -/
theorem Collected.block_kept
    (k : Collected full h objects h' left) {b : Nat × Nat} (hb : b ∈ h.bigs)
    (hleft : b.1 + headerSize ∈ left) : b ∈ h'.bigs ∧ b ∉ h'.freeBigs := by
  have hnot : b ∉ h'.freeBigs := fun hmem => k.inv.free_block_not_object hmem hleft
  have hmem : b ∈ h'.bigs ++ h'.freeBigs := k.blocks.symm.subset (List.mem_append_left _ hb)
  exact ⟨(List.mem_append.mp hmem).resolve_right hnot, hnot⟩

/-! ### A run with two generations -/

/-- The step that pushes a root. -/
def Config.pushRoot (v : Nat) (c : Config) : Config :=
  ⟨{ c.heap with shadow := c.heap.shadow ++ [v] }, c.objects⟩

/-- The step that stores a reference. -/
def Config.store (v i r : Nat) (c : Config) : Config := ⟨c.heap.setRef v i r, c.objects⟩

/-- The configuration after a collection that ended in `h`. -/
noncomputable def Config.after (c : Config) (h : Heap) : Config := ⟨h, c.survivors h⟩

/-- An object without references is valid. -/
theorem valid_of_leaf (hv : v ∈ c.objects) (hrefs : ∀ w ∈ c.heap.eachRef v, w = null) :
    c.Valid v := by
  refine sound_of_closed (S := {v}) ?_ ?_ rfl
  · rintro w rfl
    exact hv
  · rintro w rfl u ⟨hmem, hne⟩
    exact absurd (hrefs u hmem) hne

namespace Runs

theorem attempt (hc : Runs M c layouts) {size : Nat} (hsize : size ≤ maxRequest) {refs : List Nat}
    (hrefs : ∀ r ∈ refs, r = null) : Runs M (c.attempt null size refs).2 layouts := by
  refine hc.step (Step.alloc c null size refs _ _ hsize ?_ rfl)
  intro r hr hne
  rcases List.mem_cons.mp hr with rfl | hr
  · exact absurd rfl hne
  · exact absurd (hrefs r hr) hne

theorem pushRoot (hc : Runs M c layouts) (hv : c.Valid v) : Runs M (c.pushRoot v) layouts :=
  hc.step (Step.push c v fun _ => hv)

theorem store (hc : Runs M c layouts) {r : Nat} (i : Nat) (hv : c.Valid v) (hr : c.Valid r) :
    Runs M (c.store v i r) layouts :=
  hc.step (Step.store c v i r hv fun _ => hr)

theorem after (hc : Runs M c layouts) {full : Bool} {fuel freed : Nat} {h : Heap}
    (hcollect : collectInner full fuel c.heap = some (freed, h)) : Runs M (c.after h) layouts :=
  hc.step (Step.collect c full fuel freed h hcollect)

/-- What is reachable is still allocated after a collection. -/
theorem survives (hc : Runs M c layouts) {full : Bool} {fuel freed : Nat} {h : Heap}
    (hcollect : collectInner full fuel c.heap = some (freed, h)) (hv : c.heap.Reachable v) :
    v ∈ (c.after h).objects :=
  (hc.inv.1.collect hcollect).keeps v (Reachable.grey hv)

end Runs

theorem reachable_of_root {h : Heap} (hv : v ∈ h.roots) (hne : v ≠ null) : h.Reachable v :=
  ⟨v, hv, hne, Relation.ReflTransGen.refl⟩

/-- The heap after a collection, for heaps with few objects. -/
def Heap.collected (full : Bool) (h : Heap) : Heap := ((collectInner full 10 h).getD (0, h)).2

theorem collectInner_collected (full : Bool) (h : Heap) (hsome : (collectInner full 10 h).isSome) :
    ∃ freed, collectInner full 10 h = some (freed, h.collected full) := by
  obtain ⟨⟨freed, h'⟩, heq⟩ := Option.isSome_iff_exists.mp hsome
  refine ⟨freed, ?_⟩
  rw [Heap.collected, heq]
  rfl

/-- A root with one field at 16, an object at 40 that nothing refers to, and a big one. -/
def nursery : Config :=
  let c := ((Config.mk Heap.init ∅).attempt null 16 [null]).2.pushRoot 16
  ((c.attempt null 16 []).2.attempt null 2048 []).2

theorem runs_nursery : Runs smallMemory nursery [] := by
  have hroot : Runs smallMemory ((Config.mk Heap.init ∅).attempt null 16 [null]).2 [] :=
    Runs.init.attempt (by decide) (by simp)
  have hpush := hroot.pushRoot (v := 16) (valid_of_leaf (by decide) (by decide))
  exact (hpush.attempt (by decide) (by simp)).attempt (by decide) (by simp)

/-- The root is old after two minor collections, which have freed the other two. -/
noncomputable def aged : Config :=
  (nursery.after (nursery.heap.collected false)).after
    ((nursery.heap.collected false).collected false)

theorem runs_aged : Runs smallMemory aged [] ∧ 16 ∈ aged.objects := by
  obtain ⟨freed₁, h₁⟩ := collectInner_collected false nursery.heap (by decide)
  obtain ⟨freed₂, h₂⟩ :=
    collectInner_collected false (nursery.heap.collected false) (by decide)
  have hrun := runs_nursery.after h₁
  exact ⟨hrun.after h₂, hrun.survives h₂ (reachable_of_root (by decide) (by decide))⟩

/-- The cell at 40 has a new object, and the cell behind it another one. -/
noncomputable def refilled : Config := ((aged.attempt null 16 []).2.attempt null 16 []).2

/-- The old root refers to the object at 40. -/
noncomputable def generations : Config := refilled.store 16 0 40

theorem runs_generations : Runs smallMemory generations [] := by
  obtain ⟨hrun, hmem⟩ := runs_aged
  have hrefilled : Runs smallMemory refilled [] :=
    (hrun.attempt (by decide) (by simp)).attempt (by decide) (by simp)
  refine hrefilled.store 0 (valid_of_leaf ?_ ?_) (valid_of_leaf ?_ ?_)
  · exact Finset.mem_insert_of_mem (Finset.mem_insert_of_mem hmem)
  · decide
  · exact Finset.mem_insert_of_mem (Finset.mem_insert_self _ _)
  · decide

theorem ref_generations : generations.heap.Ref 16 40 := ⟨by decide, by decide⟩

theorem reachable_generations : generations.heap.Reachable 40 :=
  ⟨16, by decide, by decide, .single ref_generations⟩

/-- **A collection frees nothing that is reachable.**  It comes to an end, and the
cell of an object that the roots lead to is on no free list, its page stays in use
and is not reset, and its block is not moved to the free ones. -/
theorem collect_frees_no_reachable (hc : Runs M c layouts) (full : Bool) :
    (∃ fuel freed h, collectInner full fuel c.heap = some (freed, h)) ∧
      ∀ fuel freed h, collectInner full fuel c.heap = some (freed, h) →
        ∀ v, c.heap.Reachable v →
          v ∈ c.objects ∧ ¬ h.Freed (v - headerSize) ∧
          (∀ b ∈ c.heap.bigs, b.1 + headerSize = v → b ∈ h.bigs ∧ b ∉ h.freeBigs) ∧
          ∀ (idx : Nat) (pg : Page), c.heap.pages[idx]? = some pg → pg.Holds (v - headerSize) →
            ∃ pg', h.pages[idx]? = some pg' ∧ pg'.inUse = true ∧ pg'.start = pg.start ∧
              pg'.osize = pg.osize ∧ pg'.bump = pg.bump := by
  have i := hc.inv.1
  refine ⟨collect_terminates i.colors i.alloc.toLayout full, ?_⟩
  intro fuel freed h hcollect v hv
  have k := i.collect hcollect
  have hobj := i.mem_of_reachable hv
  have hleft : v ∈ c.survivors h := k.keeps v (Reachable.grey hv)
  refine ⟨hobj, fun hfreed => (k.freed v hobj).mp hfreed hleft, ?_, ?_⟩
  · rintro b hb rfl
    exact k.block_kept hb hleft
  · exact fun idx pg hpg hholds => k.page_kept hleft hpg hholds

/-- The reachable object at 40 is young, and the only reference to it is in an old one, which
the minor collection does not scan for its own sake. -/
theorem collect_frees_no_reachable_generations :
    Runs smallMemory generations [] ∧ generations.heap.Reachable 40 ∧
      generations.heap.roots = [16] ∧ generations.heap.remembered = [16] ∧
      ∃ fuel freed h, collectInner false fuel generations.heap = some (freed, h) ∧
        ¬ h.Freed (40 - headerSize) := by
  obtain ⟨⟨fuel, freed, h, hcollect⟩, hall⟩ := collect_frees_no_reachable runs_generations false
  exact ⟨runs_generations, reachable_generations, by decide, by decide, fuel, freed, h, hcollect,
    (hall fuel freed h hcollect 40 reachable_generations).2.1⟩

/-! ### Precision -/

/-- The objects that are left refer to what they referred to before. -/
theorem Collected.reachable_iff
    (k : Collected full h objects h' left) : h'.Reachable v ↔ h.Reachable v := by
  have hstep : ∀ r, Grey h objects r → ∀ w,
      Relation.ReflTransGen h'.Ref r w ↔ Relation.ReflTransGen h.Ref r w := by
    intro r hr w
    constructor
    · intro hpath
      refine (mem_of_reaches (S := {w | Grey h objects w ∧ Relation.ReflTransGen h.Ref r w}) ?_
        ⟨hr, Relation.ReflTransGen.refl⟩ hpath).2
      rintro a ⟨ha, hpath⟩ b hab
      have hab := (k.ref a (k.keeps a ha) b).mp hab
      exact ⟨ha.ref hab, hpath.tail hab⟩
    · intro hpath
      refine (mem_of_reaches (S := {w | Grey h objects w ∧ Relation.ReflTransGen h'.Ref r w}) ?_
        ⟨hr, Relation.ReflTransGen.refl⟩ hpath).2
      rintro a ⟨ha, hpath⟩ b hab
      exact ⟨ha.ref hab, hpath.tail ((k.ref a (k.keeps a ha) b).mpr hab)⟩
  unfold Heap.Reachable
  rw [k.roots]
  refine exists_congr fun r => and_congr_right fun hr => and_congr_right fun hne => ?_
  exact hstep r ⟨r, Or.inl ⟨hr, hne⟩, Relation.ReflTransGen.refl⟩ v

/-- When nothing is marked, only roots lead to something grey. -/
theorem Grey.reachable
    (hclear : ∀ v ∈ objects, h.marked v = false) (hv : Grey h objects v) : h.Reachable v := by
  obtain ⟨r, ⟨hr, hne⟩ | ⟨hr, hm⟩, hpath⟩ := hv
  · exact ⟨r, hr, hne, hpath⟩
  · rw [hclear r hr] at hm
    exact absurd hm (by simp)

/-- **Two full collections in a row leave exactly what is reachable**, and the
counter of live objects counts it. -/
theorem collect_twice_leaves_reachable (hc : Runs M c layouts) :
    (∃ fuel₁ freed₁ h₁ fuel₂ freed₂ h₂, collectInner true fuel₁ c.heap = some (freed₁, h₁) ∧
        collectInner true fuel₂ h₁ = some (freed₂, h₂)) ∧
      ∀ fuel₁ freed₁ h₁ fuel₂ freed₂ h₂, collectInner true fuel₁ c.heap = some (freed₁, h₁) →
        collectInner true fuel₂ h₁ = some (freed₂, h₂) →
        (∀ v, v ∈ (c.after h₁).survivors h₂ ↔ c.heap.Reachable v) ∧
          (∀ v, h₂.Reachable v ↔ c.heap.Reachable v) ∧
          h₂.live = ((c.after h₁).survivors h₂).card := by
  have i := hc.inv.1
  have i₁ : ∀ {fuel freed : Nat} {h : Heap},
      collectInner true fuel c.heap = some (freed, h) → Inv (c.after h) := fun hcollect =>
    i.step (Step.collect c true _ _ _ hcollect)
  refine ⟨?_, ?_⟩
  · obtain ⟨fuel₁, freed₁, h₁, hfirst⟩ := collect_terminates i.colors i.alloc.toLayout true
    obtain ⟨fuel₂, freed₂, h₂, hsecond⟩ :=
      collect_terminates (i₁ hfirst).colors (i₁ hfirst).alloc.toLayout true
    exact ⟨fuel₁, freed₁, h₁, fuel₂, freed₂, h₂, hfirst, hsecond⟩
  · intro fuel₁ freed₁ h₁ fuel₂ freed₂ h₂ hfirst hsecond
    have k₁ := i.collect hfirst
    have k₂ := (i₁ hfirst).collect hsecond
    refine ⟨fun v => ?_, fun v => k₂.reachable_iff.trans k₁.reachable_iff, k₂.inv.live_eq_card⟩
    rw [← k₁.reachable_iff]
    constructor
    · -- the first collection left nothing marked
      exact fun hv => (k₂.drops rfl v hv).reachable (k₁.cleared rfl)
    · exact fun hv => k₂.keeps v (Reachable.grey hv)

/-- Nothing leads to the object at 64. -/
theorem not_reachable_generations : ¬ generations.heap.Reachable 64 := by
  rintro ⟨r, hr, -, hpath⟩
  have hroots : generations.heap.roots = [16] := by decide
  rw [hroots] at hr
  have hmem : (64 : Nat) ∈ ({16, 40} : Set Nat) := by
    refine mem_of_reaches ?_ (Or.inl (List.mem_singleton.mp hr)) hpath
    rintro v (rfl | rfl) w ⟨hw, hne⟩
    · have hrefs : generations.heap.eachRef 16 = [40] := by decide
      rw [hrefs] at hw
      exact Or.inr (List.mem_singleton.mp hw)
    · have hrefs : generations.heap.eachRef 40 = [] := by decide
      rw [hrefs] at hw
      exact absurd hw List.not_mem_nil
  simp at hmem

/-- The old object and the young one it refers to are left, the garbage is not. -/
theorem collect_twice_leaves_reachable_generations :
    Runs smallMemory generations [] ∧ 64 ∈ generations.objects ∧
      generations.heap.gcBits 16 = 1 ∧ ∃ fuel₁ freed₁ h₁ fuel₂ freed₂ h₂,
        collectInner true fuel₁ generations.heap = some (freed₁, h₁) ∧
          collectInner true fuel₂ h₁ = some (freed₂, h₂) ∧
          16 ∈ (generations.after h₁).survivors h₂ ∧ 40 ∈ (generations.after h₁).survivors h₂ ∧
          64 ∉ (generations.after h₁).survivors h₂ := by
  obtain ⟨⟨fuel₁, freed₁, h₁, fuel₂, freed₂, h₂, hfirst, hsecond⟩, hall⟩ :=
    collect_twice_leaves_reachable runs_generations
  have hiff := (hall _ _ _ _ _ _ hfirst hsecond).1
  refine ⟨runs_generations, Finset.mem_insert_self _ _, by decide, fuel₁, freed₁, h₁, fuel₂, freed₂,
    h₂, hfirst, hsecond, (hiff 16).mpr (reachable_of_root (by decide) (by decide)),
    (hiff 40).mpr reachable_generations, fun hmem => not_reachable_generations ((hiff 64).mp hmem)⟩

/-! ### Accounting -/

/-- The ranges of all pages and all big blocks, in use or free. -/
def Heap.ranges (h : Heap) : List (Nat × Nat) :=
  h.pages.map (fun pg => (pg.start, pageSize)) ++ (h.bigs ++ h.freeBigs)

theorem Layout.ranges_apart (inv : Layout h objects) :
    h.ranges.Pairwise Apart := by
  refine List.pairwise_append.mpr ⟨?_, inv.geometry.blocks_apart, ?_⟩
  · refine List.pairwise_map.mpr ?_
    exact (List.pairwise_map.mp (List.pairwise_map.mp inv.geometry.sorted)).imp Or.inl
  · intro a ha b hb
    obtain ⟨pg, hpg, rfl⟩ := List.mem_map.mp ha
    refine (inv.geometry.block_start b hb pg.start ?_).symm
    exact List.mem_map_of_mem (List.mem_map_of_mem hpg)

/-- What a page in use accounts for: its cells are the live ones, the ones on the
free list `fl`, and those at and behind the bump point, which were never used. -/
structure Accounts (h : Heap) (objects : Finset Nat) (pg : Page) (fl : List Nat) : Prop where
  total : pg.nfree + pg.liveN = pageSize / pg.osize
  live : pg.liveN = (objects.filter fun v => pg.Holds (v - headerSize)).card
  thread : Threaded null h.word pg.freelist fl
  nodup : fl.Nodup
  below : ∀ s ∈ fl, pg.start ≤ s ∧ s < pg.bump
  dead : ∀ s ∈ fl, s + headerSize ∉ objects
  nfree : fl.length + (pageSize / pg.osize - (pg.bump - pg.start) / pg.osize) = pg.nfree

theorem Layout.accounts (inv : Layout h objects) {pg : Page}
    (hpg : pg ∈ h.pages) (hin : pg.inUse = true) : ∃ fl, Accounts h objects pg fl := by
  obtain ⟨idx, hidx⟩ := List.getElem?_of_mem hpg
  have hok := inv.page idx _ (getElem?_table.mpr ⟨pg, hidx, rfl⟩)
  obtain ⟨fl, used, k⟩ := hok.carved hin
  have hused : used ≤ pageSize / pg.osize :=
    (Nat.le_div_iff_mul_le (by have := k.osize.1; omega)).mpr k.room
  refine ⟨fl, ?_, ?_, k.thread, k.nodup, ?_, fun s hs => k.free_not_object hs, ?_⟩
  · have := k.nfree
    have := k.liveN
    omega
  · exact (hok.card fun v hv => inv.object_eq hv).symm
  · intro s hs
    obtain ⟨n, hn, rfl⟩ := k.slot s hs
    have hlt : n * pg.osize < used * pg.osize :=
      Nat.mul_lt_mul_of_pos_right hn (by have := k.osize.1; omega)
    have := k.bump
    omega
  · rw [k.used_eq]
    exact k.nfree.symm

/-- A cell that can be filled is one that was not in use. -/
theorem Inv.fresh_of_canFill (i : Inv c) {size s : Nat} (hsize : size < 2 ^ 32)
    (halloc : allocChunk (chunkSize size) c.heap = (s, h)) (hne : s ≠ null)
    (hfill : M.CanFill (s + headerSize) size) : s + headerSize ∉ c.objects := by
  by_cases hle : size ≤ maxRequest
  · obtain ⟨h8, hlow, hmax⟩ := chunkSize_spec hle
    have hspec := allocChunk_spec i.alloc h8 hlow hmax
    rw [halloc] at hspec
    rcases hspec with out | ⟨hnull, -⟩
    · exact out.fresh
    · exact absurd hnull hne
  · -- a larger request is answered only with an object that nothing can fill
    have hfst : (c.attempt null size []).1 = s + headerSize := by
      rw [Config.attempt, allocObject_fst, halloc, if_neg hne]
    have hends : Ends size c (c.attempt null size []) :=
      attempt_large i [] (Nat.not_le.mp hle) hsize
    have hlow := M.low
    have hlimit := M.limit
    unfold LinearMemory.CanFill at hfill
    generalize c.attempt null size [] = r at hfst hends
    cases hends with
    | fails =>
      unfold headerSize null at hfst
      omega
    | places _ inv _ hplaced =>
      obtain ⟨hmem, t, n, rfl, hroom, hchunk⟩ := hplaced
      have hrange := inv.alloc.toLayout.chunk_range hmem hchunk
      unfold maxRequest at hle
      unfold regionSize at hrange
      omega
    | overruns _ hover =>
      dsimp only at hfst
      omega

/-- **The allocator's books balance in every run.**  Hence no request is answered
with a cell that is in use, and what a collection reports as freed is the
difference of two counts. -/
theorem allocator_accounts (hc : Runs M c layouts) :
    (∀ pg ∈ c.heap.pages, pg.inUse = true → ∃ fl, Accounts c.heap c.objects pg fl) ∧
      c.heap.ranges.Pairwise Apart ∧
      c.heap.live = (c.heap.pages.map fun pg => pg.liveN).sum + c.heap.bigs.length ∧
      c.heap.heapSize = (c.heap.pages.map fun pg => pg.liveN * pg.osize).sum +
        (c.heap.bigs.map Prod.snd).sum ∧
      (∀ size < 2 ^ 32, ∀ s h, allocChunk (chunkSize size) c.heap = (s, h) → s ≠ null →
        M.CanFill (s + headerSize) size → s + headerSize ∉ c.objects) ∧
      ∀ full fuel freed h, collectInner full fuel c.heap = some (freed, h) →
        h.live ≤ c.heap.live ∧ freed = c.heap.live - h.live := by
  have i := hc.inv.1
  have htable : ∀ f : PageCells → Nat,
      c.heap.table.map f = c.heap.pages.map fun pg => f pg.toPageCells := fun f => List.map_map
  refine ⟨fun pg hpg hin => i.alloc.toLayout.accounts hpg hin, i.alloc.toLayout.ranges_apart,
    ?_, ?_, ?_, ?_⟩
  · rw [i.alloc.live, htable]
  · rw [i.alloc.heapSize, htable]
  · exact fun size hsize s h halloc hne hfill => i.fresh_of_canFill hsize halloc hne hfill
  · intro full fuel freed h hcollect
    have k := i.collect hcollect
    have hlive := k.inv.live_eq_card
    have hlive₀ := i.alloc.live_eq_card
    have hle := Finset.card_le_card k.sub
    have hlt := i.alloc.toLayout.card_lt
    refine ⟨by omega, ?_⟩
    obtain ⟨-, hfreed⟩ := collect_spec i.colors i.alloc.toLayout hcollect
    rw [hfreed, u32]
    omega

/-- Three objects, four cells of the first page and the bytes of a freed block. -/
theorem allocator_accounts_generations :
    Runs smallMemory generations [] ∧ generations.heap.live = 3 ∧
      generations.heap.freeBigs = [(16392, 2056)] ∧ generations.heap.ranges.Pairwise Apart ∧
      ∃ pg ∈ generations.heap.pages, pg.liveN = 3 ∧
        ∃ fl, Accounts generations.heap generations.objects pg fl := by
  obtain ⟨hpages, hapart, -⟩ := allocator_accounts runs_generations
  have hpage : ∃ pg ∈ generations.heap.pages, pg.inUse = true ∧ pg.liveN = 3 := by decide
  obtain ⟨pg, hpg, hin, hlive⟩ := hpage
  exact ⟨runs_generations, by decide, by decide, hapart, pg, hpg, hlive, hpages pg hpg hin⟩

/-- **The counter of live objects is exact in every run**, and never wraps around; the two
low bits of a reference to an object, where a header has the colour, are zero. -/
theorem live_exact (hc : Runs M c layouts) :
    c.heap.live = c.objects.card ∧ c.objects.card < 2 ^ 32 ∧ ∀ v ∈ c.objects, 8 ∣ v := by
  have i := hc.inv.1.alloc
  exact ⟨i.live_eq_card, i.toLayout.card_lt, fun _ => i.toLayout.object_aligned⟩

theorem live_exact_generations :
    Runs smallMemory generations [] ∧ generations.objects.card = 3 :=
  ⟨runs_generations, (live_exact runs_generations).1.symm⟩

/-! ### Generations -/

/-- **The generational invariant of every run.**  An object that is marked refers to
marked ones only, or it is remembered, once; the next minor collection scans it again. -/
theorem marked_or_remembered (hc : Runs M c layouts) :
    c.heap.remembered.Nodup ∧ (∀ p ∈ c.heap.remembered, p ∈ c.objects) ∧
      ∀ v ∈ c.objects, c.heap.marked v = true → ∀ r, c.heap.Ref v r →
        r ∈ c.objects ∧ (c.heap.marked r = true ∨ v ∈ c.heap.remembered) := by
  have k := hc.inv.1.colors
  refine ⟨k.nodup, fun p hp => (k.remembered p hp).1, fun v hv hmarked r href =>
    ⟨k.sound v hv hmarked r (.single href), ?_⟩⟩
  rcases marked_iff.mp hmarked with hone | hthree
  · exact Or.inr (k.one v hv hone)
  · exact Or.inl (k.three v hv hthree r href)

/-- The old root refers to an object that is not marked, so it is remembered. -/
theorem marked_or_remembered_generations :
    Runs smallMemory generations [] ∧ generations.heap.marked 40 = false ∧
      16 ∈ generations.heap.remembered := by
  obtain ⟨-, -, hall⟩ := marked_or_remembered runs_generations
  have hyoung : generations.heap.marked 40 = false := by decide
  have hold : 16 ∈ generations.objects := runs_generations.inv.1.mem_of_reachable
    (reachable_of_root (by decide) (by decide))
  obtain ⟨-, hmarked⟩ := hall 16 hold (by decide) 40 ref_generations
  exact ⟨runs_generations, hyoung, hmarked.resolve_left (by simp [hyoung])⟩

end Ruju.Gc
