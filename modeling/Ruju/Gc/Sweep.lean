import Ruju.Gc.Mark

/-!
# What the sweep makes of the pages

The sweep treats one page after the other and then the big objects.  None of them
reads what another has written, so its effect is described object by object, in
terms of the colours the mark phase left (`Colored`): which objects are left and
which colour they have now.

`PagesSwept` is what holds after the first `n` pages.  Whatever is done with the
next page is an instance of `PagesSwept.step`.  A page that is walked frees exactly
its unmarked cells.  A page that is released holds no marked object, and a page that
is skipped none that was marked young: this is what the flags of the mark phase are
for.
-/

namespace Ruju.Gc

open Heap

/-- The colour a marked object has after the sweep. -/
def recolor (full : Bool) (bits : Nat) : Nat := if bits = 1 ∨ full then 2 else bits

/-! ### Walking a page -/

/-- After the walk has seen the first `n` cells of a page, `free` being the ones it
has freed. -/
structure Walked (full : Bool) (p : PageCells) (word : Nat → Nat) (n : Nat) (w : Walk)
    (free : List Nat) : Prop where
  thread : Threaded null w.word w.fl free
  nodup : free.Nodup
  mem : ∀ s, s ∈ free ↔ p.IsSlot n s ∧ word s % 2 = 0
  nfree : w.nfree = free.length
  liveN : w.liveN + free.length = n
  live : ∀ s, p.IsSlot n s → word s % 2 = 1 → 0 < w.liveN
  marked : ∀ s, p.IsSlot n s → word s % 2 = 1 →
    w.word s = word s / 4 * 4 + recolor full (word s % 4)
  other : ∀ s, ¬ p.IsSlot n s → w.word s = word s

theorem isSlot_succ {p : PageCells} {n s : Nat} :
    p.IsSlot (n + 1) s ↔ p.IsSlot n s ∨ s = p.start + n * p.osize := by
  constructor
  · rintro ⟨k, hk, rfl⟩
    rcases Nat.lt_succ_iff_lt_or_eq.mp hk with hk | rfl
    · exact Or.inl ⟨k, hk, rfl⟩
    · exact Or.inr rfl
  · rintro (⟨k, hk, rfl⟩ | rfl)
    · exact ⟨k, by omega, rfl⟩
    · exact ⟨n, by omega, rfl⟩

/-- One more cell. -/
theorem Walked.step {full : Bool} {p : PageCells} {word : Nat → Nat} {n : Nat} {w : Walk}
    {free : List Nat} (hw : Walked full p word n w free) (hpos : 0 < p.osize)
    (hstart : p.start ≠ null) :
    ∃ free', Walked full p word (n + 1) (walkCell full p.start p.osize w n) free' := by
  obtain ⟨slot, hslot⟩ : ∃ slot, slot = p.start + n * p.osize := ⟨_, rfl⟩
  -- the cell is not one of those seen before
  have hnew : ¬ p.IsSlot n slot := by
    rintro ⟨k, hk, heq⟩
    have := Nat.eq_of_mul_eq_mul_right hpos (Nat.add_left_cancel (hslot.symm.trans heq))
    omega
  have hword : w.word slot = word slot := hw.other slot hnew
  have hne : slot ≠ null := by
    unfold null at hstart ⊢
    omega
  have hnotfree : slot ∉ free := fun hmem => hnew ((hw.mem slot).mp hmem).1
  have hother : ∀ s, ¬ p.IsSlot (n + 1) s → s ≠ slot ∧ ¬ p.IsSlot n s := by
    intro s hs
    rw [isSlot_succ, ← hslot, not_or] at hs
    exact ⟨hs.2, hs.1⟩
  unfold walkCell
  simp only [← hslot, hword]
  by_cases hm : word slot % 4 % 2 = 1
  · -- a marked cell
    rw [if_pos hm]
    have hm2 : word slot % 2 = 1 := by omega
    obtain ⟨word', hword'⟩ : ∃ f, f = if word slot % 4 = 1 ∨ full = true then
        Function.update w.word slot (word slot / 4 * 4 + 2) else w.word := ⟨_, rfl⟩
    have hself : word' slot = word slot / 4 * 4 + recolor full (word slot % 4) := by
      rw [hword', recolor]
      split
      · rw [Function.update_self]
      · rw [hword]
        omega
    have hrest : ∀ s, s ≠ slot → word' s = w.word s := by
      intro s hs
      rw [hword']
      split
      · exact Function.update_of_ne hs _ _
      · rfl
    rw [← hword']
    refine ⟨free, ?_, hw.nodup, ?_, hw.nfree, ?_, fun _ _ _ => Nat.succ_pos _, ?_, ?_⟩
    · exact hw.thread.congr fun s hs => hrest s fun heq => hnotfree (heq ▸ hs)
    · intro s
      rw [hw.mem, isSlot_succ, ← hslot]
      constructor
      · exact fun ⟨h1, h2⟩ => ⟨Or.inl h1, h2⟩
      · rintro ⟨h1 | rfl, h2⟩
        · exact ⟨h1, h2⟩
        · omega
    · have := hw.liveN
      show w.liveN + 1 + free.length = n + 1
      omega
    · intro s hs hs2
      rw [isSlot_succ, ← hslot] at hs
      by_cases hss : s = slot
      · rw [hss]
        exact hself
      · show word' s = _
        rw [hrest s hss]
        exact hw.marked s (hs.resolve_right hss) hs2
    · intro s hs
      show word' s = _
      rw [hrest s (hother s hs).1]
      exact hw.other s (hother s hs).2
  · -- an unmarked cell goes on the free list
    rw [if_neg hm]
    have hm2 : word slot % 2 = 0 := by omega
    refine ⟨slot :: free, hw.thread.push hne hnotfree, List.nodup_cons.mpr ⟨hnotfree, hw.nodup⟩,
      ?_, ?_, ?_, ?_, ?_, ?_⟩
    · intro s
      rw [List.mem_cons, hw.mem, isSlot_succ, ← hslot]
      constructor
      · rintro (rfl | ⟨h1, h2⟩)
        · exact ⟨Or.inr rfl, hm2⟩
        · exact ⟨Or.inl h1, h2⟩
      · rintro ⟨h1 | rfl, h2⟩
        · exact Or.inr ⟨h1, h2⟩
        · exact Or.inl rfl
    · have := hw.nfree
      show w.nfree + 1 = (slot :: free).length
      rw [List.length_cons]
      omega
    · have := hw.liveN
      show w.liveN + (slot :: free).length = n + 1
      rw [List.length_cons]
      omega
    · intro s hs hs2
      rw [isSlot_succ, ← hslot] at hs
      refine hw.live s (hs.resolve_right ?_) hs2
      rintro rfl
      omega
    · intro s hs hs2
      rw [isSlot_succ, ← hslot] at hs
      have hss : s ≠ slot := by
        rintro rfl
        omega
      show Function.update w.word slot w.fl s = _
      rw [Function.update_of_ne hss]
      exact hw.marked s (hs.resolve_right hss) hs2
    · intro s hs
      show Function.update w.word slot w.fl s = _
      rw [Function.update_of_ne (hother s hs).1]
      exact hw.other s (hother s hs).2

/-- **The walk over a page.** -/
theorem walk_spec (full : Bool) (pg : Page) (word : Nat → Nat) (hpos : 0 < pg.osize)
    (hstart : pg.start ≠ null) :
    ∃ free, Walked full pg.toPageCells word ((pg.bump - pg.start) / pg.osize)
      (walk full pg word) free := by
  unfold walk
  induction (pg.bump - pg.start) / pg.osize with
  | zero =>
    have hnone : ∀ s, ¬ pg.IsSlot 0 s := fun s ⟨k, hk, _⟩ => absurd hk (Nat.not_lt_zero k)
    exact ⟨[], rfl, List.nodup_nil, by simp [hnone], rfl, rfl,
      fun s hs => absurd hs (hnone s), fun s hs => absurd hs (hnone s), fun _ _ => rfl⟩
  | succ n ih =>
    obtain ⟨free, hw⟩ := ih
    rw [List.range_succ, List.foldl_append]
    exact hw.step hpos hstart

/-! ### One page after the other -/

/-- One of the first `n` pages holds the offset. -/
def Before (h₀ : Heap) (n a : Nat) : Prop :=
  ∃ j < n, ∃ pg, h₀.pages[j]? = some pg ∧ pg.Holds a

theorem before_succ {h₀ : Heap} {n a : Nat} {pg : Page} (hpg : h₀.pages[n]? = some pg) :
    Before h₀ (n + 1) a ↔ Before h₀ n a ∨ pg.Holds a := by
  constructor
  · rintro ⟨j, hj, q, hq, hholds⟩
    rcases Nat.lt_succ_iff_lt_or_eq.mp hj with hj | rfl
    · exact Or.inl ⟨j, hj, q, hq, hholds⟩
    · obtain rfl := Option.some.inj (hpg.symm.trans hq)
      exact Or.inr hholds
  · rintro (⟨j, hj, q, hq, hholds⟩ | hholds)
    · exact ⟨j, by omega, q, hq, hholds⟩
    · exact ⟨n, by omega, pg, hpg, hholds⟩

/-- What the sweep of the pages does not touch. -/
structure SweepFrame (h₀ h : Heap) : Prop where
  top : h.top = h₀.top
  fields : h.fields = h₀.fields
  remembered : h.remembered = h₀.remembered
  roots : h.roots = h₀.roots
  prevFull : h.prevFull = h₀.prevFull
  bigsYoung : h.bigsYoung = h₀.bigsYoung
  bigsOld : h.bigsOld = h₀.bigsOld
  freeBigs : h.freeBigs = h₀.freeBigs

theorem SweepFrame.refl (h : Heap) : SweepFrame h h := ⟨rfl, rfl, rfl, rfl, rfl, rfl, rfl, rfl⟩

theorem SweepFrame.trans {h₁ h₂ h₃ : Heap} (s : SweepFrame h₁ h₂) (t : SweepFrame h₂ h₃) :
    SweepFrame h₁ h₃ where
  top := t.top.trans s.top
  fields := t.fields.trans s.fields
  remembered := t.remembered.trans s.remembered
  roots := t.roots.trans s.roots
  prevFull := t.prevFull.trans s.prevFull
  bigsYoung := t.bigsYoung.trans s.bigsYoung
  bigsOld := t.bigsOld.trans s.bigsOld
  freeBigs := t.freeBigs.trans s.freeBigs

/-- What the sweep makes of the objects in the places `there`, when those in `left`
are left. -/
structure Colored (full : Bool) (h₀ : Heap) (objects left : Finset Nat) (there : Nat → Prop)
    (h : Heap) : Prop where
  keeps : ∀ v ∈ objects, there (v - headerSize) → h₀.marked v = true → v ∈ left
  drops : full = true → ∀ v ∈ left, there (v - headerSize) → h₀.marked v = true
  marked : ∀ v ∈ left, there (v - headerSize) → h₀.marked v = true →
    h.gcBits v = recolor full (h₀.gcBits v)
  unmarked : ∀ v ∈ left, there (v - headerSize) → h₀.marked v = false →
    h.gcBits v = h₀.gcBits v
  type : ∀ v ∈ left, there (v - headerSize) → h.typeOf v = h₀.typeOf v

/-- After the first `n` pages were swept, with the objects `left` over. -/
structure PagesSwept (full : Bool) (h₀ : Heap) (objects : Finset Nat) (n : Nat) (s : Sweep)
    (left : Finset Nat) : Prop where
  layout : Layout s.heap left
  frame : SweepFrame h₀ s.heap
  length : s.heap.pages.length = h₀.pages.length
  shape : ∀ (j : Nat) (pg' : Page), s.heap.pages[j]? = some pg' → ∃ pg, h₀.pages[j]? = some pg ∧
    pg'.start = pg.start ∧ pg'.osize = pg.osize ∧ pg'.bump = pg.bump
  later : ∀ j, n ≤ j → s.heap.pages[j]? = h₀.pages[j]?
  word : ∀ a, ¬ Before h₀ n a → s.heap.word a = h₀.word a
  sub : left ⊆ objects
  outside : ∀ v ∈ objects, ¬ Before h₀ n (v - headerSize) → v ∈ left
  colored : Colored full h₀ objects left (Before h₀ n) s.heap
  flag : ∀ (j : Nat) (pg : Page), j < n → s.heap.pages[j]? = some pg → pg.inUse = true →
    ∀ v ∈ left, pg.Holds (v - headerSize) → pg.hasMarked = true
  survivors : s.survivors = ((s.heap.table.take n).map PageCells.liveN).sum
  liveBytes : s.liveBytes = ((s.heap.table.take n).map fun p => p.liveN * p.osize).sum

theorem take_succ_of_eq {α : Type*} {l l' : List α} {n : Nat} {a : α} (hn : l'[n]? = some a)
    (hlt : ∀ j < n, l'[j]? = l[j]?) : l'.take (n + 1) = l.take n ++ [a] := by
  rw [List.take_add_one, hn]
  congr 1
  refine List.ext_getElem? fun j => ?_
  rw [List.getElem?_take, List.getElem?_take]
  split
  · rename_i hj
    exact hlt j hj
  · rfl

/-- **One more page**, whatever was done with it. -/
theorem PagesSwept.step {full : Bool} {h₀ : Heap} {objects : Finset Nat} {n : Nat}
    {s s' : Sweep} {left left' : Finset Nat} (inv : Layout h₀ objects)
    (m : PagesSwept full h₀ objects n s left) {pg pg' : Page} (hpg : h₀.pages[n]? = some pg)
    (hlayout : Layout s'.heap left') (hframe : SweepFrame s.heap s'.heap)
    (hself : s'.heap.pages[n]? = some pg')
    (hother : ∀ j, j ≠ n → s'.heap.pages[j]? = s.heap.pages[j]?)
    (hlength : s'.heap.pages.length = s.heap.pages.length)
    (hshape : pg'.start = pg.start ∧ pg'.osize = pg.osize ∧ pg'.bump = pg.bump)
    (hword : ∀ a, ¬ pg.Holds a → s'.heap.word a = s.heap.word a)
    (hsub : left' ⊆ left)
    (hleft : ∀ v ∈ left, ¬ pg.Holds (v - headerSize) → v ∈ left')
    (hcolored : Colored full h₀ left left' pg.Holds s'.heap)
    (hflag : pg'.inUse = true → ∀ v ∈ left', pg'.Holds (v - headerSize) → pg'.hasMarked = true)
    (hsurvivors : s'.survivors = s.survivors + pg'.liveN)
    (hbytes : s'.liveBytes = s.liveBytes + pg'.liveN * pg'.osize) :
    PagesSwept full h₀ objects (n + 1) s' left' := by
  have hsucc : ∀ a, Before h₀ (n + 1) a ↔ Before h₀ n a ∨ pg.Holds a := fun a =>
    before_succ hpg
  have hapart : ∀ a, Before h₀ n a → ¬ pg.Holds a := by
    rintro a ⟨j, hj, q, hq, hqa⟩ hpa
    have := inv.holds_unique (getElem?_table.mpr ⟨q, hq, rfl⟩)
      (getElem?_table.mpr ⟨pg, hpg, rfl⟩) hqa hpa
    omega
  have hkept : ∀ v, Before h₀ n (v - headerSize) →
      s'.heap.word (v - headerSize) = s.heap.word (v - headerSize) := fun v hb =>
    hword _ (hapart _ hb)
  have htable : s'.heap.table.take (n + 1) = s.heap.table.take n ++ [pg'.toPageCells] := by
    refine take_succ_of_eq (getElem?_table.mpr ⟨pg', hself, rfl⟩) fun j hj => ?_
    simp only [Heap.table, List.getElem?_map, hother j (by omega)]
  refine ⟨hlayout, m.frame.trans hframe, hlength.trans m.length, ?_, ?_, ?_,
    hsub.trans m.sub, ?_, ⟨?_, ?_, ?_, ?_, ?_⟩, ?_, ?_, ?_⟩
  · intro j q hq
    by_cases hj : j = n
    · subst hj
      obtain rfl := Option.some.inj (hself.symm.trans hq)
      exact ⟨pg, hpg, hshape⟩
    · exact m.shape j q (hother j hj ▸ hq)
  · intro j hj
    rw [hother j (by omega), m.later j (by omega)]
  · intro a ha
    rw [hsucc, not_or] at ha
    rw [hword a ha.2, m.word a ha.1]
  · intro v hv hb
    rw [hsucc, not_or] at hb
    exact hleft v (m.outside v hv hb.1) hb.2
  · intro v hv hb hm
    rcases (hsucc _).mp hb with hb | hb
    · exact hleft v (m.colored.keeps v hv hb hm) (hapart _ hb)
    · refine hcolored.keeps v (m.outside v hv fun hb' => hapart _ hb' hb) hb hm
  · intro hfull v hv hb
    rcases (hsucc _).mp hb with hb | hb
    · exact m.colored.drops hfull v (hsub hv) hb
    · exact hcolored.drops hfull v hv hb
  · intro v hv hb hm
    rcases (hsucc _).mp hb with hb | hb
    · rw [Heap.gcBits, hkept v hb]
      exact m.colored.marked v (hsub hv) hb hm
    · exact hcolored.marked v hv hb hm
  · intro v hv hb hm
    rcases (hsucc _).mp hb with hb | hb
    · rw [Heap.gcBits, hkept v hb]
      exact m.colored.unmarked v (hsub hv) hb hm
    · exact hcolored.unmarked v hv hb hm
  · intro v hv hb
    rcases (hsucc _).mp hb with hb | hb
    · rw [Heap.typeOf, hkept v hb]
      exact m.colored.type v (hsub hv) hb
    · exact hcolored.type v hv hb
  · intro j q hj hq hin v hv hholds
    by_cases hjn : j = n
    · subst hjn
      obtain rfl := Option.some.inj (hself.symm.trans hq)
      exact hflag hin v hv hholds
    · exact m.flag j q (by omega) (hother j hjn ▸ hq) hin v (hsub hv) hholds
  · rw [htable, List.map_append, List.sum_append, hsurvivors, m.survivors]
    rfl
  · rw [htable, List.map_append, List.sum_append, hbytes, m.liveBytes]
    rfl

/-- The heap as the mark phase leaves it: the flags of a page tell about the
objects on it. -/
structure MarkDone (h₀ : Heap) (objects : Finset Nat) : Prop where
  layout : Layout h₀ objects
  flag : ∀ v ∈ objects, h₀.marked v = true → Flagged Page.hasMarked h₀ v
  young : ∀ v ∈ objects, h₀.gcBits v = 1 → Flagged Page.hasYoung h₀ v
  old : ∀ b ∈ h₀.bigsOld, h₀.gcBits (b.1 + headerSize) = 3

section PageCases

variable {full : Bool} {h₀ : Heap} {objects left : Finset Nat} {n : Nat} {s : Sweep} {pg : Page}

/-- The page about to be swept is as the mark phase left it. -/
theorem PagesSwept.untouched (done : MarkDone h₀ objects)
    (m : PagesSwept full h₀ objects n s left) (hpg : h₀.pages[n]? = some pg) {a : Nat}
    (ha : pg.Holds a) : s.heap.word a = h₀.word a := by
  refine m.word a ?_
  rintro ⟨j, hj, q, hq, hqa⟩
  have := done.layout.holds_unique (getElem?_table.mpr ⟨q, hq, rfl⟩)
    (getElem?_table.mpr ⟨pg, hpg, rfl⟩) hqa ha
  omega

/-- A page that is left as it is: not in use, or settled. -/
theorem PagesSwept.keep (done : MarkDone h₀ objects)
    (m : PagesSwept full h₀ objects n s left) (hpg : h₀.pages[n]? = some pg)
    (hcase : pg.inUse = false ∨ (full = false ∧ pg.hasMarked = true ∧ pg.hasYoung = false)) :
    PagesSwept full h₀ objects (n + 1)
      { s with
        survivors := s.survivors + pg.liveN
        liveBytes := s.liveBytes + pg.liveN * pg.osize } left := by
  have hpg' : s.heap.pages[n]? = some pg := (m.later n le_rfl).trans hpg
  have hp : s.heap.table[n]? = some pg.toPageCells := getElem?_table.mpr ⟨pg, hpg', rfl⟩
  -- an object on the page means that the page is in use
  have hin : ∀ v ∈ left, pg.Holds (v - headerSize) → pg.inUse = true := by
    intro v hv hholds
    by_contra hout
    obtain ⟨a, rfl⟩ := m.layout.object_eq hv
    exact ((m.layout.page n _ hp).released (by simpa using hout)).2 a (by simpa using hholds) hv
  have hsame : ∀ v, pg.Holds (v - headerSize) → s.heap.gcBits v = h₀.gcBits v := fun v hv => by
    rw [Heap.gcBits, m.untouched done hpg hv, Heap.gcBits]
  refine m.step done.layout hpg m.layout (SweepFrame.refl _) hpg' (fun _ _ => rfl) rfl
    ⟨rfl, rfl, rfl⟩ (fun _ _ => rfl) (fun _ hv => hv) (fun _ hv _ => hv)
    ⟨fun v hv _ _ => hv, ?_, ?_, fun v _ hh _ => hsame v hh, ?_⟩ ?_ rfl rfl
  · intro hfull v hv hholds
    rcases hcase with hout | ⟨hquick, -⟩
    · simp [hin v hv hholds] at hout
    · simp [hquick] at hfull
  · intro v hv hholds hm
    rcases hcase with hout | ⟨hquick, -, hyoung⟩
    · simp [hin v hv hholds] at hout
    · -- an object marked young would have flagged the page
      have hne : h₀.gcBits v ≠ 1 := fun h1 => by
        have := done.young v (m.sub hv) h1 n pg hpg (hin v hv hholds) hholds
        simp [hyoung] at this
      rw [hsame v hholds, recolor, if_neg]
      simp [hne, hquick]
  · intro v _ hholds
    rw [Heap.typeOf, m.untouched done hpg hholds, Heap.typeOf]
  · intro hin' v hv hholds
    rcases hcase with hout | ⟨-, hmarked, -⟩
    · simp [hin'] at hout
    · exact hmarked

/-- No queue lists the page any more. -/
theorem mem_unqueue {table : List PageCells} {pools : List Pool} {freePages : List Nat}
    (hq : Queues table pools freePages) {p : PageCells} (hp : table[n]? = some p) {q : Pool}
    (hmem : q ∈ unqueue n p.osize pools) :
    ∃ q₀ ∈ pools, q.osize = q₀.osize ∧ ∀ j ∈ q.pageQ, j ∈ q₀.pageQ ∧ j ≠ n := by
  -- a queue of another class does not list the page in the first place
  have hclass : ∀ q₀ ∈ pools, n ∈ q₀.pageQ → q₀.osize = p.osize := by
    intro q₀ hq₀ hn
    obtain ⟨p', hp', -, hos⟩ := hq.queue q₀ hq₀ n hn
    obtain rfl := Option.some.inj (hp.symm.trans hp')
    exact hos.symm
  unfold unqueue at hmem
  split at hmem
  · rename_i pi hfind
    obtain ⟨hlt, hpi, -⟩ := List.findIdx?_eq_some_iff_getElem.mp hfind
    obtain ⟨j, hj⟩ := List.getElem?_of_mem hmem
    rw [List.getElem?_modify] at hj
    obtain ⟨q₀, hq₀, heq⟩ := Option.map_eq_some_iff.mp hj
    refine ⟨q₀, List.mem_of_getElem? hq₀, ?_, ?_⟩
    · rw [← heq]
      split <;> rfl
    · intro i hi
      rw [← heq] at hi
      split at hi
      · have := List.mem_filter.mp hi
        exact ⟨this.1, by simpa using this.2⟩
      · rename_i hne
        refine ⟨hi, fun hin => hne ?_⟩
        -- pools of one class are one pool
        have hos : q₀.osize = p.osize := hclass q₀ (List.mem_of_getElem? hq₀) (hin ▸ hi)
        have hpi' : pools[pi].osize = p.osize := by simpa using hpi
        refine (List.getElem?_inj (by simpa using hlt) hq.classes).mp ?_
        simp [hq₀, hos, hlt, hpi']
  · rename_i hnone
    refine ⟨q, hmem, rfl, fun j hj => ⟨hj, ?_⟩⟩
    rintro rfl
    have := List.findIdx?_eq_none_iff.mp hnone q hmem
    simp [hclass q hmem hj] at this

theorem map_osize_unqueue (idx osize : Nat) (pools : List Pool) :
    (unqueue idx osize pools).map Pool.osize = pools.map Pool.osize := by
  unfold unqueue
  split
  · apply map_modify_of_eq
    exact fun _ => rfl
  · rfl

/-- The queues after a page was released. -/
theorem Queues.release {table : List PageCells} {pools : List Pool} {freePages : List Nat}
    (hq : Queues table pools freePages) {p p' : PageCells} (hp : table[n]? = some p)
    (hin : p.inUse = true) (hout : p'.inUse = false) :
    Queues (table.set n p') (unqueue n p.osize pools) (freePages ++ [n]) := by
  have hnotin : n ∉ freePages := by
    intro hn
    obtain ⟨q, hq', hqout⟩ := hq.free n hn
    obtain rfl := Option.some.inj (hp.symm.trans hq')
    simp [hin] at hqout
  refine ⟨?_, ?_, ?_, ?_⟩
  · intro q hmem j hj
    obtain ⟨q₀, hq₀, hos, hall⟩ := mem_unqueue hq hp hmem
    obtain ⟨hj₀, hne⟩ := hall j hj
    rw [List.getElem?_set_ne (Ne.symm hne), hos]
    exact hq.queue q₀ hq₀ j hj₀
  · rw [map_osize_unqueue]
    exact hq.classes
  · intro j hj
    rcases List.mem_append.mp hj with hj | hj
    · have hne : n ≠ j := fun hnj => hnotin (hnj ▸ hj)
      rw [List.getElem?_set_ne hne]
      exact hq.free j hj
    · obtain rfl := List.mem_singleton.mp hj
      exact ⟨p', List.getElem?_set_self (List.getElem?_eq_some_iff.mp hp).1, hout⟩
  · refine List.nodup_append.mpr ⟨hq.free_nodup, List.nodup_singleton _, ?_⟩
    intro a ha b hb hab
    rw [List.mem_singleton.mp hb] at hab
    exact hnotin (hab ▸ ha)

/-- A released page takes its objects with it. -/
theorem Layout.release {h : Heap} (inv : Layout h left) (hpg : h.pages[n]? = some pg)
    (hin : pg.inUse = true) :
    Layout (releasePage n h) (left.filter fun v => ¬ pg.Holds (v - headerSize)) := by
  have hp : h.table[n]? = some pg.toPageCells := getElem?_table.mpr ⟨pg, hpg, rfl⟩
  have hmem : ∀ a, a + headerSize ∈ left.filter (fun v => ¬ pg.Holds (v - headerSize)) ↔
      a + headerSize ∈ left ∧ ¬ pg.Holds a := fun a => by
    rw [Finset.mem_filter, Nat.add_sub_cancel]
  refine inv.set_page hpg (modify_pages hpg _) rfl rfl rfl rfl (fun _ _ => rfl) ?_ ?_ ?_ ?_
  · exact fun a ha => (hmem a).trans (and_iff_left ha)
  · exact fun v hv => Or.inl (Finset.mem_filter.mp hv).1
  · exact ⟨by simp, fun _ => ⟨rfl, fun a ha hobj => ((hmem a).mp hobj).2 ha⟩⟩
  · show Queues _ (unqueue n (h.page n).osize h.pools) _
    rw [page_eq hpg]
    exact inv.queues.release hp hin rfl

/-- A page without a marked object is released whole. -/
theorem PagesSwept.release (done : MarkDone h₀ objects)
    (m : PagesSwept full h₀ objects n s left) (hpg : h₀.pages[n]? = some pg)
    (hin : pg.inUse = true) (hflag : pg.hasMarked = false) :
    PagesSwept full h₀ objects (n + 1) { s with heap := releasePage n s.heap }
      (left.filter fun v => ¬ pg.Holds (v - headerSize)) := by
  have hpg' : s.heap.pages[n]? = some pg := (m.later n le_rfl).trans hpg
  have hlt : n < s.heap.pages.length := (List.getElem?_eq_some_iff.mp hpg').1
  have hunmarked : ∀ v ∈ objects, pg.Holds (v - headerSize) → h₀.marked v = false := by
    intro v hv hholds
    by_contra hm
    have := done.flag v hv (by simpa using hm) n pg hpg hin hholds
    simp [hflag] at this
  have hpages : (releasePage n s.heap).pages =
      s.heap.pages.set n { pg with inUse := false, liveN := 0 } := modify_pages hpg' _
  have hself : (releasePage n s.heap).pages[n]? = some { pg with inUse := false, liveN := 0 } := by
    rw [hpages, List.getElem?_set_self hlt]
  have hnone : ∀ v ∈ left.filter (fun v => ¬ pg.Holds (v - headerSize)),
      ¬ pg.Holds (v - headerSize) := fun v hv => (Finset.mem_filter.mp hv).2
  refine m.step done.layout hpg (m.layout.release hpg' hin) ⟨rfl, rfl, rfl, rfl, rfl, rfl, rfl, rfl⟩
    hself (fun j hj => ?_) ?_ ⟨rfl, rfl, rfl⟩ (fun _ _ => rfl)
    (fun v hv => (Finset.mem_filter.mp hv).1)
    (fun v hv hh => Finset.mem_filter.mpr ⟨hv, hh⟩) ⟨?_, ?_, ?_, ?_, ?_⟩ ?_ ?_ ?_
  · show (releasePage n s.heap).pages[j]? = _
    rw [hpages, List.getElem?_set_ne (Ne.symm hj)]
  · show (releasePage n s.heap).pages.length = _
    rw [hpages, List.length_set]
  · intro v hv hholds hm
    simp [hunmarked v (m.sub hv) hholds] at hm
  · exact fun _ v hv hholds => absurd hholds (hnone v hv)
  · exact fun v hv hholds => absurd hholds (hnone v hv)
  · exact fun v hv hholds => absurd hholds (hnone v hv)
  · exact fun v hv hholds => absurd hholds (hnone v hv)
  · exact fun hin' => absurd hin' (by simp)
  · rfl
  · simp

/-- The free list a walk leaves is the free list of the page. -/
theorem Carved.walked {word : Nat → Nat} {fl free : List Nat} {used : Nat} {w : Walk}
    (c : Carved word left pg.toPageCells fl used) (h8 : 8 ∣ pg.start)
    (hw : Walked full pg.toPageCells word used w free) {left' : Finset Nat}
    (hleft : ∀ a, pg.Holds a →
      (a + headerSize ∈ left' ↔ a + headerSize ∈ left ∧ word a % 2 = 1)) :
    Carved w.word left' (walkedPage full w pg).toPageCells free used where
  osize := c.osize
  bump := c.bump
  room := c.room
  thread := hw.thread
  nodup := hw.nodup
  slot := fun a ha => ((hw.mem a).mp ha).1
  objects := fun a ha => by
    rw [hleft a ha, c.objects a ha, hw.mem a]
    show _ ↔ pg.IsSlot used a ∧ ¬ (pg.IsSlot used a ∧ _)
    constructor
    · rintro ⟨⟨hslot, -⟩, hodd⟩
      exact ⟨hslot, fun h => by omega⟩
    · rintro ⟨hslot, hnot⟩
      have hodd : word a % 2 = 1 := by
        by_contra hodd
        exact hnot ⟨hslot, by omega⟩
      -- a cell that was free before holds a link, which looks unmarked
      refine ⟨⟨hslot, fun hfree => ?_⟩, hodd⟩
      have := c.free_bits h8 hfree
      omega
  nfree := by
    show w.nfree + (pageSize / pg.osize - (pg.bump - pg.start) / pg.osize) = _
    rw [c.used_eq, hw.nfree]
    rfl
  liveN := hw.liveN

/-- The pools after a page joined the queue of its class. -/
theorem enqueue_spec (h : Heap) (osize nfree : Nat) (hq : Queues h.table h.pools h.freePages)
    (hidx : ∃ p, h.table[n]? = some p ∧ p.inUse = true ∧ p.osize = osize) :
    ∃ pools, enqueue n osize nfree h = { h with pools := pools } ∧
      Queues h.table pools h.freePages := by
  unfold enqueue
  split
  · obtain ⟨pools, heq, hqueues, q, hpi, rfl⟩ := poolFor_spec hq osize
    dsimp only
    rw [heq]
    split
    · exact ⟨pools, rfl, hqueues⟩
    · exact ⟨_, rfl, hqueues.push hpi hidx⟩
  · exact ⟨h.pools, rfl, hq⟩

/-- The objects left on a walked page are the marked ones. -/
theorem PagesSwept.walk_page (done : MarkDone h₀ objects)
    (m : PagesSwept full h₀ objects n s left) (hpg : h₀.pages[n]? = some pg)
    (hin : pg.inUse = true) :
    PagesSwept full h₀ objects (n + 1)
      { heap := walkPage full n s.heap
        survivors := s.survivors + (walk full pg s.heap.word).liveN
        liveBytes := s.liveBytes + (walk full pg s.heap.word).liveN * pg.osize }
      (left.filter fun v => pg.Holds (v - headerSize) → h₀.marked v = true) := by
  have hpg' : s.heap.pages[n]? = some pg := (m.later n le_rfl).trans hpg
  have hp : s.heap.table[n]? = some pg.toPageCells := getElem?_table.mpr ⟨pg, hpg', rfl⟩
  have hlt : n < s.heap.pages.length := (List.getElem?_eq_some_iff.mp hpg').1
  have hstart := m.layout.start hp
  obtain ⟨fl, used, c⟩ := (m.layout.page n _ hp).carved hin
  have hosize := c.osize
  obtain ⟨free, hw⟩ := walk_spec full pg s.heap.word (by omega) (by unfold null; omega)
  rw [c.used_eq] at hw
  obtain ⟨w, hwalk⟩ : ∃ w, w = walk full pg s.heap.word := ⟨_, rfl⟩
  rw [← hwalk] at hw ⊢
  -- the mark bit of an object on the page, as the walk reads it
  have hbits : ∀ a, pg.Holds a → (h₀.marked (a + headerSize) = true ↔ s.heap.word a % 2 = 1) := by
    intro a ha
    rw [m.untouched done hpg ha]
    simp only [Heap.marked, Heap.gcBits, Nat.add_sub_cancel, beq_iff_eq]
    omega
  obtain ⟨left', hleft'⟩ : ∃ l, l = left.filter fun v =>
      pg.Holds (v - headerSize) → h₀.marked v = true := ⟨_, rfl⟩
  rw [← hleft']
  have hmem : ∀ v, v ∈ left' ↔ v ∈ left ∧ (pg.Holds (v - headerSize) → h₀.marked v = true) :=
    fun v => by rw [hleft', Finset.mem_filter]
  have hcarved : Carved w.word left' (walkedPage full w pg).toPageCells free used := by
    refine c.walked hstart.2.1 hw fun a ha => ?_
    rw [hmem, Nat.add_sub_cancel, hbits a ha]
    exact and_congr_right fun _ => ⟨fun h => h ha, fun h _ => h⟩
  -- an object left on the page is in a cell the walk found marked
  have hcell : ∀ v ∈ left', pg.Holds (v - headerSize) → ∃ a, v = a + headerSize ∧
      pg.IsSlot used a ∧ s.heap.word a % 2 = 1 := by
    intro v hv hholds
    obtain ⟨hvl, hm⟩ := (hmem v).mp hv
    obtain ⟨a, rfl⟩ := m.layout.object_eq hvl
    rw [Nat.add_sub_cancel] at hholds hm
    exact ⟨a, rfl, ((c.objects a hholds).mp hvl).1, (hbits a hholds).mp (hm hholds)⟩
  have htable : ({ s.heap with
      word := w.word, pages := s.heap.pages.set n (walkedPage full w pg) } : Heap).table =
      s.heap.table.set n (walkedPage full w pg).toPageCells := List.map_set
  have hqueues₀ : Queues (s.heap.table.set n (walkedPage full w pg).toPageCells)
      s.heap.pools s.heap.freePages := m.layout.queues.set_inUse hp hin hin rfl
  obtain ⟨pools, hpools, hqueues⟩ := enqueue_spec
    { s.heap with word := w.word, pages := s.heap.pages.set n (walkedPage full w pg) }
    pg.osize w.nfree (htable ▸ hqueues₀)
    ⟨(walkedPage full w pg).toPageCells,
      htable ▸ List.getElem?_set_self (List.getElem?_eq_some_iff.mp hp).1, hin, rfl⟩
  rw [htable] at hqueues
  have heq : Heap.walkPage full n s.heap =
      { s.heap with
        word := w.word
        pages := s.heap.pages.set n (walkedPage full w pg)
        pools := pools } := by
    rw [Heap.walkPage, page_eq hpg', ← hwalk]
    exact hpools
  have hword : ∀ a, ¬ pg.Holds a → w.word a = s.heap.word a := fun a ha =>
    hw.other a fun hslot => ha (c.holds_of_isSlot hslot)
  rw [heq]
  refine m.step done.layout hpg (m.layout.set_page hpg' rfl rfl rfl rfl rfl hword ?_ ?_
      ⟨fun _ => ⟨free, used, hcarved⟩, fun hout => ?_⟩ hqueues)
    ⟨rfl, rfl, rfl, rfl, rfl, rfl, rfl, rfl⟩ (List.getElem?_set_self hlt)
    (fun j hj => List.getElem?_set_ne (Ne.symm hj)) List.length_set ⟨rfl, rfl, rfl⟩ hword
    (fun v hv => ((hmem v).mp hv).1) (fun v hv hh => (hmem v).mpr ⟨hv, fun h => absurd h hh⟩)
    ⟨?_, ?_, ?_, ?_, ?_⟩ ?_ rfl rfl
  · intro a ha
    rw [hmem, Nat.add_sub_cancel]
    exact and_iff_left fun h => absurd h ha
  · exact fun v hv => Or.inl ((hmem v).mp hv).1
  · exact absurd (hin.symm.trans hout) (by simp)
  · exact fun v hv _ hm => (hmem v).mpr ⟨hv, fun _ => hm⟩
  · exact fun _ v hv hholds => ((hmem v).mp hv).2 hholds
  · intro v hv hholds _
    obtain ⟨a, rfl, hslot, hodd⟩ := hcell v hv hholds
    rw [Nat.add_sub_cancel] at hholds
    have hrec : recolor full (s.heap.word a % 4) < 4 := by
      unfold recolor
      split <;> omega
    simp only [Heap.gcBits, Nat.add_sub_cancel, hw.marked a hslot hodd,
      ← m.untouched done hpg hholds]
    omega
  · intro v hv hholds hm
    simp [((hmem v).mp hv).2 hholds] at hm
  · intro v hv hholds
    obtain ⟨a, rfl, hslot, hodd⟩ := hcell v hv hholds
    rw [Nat.add_sub_cancel] at hholds
    have hrec : recolor full (s.heap.word a % 4) < 4 := by
      unfold recolor
      split <;> omega
    simp only [Heap.typeOf, Nat.add_sub_cancel, hw.marked a hslot hodd,
      ← m.untouched done hpg hholds]
    omega
  · intro _ v hv hholds
    obtain ⟨a, rfl, hslot, hodd⟩ := hcell v hv hholds
    simpa [walkedPage] using hw.live a hslot hodd

/-- **One page of the sweep.** -/
theorem PagesSwept.sweepPage (done : MarkDone h₀ objects)
    (m : PagesSwept full h₀ objects n s left) (hn : n < h₀.pages.length) :
    ∃ left', PagesSwept full h₀ objects (n + 1) (sweepPage full s n) left' := by
  obtain ⟨pg, hpg⟩ : ∃ pg, h₀.pages[n]? = some pg := ⟨_, List.getElem?_eq_getElem hn⟩
  have hpg' : s.heap.pages[n]? = some pg := (m.later n le_rfl).trans hpg
  have hp : s.heap.table[n]? = some pg.toPageCells := getElem?_table.mpr ⟨pg, hpg', rfl⟩
  unfold Heap.sweepPage
  simp only [page_eq hpg']
  cases hin : pg.inUse with
  | false =>
    have hzero : pg.liveN = 0 := ((m.layout.page n _ hp).released hin).1
    refine ⟨left, ?_⟩
    simpa [hzero] using m.keep done hpg (Or.inl hin)
  | true =>
    cases hmarked : pg.hasMarked with
    | false => exact ⟨_, m.release done hpg hin hmarked⟩
    | true =>
      simp only [Bool.not_true, Bool.false_eq_true, if_false]
      split
      · rename_i hskip
        simp only [Bool.and_eq_true, Bool.not_eq_true'] at hskip
        exact ⟨left, m.keep done hpg (Or.inr ⟨hskip.1.1, hmarked, hskip.1.2⟩)⟩
      · exact ⟨_, m.walk_page done hpg hin⟩

end PageCases

/-- **All pages.** -/
theorem sweepPages_spec (full : Bool) {h₀ : Heap} {objects : Finset Nat}
    (done : MarkDone h₀ objects) :
    ∃ left, PagesSwept full h₀ objects h₀.pages.length (sweepPages full h₀) left := by
  have hrun : ∀ n ≤ h₀.pages.length, ∃ left,
      PagesSwept full h₀ objects n ((List.range n).foldl (sweepPage full) ⟨h₀, 0, 0⟩) left := by
    intro n
    induction n with
    | zero =>
      have hnone : ∀ a, ¬ Before h₀ 0 a := fun a ⟨j, hj, _⟩ => absurd hj (Nat.not_lt_zero j)
      intro _
      refine ⟨objects, done.layout, SweepFrame.refl h₀, rfl, ?_, fun _ _ => rfl, fun _ _ => rfl,
        fun _ hv => hv, fun _ hv _ => hv, ?_, fun _ _ hj => absurd hj (Nat.not_lt_zero _),
        rfl, rfl⟩
      · exact fun j pg hpg => ⟨pg, hpg, rfl, rfl, rfl⟩
      · exact ⟨fun _ hv _ _ => hv, fun _ _ _ hb => absurd hb (hnone _),
          fun _ _ hb => absurd hb (hnone _), fun _ _ hb => absurd hb (hnone _),
          fun _ _ hb => absurd hb (hnone _)⟩
    | succ n ih =>
      intro hn
      obtain ⟨left, m⟩ := ih (by omega)
      rw [List.range_succ, List.foldl_append]
      exact m.sweepPage done hn
  exact hrun _ le_rfl

end Ruju.Gc
