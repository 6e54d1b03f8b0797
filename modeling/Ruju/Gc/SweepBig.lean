import Ruju.Gc.Sweep

/-!
# What the whole sweep leaves

The big objects are swept after the pages, in two walks over lists whose entries
start at different offsets, so that each entry's header is read as the mark phase
left it (`BigsWalked`, `foldl_demoteBig`).  No block is lost: those that do not
survive join the free blocks, and the lists together are a permutation of what they
were.

`SweepDone` puts pages and blocks together.
-/

namespace Ruju.Gc

open Heap

/-! ### The big objects -/

/-- The big object is marked, by its colour. -/
def lives (bits : Nat → Nat) (b : Nat × Nat) : Bool := bits b.1 % 2 == 1

/-- The big object stays in the young list. -/
def stays (full : Bool) (bits : Nat → Nat) (b : Nat × Nat) : Bool :=
  lives bits b && (full || bits b.1 == 1)

/-- The big object moves to the oldest list. -/
def settles (full : Bool) (bits : Nat → Nat) (b : Nat × Nat) : Bool :=
  lives bits b && !(full || bits b.1 == 1)

/-- The walk over the young big objects `bs` from `s` to `s'`. -/
structure BigsWalked (full : Bool) (bits : Nat → Nat) (bs : List (Nat × Nat)) (s s' : Sweep) :
    Prop where
  heap : ∃ word, s'.heap =
    { s.heap with
      word := word
      bigsYoung := s.heap.bigsYoung ++ bs.filter (stays full bits)
      bigsOld := s.heap.bigsOld ++ bs.filter (settles full bits)
      freeBigs := s.heap.freeBigs ++ bs.filter fun b => !lives bits b }
  stay : ∀ b ∈ bs, stays full bits b = true →
    s'.heap.word b.1 = s.heap.word b.1 / 4 * 4 + 2
  other : ∀ a, (∀ b ∈ bs, stays full bits b = true → b.1 ≠ a) → s'.heap.word a = s.heap.word a
  survivors : s'.survivors = s.survivors + (bs.filter (lives bits)).length
  liveBytes : s'.liveBytes = s.liveBytes + ((bs.filter (lives bits)).map Prod.snd).sum

variable {bits : Nat → Nat} {b : Nat × Nat}

theorem sweepBig_walked {full : Bool} {s : Sweep}
    (hbits : s.heap.gcBits (b.1 + headerSize) = bits b.1) :
    BigsWalked full bits [b] s (sweepBig full s b) := by
  have hmarked : s.heap.marked (b.1 + headerSize) = lives bits b := by
    simp only [Heap.marked, hbits, lives]
  unfold sweepBig
  simp only [hmarked, hbits]
  cases hl : lives bits b with
  | false =>
    have hstay : stays full bits b = false := by simp [stays, hl]
    have hset : settles full bits b = false := by simp [settles, hl]
    refine ⟨⟨s.heap.word, ?_⟩, ?_, fun _ _ => rfl, ?_, ?_⟩
    · simp [hl, hstay, hset]
    · intro b' hb' hs
      rw [List.mem_singleton.mp hb', hstay] at hs
      simp at hs
    · simp [hl]
    · simp [hl]
  | true =>
    cases hc : full || bits b.1 == 1 with
    | true =>
      have hstay : stays full bits b = true := by simp [stays, hl, hc]
      have hset : settles full bits b = false := by simp [settles, hc]
      refine ⟨⟨(setGcBits (b.1 + headerSize) 2 s.heap).word, ?_⟩, ?_, ?_, ?_, ?_⟩
      · simp [hl, hstay, hset, setGcBits]
      · intro b' hb' _
        rw [List.mem_singleton.mp hb']
        simp [setGcBits, Heap.typeOf]
      · intro a ha
        have hne : a ≠ b.1 := fun hab => ha b (List.mem_singleton_self b) hstay hab.symm
        simp [setGcBits, hne]
      · simp [hl]
      · simp [hl]
    | false =>
      have hstay : stays full bits b = false := by simp [stays, hc]
      have hset : settles full bits b = true := by simp [settles, hl, hc]
      refine ⟨⟨s.heap.word, ?_⟩, ?_, fun _ _ => rfl, ?_, ?_⟩
      · simp [hl, hstay, hset]
      · intro b' hb' hs
        rw [List.mem_singleton.mp hb', hstay] at hs
        simp at hs
      · simp [hl]
      · simp [hl]

variable {bs : List (Nat × Nat)}

theorem BigsWalked.cons {full : Bool} {s₁ s₂ s₃ : Sweep} (h₁ : BigsWalked full bits [b] s₁ s₂)
    (h₂ : BigsWalked full bits bs s₂ s₃) (hnew : b.1 ∉ bs.map Prod.fst) :
    BigsWalked full bits (b :: bs) s₁ s₃ := by
  have hapart : ∀ b' ∈ bs, b'.1 ≠ b.1 := fun b' hb' heq =>
    hnew (heq ▸ List.mem_map_of_mem hb')
  have hfilter : ∀ f : Nat × Nat → Bool, (b :: bs).filter f = [b].filter f ++ bs.filter f :=
    fun f => by rw [← List.filter_append, List.singleton_append]
  obtain ⟨word₁, heq₁⟩ := h₁.heap
  obtain ⟨word₂, heq₂⟩ := h₂.heap
  refine ⟨⟨word₂, ?_⟩, ?_, ?_, ?_, ?_⟩
  · rw [heq₂, heq₁]
    simp only [hfilter, List.append_assoc]
  · intro b' hb' hs
    rcases List.mem_cons.mp hb' with rfl | hb'
    · rw [h₂.other _ fun b'' hb'' _ => hapart b'' hb'']
      exact h₁.stay _ (List.mem_singleton_self _) hs
    · rw [h₂.stay b' hb' hs, h₁.other]
      intro c hc _
      rw [List.mem_singleton.mp hc]
      exact (hapart b' hb').symm
  · intro a ha
    rw [h₂.other a fun b' hb' => ha b' (List.mem_cons_of_mem b hb'), h₁.other]
    intro c hc hs
    rw [List.mem_singleton.mp hc] at hs ⊢
    exact ha b List.mem_cons_self hs
  · rw [h₂.survivors, h₁.survivors, hfilter, List.length_append]
    omega
  · rw [h₂.liveBytes, h₁.liveBytes, hfilter, List.map_append, List.sum_append]
    omega

theorem foldl_sweepBig {full : Bool} {s : Sweep}
    (hnodup : (bs.map Prod.fst).Nodup)
    (hbits : ∀ b ∈ bs, s.heap.gcBits (b.1 + headerSize) = bits b.1) :
    BigsWalked full bits bs s (bs.foldl (sweepBig full) s) := by
  induction bs generalizing s with
  | nil =>
    exact ⟨⟨s.heap.word, by simp⟩, fun b hb => absurd hb List.not_mem_nil, fun _ _ => rfl,
      rfl, rfl⟩
  | cons b bs ih =>
    obtain ⟨hnew, hrest⟩ := List.nodup_cons.mp hnodup
    have h₁ : BigsWalked full bits [b] s (sweepBig full s b) :=
      sweepBig_walked (hbits b List.mem_cons_self)
    refine h₁.cons (ih hrest fun b' hb' => ?_) hnew
    -- the first object's header is not one of the others'
    have hne : b.1 ≠ b'.1 := fun heq => hnew (heq ▸ List.mem_map_of_mem hb')
    rw [Heap.gcBits, Nat.add_sub_cancel, h₁.other b'.1 fun c hc _ => ?_]
    · simpa [Heap.gcBits] using hbits b' (List.mem_cons_of_mem b hb')
    · rw [List.mem_singleton.mp hc]
      exact hne

/-- The walk over the oldest big objects on a full sweep. -/
theorem foldl_demoteBig (s : Sweep) (hnodup : (bs.map Prod.fst).Nodup) :
    ∃ word, bs.foldl demoteBig s =
        { heap := { s.heap with word := word, bigsYoung := s.heap.bigsYoung ++ bs }
          survivors := s.survivors + bs.length
          liveBytes := s.liveBytes + (bs.map Prod.snd).sum } ∧
      (∀ b ∈ bs, word b.1 = s.heap.word b.1 / 4 * 4 + 2) ∧
      ∀ a, a ∉ bs.map Prod.fst → word a = s.heap.word a := by
  induction bs generalizing s with
  | nil => exact ⟨s.heap.word, by simp, fun b hb => absurd hb List.not_mem_nil, fun _ _ => rfl⟩
  | cons b bs ih =>
    obtain ⟨hnew, hrest⟩ := List.nodup_cons.mp hnodup
    obtain ⟨word, heq, hdone, hother⟩ := ih (demoteBig s b) hrest
    have hword : (demoteBig s b).heap.word =
        Function.update s.heap.word b.1 (s.heap.word b.1 / 4 * 4 + 2) := by
      simp [demoteBig, setGcBits, Heap.typeOf]
    rw [hword] at hdone hother
    refine ⟨word, ?_, ?_, ?_⟩
    · rw [List.foldl_cons, heq]
      simp [demoteBig, setGcBits, Nat.add_assoc, Nat.add_comm 1]
    · intro b' hb'
      rcases List.mem_cons.mp hb' with rfl | hb'
      · rw [hother _ hnew, Function.update_self]
      · have hne : b'.1 ≠ b.1 := fun heq => hnew (heq ▸ List.mem_map_of_mem hb')
        rw [hdone b' hb', Function.update_of_ne hne]
    · intro a ha
      rw [List.map_cons, List.mem_cons, not_or] at ha
      rw [hother a ha.2, Function.update_of_ne ha.1]

/-- The colour of the object in a block. -/
def blockBits (h : Heap) (a : Nat) : Nat := h.gcBits (a + headerSize)

/-- The big objects after the sweep from `s` to `s'`. -/
structure BigsDone (full : Bool) (s s' : Sweep) : Prop where
  heap : ∃ word young old, s'.heap =
      { s.heap with
        word := word, bigsYoung := young, bigsOld := old
        freeBigs := s.heap.freeBigs ++ s.heap.bigsYoung.filter fun b =>
          !lives (blockBits s.heap) b }
  perm : s'.heap.bigs.Perm
    (s.heap.bigsYoung.filter (lives (blockBits s.heap)) ++ s.heap.bigsOld)
  young : ∀ b ∈ s.heap.bigsYoung, lives (blockBits s.heap) b = true →
    s'.heap.word b.1 = s.heap.word b.1 / 4 * 4 + recolor full (blockBits s.heap b.1)
  old : ∀ b ∈ s.heap.bigsOld,
    s'.heap.word b.1 = if full then s.heap.word b.1 / 4 * 4 + 2 else s.heap.word b.1
  other : ∀ a, a ∉ s.heap.bigs.map Prod.fst → s'.heap.word a = s.heap.word a
  settled : ∀ b ∈ s'.heap.bigsOld, full = false ∧
    (b ∈ s.heap.bigsOld ∨ b ∈ s.heap.bigsYoung ∧ blockBits s.heap b.1 = 3)
  survivors : s'.survivors = s.survivors + s'.heap.bigs.length
  liveBytes : s'.liveBytes = s.liveBytes + (s'.heap.bigs.map Prod.snd).sum

variable {h : Heap}

theorem blockBits_of_lives (hl : lives (blockBits h) b = true) :
    blockBits h b.1 = 1 ∨ blockBits h b.1 = 3 := by
  have := gcBits_lt h (b.1 + headerSize)
  simp only [lives, beq_iff_eq] at hl
  unfold blockBits at hl ⊢
  omega

/-- A marked big object either stays young or settles. -/
theorem stays_settles_perm (full : Bool) (bits : Nat → Nat) (bs : List (Nat × Nat)) :
    (bs.filter (stays full bits) ++ bs.filter (settles full bits)).Perm
      (bs.filter (lives bits)) := by
  have hstay : bs.filter (stays full bits) =
      (bs.filter (lives bits)).filter fun b => full || bits b.1 == 1 := by
    rw [List.filter_filter]
    exact List.filter_congr fun b _ => Bool.and_comm _ _
  have hset : bs.filter (settles full bits) =
      (bs.filter (lives bits)).filter fun b => !(full || bits b.1 == 1) := by
    rw [List.filter_filter]
    exact List.filter_congr fun b _ => Bool.and_comm _ _
  rw [hstay, hset]
  exact List.filter_append_perm _ _

theorem stays_iff {full : Bool} (hl : lives (blockBits h) b = true) :
    stays full (blockBits h) b = true ↔ (blockBits h b.1 = 1 ∨ full = true) := by
  simp only [stays, hl, Bool.true_and, Bool.or_eq_true, beq_iff_eq]
  exact or_comm

section SweepBigs

variable {full : Bool} {s : Sweep}

/-- The young list walked, from a heap in which it has been taken out. -/
theorem sweepYoung_spec (full : Bool) (hnodup : (s.heap.bigsYoung.map Prod.fst).Nodup) :
    BigsWalked full (blockBits s.heap) s.heap.bigsYoung
      { s with heap := { s.heap with bigsYoung := [] } }
      (s.heap.bigsYoung.foldl (sweepBig full)
        { s with heap := { s.heap with bigsYoung := [] } }) :=
  foldl_sweepBig hnodup fun _ _ => rfl

/-- The header of a young big object after the walk over the young list. -/
theorem BigsWalked.young_word {s' : Sweep}
    (hw : BigsWalked full (blockBits s.heap) s.heap.bigsYoung
      { s with heap := { s.heap with bigsYoung := [] } } s')
    (hnodup : (s.heap.bigsYoung.map Prod.fst).Nodup)
    (hb : b ∈ s.heap.bigsYoung) (hl : lives (blockBits s.heap) b = true) :
    s'.heap.word b.1 = s.heap.word b.1 / 4 * 4 + recolor full (blockBits s.heap b.1) := by
  by_cases hstay : stays full (blockBits s.heap) b = true
  · rw [hw.stay b hb hstay, recolor, if_pos ((stays_iff hl).mp hstay)]
  · have hother : s'.heap.word b.1 = s.heap.word b.1 := by
      refine hw.other b.1 fun c hc hcs heq => hstay ?_
      rwa [← List.inj_on_of_nodup_map hnodup hc hb heq]
    rw [hother, recolor, if_neg (mt (stays_iff hl).mpr hstay)]
    simp only [blockBits, Heap.gcBits, Nat.add_sub_cancel]
    omega

/-- **The big objects of a quick sweep.** -/
theorem sweepBigs_quick (hnodup : (s.heap.bigs.map Prod.fst).Nodup) :
    BigsDone false s (sweepBigs false s) := by
  have hparts := hnodup
  rw [Heap.bigs, List.map_append] at hparts
  obtain ⟨hyoung, -, hapart⟩ := List.nodup_append.mp hparts
  obtain ⟨s₁, hs₁⟩ : ∃ s₁, s₁ = s.heap.bigsYoung.foldl (sweepBig false)
      { s with heap := { s.heap with bigsYoung := [] } } := ⟨_, rfl⟩
  have hwalk := sweepYoung_spec false hyoung
  rw [← hs₁] at hwalk
  obtain ⟨word, heap₁⟩ := hwalk.heap
  have heq : sweepBigs false s =
      { s₁ with
        survivors := s₁.survivors + s.heap.bigsOld.length
        liveBytes := s₁.liveBytes + (s.heap.bigsOld.map Prod.snd).sum } := by
    rw [sweepBigs, ← hs₁]
    rfl
  have hperm : s₁.heap.bigs.Perm
      (s.heap.bigsYoung.filter (lives (blockBits s.heap)) ++ s.heap.bigsOld) := by
    rw [heap₁]
    show (([] ++ s.heap.bigsYoung.filter _) ++ (s.heap.bigsOld ++ _)).Perm _
    rw [List.nil_append]
    refine List.Perm.trans ?_ ((stays_settles_perm false _ _).append_right _)
    rw [List.append_assoc]
    exact List.perm_append_comm.append_left _
  rw [heq]
  refine ⟨⟨word, _, _, heap₁⟩, hperm, fun b hb hl => hwalk.young_word hyoung hb hl, ?_, ?_, ?_,
    ?_, ?_⟩
  · intro b hb
    refine hwalk.other b.1 fun c hc _ heq => ?_
    exact hapart c.1 (List.mem_map_of_mem hc) b.1 (List.mem_map_of_mem hb) heq
  · intro a ha
    refine hwalk.other a fun c hc _ heq => ha ?_
    rw [Heap.bigs, List.map_append, ← heq]
    exact List.mem_append_left _ (List.mem_map_of_mem hc)
  · intro b hb
    refine ⟨rfl, ?_⟩
    rw [heap₁] at hb
    rcases List.mem_append.mp hb with hb | hb
    · exact Or.inl hb
    · obtain ⟨hmem, hset⟩ := List.mem_filter.mp hb
      simp only [settles, Bool.and_eq_true, Bool.false_or, Bool.not_eq_true', beq_eq_false_iff_ne]
        at hset
      exact Or.inr ⟨hmem, (blockBits_of_lives hset.1).resolve_left hset.2⟩
  · show s₁.survivors + _ = s.survivors + s₁.heap.bigs.length
    rw [hperm.length_eq, List.length_append, hwalk.survivors]
    exact Nat.add_assoc _ _ _
  · show s₁.liveBytes + _ = s.liveBytes + (s₁.heap.bigs.map Prod.snd).sum
    rw [(hperm.map Prod.snd).sum_eq, List.map_append, List.sum_append, hwalk.liveBytes]
    exact Nat.add_assoc _ _ _

/-- **The big objects of a full sweep.** -/
theorem sweepBigs_full (hnodup : (s.heap.bigs.map Prod.fst).Nodup) :
    BigsDone true s (sweepBigs true s) := by
  have hparts := hnodup
  rw [Heap.bigs, List.map_append] at hparts
  obtain ⟨hyoung, hold, hapart⟩ := List.nodup_append.mp hparts
  obtain ⟨s₁, hs₁⟩ : ∃ s₁, s₁ = s.heap.bigsYoung.foldl (sweepBig true)
      { s with heap := { s.heap with bigsYoung := [] } } := ⟨_, rfl⟩
  have hwalk := sweepYoung_spec true hyoung
  rw [← hs₁] at hwalk
  obtain ⟨word₁, heap₁⟩ := hwalk.heap
  -- on a full sweep nothing settles
  have hnone : s.heap.bigsYoung.filter (settles true (blockBits s.heap)) = [] := by
    simp [settles]
  have hstay : s.heap.bigsYoung.filter (stays true (blockBits s.heap)) =
      s.heap.bigsYoung.filter (lives (blockBits s.heap)) :=
    List.filter_congr fun b _ => by simp [stays]
  rw [hnone, hstay, List.append_nil] at heap₁
  have hbigsOld : s₁.heap.bigsOld = s.heap.bigsOld := by rw [heap₁]
  obtain ⟨word₂, heq₂, hdone, hother⟩ := foldl_demoteBig
    { s₁ with heap := { s₁.heap with bigsOld := [] } } hold
  have heq : sweepBigs true s = s.heap.bigsOld.foldl demoteBig
      { s₁ with heap := { s₁.heap with bigsOld := [] } } := by
    rw [sweepBigs, ← hs₁]
    simp only [if_true, hbigsOld]
  rw [heq, heq₂]
  have hword₁ : ∀ b ∈ s.heap.bigsOld, s₁.heap.word b.1 = s.heap.word b.1 := by
    intro b hb
    refine hwalk.other b.1 fun c hc _ hcb => ?_
    exact hapart c.1 (List.mem_map_of_mem hc) b.1 (List.mem_map_of_mem hb) hcb
  have hbigs : (({ s₁.heap with bigsOld := [] } : Heap).bigsYoung ++ s.heap.bigsOld) ++ [] =
      s.heap.bigsYoung.filter (lives (blockBits s.heap)) ++ s.heap.bigsOld := by
    rw [List.append_nil, heap₁]
    rfl
  refine ⟨⟨word₂, s₁.heap.bigsYoung ++ s.heap.bigsOld, [], ?_⟩, ?_, ?_, ?_, ?_, ?_, ?_, ?_⟩
  · simp only [heap₁]
  · rw [← hbigs]
    exact List.Perm.refl _
  · intro b hb hl
    have hnot : b.1 ∉ s.heap.bigsOld.map Prod.fst := fun hmem =>
      hapart b.1 (List.mem_map_of_mem hb) b.1 hmem rfl
    exact (hother b.1 hnot).trans (hwalk.young_word hyoung hb hl)
  · intro b hb
    show word₂ b.1 = _
    rw [hdone b hb]
    show s₁.heap.word b.1 / 4 * 4 + 2 = _
    rw [hword₁ b hb, if_pos rfl]
  · intro a ha
    rw [Heap.bigs, List.map_append, List.mem_append, not_or] at ha
    refine (hother a ha.2).trans (hwalk.other a fun c hc _ hca => ha.1 ?_)
    exact hca ▸ List.mem_map_of_mem hc
  · exact fun b hb => absurd hb List.not_mem_nil
  · show s₁.survivors + _ = s.survivors + List.length (_ ++ [])
    rw [hbigs, List.length_append, hwalk.survivors]
    exact Nat.add_assoc _ _ _
  · show s₁.liveBytes + _ = s.liveBytes + (List.map Prod.snd (_ ++ [])).sum
    rw [hbigs, List.map_append, List.sum_append, hwalk.liveBytes]
    exact Nat.add_assoc _ _ _

theorem sweepBigs_spec (full : Bool) (hnodup : (s.heap.bigs.map Prod.fst).Nodup) :
    BigsDone full s (sweepBigs full s) := by
  cases full with
  | true => exact sweepBigs_full hnodup
  | false => exact sweepBigs_quick hnodup

end SweepBigs

/-! ### Pages and big objects together -/

/-- **What the sweep leaves**, of the heap `h₀` that the mark phase left. -/
structure SweepDone (full : Bool) (h₀ : Heap) (objects : Finset Nat) (s : Sweep)
    (left : Finset Nat) : Prop where
  layout : Layout s.heap left
  sub : left ⊆ objects
  keeps : ∀ v ∈ objects, h₀.marked v = true → v ∈ left
  drops : full = true → ∀ v ∈ left, h₀.marked v = true
  marked : ∀ v ∈ left, h₀.marked v = true → s.heap.gcBits v = recolor full (h₀.gcBits v)
  unmarked : ∀ v ∈ left, h₀.marked v = false → s.heap.gcBits v = h₀.gcBits v
  type : ∀ v ∈ left, s.heap.typeOf v = h₀.typeOf v
  fields : s.heap.fields = h₀.fields
  roots : s.heap.roots = h₀.roots
  remembered : s.heap.remembered = h₀.remembered
  flag : ∀ v ∈ left, Flagged Page.hasMarked s.heap v
  old : ∀ b ∈ s.heap.bigsOld, s.heap.gcBits (b.1 + headerSize) = 3
  survivors : s.survivors = (s.heap.table.map PageCells.liveN).sum + s.heap.bigs.length
  liveBytes : s.liveBytes =
    (s.heap.table.map fun p => p.liveN * p.osize).sum + (s.heap.bigs.map Prod.snd).sum
  length : s.heap.pages.length = h₀.pages.length
  shape : ∀ (j : Nat) (pg' : Page), s.heap.pages[j]? = some pg' → ∃ pg, h₀.pages[j]? = some pg ∧
    pg'.start = pg.start ∧ pg'.osize = pg.osize ∧ pg'.bump = pg.bump
  blocks : (s.heap.bigs ++ s.heap.freeBigs).Perm (h₀.bigs ++ h₀.freeBigs)

section Whole

variable {full : Bool} {h₀ : Heap} {objects left : Finset Nat} {s s' : Sweep}

/-- The blocks of the objects that do not survive. -/
def deadBigs (h : Heap) : List (Nat × Nat) :=
  h.bigsYoung.filter fun b => !lives (blockBits h) b

/-- The objects without those in dead blocks. -/
def withoutDead (h : Heap) (left : Finset Nat) : Finset Nat :=
  left.filter fun v => v - headerSize ∉ (deadBigs h).map Prod.fst

variable {a : Nat}

theorem mem_withoutDead :
    a + headerSize ∈ withoutDead h left ↔
      a + headerSize ∈ left ∧ a ∉ (deadBigs h).map Prod.fst := by
  rw [withoutDead, Finset.mem_filter, Nat.add_sub_cancel]

/-- A block that survives is not one of the dead ones. -/
theorem not_dead_of_lives (hnodup : (h.bigs.map Prod.fst).Nodup)
    (hb : b ∈ h.bigsYoung.filter (lives (blockBits h)) ++ h.bigsOld) :
    b.1 ∉ (deadBigs h).map Prod.fst := by
  intro hmem
  obtain ⟨c, hc, hcb⟩ := List.mem_map.mp hmem
  obtain ⟨hcy, hdead⟩ := List.mem_filter.mp hc
  have hcbigs : c ∈ h.bigs := List.mem_append_left _ hcy
  have hbbigs : b ∈ h.bigs := by
    rcases List.mem_append.mp hb with hb | hb
    · exact List.mem_append_left _ (List.mem_filter.mp hb).1
    · exact List.mem_append_right _ hb
  obtain rfl := List.inj_on_of_nodup_map hnodup hcbigs hbbigs hcb
  rcases List.mem_append.mp hb with hb | hb
  · simp [(List.mem_filter.mp hb).2] at hdead
  · -- an entry of the oldest list is not in the young one
    rw [Heap.bigs, List.map_append] at hnodup
    exact (List.nodup_append.mp hnodup).2.2 c.1 (List.mem_map_of_mem hcy) c.1
      (List.mem_map_of_mem hb) rfl

open scoped List in
/-- No block is lost. -/
theorem BigsDone.blocks_perm (b : BigsDone full s s') :
    s'.heap.bigs ++ (s.heap.freeBigs ++ deadBigs s.heap) ~ s.heap.bigs ++ s.heap.freeBigs := by
  obtain ⟨L, hL⟩ : ∃ l, l = s.heap.bigsYoung.filter (lives (blockBits s.heap)) := ⟨_, rfl⟩
  have hsplit : L ++ deadBigs s.heap ~ s.heap.bigsYoung := by
    rw [hL]
    exact List.filter_append_perm _ _
  have hperm := b.perm
  rw [← hL] at hperm
  calc s'.heap.bigs ++ (s.heap.freeBigs ++ deadBigs s.heap)
      ~ L ++ s.heap.bigsOld ++ (s.heap.freeBigs ++ deadBigs s.heap) := hperm.append_right _
    _ ~ L ++ (deadBigs s.heap ++ (s.heap.bigsOld ++ s.heap.freeBigs)) := by
        rw [List.append_assoc, ← List.append_assoc s.heap.bigsOld]
        exact List.perm_append_comm.append_left L
    _ ~ s.heap.bigsYoung ++ (s.heap.bigsOld ++ s.heap.freeBigs) := by
        rw [← List.append_assoc]
        exact hsplit.append_right _
    _ ~ s.heap.bigs ++ s.heap.freeBigs := by
        rw [← List.append_assoc]
        exact List.Perm.refl _

/-- The layout after the big objects were swept. -/
theorem BigsDone.layout (b : BigsDone full s s') (inv : Layout s.heap left) :
    Layout s'.heap (withoutDead s.heap left) := by
  have hnodup : (s.heap.bigs.map Prod.fst).Nodup := by
    have := inv.geometry.offsets_nodup
    rw [List.map_append] at this
    exact (List.nodup_append.mp this).1
  obtain ⟨word, young, old, heq⟩ := b.heap
  have htop : s'.heap.top = s.heap.top := by rw [heq]
  have hpages : s'.heap.pages = s.heap.pages := by rw [heq]
  have htable : s'.heap.table = s.heap.table := by rw [Heap.table, hpages]; rfl
  have hfree : s'.heap.freeBigs = s.heap.freeBigs ++ deadBigs s.heap := by rw [heq]; rfl
  have hsub : ∀ c ∈ s'.heap.bigs, c ∈ s.heap.bigs := by
    intro c hc
    rcases List.mem_append.mp (b.perm.subset hc) with hc | hc
    · exact List.mem_append_left _ (List.mem_filter.mp hc).1
    · exact List.mem_append_right _ hc
  -- no block is held by a page
  have hheld : ∀ {p : PageCells}, p ∈ s.heap.table → ∀ a, p.Holds a →
      a ∉ s.heap.bigs.map Prod.fst := by
    intro p hp a ha hmem
    obtain ⟨c, hc, rfl⟩ := List.mem_map.mp hmem
    exact inv.block_not_held (List.mem_append_left _ hc) (List.mem_map_of_mem hp) ha
  have hdead : ∀ c ∈ deadBigs s.heap, c ∈ s.heap.bigs := fun c hc =>
    List.mem_append_left _ (List.mem_filter.mp hc).1
  refine ⟨?_, ?_, ?_, ?_, ?_⟩
  · rw [htop, htable]
    refine inv.geometry.perm ?_
    rw [hfree]
    exact b.blocks_perm
  · intro idx p hp
    rw [htable] at hp
    have hmem := List.mem_of_getElem? hp
    refine (inv.page idx p hp).congr (fun a ha _ => b.other a (hheld hmem a ha)) fun a ha => ?_
    rw [mem_withoutDead]
    refine and_iff_left fun hd => hheld hmem a ha ?_
    obtain ⟨c, hc, rfl⟩ := List.mem_map.mp hd
    exact List.mem_map_of_mem (hdead c hc)
  · intro c hc
    rw [mem_withoutDead]
    exact ⟨inv.big c (hsub c hc), not_dead_of_lives hnodup (b.perm.subset hc)⟩
  · intro v hv
    obtain ⟨hvl, hnot⟩ := Finset.mem_filter.mp hv
    obtain ⟨a, rfl, hcase⟩ := inv.cover v hvl
    rw [Nat.add_sub_cancel] at hnot
    rw [htable]
    refine ⟨a, rfl, hcase.imp_right ?_⟩
    rintro ⟨c, hc, rfl⟩
    refine ⟨c, b.perm.symm.subset ?_, rfl⟩
    rcases List.mem_append.mp hc with hc | hc
    · refine List.mem_append_left _ (List.mem_filter.mpr ⟨hc, ?_⟩)
      by_contra hl
      exact hnot (List.mem_map_of_mem (List.mem_filter.mpr ⟨hc, by simpa using hl⟩))
    · exact List.mem_append_right _ hc
  · have hpools : s'.heap.pools = s.heap.pools := by rw [heq]
    have hfreePages : s'.heap.freePages = s.heap.freePages := by rw [heq]
    rw [htable, hpools, hfreePages]
    exact inv.queues

/-- What the sweep does to an object that is left. -/
structure Treated (full : Bool) (h₀ : Heap) (v : Nat) (h : Heap) : Prop where
  drops : full = true → h₀.marked v = true
  bits : h.gcBits v = if h₀.marked v then recolor full (h₀.gcBits v) else h₀.gcBits v
  type : h.typeOf v = h₀.typeOf v

theorem recolor_lt (full : Bool) {bits : Nat} (h : bits < 4) : recolor full bits < 4 := by
  unfold recolor
  split <;> omega

/-- The header of a big object, written once. -/
theorem Treated.of_word (hm : h₀.marked (a + headerSize) = true)
    (hword : h.word a = h₀.word a / 4 * 4 + recolor full (h₀.gcBits (a + headerSize))) :
    Treated full h₀ (a + headerSize) h := by
  have hlt := recolor_lt full (gcBits_lt h₀ (a + headerSize))
  refine ⟨fun _ => hm, ?_, ?_⟩
  · rw [if_pos hm, Heap.gcBits, Nat.add_sub_cancel, hword]
    omega
  · rw [Heap.typeOf, Nat.add_sub_cancel, hword, Heap.typeOf, Nat.add_sub_cancel]
    omega

/-- An object on a page. -/
theorem treated_page (m : PagesSwept full h₀ objects h₀.pages.length s left)
    (b : BigsDone full s s') (hv : a + headerSize ∈ left)
    (hstart : ∃ st ∈ s.heap.table.map PageCells.start, st ≤ a ∧ a < st + pageSize) :
    Treated full h₀ (a + headerSize) s'.heap := by
  obtain ⟨st, hst, hholds⟩ := hstart
  obtain ⟨p, hp, rfl⟩ := List.mem_map.mp hst
  obtain ⟨pg', hpg', rfl⟩ := List.mem_map.mp hp
  obtain ⟨j, hj⟩ := List.getElem?_of_mem hpg'
  obtain ⟨pg, hpg, heq, -, -⟩ := m.shape j pg' hj
  have hbefore : Before h₀ h₀.pages.length (a + headerSize - headerSize) := by
    refine ⟨j, (List.getElem?_eq_some_iff.mp hpg).1, pg, hpg, ?_⟩
    rw [Nat.add_sub_cancel, PageCells.Holds, ← heq]
    exact hholds
  -- the walk over the big objects does not come here
  have hword : s'.heap.word a = s.heap.word a := by
    refine b.other a fun hmem => ?_
    obtain ⟨c, hc, rfl⟩ := List.mem_map.mp hmem
    exact m.layout.block_not_held (List.mem_append_left _ hc) hst hholds
  have hbits : s'.heap.gcBits (a + headerSize) = s.heap.gcBits (a + headerSize) := by
    rw [Heap.gcBits, Nat.add_sub_cancel, hword, Heap.gcBits, Nat.add_sub_cancel]
  refine ⟨fun hfull => m.colored.drops hfull _ hv hbefore, ?_, ?_⟩
  · rw [hbits]
    cases hm : h₀.marked (a + headerSize) with
    | true => simpa using m.colored.marked _ hv hbefore hm
    | false => simpa using m.colored.unmarked _ hv hbefore hm
  · rw [← m.colored.type _ hv hbefore]
    simp only [Heap.typeOf, Nat.add_sub_cancel, hword]

/-- The sweep of the pages leaves the big objects alone. -/
theorem PagesSwept.big_word (done : MarkDone h₀ objects)
    (m : PagesSwept full h₀ objects h₀.pages.length s left) {c : Nat × Nat}
    (hc : c ∈ s.heap.bigs) :
    s.heap.word c.1 = h₀.word c.1 ∧ blockBits s.heap c.1 = h₀.gcBits (c.1 + headerSize) := by
  have hbigs : c ∈ h₀.bigs := by
    rw [Heap.bigs, m.frame.bigsYoung, m.frame.bigsOld] at hc
    exact hc
  have hword : s.heap.word c.1 = h₀.word c.1 := by
    refine m.word c.1 ?_
    rintro ⟨j, -, pg, hpg, hholds⟩
    refine done.layout.block_not_held (List.mem_append_left _ hbigs) ?_ hholds
    exact List.mem_map_of_mem (List.mem_map_of_mem (List.mem_of_getElem? hpg))
  refine ⟨hword, ?_⟩
  simp only [blockBits, Heap.gcBits, Nat.add_sub_cancel, hword]

/-- A big object. -/
theorem treated_big (done : MarkDone h₀ objects)
    (m : PagesSwept full h₀ objects h₀.pages.length s left) (b : BigsDone full s s')
    {c : Nat × Nat} (hc : c ∈ s.heap.bigs) (hlive : c.1 ∉ (deadBigs s.heap).map Prod.fst) :
    Treated full h₀ (c.1 + headerSize) s'.heap := by
  obtain ⟨hword, hbits⟩ := m.big_word done hc
  rcases List.mem_append.mp hc with hy | ho
  · have hl : lives (blockBits s.heap) c = true := by
      by_contra hl
      exact hlive (List.mem_map_of_mem (List.mem_filter.mpr ⟨hy, by simpa using hl⟩))
    refine Treated.of_word (marked_iff.mpr (hbits ▸ blockBits_of_lives hl)) ?_
    rw [b.young c hy hl, hbits, hword]
  · have h3 : h₀.gcBits (c.1 + headerSize) = 3 := done.old c (m.frame.bigsOld ▸ ho)
    refine Treated.of_word (marked_iff.mpr (Or.inr h3)) ?_
    rw [b.old c ho, h3, hword, recolor]
    have h3' : h₀.word c.1 % 4 = 3 := by
      simpa only [Heap.gcBits, Nat.add_sub_cancel] using h3
    cases full with
    | true => simp
    | false =>
      simp only [Bool.false_eq_true, if_false, or_false, show ¬ (3 = 1) by omega]
      omega

/-- **The whole sweep.** -/
theorem sweep_spec (full : Bool) (done : MarkDone h₀ objects) :
    ∃ left, SweepDone full h₀ objects (sweep full h₀) left := by
  obtain ⟨left₁, m⟩ := sweepPages_spec full done
  obtain ⟨s₁, hs₁⟩ : ∃ s₁, s₁ = sweepPages full h₀ := ⟨_, rfl⟩
  rw [← hs₁] at m
  have hnodup : (s₁.heap.bigs.map Prod.fst).Nodup := by
    have := m.layout.geometry.offsets_nodup
    rw [List.map_append] at this
    exact (List.nodup_append.mp this).1
  have b := sweepBigs_spec full hnodup
  obtain ⟨s₂, hs₂⟩ : ∃ s₂, s₂ = sweepBigs full s₁ := ⟨_, rfl⟩
  rw [← hs₂] at b
  have hlayout := b.layout m.layout
  obtain ⟨word, young, old, heap₂⟩ := b.heap
  have hpages : s₂.heap.pages = s₁.heap.pages := by rw [heap₂]
  have htreated : ∀ v ∈ withoutDead s₁.heap left₁, Treated full h₀ v s₂.heap := by
    intro v hv
    obtain ⟨hvl, hnot⟩ := Finset.mem_filter.mp hv
    obtain ⟨a, rfl, hpage | ⟨c, hc, rfl⟩⟩ := m.layout.cover v hvl
    · exact treated_page m b hvl hpage
    · exact treated_big done m b hc (by simpa using hnot)
  have htake : s₂.heap.table.take h₀.pages.length = s₂.heap.table := by
    refine List.take_of_length_le ?_
    rw [Heap.table, List.length_map, hpages, m.length]
  have htable : s₁.heap.table = s₂.heap.table := by rw [Heap.table, Heap.table, hpages]
  have heq : sweep full h₀ = { s₂ with heap := { s₂.heap with prevFull := full } } := by
    rw [sweep, ← hs₁, ← hs₂]
  rw [heq]
  refine ⟨withoutDead s₁.heap left₁, ?_, ?_, ?_, ?_, ?_, ?_, ?_, ?_, ?_, ?_, ?_, ?_, ?_, ?_,
    ?_, ?_, ?_⟩
  · exact hlayout.congr rfl rfl rfl rfl rfl rfl fun _ _ => rfl
  · exact fun v hv => m.sub (Finset.mem_filter.mp hv).1
  · intro v hv hm
    refine Finset.mem_filter.mpr ⟨?_, fun hdead => ?_⟩
    · by_cases hb : Before h₀ h₀.pages.length (v - headerSize)
      · exact m.colored.keeps v hv hb hm
      · exact m.outside v hv hb
    · -- a dead block holds an unmarked object
      obtain ⟨c, hc, hcv⟩ := List.mem_map.mp hdead
      obtain ⟨hcy, hl⟩ := List.mem_filter.mp hc
      obtain ⟨a, rfl⟩ := done.layout.object_eq hv
      obtain rfl : c.1 = a := by simpa using hcv
      have hbits := (m.big_word done (List.mem_append_left _ hcy)).2
      rw [Heap.marked] at hm
      simp [lives, hbits, hm] at hl
  · exact fun hfull v hv => (htreated v hv).drops hfull
  · intro v hv hm
    have := (htreated v hv).bits
    rwa [if_pos hm] at this
  · intro v hv hm
    have := (htreated v hv).bits
    rwa [hm, if_neg (by simp)] at this
  · exact fun v hv => (htreated v hv).type
  · show s₂.heap.fields = _
    rw [heap₂]
    exact m.frame.fields
  · show s₂.heap.roots = _
    rw [heap₂]
    exact m.frame.roots
  · show s₂.heap.remembered = _
    rw [heap₂]
    exact m.frame.remembered
  · intro v hv j pg hj hin hholds
    have hj' : s₁.heap.pages[j]? = some pg := hpages ▸ hj
    obtain ⟨pg₀, hpg₀, -⟩ := m.shape j pg hj'
    exact m.flag j pg (List.getElem?_eq_some_iff.mp hpg₀).1 hj' hin v (Finset.mem_filter.mp hv).1
      hholds
  · intro c hc
    obtain ⟨hquick, hcase⟩ := b.settled c hc
    have h3 : h₀.gcBits (c.1 + headerSize) = 3 := by
      rcases hcase with ho | ⟨hy, h3⟩
      · exact done.old c (m.frame.bigsOld ▸ ho)
      · rw [← (m.big_word done (List.mem_append_left _ hy)).2]
        exact h3
    have hleft := hlayout.big c (List.mem_append_right _ hc)
    show s₂.heap.gcBits (c.1 + headerSize) = 3
    rw [(htreated _ hleft).bits, if_pos (marked_iff.mpr (Or.inr h3)), h3, hquick]
    rfl
  · show s₂.survivors = _
    rw [b.survivors, m.survivors, htable, htake]
    rfl
  · show s₂.liveBytes = _
    rw [b.liveBytes, m.liveBytes, htable, htake]
    rfl
  · show s₂.heap.pages.length = _
    rw [hpages]
    exact m.length
  · exact fun j pg hj => m.shape j pg (hpages ▸ hj)
  · have hfree : s₂.heap.freeBigs = s₁.heap.freeBigs ++ deadBigs s₁.heap := by
      rw [heap₂]
      rfl
    have hbigs : s₁.heap.bigs = h₀.bigs := by
      rw [Heap.bigs, m.frame.bigsYoung, m.frame.bigsOld]
      rfl
    show (s₂.heap.bigs ++ s₂.heap.freeBigs).Perm _
    rw [hfree, ← hbigs, ← m.frame.freeBigs]
    exact b.blocks_perm

end Whole

end Ruju.Gc
