import Mathlib.Data.List.Sort
import Mathlib.Data.List.Destutter

/-!
# Maximal members of a list

One pass over a list that keeps the members no other member is above, and of equivalent
members the first.  A member is compared with those kept so far and with all that are
still to come, whether these will be kept or not.

What is kept is an antichain, whatever the relation (`pairwise_maximal`), and the pass
changes nothing on an antichain (`maximal_eq_append`).  Nothing is said of the members that
are dropped: one may be dropped for a later one that is itself dropped, and then it is below
a member that is kept only if the relation happens to lead there.

At the end, sorting: a list in which neighbours are in order is left alone, which takes no
transitivity either.
-/

namespace Ruju

section Maximal

variable {α : Type*} (le : α → α → Bool) (skip : α → Bool)

/-- Is `c` below a member of the list?  Where `later` is set an equivalent one does not
count. -/
def isBelow (later : Bool) (c : α) (ds : List α) : Bool :=
  ds.any fun d => le c d && !(le d c && later)

/-- The members to keep, given those kept so far; some are skipped in any case. -/
def maximal (kept : List α) : List α → List α
  | [] => kept
  | c :: cs =>
    if skip c || isBelow le false c kept || isBelow le true c cs then maximal kept cs
    else maximal (kept ++ [c]) cs

/-- Neither is below the other. -/
def Unrelated (a b : α) : Prop := le a b = false ∧ le b a = false

variable {le skip} {kept cs : List α} {c : α}

theorem isBelow_false_iff : isBelow le false c cs = true ↔ ∃ d ∈ cs, le c d := by
  simp [isBelow]

theorem isBelow_true_iff : isBelow le true c cs = true ↔ ∃ d ∈ cs, le c d ∧ le d c = false := by
  simp [isBelow]

theorem mem_of_mem_maximal {a : α} (h : a ∈ maximal le skip kept cs) :
    a ∈ kept ∨ a ∈ cs ∧ skip a = false := by
  induction cs generalizing kept with
  | nil => exact Or.inl h
  | cons c cs ih =>
    rw [maximal] at h
    split at h
    · exact (ih h).imp_right fun h => ⟨List.mem_cons_of_mem _ h.1, h.2⟩
    · rename_i hkeep
      simp only [Bool.or_eq_true, not_or, Bool.not_eq_true] at hkeep
      rcases ih h with h | h
      · rcases List.mem_append.mp h with h | h
        · exact Or.inl h
        · obtain rfl := List.mem_singleton.mp h
          exact Or.inr ⟨List.mem_cons_self, hkeep.1.1⟩
      · exact Or.inr ⟨List.mem_cons_of_mem _ h.1, h.2⟩

/-- **What is kept is an antichain.**  A kept member is above whatever comes later and is
above it, so that the later one is dropped. -/
theorem pairwise_maximal (hkept : kept.Pairwise (Unrelated le))
    (hlater : ∀ k ∈ kept, ∀ d ∈ cs, le k d → le d k) :
    (maximal le skip kept cs).Pairwise (Unrelated le) := by
  induction cs generalizing kept with
  | nil => exact hkept
  | cons c cs ih =>
    have hrest : ∀ k ∈ kept, ∀ d ∈ cs, le k d → le d k :=
      fun k hk d hd => hlater k hk d (List.mem_cons_of_mem _ hd)
    rw [maximal]
    split
    · exact ih hkept hrest
    · rename_i hkeep
      simp only [Bool.or_eq_true, not_or, isBelow_false_iff, isBelow_true_iff, not_exists,
        not_and, Bool.not_eq_true] at hkeep
      obtain ⟨⟨-, hnot⟩, hahead⟩ := hkeep
      refine ih (List.pairwise_append.mpr ⟨hkept, List.pairwise_singleton _ _, ?_⟩) ?_
      · intro k hk c' hc'
        obtain rfl := List.mem_singleton.mp hc'
        refine ⟨?_, hnot k hk⟩
        by_contra habove
        have := hlater k hk c' List.mem_cons_self (by simpa using habove)
        rw [hnot k hk] at this
        cases this
      · intro k hk d hd hkd
        rcases List.mem_append.mp hk with hk | hk
        · exact hrest k hk d hd hkd
        · obtain rfl := List.mem_singleton.mp hk
          simpa using hahead d hd hkd

/-- **An antichain is kept** as it is. -/
theorem maximal_eq_append (hskip : ∀ a ∈ cs, skip a = false)
    (hanti : (kept ++ cs).Pairwise (Unrelated le)) : maximal le skip kept cs = kept ++ cs := by
  induction cs generalizing kept with
  | nil => simp [maximal]
  | cons c cs ih =>
    have hkeep : (skip c || isBelow le false c kept || isBelow le true c cs) = false := by
      obtain ⟨-, hcs, hcross⟩ := List.pairwise_append.mp hanti
      simp only [Bool.or_eq_false_iff]
      refine ⟨⟨hskip c List.mem_cons_self, ?_⟩, ?_⟩
      · rw [← Bool.not_eq_true, isBelow_false_iff]
        rintro ⟨k, hk, hle⟩
        rw [(hcross k hk c List.mem_cons_self).2] at hle
        cases hle
      · rw [← Bool.not_eq_true, isBelow_true_iff]
        rintro ⟨d, hd, hle, -⟩
        rw [((List.pairwise_cons.mp hcs).1 d hd).1] at hle
        cases hle
    rw [maximal, hkeep]
    simp only [Bool.false_eq_true, if_false]
    rw [ih (fun a ha => hskip a (List.mem_cons_of_mem _ ha)) (by simpa using hanti)]
    simp

/-- With a reflexive relation an antichain has no duplicates. -/
theorem nodup_of_unrelated {l : List α} (hrefl : ∀ a ∈ l, le a a)
    (h : l.Pairwise (Unrelated le)) : l.Nodup := by
  refine h.imp_of_mem fun {a b} ha _ hab heq => ?_
  subst heq
  have hnot := hab.1
  rw [hrefl a ha] at hnot
  cases hnot

end Maximal

/-! ### Sorting -/

section Sorting

variable {α : Type*} {r : α → α → Prop} [DecidableRel r]

theorem isChain_orderedInsert (htotal : ∀ a b, r a b ∨ r b a) (a : α) {l : List α}
    (h : l.IsChain r) : (l.orderedInsert r a).IsChain r := by
  induction l with
  | nil => simp
  | cons b l ih =>
    rw [List.orderedInsert_cons]
    split
    · exact List.isChain_cons_cons.mpr ⟨‹_›, h⟩
    · rename_i hab
      have hba := (htotal a b).resolve_left hab
      have hrec := ih h.of_cons
      cases l with
      | nil => simpa using hba
      | cons c l =>
        rw [List.orderedInsert_cons] at hrec ⊢
        split
        · rename_i hac
          rw [if_pos hac] at hrec
          exact List.isChain_cons_cons.mpr ⟨hba, hrec⟩
        · rename_i hac
          rw [if_neg hac] at hrec
          exact List.isChain_cons_cons.mpr ⟨(List.isChain_cons_cons.mp h).1, hrec⟩

/-- In a sorted list neighbours are in order. -/
theorem isChain_insertionSort (htotal : ∀ a b, r a b ∨ r b a) (l : List α) :
    (l.insertionSort r).IsChain r := by
  induction l with
  | nil => exact List.isChain_nil
  | cons a l ih => exact isChain_orderedInsert htotal a ih

/-- Sorting leaves a list alone in which neighbours are in order. -/
theorem insertionSort_of_isChain {l : List α} (h : l.IsChain r) : l.insertionSort r = l := by
  induction l with
  | nil => rfl
  | cons a l ih =>
    rw [List.insertionSort_cons, ih h.of_cons]
    cases l with
    | nil => rfl
    | cons b l => rw [List.orderedInsert_cons, if_pos (List.isChain_cons_cons.mp h).1]

end Sorting

end Ruju
