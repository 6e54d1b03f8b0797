import Mathlib.Logic.Relation
import Mathlib.Logic.Function.Basic
import Mathlib.Data.Finset.Card
import Mathlib.Data.Set.Basic
import Mathlib.Algebra.BigOperators.Group.List.Basic
import Mathlib.Algebra.Order.Ring.Nat

/-!
# Linked structures in a memory

Three notions a manual memory manager rests on, over arbitrary types.

* A reference is *sound* when everything it leads to is still there
  (`Sound`).  Soundness is the largest property that implies presence and is kept
  by every edge, so it is proved by exhibiting a set that is closed under edges
  (`sound_of_closed`), and no path is ever taken apart.
* A graph is traversed by draining a work list (`drain`).  What holds of the
  pending work together with the state is kept by every visit (`drain_induct`),
  and the list runs empty when a visit that pushes work uses up a budget
  (`drain_terminates`).
* Free cells are threaded into a list through their own memory (`Threaded`): a
  write outside the list leaves it alone, a write in front extends it.

A table whose entries are counted is updated at one place at a time; the last
section says what that does to its sum.
-/

namespace Ruju

/-! ### Sound references -/

section Sound

variable {α : Type*} {edge edge' : α → α → Prop} {live live' : Set α}

/-- Everything that `v` leads to, itself included, is in `live`. -/
def Sound (edge : α → α → Prop) (live : Set α) (v : α) : Prop :=
  ∀ w, Relation.ReflTransGen edge v w → w ∈ live

theorem Sound.mem {v : α} (h : Sound edge live v) : v ∈ live :=
  h v Relation.ReflTransGen.refl

theorem Sound.step {v w : α} (h : Sound edge live v) (hvw : edge v w) : Sound edge live w :=
  fun u hu => h u (Relation.ReflTransGen.head hvw hu)

/-- A set of present things that every edge stays inside consists of sound ones. -/
theorem sound_of_closed {S : Set α} (hlive : ∀ v ∈ S, v ∈ live)
    (hclosed : ∀ v ∈ S, ∀ w, edge v w → w ∈ S) {v : α} (hv : v ∈ S) :
    Sound edge live v := by
  intro w hw
  have hmem : w ∈ S := by
    induction hw with
    | refl => exact hv
    | tail _ hstep ih => exact hclosed _ ih _ hstep
  exact hlive w hmem

/-- What leads from `S` stays in a closed set around `S`. -/
theorem mem_of_reaches {S : Set α} (hclosed : ∀ v ∈ S, ∀ w, edge v w → w ∈ S) {v w : α}
    (hv : v ∈ S) (hvw : Relation.ReflTransGen edge v w) : w ∈ S :=
  sound_of_closed (fun _ h => h) hclosed hv w hvw

/-- **Soundness survives a change of the graph** that redirects edges of sound
references only to sound ones and takes nothing sound away. -/
theorem Sound.mono {v : α} (h : Sound edge live v)
    (hlive : ∀ v, Sound edge live v → v ∈ live')
    (hedge : ∀ v w, Sound edge live v → edge' v w → Sound edge live w) :
    Sound edge' live' v :=
  sound_of_closed (S := {v | Sound edge live v}) hlive (fun v hv w hvw => hedge v w hv hvw) h

end Sound

/-! ### Draining a work list -/

section Drain

variable {α σ : Type*} (visit : α → σ → List α × σ)

/-- Take the first pending item, let the visit push further items in front, until
none is left; `none` when the fuel does not suffice. -/
def drain : Nat → List α → σ → Option σ
  | 0, _, _ => none
  | _ + 1, [], s => some s
  | n + 1, a :: work, s => drain n ((visit a s).1 ++ work) (visit a s).2

variable {visit}

/-- What every visit keeps of the pending work and the state holds of the empty
list in the end. -/
theorem drain_induct (Inv : List α → σ → Prop)
    (hvisit : ∀ a work s, Inv (a :: work) s → Inv ((visit a s).1 ++ work) (visit a s).2)
    {n : Nat} {work : List α} {s t : σ} (h : drain visit n work s = some t)
    (hinv : Inv work s) : Inv [] t := by
  induction n generalizing work s with
  | zero => simp [drain] at h
  | succ n ih =>
    cases work with
    | nil =>
      obtain rfl : s = t := by simpa [drain] using h
      exact hinv
    | cons a work => exact ih h (hvisit a work s hinv)

/-- A visit either pushes nothing or uses up some of the budget, so the list
runs empty. -/
theorem drain_terminates (Inv : List α → σ → Prop)
    (hvisit : ∀ a work s, Inv (a :: work) s → Inv ((visit a s).1 ++ work) (visit a s).2)
    (budget : σ → Nat)
    (hbudget : ∀ a work s, Inv (a :: work) s →
      budget (visit a s).2 < budget s ∨
        (visit a s).1 = [] ∧ budget (visit a s).2 ≤ budget s)
    {work : List α} {s : σ} (hinv : Inv work s) :
    ∃ n t, drain visit n work s = some t := by
  -- outer induction on the budget, inner one on the pending items
  obtain ⟨b, hb⟩ : ∃ b, budget s ≤ b := ⟨_, le_rfl⟩
  induction b using Nat.strong_induction_on generalizing work s with
  | _ b ihb =>
    induction work generalizing s with
    | nil => exact ⟨1, s, rfl⟩
    | cons a work ihw =>
      rcases hbudget a work s hinv with hlt | ⟨hnil, hle⟩
      · obtain ⟨n, t, h⟩ := ihb (budget (visit a s).2) (by omega)
          (hvisit a work s hinv) le_rfl
        exact ⟨n + 1, t, h⟩
      · have hinv' : Inv work (visit a s).2 := by
          simpa [hnil] using hvisit a work s hinv
        obtain ⟨n, t, h⟩ := ihw hinv' (by omega)
        exact ⟨n + 1, t, by simpa [drain, hnil] using h⟩

end Drain

/-! ### Lists threaded through a memory -/

section Threaded

variable {α : Type*} {null : α} {next : α → α}

/-- Following `next` from `head` runs through the list and ends in `null`. -/
def Threaded (null : α) (next : α → α) : α → List α → Prop
  | head, [] => head = null
  | head, a :: rest => head = a ∧ a ≠ null ∧ Threaded null next (next a) rest

theorem Threaded.congr {next' : α → α} {head : α} {l : List α}
    (h : Threaded null next head l) (heq : ∀ a ∈ l, next' a = next a) :
    Threaded null next' head l := by
  induction l generalizing head with
  | nil => exact h
  | cons a rest ih =>
    obtain ⟨hhead, hne, hrest⟩ := h
    refine ⟨hhead, hne, ?_⟩
    rw [heq a List.mem_cons_self]
    exact ih hrest fun b hb => heq b (List.mem_cons_of_mem a hb)

/-- A cell outside the list becomes its first one. -/
theorem Threaded.push [DecidableEq α] {head a : α} {l : List α}
    (h : Threaded null next head l) (ha : a ≠ null) (hfresh : a ∉ l) :
    Threaded null (Function.update next a head) a (a :: l) := by
  refine ⟨rfl, ha, ?_⟩
  rw [Function.update_self]
  refine h.congr fun b hb => Function.update_of_ne ?_ _ _
  rintro rfl
  exact hfresh hb

/-- The list is determined by its head. -/
theorem Threaded.unique {head : α} {l l' : List α}
    (h : Threaded null next head l) (h' : Threaded null next head l') : l = l' := by
  induction l generalizing head l' with
  | nil =>
    cases l' with
    | nil => rfl
    | cons b rest => exact absurd (h'.1.symm.trans h) h'.2.1
  | cons a rest ih =>
    cases l' with
    | nil => exact absurd (h.1.symm.trans h') h.2.1
    | cons b rest' =>
      obtain ⟨rfl, -, hrest⟩ := h
      obtain ⟨rfl, -, hrest'⟩ := h'
      rw [ih hrest hrest']

/-- Every link of the list is `null` or another cell of it. -/
theorem Threaded.next_mem {head : α} {l : List α} (h : Threaded null next head l)
    {a : α} (ha : a ∈ l) : next a = null ∨ next a ∈ l := by
  induction l generalizing head with
  | nil => simp at ha
  | cons b rest ih =>
    obtain ⟨-, -, hrest⟩ := h
    rcases List.mem_cons.mp ha with rfl | ha
    · cases rest with
      | nil => exact Or.inl hrest
      | cons c rest => exact Or.inr (by simp [hrest.1])
    · exact (ih hrest ha).imp_right (List.mem_cons_of_mem b)

end Threaded

/-! ### Tables -/

section Table

variable {α : Type*}

/-- Overwriting one entry of a table trades its share of the sum. -/
theorem sum_map_set (g : α → Nat) {l : List α} {i : Nat} {a b : α} (h : l[i]? = some a) :
    ((l.set i b).map g).sum + g a = (l.map g).sum + g b := by
  induction l generalizing i with
  | nil => simp at h
  | cons c l ih =>
    cases i with
    | zero =>
      obtain rfl : c = a := by simpa using h
      simp only [List.set_cons_zero, List.map_cons, List.sum_cons]
      omega
    | succ i =>
      have hl := ih (by simpa using h)
      simp only [List.set_cons_succ, List.map_cons, List.sum_cons]
      omega

theorem map_modify_of_eq {β : Type*} (g : α → β) (f : α → α) (hf : ∀ a, g (f a) = g a)
    (l : List α) (i : Nat) : (l.modify i f).map g = l.map g := by
  induction l generalizing i with
  | nil => simp
  | cons b l ih => cases i <;> simp [hf, ih]

/-- What lies in one of several ranges that exclude each other is counted range by
range. -/
theorem card_filter_exists {β : Type*} (S : Finset β) (holds : α → β → Prop)
    [∀ a, DecidablePred (holds a)] {l : List α}
    (hl : l.Pairwise fun a a' => ∀ b, holds a b → ¬ holds a' b) :
    (S.filter fun b => ∃ a ∈ l, holds a b).card =
      (l.map fun a => (S.filter (holds a)).card).sum := by
  classical
  induction l with
  | nil => simp
  | cons a l ih =>
    obtain ⟨hhead, htail⟩ := List.pairwise_cons.mp hl
    have hsplit : (S.filter fun b => ∃ a' ∈ a :: l, holds a' b) =
        S.filter (holds a) ∪ S.filter fun b => ∃ a' ∈ l, holds a' b := by
      ext b
      simp only [Finset.mem_filter, Finset.mem_union, List.exists_mem_cons_iff]
      tauto
    have hdisjoint : Disjoint (S.filter (holds a)) (S.filter fun b => ∃ a' ∈ l, holds a' b) := by
      refine Finset.disjoint_left.mpr fun b hb hb' => ?_
      obtain ⟨a', ha', hholds⟩ := (Finset.mem_filter.mp hb').2
      exact hhead a' ha' b (Finset.mem_filter.mp hb).2 hholds
    rw [hsplit, Finset.card_union_of_disjoint hdisjoint, ih htail, List.map_cons, List.sum_cons]

end Table

end Ruju
