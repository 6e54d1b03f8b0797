import Ruju.Relooper.Cfg
import Mathlib.Algebra.Order.BigOperators.Group.Finset

/-!
# Immediate dominators

`idoms` refines a table of parents in passes over the blocks, in reverse postorder: a block
gets the meet of those predecessors that have a parent already, and `intersect` computes
the meet by walking up from the block with the larger position.

The table is a function to optional blocks, `none` for `UNDEF`.  At every moment it is a
tree with smaller positions upwards (`Rising`) in which every strict dominator of a block
dominates its parent (`Bounding`).  That the passes come to an end rests on `monotone` and
`settled` of `PassInv`: a block only ever moves to an ancestor of its parent.  Moving one
block changes the ancestors of the blocks below it as well, and a block below it whose
predecessors have moved away from there could then have to move down again.  In reverse
postorder this does not happen, since a predecessor with a smaller position is still below
its parent when that parent moves.
-/

namespace Ruju.Relooper

/-- The table `idom`. -/
abbrev Parents := Nat → Option Nat

/-- `while pos[a] > limit { a = idom[a]; }`. -/
def climb (idom : Parents) (pos : Nat → Nat) (limit : Nat) : Nat → Nat → Option Nat
  | 0, _ => none
  | fuel + 1, a =>
    if pos a > limit then (idom a).bind fun a => climb idom pos limit fuel a else some a

/-- `intersect`. -/
def intersect (idom : Parents) (pos : Nat → Nat) : Nat → Nat → Nat → Option Nat
  | 0, _, _ => none
  | fuel + 1, a, b =>
    if a = b then some a
    else
      (climb idom pos (pos b) (fuel + 1) a).bind fun a =>
        (climb idom pos (pos a) (fuel + 1) b).bind fun b => intersect idom pos fuel a b

/-- One predecessor in the computation of `new_idom`. -/
def joinPred (idom : Parents) (pos : Nat → Nat) (fuel : Nat) (newIdom : Option Nat) (p : Nat) :
    Option (Option Nat) :=
  match idom p, newIdom with
  | none, _ => some newIdom
  | some _, none => some (some p)
  | some _, some q => (intersect idom pos fuel p q).map some

/-- One block of a pass, with the flag `changed`. -/
def visitBlock (cfg : Cfg) (pos : Nat → Nat) (fuel : Nat) (s : Parents × Bool) (b : Nat) :
    Option (Parents × Bool) :=
  ((cfg.predsOf b).foldlM (joinPred s.1 pos fuel) none).map fun newIdom =>
    if newIdom ≠ none ∧ s.1 b ≠ newIdom then (Function.update s.1 b newIdom, true) else s

/-- A pass over the blocks behind the entry. -/
def pass (cfg : Cfg) (order : List Nat) (pos : Nat → Nat) (fuel : Nat) (idom : Parents) :
    Option (Parents × Bool) :=
  (order.drop 1).foldlM (visitBlock cfg pos fuel) (idom, false)

/-- `while changed`, with the fuel of the walks apart. -/
def idomsLoop (cfg : Cfg) (order : List Nat) (pos : Nat → Nat) (walk : Nat) :
    Nat → Parents → Option Parents
  | 0, _ => none
  | fuel + 1, idom =>
    (pass cfg order pos walk idom).bind fun r =>
      if r.2 then idomsLoop cfg order pos walk fuel r.1 else some r.1

/-- `idoms`. -/
def idoms (cfg : Cfg) (order : List Nat) (pos : Nat → Nat) (fuel : Nat) : Option Parents :=
  idomsLoop cfg order pos fuel fuel (Function.update (fun _ => none) 0 (some 0))

/-- `dominates`. -/
def dominates (idom : Parents) (pos : Nat → Nat) (a : Nat) : Nat → Nat → Option Bool
  | 0, _ => none
  | fuel + 1, b =>
    if a = b then some true
    else if pos b = 0 then some false
    else (idom b).bind fun b => dominates idom pos a fuel b

/-! ### `intersect` computes meets -/

variable {fuel a p : Nat}

section Walks

variable {idom : Parents} {pos : Nat → Nat}

/-- `climb` ends at an ancestor that is not behind the limit. -/
theorem climb_spec (r : Rising idom 0 pos) (h0 : pos 0 = 0) (limit : Nat)
    (ha : (idom a).isSome) (hfuel : pos a < fuel) :
    ∃ m, climb idom pos limit fuel a = some m ∧ Above idom a m ∧ pos m ≤ limit ∧
      ∀ c, Above idom a c → pos c ≤ limit → Above idom m c := by
  induction fuel generalizing a with
  | zero => omega
  | succ fuel ih =>
    rw [climb]
    by_cases hlt : pos a > limit
    · have hne : a ≠ 0 := by
        rintro rfl
        omega
      obtain ⟨y, hy⟩ := Option.isSome_iff_exists.mp ha
      have hup := r.up hy hne
      obtain ⟨m, hm, habove, hle, hleast⟩ := ih (r.defined hy) (by omega)
      refine ⟨m, ?_, habove.head hy, hle, ?_⟩
      · rw [if_pos hlt, hy]
        exact hm
      · intro c hc hcle
        rcases hc.cases with rfl | ⟨y', hy', hyc⟩
        · omega
        · obtain rfl := Option.some.inj (hy.symm.trans hy')
          exact hleast c hyc hcle
    · exact ⟨a, if_neg hlt, Above.refl a, by omega, fun c hc _ => hc⟩

/-- `intersect` finds the nearest common ancestor. -/
theorem intersect_spec (r : Rising idom 0 pos) (h0 : pos 0 = 0)
    (hinj : ∀ x y, (idom x).isSome → (idom y).isSome → pos x = pos y → x = y)
    {b : Nat} (ha : (idom a).isSome) (hb : (idom b).isSome)
    (hfuel : pos a + pos b < fuel) :
    ∃ m, intersect idom pos fuel a b = some m ∧ IsMeet idom {a, b} m := by
  induction fuel generalizing a b with
  | zero => omega
  | succ fuel ih =>
    rw [intersect]
    by_cases hab : a = b
    · subst hab
      refine ⟨a, if_pos rfl, ?_⟩
      rw [Set.pair_eq_singleton]
      exact IsMeet.singleton a
    · have hne : pos a ≠ pos b := fun h => hab (hinj a b ha hb h)
      obtain ⟨a', ha', haa', hle, hleast⟩ :=
        climb_spec r h0 (pos b) ha (show pos a < fuel + 1 by omega)
      obtain ⟨b', hb', hbb', hle', hleast'⟩ :=
        climb_spec r h0 (pos a') hb (show pos b < fuel + 1 by omega)
      have hra := r.rank_le haa'
      have hrb := r.rank_le hbb'
      obtain ⟨m, hm, hmeet⟩ := ih (r.isSome_of_above haa' ha) (r.isSome_of_above hbb' hb)
        (show pos a' + pos b' < fuel by omega)
      refine ⟨m, ?_, ?_, ?_⟩
      · rw [if_neg hab, ha', Option.bind_some, hb', Option.bind_some]
        exact hm
      · rintro x (rfl | rfl)
        · exact haa'.trans (hmeet.above a' (Or.inl rfl))
        · exact hbb'.trans (hmeet.above b' (Or.inr rfl))
      · -- a common ancestor is not passed by either climb
        intro c hc
        have hac := hc a (Or.inl rfl)
        have hbc := hc b (Or.inr rfl)
        have ha'c := hleast c hac (r.rank_le hbc)
        have hb'c := hleast' c hbc (r.rank_le ha'c)
        refine hmeet.least c ?_
        rintro x (rfl | rfl)
        · exact ha'c
        · exact hb'c

/-- `newIdom` is the meet of the set, if it has any members. -/
def JoinOf (idom : Parents) (S : Set Nat) : Option Nat → Prop
  | none => S = ∅
  | some m => S.Nonempty ∧ IsMeet idom S m

/-- The members of a list that have a parent. -/
def defined (idom : Parents) (l : List Nat) : Set Nat := {p | p ∈ l ∧ (idom p).isSome}

theorem defined_cons_of_isSome {l : List Nat} (hp : (idom p).isSome) (S : Set Nat) :
    S ∪ defined idom (p :: l) = insert p S ∪ defined idom l := by
  ext x
  simp only [defined, List.mem_cons, Set.mem_union, Set.mem_ofPred_eq, Set.mem_insert_iff]
  constructor
  · rintro (h | ⟨rfl | h, hx⟩)
    · exact Or.inl (Or.inr h)
    · exact Or.inl (Or.inl rfl)
    · exact Or.inr ⟨h, hx⟩
  · rintro ((rfl | h) | ⟨h, hx⟩)
    · exact Or.inr ⟨Or.inl rfl, hp⟩
    · exact Or.inl h
    · exact Or.inr ⟨Or.inr h, hx⟩

theorem defined_cons_of_none {l : List Nat} (hp : idom p = none) :
    defined idom (p :: l) = defined idom l := by
  ext x
  simp only [defined, List.mem_cons, Set.mem_ofPred_eq]
  constructor
  · rintro ⟨rfl | h, hx⟩
    · rw [hp] at hx
      cases hx
    · exact ⟨h, hx⟩
  · rintro ⟨h, hx⟩
    exact ⟨Or.inr h, hx⟩

/-- The loop over the predecessors computes their meet. -/
theorem foldlM_joinPred (r : Rising idom 0 pos) (h0 : pos 0 = 0)
    (hinj : ∀ x y, (idom x).isSome → (idom y).isSome → pos x = pos y → x = y)
    {n : Nat} (hlt : ∀ x, (idom x).isSome → pos x < n) (hfuel : n + n ≤ fuel)
    (l : List Nat) {S : Set Nat} (hS : ∀ x ∈ S, (idom x).isSome) {acc : Option Nat}
    (hacc : JoinOf idom S acc) :
    ∃ m, l.foldlM (joinPred idom pos fuel) acc = some m ∧
      JoinOf idom (S ∪ defined idom l) m := by
  induction l generalizing S acc with
  | nil =>
    refine ⟨acc, rfl, ?_⟩
    have hnil : defined idom [] = ∅ := by
      ext x
      simp [defined]
    rw [hnil, Set.union_empty]
    exact hacc
  | cons p l ih =>
    cases hp : idom p with
    | none =>
      obtain ⟨m, hm, hjoin⟩ := ih hS hacc
      refine ⟨m, ?_, ?_⟩
      · have hstep : joinPred idom pos fuel acc p = some acc := by simp only [joinPred, hp]
        rw [List.foldlM_cons, hstep]
        exact hm
      · rw [defined_cons_of_none hp]
        exact hjoin
    | some y =>
      have hsome : (idom p).isSome := by
        rw [hp]
        rfl
      have hS' : ∀ x ∈ insert p S, (idom x).isSome := by
        rintro x (rfl | hx)
        · exact hsome
        · exact hS x hx
      -- the new value after `p`
      have hstep : ∃ q, joinPred idom pos fuel acc p = some q ∧
          JoinOf idom (insert p S) q := by
        cases acc with
        | none =>
          have hempty : S = ∅ := hacc
          refine ⟨some p, ?_, Set.insert_nonempty p S, ?_⟩
          · simp only [joinPred, hp]
          · rw [hempty, insert_empty_eq]
            exact IsMeet.singleton p
        | some q =>
          obtain ⟨⟨x, hx⟩, hmeet⟩ := hacc
          have hq : (idom q).isSome := r.isSome_of_above (hmeet.above x hx) (hS x hx)
          have hposp := hlt p hsome
          have hposq := hlt q hq
          obtain ⟨k, hk, hkmeet⟩ := intersect_spec r h0 hinj hsome hq
            (show pos p + pos q < fuel by omega)
          refine ⟨some k, ?_, Set.insert_nonempty p S, hmeet.insert hkmeet⟩
          simp only [joinPred, hp, hk, Option.map_some]
      obtain ⟨q, hq, hqjoin⟩ := hstep
      obtain ⟨m, hm, hjoin⟩ := ih hS' hqjoin
      refine ⟨m, ?_, ?_⟩
      · rw [List.foldlM_cons, hq]
        exact hm
      · rw [defined_cons_of_isSome hsome]
        exact hjoin

end Walks

/-! ### One block of a pass -/

section Pass

variable {cfg : Cfg} {order : List Nat} {pos : Nat → Nat}

/-- The predecessors that have a parent. -/
def readyPreds (cfg : Cfg) (idom : Parents) (b : Nat) : Set Nat :=
  {p | cfg.Edge p b ∧ (idom p).isSome}

theorem defined_predsOf (idom : Parents) (b : Nat) :
    defined idom (cfg.predsOf b) = readyPreds cfg idom b := by
  ext p
  rw [defined, readyPreds, Set.mem_ofPred_eq, Set.mem_ofPred_eq, Cfg.mem_predsOf]

/-- What holds when the blocks before position `j` have had their turn in a pass. -/
structure PassInv (cfg : Cfg) (order : List Nat) (pos : Nat → Nat) (j : Nat)
    (idom : Parents) : Prop where
  rising : Rising idom 0 pos
  bounding : Bounding cfg.Edge 0 idom
  mem : ∀ x, (idom x).isSome → x ∈ order
  done : ∀ x ∈ order, pos x < j → (idom x).isSome
  /-- A block that has had its turn has had it behind its forward predecessors. -/
  ready : ∀ x, (idom x).isSome → ∀ p, cfg.Edge p x → pos p < pos x → (idom p).isSome
  /-- What is above all predecessors is above the parent, too. -/
  monotone : ∀ x y, idom x = some y → x ≠ 0 →
    ∀ c, (∀ p ∈ readyPreds cfg idom x, Above idom p c) → Above idom y c
  /-- A forward predecessor is below the parent, unless the parent has just moved. -/
  settled : ∀ x y, idom x = some y → x ≠ 0 → pos x < j ∨ j ≤ pos y →
    ∀ p, cfg.Edge p x → pos p < pos x → Above idom p y

namespace IsOrder

variable (o : IsOrder cfg order pos)

include o

theorem pos_zero : pos 0 = 0 := by
  refine o.pos_get 0 0 ?_
  rw [← List.head?_eq_getElem?]
  exact o.head

theorem getElem?_pos {b : Nat} (hb : b ∈ order) : order[pos b]? = some b := by
  obtain ⟨i, hi⟩ := List.mem_iff_getElem?.mp hb
  rw [o.pos_get i b hi]
  exact hi

theorem pos_lt {b : Nat} (hb : b ∈ order) : pos b < order.length :=
  (List.getElem?_eq_some_iff.mp (o.getElem?_pos hb)).1

theorem pos_inj {b : Nat} (ha : a ∈ order) (hb : b ∈ order) (h : pos a = pos b) : a = b := by
  have hget := o.getElem?_pos ha
  rw [h, o.getElem?_pos hb] at hget
  exact (Option.some.inj hget).symm

end IsOrder

variable {j b : Nat} {idom : Parents}

/-- The meet of the predecessors is found. -/
theorem PassInv.exists_meet (h : PassInv cfg order pos j idom) (o : IsOrder cfg order pos)
    (hfuel : order.length + order.length ≤ fuel) (hp : p ∈ readyPreds cfg idom b) :
    ∃ m, (cfg.predsOf b).foldlM (joinPred idom pos fuel) none = some (some m) ∧
      IsMeet idom (readyPreds cfg idom b) m := by
  have hnone : JoinOf idom ∅ none := rfl
  have hempty : ∀ x ∈ (∅ : Set Nat), (idom x).isSome := fun x hx => absurd hx (Set.notMem_empty x)
  obtain ⟨m, hm, hjoin⟩ := foldlM_joinPred h.rising o.pos_zero
    (fun x y hx hy => o.pos_inj (h.mem x hx) (h.mem y hy))
    (fun x hx => o.pos_lt (h.mem x hx)) hfuel (cfg.predsOf b) hempty hnone
  rw [Set.empty_union, defined_predsOf] at hjoin
  cases m with
  | none =>
    have hempty : readyPreds cfg idom b = ∅ := hjoin
    rw [hempty] at hp
    cases hp
  | some m => exact ⟨m, hm, hjoin.2⟩

/-- A block has its turn: the meet `m` of its predecessors is its new parent. -/
structure Turn (cfg : Cfg) (order : List Nat) (pos : Nat → Nat) (idom : Parents) (b m : Nat) :
    Prop where
  inv : PassInv cfg order pos (pos b) idom
  ne : b ≠ 0
  mem : b ∈ order
  forward : ∃ p ∈ readyPreds cfg idom b, pos p < pos b
  meet : IsMeet idom (readyPreds cfg idom b) m

namespace Turn

variable {m : Nat} (t : Turn cfg order pos idom b m)

include t

variable {y : Nat}

/-- The block moves to an ancestor of its parent. -/
theorem above_parent (hy : idom b = some y) : Above idom y m :=
  t.inv.monotone b y hy t.ne m t.meet.above

theorem pos_lt : pos m < pos b := by
  obtain ⟨p, hp, hlt⟩ := t.forward
  exact lt_of_le_of_lt (t.inv.rising.rank_le (t.meet.above p hp)) hlt

theorem isSome : (idom m).isSome := by
  obtain ⟨p, hp, -⟩ := t.forward
  exact t.inv.rising.isSome_of_above (t.meet.above p hp) hp.2

theorem rising : Rising (Function.update idom b (some m)) 0 pos :=
  t.inv.rising.update t.ne t.pos_lt t.isSome

theorem bounding : Bounding cfg.Edge 0 (Function.update idom b (some m)) := by
  obtain ⟨p, hp, -⟩ := t.forward
  exact t.inv.bounding.update t.inv.rising hp (fun x hx => hx) t.meet

variable {x : Nat}

/-- No block gains an ancestor. -/
theorem above_of_update (hx : (idom x).isSome)
    (h : Above (Function.update idom b (some m)) x a) : Above idom x a := by
  cases hy : idom b with
  | none => exact t.inv.rising.above_of_above_update_none hx hy h
  | some y => exact above_of_above_update ((t.above_parent hy).head hy) h

/-- A chain that ends at the position of `b` or behind it stays. -/
theorem above_update (h : Above idom x a) (hle : pos b ≤ pos a) :
    Above (Function.update idom b (some m)) x a :=
  t.inv.rising.above_update h t.ne hle

theorem above_update_of_lt (h : Above idom x a) (hlt : pos x < pos b) :
    Above (Function.update idom b (some m)) x a :=
  above_update_of_not_above h (t.inv.rising.not_above_of_rank_lt hlt)

omit t in
theorem isSome_update (hx : (idom x).isSome) :
    (Function.update idom b (some m) x).isSome := by
  by_cases hxb : x = b
  · rw [hxb, Function.update_self]
    rfl
  · rw [Function.update_of_ne hxb]
    exact hx

/-- What is above all predecessors afterwards was so before. -/
theorem above_preds {c : Nat}
    (hc : ∀ p ∈ readyPreds cfg (Function.update idom b (some m)) x,
      Above (Function.update idom b (some m)) p c) :
    ∀ p ∈ readyPreds cfg idom x, Above idom p c :=
  fun p hp => t.above_of_update hp.2 (hc p ⟨hp.1, isSome_update hp.2⟩)

/-- The ancestors that another block keeps: if its parent is below `b`, so is a forward
predecessor, and the two lose the same ones. -/
theorem monotone_other (o : IsOrder cfg order pos) {c : Nat} (hx : idom x = some y)
    (hx0 : x ≠ 0)
    (hc : ∀ p ∈ readyPreds cfg (Function.update idom b (some m)) x,
      Above (Function.update idom b (some m)) p c) :
    Above (Function.update idom b (some m)) y c := by
  have hsome : (idom x).isSome := by
    rw [hx]
    rfl
  have hyc : Above idom y c := t.inv.monotone x y hx hx0 c (t.above_preds hc)
  by_cases hyb : Above idom y b
  · have hup := t.inv.rising.up hx hx0
    have hby := t.inv.rising.rank_le hyb
    have hyb' := t.above_update hyb le_rfl
    -- a forward predecessor of `x` is still below `y`, and so below `b`
    obtain ⟨p, -, hedge, hlt⟩ := o.forward x (t.inv.mem x hsome) hx0
    have hpy : Above idom p y := t.inv.settled x y hx hx0 (Or.inr hby) p hedge hlt
    have hpb' := t.above_update (hpy.trans hyb) le_rfl
    have hpc' := hc p ⟨hedge, isSome_update (t.inv.ready x hsome p hedge hlt)⟩
    rcases hpb'.total hpc' with hbc | hcb
    · exact hyb'.trans hbc
    · -- `c` is not above `b`: it is on the part of the chain that stays
      exact t.above_update hyc (t.rising.rank_le hcb)
  · exact above_update_of_not_above hyc hyb

theorem monotone (o : IsOrder cfg order pos)
    (hx : Function.update idom b (some m) x = some y) (hx0 : x ≠ 0) (c : Nat)
    (hc : ∀ p ∈ readyPreds cfg (Function.update idom b (some m)) x,
      Above (Function.update idom b (some m)) p c) :
    Above (Function.update idom b (some m)) y c := by
  by_cases hxb : x = b
  · subst hxb
    rw [Function.update_self] at hx
    cases hx
    exact t.above_update_of_lt (t.meet.least c (t.above_preds hc)) t.pos_lt
  · rw [Function.update_of_ne hxb] at hx
    exact t.monotone_other o hx hx0 hc

theorem settled (o : IsOrder cfg order pos) (hall : ∀ u v, cfg.Edge u v → u ∈ order)
    (hx : Function.update idom b (some m) x = some y) (hx0 : x ≠ 0)
    (hturn : pos x < pos b + 1 ∨ pos b + 1 ≤ pos y) (hedge : cfg.Edge p x)
    (hlt : pos p < pos x) : Above (Function.update idom b (some m)) p y := by
  by_cases hxb : x = b
  · subst hxb
    rw [Function.update_self] at hx
    cases hx
    have hp : p ∈ readyPreds cfg idom x := ⟨hedge, t.inv.done p (hall p x hedge) hlt⟩
    exact t.above_update_of_lt (t.meet.above p hp) hlt
  · rw [Function.update_of_ne hxb] at hx
    have hsome : (idom x).isSome := by
      rw [hx]
      rfl
    have hne : pos x ≠ pos b := fun h => hxb (o.pos_inj (t.inv.mem x hsome) t.mem h)
    rcases hturn with hbefore | hbehind
    · have hxlt : pos x < pos b := by omega
      exact t.above_update_of_lt (t.inv.settled x y hx hx0 (Or.inl hxlt) p hedge hlt)
        (hlt.trans hxlt)
    · have hle : pos b ≤ pos y := by omega
      exact t.above_update (t.inv.settled x y hx hx0 (Or.inr hle) p hedge hlt) hle

/-- **One turn keeps the invariant.** -/
theorem passInv (o : IsOrder cfg order pos) (hall : ∀ u v, cfg.Edge u v → u ∈ order) :
    PassInv cfg order pos (pos b + 1) (Function.update idom b (some m)) where
  rising := t.rising
  bounding := t.bounding
  mem x hx := by
    by_cases hxb : x = b
    · rw [hxb]
      exact t.mem
    · rw [Function.update_of_ne hxb] at hx
      exact t.inv.mem x hx
  done x hx hlt := by
    by_cases hxb : x = b
    · rw [hxb, Function.update_self]
      rfl
    · have hne : pos x ≠ pos b := fun h => hxb (o.pos_inj hx t.mem h)
      exact isSome_update (t.inv.done x hx (by omega))
  ready x hx p hedge hlt := by
    by_cases hxb : x = b
    · subst hxb
      exact isSome_update (t.inv.done p (hall p x hedge) hlt)
    · rw [Function.update_of_ne hxb] at hx
      exact isSome_update (t.inv.ready x hx p hedge hlt)
  monotone x y hx hx0 := t.monotone o hx hx0
  settled x y hx hx0 hturn p := t.settled o hall hx hx0 hturn

end Turn

/-! ### Passes -/

/-- How far down the parents are, all in all. -/
def height (cfg : Cfg) (order : List Nat) (pos : Nat → Nat) (idom : Parents) : Nat :=
  ∑ x ∈ Finset.range cfg.size, ((idom x).map pos).getD order.length

/-- A turn that changes a parent lowers the measure of the passes. -/
theorem Turn.height_lt {m : Nat} (t : Turn cfg order pos idom b m) (o : IsOrder cfg order pos)
    (hlt : b < cfg.size) (hne : idom b ≠ some m) :
    height cfg order pos (Function.update idom b (some m)) < height cfg order pos idom := by
  have hmem : b ∈ Finset.range cfg.size := Finset.mem_range.mpr hlt
  have hdown : pos m < ((idom b).map pos).getD order.length := by
    cases hy : idom b with
    | none =>
      have hposb := o.pos_lt t.mem
      have hposm := t.pos_lt
      simp only [Option.map_none, Option.getD_none]
      omega
    | some y =>
      have habove := t.above_parent hy
      refine lt_of_le_of_ne (t.inv.rising.rank_le habove) fun heq => hne ?_
      rw [hy, t.inv.rising.eq_of_rank_le habove (le_of_eq heq.symm)]
  refine Finset.sum_lt_sum (fun x _ => ?_) ⟨b, hmem, ?_⟩
  · by_cases hxb : x = b
    · subst hxb
      rw [Function.update_self]
      exact hdown.le
    · rw [Function.update_of_ne hxb]
  · rw [Function.update_self]
    exact hdown

/-- Every block but the entry has the meet of its predecessors as its parent. -/
def MeetsAt (cfg : Cfg) (idom : Parents) (b : Nat) : Prop :=
  ∃ m, idom b = some m ∧ IsMeet idom (readyPreds cfg idom b) m

variable (o : IsOrder cfg order pos) (hall : ∀ u v, cfg.Edge u v → u ∈ order)

include o hall

theorem PassInv.exists_turn (h : PassInv cfg order pos (pos b) idom) (hb : b ∈ order)
    (hb0 : b ≠ 0) (hfuel : order.length + order.length ≤ fuel) :
    ∃ m, (cfg.predsOf b).foldlM (joinPred idom pos fuel) none = some (some m) ∧
      Turn cfg order pos idom b m := by
  obtain ⟨p, -, hedge, hlt⟩ := o.forward b hb hb0
  have hp : p ∈ readyPreds cfg idom b := ⟨hedge, h.done p (hall p b hedge) hlt⟩
  obtain ⟨m, hm, hmeet⟩ := h.exists_meet o hfuel hp
  exact ⟨m, hm, h, hb0, hb, ⟨p, hp, hlt⟩, hmeet⟩

/-- The rest of a pass either changes nothing and finds every parent to be the meet, or
brings the parents up. -/
theorem PassInv.foldlM (hsize : ∀ x ∈ order, x < cfg.size)
    (hfuel : order.length + order.length ≤ fuel) (l : List Nat) (hj : 0 < j)
    (hle : j ≤ order.length) (hl : order.drop j = l) (h : PassInv cfg order pos j idom)
    (changed : Bool) :
    ∃ idom' changed', l.foldlM (visitBlock cfg pos fuel) (idom, changed) =
        some (idom', changed') ∧
      PassInv cfg order pos order.length idom' ∧
      (idom' = idom ∧ changed' = changed ∧ (∀ b ∈ l, MeetsAt cfg idom b) ∨
        changed' = true ∧ height cfg order pos idom' < height cfg order pos idom) := by
  induction l generalizing j idom changed with
  | nil =>
    have hend : order.length ≤ j := List.drop_eq_nil_iff.mp hl
    obtain rfl : j = order.length := le_antisymm hle hend
    exact ⟨idom, changed, rfl, h, Or.inl ⟨rfl, rfl, fun b hb => absurd hb List.not_mem_nil⟩⟩
  | cons b l ih =>
    have hget : order[j]? = some b := by
      rw [← List.head?_drop, hl]
      rfl
    have hb : b ∈ order := List.mem_of_getElem? hget
    have hpos : pos b = j := o.pos_get j b hget
    have hb0 : b ≠ 0 := by
      rintro rfl
      rw [o.pos_zero] at hpos
      omega
    have hrest : order.drop (j + 1) = l := by
      rw [← List.tail_drop, hl]
      rfl
    have hlt : j + 1 ≤ order.length := (List.getElem?_eq_some_iff.mp hget).1
    subst hpos
    obtain ⟨m, hm, t⟩ := h.exists_turn o hall hb hb0 hfuel
    have hnext := t.passInv o hall
    by_cases hsame : idom b = some m
    · -- the parent is the meet already
      have hupdate : Function.update idom b (some m) = idom := by
        rw [← hsame]
        exact Function.update_eq_self b idom
      rw [hupdate] at hnext
      have hvisit : visitBlock cfg pos fuel (idom, changed) b = some (idom, changed) := by
        simp only [visitBlock, hm, hsame, Option.map_some]
        simp
      obtain ⟨idom', changed', hrun, hinv, hcases⟩ := ih (Nat.succ_pos _) hlt hrest hnext changed
      refine ⟨idom', changed', ?_, hinv, ?_⟩
      · rw [List.foldlM_cons, hvisit]
        exact hrun
      · refine hcases.imp_left ?_
        rintro ⟨hidom, hchanged, hmeets⟩
        exact ⟨hidom, hchanged, List.forall_mem_cons.mpr ⟨⟨m, hsame, t.meet⟩, hmeets⟩⟩
    · have hvisit : visitBlock cfg pos fuel (idom, changed) b =
          some (Function.update idom b (some m), true) := by
        simp only [visitBlock, hm, Option.map_some]
        rw [if_pos ⟨Option.some_ne_none m, hsame⟩]
      have hless := t.height_lt o (hsize b hb) hsame
      obtain ⟨idom', changed', hrun, hinv, hcases⟩ := ih (Nat.succ_pos _) hlt hrest hnext true
      refine ⟨idom', changed', ?_, hinv, Or.inr ?_⟩
      · rw [List.foldlM_cons, hvisit]
        exact hrun
      · rcases hcases with ⟨rfl, rfl, -⟩ | ⟨hchanged, hlt⟩
        · exact ⟨rfl, hless⟩
        · exact ⟨hchanged, hlt.trans hless⟩

omit hall in
/-- At the end of a pass the next one can start. -/
theorem PassInv.restart (h : PassInv cfg order pos order.length idom) :
    PassInv cfg order pos 1 idom where
  rising := h.rising
  bounding := h.bounding
  mem := h.mem
  done x hx _ := h.done x hx (o.pos_lt hx)
  ready := h.ready
  monotone := h.monotone
  settled x y hx hx0 _ := by
    have hsome : (idom x).isSome := by
      rw [hx]
      rfl
    exact h.settled x y hx hx0 (Or.inl (o.pos_lt (h.mem x hsome)))

/-- **The passes come to an end**, with every parent the meet of all predecessors. -/
theorem PassInv.idomsLoop (hsize : ∀ x ∈ order, x < cfg.size) {walk : Nat}
    (hwalk : order.length + order.length ≤ walk)
    (h : PassInv cfg order pos 1 idom) (hfuel : height cfg order pos idom < fuel) :
    ∃ idom', Relooper.idomsLoop cfg order pos walk fuel idom = some idom' ∧
      PassInv cfg order pos order.length idom' ∧
      ∀ b ∈ order, b ≠ 0 → MeetsAt cfg idom' b := by
  induction fuel generalizing idom with
  | zero => omega
  | succ fuel ih =>
    have hlength : 1 ≤ order.length := by
      have hhead := o.pos_lt (List.mem_of_mem_head? o.head)
      omega
    obtain ⟨idom', changed', hrun, hinv, hcases⟩ :=
      h.foldlM o hall hsize hwalk _ Nat.one_pos hlength rfl false
    rw [Relooper.idomsLoop, pass, hrun, Option.bind_some]
    rcases hcases with ⟨rfl, rfl, hmeets⟩ | ⟨rfl, hless⟩
    · refine ⟨idom', rfl, hinv, fun b hb hb0 => hmeets b ?_⟩
      have hget := o.getElem?_pos hb
      have hpos : pos b ≠ 0 := fun h0 =>
        hb0 (o.pos_inj hb (List.mem_of_mem_head? o.head) (h0.trans o.pos_zero.symm))
      obtain ⟨k, hk⟩ := Nat.exists_eq_succ_of_ne_zero hpos
      refine List.mem_of_getElem? (i := k) ?_
      rw [List.getElem?_drop, Nat.add_comm, ← Nat.succ_eq_add_one, ← hk]
      exact hget
    · have hlt : height cfg order pos idom' < fuel := by omega
      exact ih (hinv.restart o) hlt

omit hall in
/-- Before the first pass only the entry has a parent. -/
theorem passInv_start :
    PassInv cfg order pos 1 (Function.update (fun _ => none) 0 (some 0)) := by
  have hentry : ∀ {x y}, Function.update (fun _ => none) 0 (some 0) x = some y →
      x = 0 ∧ y = 0 := by
    intro x y hxy
    by_cases hx : x = 0
    · subst hx
      rw [Function.update_self] at hxy
      exact ⟨rfl, (Option.some.inj hxy).symm⟩
    · rw [Function.update_of_ne hx] at hxy
      cases hxy
  have hsome : ∀ x, (Function.update (fun _ => none) 0 (some 0) x).isSome → x = 0 := by
    intro x hx
    obtain ⟨y, hy⟩ := Option.isSome_iff_exists.mp hx
    exact (hentry hy).1
  refine ⟨⟨Function.update_self _ _ _, ?_, ?_⟩, ?_, ?_, ?_, ?_, ?_, ?_⟩
  · exact fun hxy hx => absurd (hentry hxy).1 hx
  · intro x y hxy
    rw [(hentry hxy).2, Function.update_self]
    rfl
  · exact fun x y hxy hx => absurd (hentry hxy).1 hx
  · intro x hx
    rw [hsome x hx]
    exact List.mem_of_mem_head? o.head
  · intro x hx hlt
    have hpos : pos x = pos 0 := by
      rw [o.pos_zero]
      omega
    rw [o.pos_inj hx (List.mem_of_mem_head? o.head) hpos, Function.update_self]
    rfl
  · intro x hx p _ hlt
    rw [hsome x hx, o.pos_zero] at hlt
    omega
  · exact fun x y hxy hx => absurd (hentry hxy).1 hx
  · exact fun x y hxy hx => absurd (hentry hxy).1 hx

end Pass

/-! ### The result -/

section Result

variable {cfg : Cfg} {order : List Nat} {pos : Nat → Nat} {idom : Parents}
  (h : PassInv cfg order pos order.length idom) (o : IsOrder cfg order pos)
  (hall : ∀ u v, cfg.Edge u v → u ∈ order)
  (hmeets : ∀ b ∈ order, b ≠ 0 → MeetsAt cfg idom b)

include h o hall hmeets

/-- At the end of the passes the parents are above the predecessors. -/
theorem PassInv.above_pred (u v : Nat) (hedge : cfg.Edge u v) (hv : v ≠ 0) :
    ∃ y, idom v = some y ∧ Above idom u y := by
  have hu := hall u v hedge
  have hmem : v ∈ order := (o.mem v).mpr (((o.mem u).mp hu).tail hedge)
  obtain ⟨y, hy, hmeet⟩ := hmeets v hmem hv
  exact ⟨y, hy, hmeet.above u ⟨hedge, h.done u hu (o.pos_lt hu)⟩⟩

/-- At the fixed point every parent is the immediate dominator. -/
theorem PassInv.isIdom {b : Nat} (hb : b ∈ order) (hb0 : b ≠ 0) :
    ∃ d, idom b = some d ∧ IsIdom cfg.Edge 0 d b := by
  obtain ⟨d, hd, -⟩ := hmeets b hb hb0
  exact ⟨d, hd, isIdom_of_bounding h.bounding h.rising (h.above_pred o hall hmeets) hb0 hd⟩

/-- `dominates` decides domination. -/
theorem PassInv.dominates {b : Nat} (hb : b ∈ order) (hfuel : pos b < fuel) :
    ∃ r, Relooper.dominates idom pos a fuel b = some r ∧
      (r = true ↔ Dominates cfg.Edge 0 a b) := by
  have hiff : ∀ x ∈ order, Dominates cfg.Edge 0 a x ↔ Above idom x a := fun x hx =>
    ⟨h.bounding.above h.rising (h.done x hx (o.pos_lt hx)),
      dominates_of_above_preds h.rising (h.above_pred o hall hmeets)⟩
  rw [hiff b hb]
  -- the walk follows the chain of ancestors
  clear hiff
  induction fuel generalizing b with
  | zero => omega
  | succ fuel ih =>
    rw [Relooper.dominates]
    by_cases hab : a = b
    · subst hab
      exact ⟨true, if_pos rfl, iff_of_true rfl (Above.refl a)⟩
    · rw [if_neg hab]
      by_cases hpos : pos b = 0
      · obtain rfl : b = 0 :=
          o.pos_inj hb (List.mem_of_mem_head? o.head) (hpos.trans o.pos_zero.symm)
        refine ⟨false, if_pos hpos, iff_of_false Bool.false_ne_true fun habove => hab ?_⟩
        exact h.rising.above_root_eq habove
      · have hb0 : b ≠ 0 := by
          rintro rfl
          exact hpos o.pos_zero
        obtain ⟨y, hy⟩ := Option.isSome_iff_exists.mp (h.done b hb (o.pos_lt hb))
        have hup := h.rising.up hy hb0
        obtain ⟨r, hr, hiff⟩ := ih (h.mem y (h.rising.defined hy)) (by omega)
        refine ⟨r, ?_, hiff.trans ⟨fun hya => hya.head hy, fun hba => ?_⟩⟩
        · rw [if_neg hpos, hy]
          exact hr
        · rcases hba.cases with rfl | ⟨y', hy', hya⟩
          · exact absurd rfl hab
          · obtain rfl := Option.some.inj (hy.symm.trans hy')
            exact hya

end Result

theorem IsOrder.length_le {cfg : Cfg} {order : List Nat} {pos : Nat → Nat}
    (o : IsOrder cfg order pos) : order.length ≤ cfg.size := by
  have hsub : order ⊆ List.range cfg.size := fun b hb =>
    List.mem_range.mpr ((o.mem b).mp hb).lt
  have hlength := (o.nodup.subperm hsub).length_le
  rw [List.length_range] at hlength
  exact hlength

/-- The parents cannot be lower than this. -/
theorem height_start_le {cfg : Cfg} {order : List Nat} {pos : Nat → Nat}
    (o : IsOrder cfg order pos) :
    height cfg order pos (Function.update (fun _ => none) 0 (some 0)) ≤ cfg.size * cfg.size := by
  have hterm : ∀ x ∈ Finset.range cfg.size,
      ((Function.update (fun _ => none) 0 (some 0) x).map pos).getD order.length ≤ cfg.size := by
    intro x _
    by_cases hx : x = 0
    · subst hx
      rw [Function.update_self, Option.map_some, Option.getD_some, o.pos_zero]
      exact Nat.zero_le _
    · rw [Function.update_of_ne hx]
      exact o.length_le
  calc height cfg order pos (Function.update (fun _ => none) 0 (some 0))
      ≤ (Finset.range cfg.size).card • cfg.size := Finset.sum_le_card_nsmul _ _ _ hterm
    _ = cfg.size * cfg.size := by rw [Finset.card_range, smul_eq_mul]

/-- **`idoms` computes the immediate dominators.**  With enough fuel the search, the passes
and the walks of `intersect` all come to an end, and every block but the entry has its
closest strict dominator in the table. -/
theorem idoms_correct (cfg : Cfg) (hreach : ∀ b < cfg.size, cfg.Reachable b) :
    ∃ enough, ∀ fuel, enough ≤ fuel →
      ∃ order idom, cfg.rpo fuel = some order ∧
        idoms cfg order (positions order) fuel = some idom ∧
        ∀ b < cfg.size, b ≠ 0 → ∃ d, idom b = some d ∧ IsIdom cfg.Edge 0 d b := by
  refine ⟨cfg.left Dfs.start + 1 + (cfg.size * cfg.size + 1) + (cfg.size + cfg.size),
    fun fuel hfuel => ?_⟩
  obtain ⟨order, horder, o⟩ := cfg.rpo_spec (show cfg.left Dfs.start < fuel by omega)
  have hlength := o.length_le
  have hheight := height_start_le o
  have hall : ∀ u v, cfg.Edge u v → u ∈ order := fun u v hedge =>
    (o.mem u).mpr (hreach u hedge.source_lt)
  obtain ⟨idom, hidom, hinv, hmeets⟩ := (passInv_start o).idomsLoop o hall
    (fun x hx => ((o.mem x).mp hx).lt) (show order.length + order.length ≤ fuel by omega)
    (lt_of_le_of_lt hheight (show cfg.size * cfg.size < fuel by omega))
  refine ⟨order, idom, horder, hidom, fun b hb hb0 => ?_⟩
  exact hinv.isIdom o hall hmeets ((o.mem b).mpr (hreach b hb)) hb0

/-- A loop between the blocks 1 and 2 that can be entered at both, and left at 2. -/
def twoEntries : Cfg := Cfg.ofSuccs [[1, 2], [2], [1, 3], []] (by decide) (by decide)

theorem reachable_twoEntries : ∀ b < twoEntries.size, twoEntries.Reachable b := by
  have h1 : twoEntries.Reachable 1 := Relation.ReflTransGen.single (by decide)
  have h2 : twoEntries.Reachable 2 := Relation.ReflTransGen.single (by decide)
  have h3 : twoEntries.Reachable 3 := h2.tail (by decide)
  intro b hb
  match b, hb with
  | 0, _ => exact Relation.ReflTransGen.refl
  | 1, _ => exact h1
  | 2, _ => exact h2
  | 3, _ => exact h3

theorem idoms_correct_twoEntries :
    (∀ b < twoEntries.size, twoEntries.Reachable b) ∧
    ∃ enough, ∀ fuel, enough ≤ fuel →
      ∃ order idom, twoEntries.rpo fuel = some order ∧
        idoms twoEntries order (positions order) fuel = some idom ∧
        ∀ b < twoEntries.size, b ≠ 0 → ∃ d, idom b = some d ∧ IsIdom twoEntries.Edge 0 d b :=
  ⟨reachable_twoEntries, idoms_correct twoEntries reachable_twoEntries⟩

example : (twoEntries.rpo 20).bind (fun order =>
    (idoms twoEntries order (positions order) 20).map fun idom =>
      (order, (List.range 4).map idom)) =
    some ([0, 1, 2, 3], [some 0, some 0, some 0, some 2]) := by decide

end Ruju.Relooper
