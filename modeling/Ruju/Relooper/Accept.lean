import Ruju.Library.Reducible
import Ruju.Relooper.Idoms
import Mathlib.Data.List.Sort

/-!
# The graphs that the relooper accepts

`Relooper::new` numbers the blocks by one depth-first search and looks at the edges that do
not go to a larger position.  It rejects the graph if one of them does not lead to a
dominator of its source, or if a block is unreachable.

The test is exact, and so does not depend on the order in which the search went through the
successors.  `Retreats` is the fact about the search that this needs: when a block is
finished, each of its successors is finished already or below it on the stack, and from
there the stack is a path back to the block.
-/

namespace Ruju

/-- The tables of a `Relooper`.  The stack of frames belongs to a walk. -/
structure Relooper where
  pos : Nat → Nat
  idom : Relooper.Parents
  domChildren : Nat → List Nat
  isLoopHeader : Nat → Bool
  isMerge : Nat → Bool

namespace Relooper

/-! ### `Relooper::new` -/

/-- The edge from `u` to `v` in the loop that finds the loop headers. -/
def markEdge (pos : Nat → Nat) (idom : Parents) (fuel u : Nat) (isLoopHeader : Nat → Bool)
    (v : Nat) : ExceptT String Option (Nat → Bool) :=
  if pos v ≤ pos u then do
    let dominated ← dominates idom pos v fuel u
    if dominated then
      pure (Function.update isLoopHeader v true)
    else
      throw s!"irreducible CFG: back edge {u} -> {v}"
  else
    pure isLoopHeader

/-- The loop over all edges. -/
def loopHeaders (cfg : Cfg) (pos : Nat → Nat) (idom : Parents) (fuel : Nat) :
    ExceptT String Option (Nat → Bool) :=
  (List.range cfg.size).foldlM
    (fun isLoopHeader u => (cfg.succsOf u).foldlM (markEdge pos idom fuel u) isLoopHeader)
    fun _ => false

/-- Blocks with two or more forward edges to them. -/
def mergeBlocks (cfg : Cfg) (pos : Nat → Nat) (v : Nat) : Bool :=
  2 ≤ ((cfg.predsOf v).filter fun p => pos p < pos v).length

/-- The children in the dominator tree, sorted by position. -/
def childrenOf (cfg : Cfg) (pos : Nat → Nat) (idom : Parents) (x : Nat) : List Nat :=
  ((List.range cfg.size).filter fun b => b ≠ 0 ∧ idom b = some x).insertionSort
    fun a b => pos a ≤ pos b

/-- `Relooper::new`.  `none` stands for a loop that has run out of fuel. -/
def new (cfg : Cfg) (fuel : Nat) : ExceptT String Option Relooper := do
  let order ← cfg.rpo fuel
  if order.length ≠ cfg.size then
    throw "unreachable blocks in CFG"
  else
    let pos := positions order
    let idom ← idoms cfg order pos fuel
    let isLoopHeader ← loopHeaders cfg pos idom fuel
    pure {
      pos := pos
      idom := idom
      domChildren := childrenOf cfg pos idom
      isLoopHeader := isLoopHeader
      isMerge := mergeBlocks cfg pos }

/-! ### Retreating edges -/

section Search

variable {cfg : Cfg} {s : Dfs} {u v i : Nat} {rest : List (Nat × Nat)}

/-- There is a path from `v` to `w` through blocks that come before `v` in the list. -/
def LeadsBack (cfg : Cfg) (L : List Nat) (v w : Nat) : Prop :=
  ∃ l, (v :: l).IsChain cfg.Edge ∧ (v :: l).getLast? = some w ∧ ∀ x ∈ l, [x, v].Sublist L

theorem LeadsBack.mono {L L' : List Nat} {w : Nat} (h : LeadsBack cfg L v w)
    (hL : L.Sublist L') : LeadsBack cfg L' v w := by
  obtain ⟨l, hchain, hlast, hmem⟩ := h
  exact ⟨l, hchain, hlast, fun x hx => (hmem x hx).trans hL⟩

/-- The blocks in the order in which they are finished, as far as it is known. -/
def Dfs.finishing (s : Dfs) : List Nat := s.post ++ s.active

/-- The successors of a finished block are finished before it, or lead back to it. -/
def Retreats (cfg : Cfg) (s : Dfs) : Prop :=
  ∀ w ∈ s.post, ∀ v ∈ cfg.succsOf w, [v, w].Sublist s.post ∨ LeadsBack cfg s.finishing v w

theorem retreats_start : Retreats cfg Dfs.start := fun _ hw => absurd hw List.not_mem_nil

/-- A block on the stack leads to the one on top. -/
theorem DfsInv.leadsBack (d : DfsInv cfg s) (hs : s.stack = (u, i) :: rest)
    (hv : v ∈ s.active) : LeadsBack cfg s.finishing v u := by
  obtain ⟨above, below, hsplit⟩ := List.append_of_mem hv
  have hchain : (above ++ v :: below).IsChain fun a b => cfg.Edge b a := by
    rw [← hsplit, Dfs.active, List.isChain_map]
    exact d.chain
  refine ⟨above.reverse, ?_, ?_, ?_⟩
  · have hprefix : (above ++ [v]).IsChain fun a b => cfg.Edge b a := by
      refine hchain.prefix ⟨below, ?_⟩
      rw [List.append_assoc, List.singleton_append]
    rw [← List.isChain_reverse] at hprefix
    rw [List.reverse_append, List.reverse_singleton, List.singleton_append] at hprefix
    exact hprefix
  · have htop : s.active.head? = some u := by rw [Dfs.active, hs, List.map_cons, List.head?_cons]
    rw [hsplit] at htop
    cases above with
    | nil => exact htop
    | cons a above =>
      rw [List.reverse_cons, ← List.cons_append, List.getLast?_concat]
      exact htop
  · intro x hx
    refine List.Sublist.trans ?_ (List.sublist_append_right s.post s.active)
    rw [hsplit]
    have hx' : [x].Sublist above := List.singleton_sublist.mpr (List.mem_reverse.mp hx)
    exact hx'.append (List.singleton_sublist.mpr List.mem_cons_self)

/-- A visit keeps what is known of retreating edges. -/
theorem Retreats.visit (h : Retreats cfg s) (d : DfsInv cfg s) (hs : s.stack = (u, i) :: rest) :
    Retreats cfg (cfg.visit s u i rest) := by
  unfold Cfg.visit
  cases hi : (cfg.succsOf u)[i]? with
  | some v =>
    dsimp only
    split
    · intro w hw x hx
      refine (h w hw x hx).imp_right fun hback => hback.mono ?_
      simp [Dfs.finishing, Dfs.active, hs]
    · intro w hw x hx
      refine (h w hw x hx).imp_right fun hback => hback.mono ?_
      simp [Dfs.finishing, Dfs.active, hs]
  | none =>
    have hfinishing : s.finishing = (s.post ++ [u]) ++ rest.map Prod.fst := by
      simp [Dfs.finishing, Dfs.active, hs]
    intro w hw x hx
    change [x, w].Sublist (s.post ++ [u]) ∨
      LeadsBack cfg ((s.post ++ [u]) ++ rest.map Prod.fst) x w
    rw [← hfinishing]
    rcases List.mem_append.mp hw with hw | hw
    · exact (h w hw x hx).imp_left fun hsub => hsub.trans (List.sublist_append_left _ _)
    · obtain rfl := List.mem_singleton.mp hw
      -- all successors of the finished block have been looked at
      have hvisited : s.visited x = true := by
        refine d.looked (w, i) (hs ▸ List.mem_cons_self) x ?_
        rw [List.take_of_length_le (List.getElem?_eq_none_iff.mp hi)]
        exact hx
      refine ((d.visited x).mp hvisited).imp (fun hpost => ?_) (d.leadsBack hs)
      exact (List.singleton_sublist.mpr hpost).append (List.Sublist.refl [w])

theorem Retreats.search {fuel : Nat} {t : Dfs} (h : Retreats cfg s) (d : DfsInv cfg s)
    (hrun : cfg.search fuel s = some t) : Retreats cfg t := by
  induction fuel generalizing s with
  | zero => cases hrun
  | succ fuel ih =>
    rw [Cfg.search] at hrun
    split at hrun
    case h_1 =>
      cases hrun
      exact h
    case h_2 u i rest hs => exact ih (h.visit d hs) (d.visit hs) hrun

end Search

section Order

variable {cfg : Cfg} {order : List Nat} {pos : Nat → Nat}

theorem IsOrder.pos_lt_of_sublist (o : IsOrder cfg order pos) {a b : Nat}
    (h : [a, b].Sublist order) : pos a < pos b := by
  obtain ⟨l₁, l₂, rfl, ha, hb⟩ := List.cons_sublist_iff.mp h
  obtain ⟨i, hi⟩ := List.mem_iff_getElem?.mp ha
  obtain ⟨j, hj⟩ := List.mem_iff_getElem?.mp (List.singleton_sublist.mp hb)
  have hlt : i < l₁.length := (List.getElem?_eq_some_iff.mp hi).1
  rw [o.pos_get i a (by rw [List.getElem?_append_left hlt, hi]),
    o.pos_get (l₁.length + j) b (by rw [List.getElem?_append_right (by omega),
      Nat.add_sub_cancel_left, hj])]
  omega

/-- A block is reached through blocks with smaller positions. -/
theorem IsOrder.exists_path (o : IsOrder cfg order pos) {b : Nat} (hb : b ∈ order) :
    ∃ p, PathTo cfg.Edge 0 p b ∧ ∀ x ∈ p, x = b ∨ pos x < pos b := by
  induction hn : pos b using Nat.strong_induction_on generalizing b with
  | _ n ih =>
    by_cases hb0 : b = 0
    · subst hb0
      exact ⟨[0], PathTo.entry, fun x hx => Or.inl (List.mem_singleton.mp hx)⟩
    · obtain ⟨q, hq, hedge, hlt⟩ := o.forward b hb hb0
      obtain ⟨p, hp, hsmall⟩ := ih (pos q) (by omega) hq rfl
      refine ⟨b :: p, hp.step hedge, List.forall_mem_cons.mpr ⟨Or.inl rfl, fun x hx => ?_⟩⟩
      right
      rcases hsmall x hx with rfl | hx
      · omega
      · omega

/-- The source of a retreating edge is reached from its target through larger positions. -/
theorem Cfg.rpo_retreats {fuel : Nat} (horder : cfg.rpo fuel = some order)
    (o : IsOrder cfg order pos) {u v : Nat} (hu : u ∈ order) (hedge : cfg.Edge u v)
    (hpos : pos v ≤ pos u) :
    ∃ l, (v :: l).IsChain cfg.Edge ∧ (v :: l).getLast? = some u ∧ ∀ x ∈ l, pos v ≤ pos x := by
  obtain ⟨t, ht, rfl⟩ := Option.map_eq_some_iff.mp horder
  obtain ⟨d, hstack⟩ := dfsInv_start.search ht
  have hfinishing : t.finishing = t.post := by simp [Dfs.finishing, Dfs.active, hstack]
  have hretreats := retreats_start.search dfsInv_start ht
  rcases hretreats u (List.mem_reverse.mp hu) v hedge with hsub | ⟨l, hchain, hlast, hback⟩
  · have hlt := o.pos_lt_of_sublist (List.reverse_sublist.mpr hsub)
    omega
  · refine ⟨l, hchain, hlast, fun x hx => ?_⟩
    have hsub := hback x hx
    rw [hfinishing] at hsub
    exact (o.pos_lt_of_sublist (List.reverse_sublist.mpr hsub)).le

end Order

/-! ### The loop over the edges -/

/-- A fold whose steps fail at the elements without a property. -/
theorem foldlM_throws {ε α β : Type} {f : β → α → ExceptT ε Option β} {P : α → Prop}
    {g : β → α → β} {l : List α} (hpure : ∀ a ∈ l, P a → ∀ b, f b a = pure (g b a))
    (hthrow : ∀ a ∈ l, ¬ P a → ∀ b, ∃ e, f b a = throw e) (b : β) :
    (∀ a ∈ l, P a) ∧ l.foldlM f b = pure (l.foldl g b) ∨
      (¬ ∀ a ∈ l, P a) ∧ ∃ e, l.foldlM f b = throw e := by
  induction l generalizing b with
  | nil => exact Or.inl ⟨fun a ha => absurd ha List.not_mem_nil, rfl⟩
  | cons a l ih =>
    by_cases ha : P a
    · rw [List.foldlM_cons, hpure a List.mem_cons_self ha, pure_bind, List.forall_mem_cons,
        List.foldl_cons]
      simp only [ha, true_and]
      exact ih (fun x hx => hpure x (List.mem_cons_of_mem _ hx))
        (fun x hx => hthrow x (List.mem_cons_of_mem _ hx)) (g b a)
    · obtain ⟨e, he⟩ := hthrow a List.mem_cons_self ha b
      refine Or.inr ⟨fun h => ha (h a List.mem_cons_self), e, ?_⟩
      rw [List.foldlM_cons, he]
      rfl

/-- The table of headers with the targets of the retreating edges from `u` entered. -/
def enterHeader (pos : Nat → Nat) (u : Nat) (isLoopHeader : Nat → Bool) (v : Nat) : Nat → Bool :=
  if pos v ≤ pos u then Function.update isLoopHeader v true else isLoopHeader

variable {x : Nat} {isLoopHeader : Nat → Bool}

theorem enterHeader_iff {pos : Nat → Nat} {u v : Nat} :
    enterHeader pos u isLoopHeader v x = true ↔
      isLoopHeader x = true ∨ v = x ∧ pos x ≤ pos u := by
  unfold enterHeader
  by_cases hvx : v = x
  · subst hvx
    split
    · simp [*]
    · simp [*]
  · split
    · rw [Function.update_of_ne (Ne.symm hvx)]
      simp [hvx]
    · simp [hvx]

theorem foldl_enterHeader_iff {pos : Nat → Nat} {u : Nat} {l : List Nat} :
    l.foldl (enterHeader pos u) isLoopHeader x = true ↔
      isLoopHeader x = true ∨ x ∈ l ∧ pos x ≤ pos u := by
  induction l generalizing isLoopHeader with
  | nil => simp
  | cons v l ih =>
    rw [List.foldl_cons, ih, enterHeader_iff, List.mem_cons, eq_comm (a := v)]
    tauto

theorem foldl_enterHeaders_iff {cfg : Cfg} {pos : Nat → Nat} {l : List Nat} :
    l.foldl (fun h u => (cfg.succsOf u).foldl (enterHeader pos u) h) isLoopHeader x = true ↔
      isLoopHeader x = true ∨ ∃ u ∈ l, cfg.Edge u x ∧ pos x ≤ pos u := by
  induction l generalizing isLoopHeader with
  | nil => simp
  | cons u l ih =>
    rw [List.foldl_cons, ih, foldl_enterHeader_iff, List.exists_mem_cons_iff, or_assoc]
    rfl

section Tables

variable {cfg : Cfg} {pos : Nat → Nat} {idom : Parents} {fuel : Nat}

/-- The loop finds the loop headers, or an edge that does not lead to a dominator. -/
theorem loopHeaders_cases
    (hdom : ∀ u < cfg.size, ∀ v, ∃ r, dominates idom pos v fuel u = some r ∧
      (r = true ↔ Dominates cfg.Edge 0 v u)) :
    (∀ u v, cfg.Edge u v → pos v ≤ pos u → Dominates cfg.Edge 0 v u) ∧
      (∃ isLoopHeader, loopHeaders cfg pos idom fuel = pure isLoopHeader ∧
        ∀ v, isLoopHeader v = true ↔ ∃ u, cfg.Edge u v ∧ pos v ≤ pos u) ∨
    (¬ ∀ u v, cfg.Edge u v → pos v ≤ pos u → Dominates cfg.Edge 0 v u) ∧
      ∃ e, loopHeaders cfg pos idom fuel = throw e := by
  have hedge : ∀ u < cfg.size, ∀ v,
      ((pos v ≤ pos u → Dominates cfg.Edge 0 v u) → ∀ h,
        markEdge pos idom fuel u h v = pure (enterHeader pos u h v)) ∧
      (¬ (pos v ≤ pos u → Dominates cfg.Edge 0 v u) → ∀ h,
        ∃ e, markEdge pos idom fuel u h v = throw e) := by
    intro u hu v
    obtain ⟨r, hr, hiff⟩ := hdom u hu v
    unfold markEdge enterHeader
    rw [hr]
    by_cases hpos : pos v ≤ pos u
    · simp only [if_pos hpos]
      refine ⟨fun h _ => ?_, fun h _ => ?_⟩
      · obtain rfl : r = true := hiff.mpr (h hpos)
        rfl
      · obtain rfl : r = false := Bool.eq_false_iff.mpr fun hr => h fun _ => hiff.mp hr
        exact ⟨_, rfl⟩
    · simp only [if_neg hpos]
      exact ⟨fun _ _ => trivial, fun h => absurd (fun hle => absurd hle hpos) h⟩
  have hrow : ∀ u ∈ List.range cfg.size, ∀ h : Nat → Bool, _ := fun u hu h =>
    foldlM_throws (l := cfg.succsOf u) (f := markEdge pos idom fuel u)
      (fun v _ => (hedge u (List.mem_range.mp hu) v).1)
      (fun v _ => (hedge u (List.mem_range.mp hu) v).2) h
  have hall := foldlM_throws (l := List.range cfg.size)
    (f := fun h u => (cfg.succsOf u).foldlM (markEdge pos idom fuel u) h)
    (P := fun u => ∀ v ∈ cfg.succsOf u, pos v ≤ pos u → Dominates cfg.Edge 0 v u)
    (g := fun h u => (cfg.succsOf u).foldl (enterHeader pos u) h)
    (fun u hu hP h => ((hrow u hu h).resolve_right fun hno => hno.1 hP).2)
    (fun u hu hP h => ((hrow u hu h).resolve_left fun hyes => hP hyes.1).2) fun _ => false
  have hiff : (∀ u ∈ List.range cfg.size, ∀ v ∈ cfg.succsOf u,
        pos v ≤ pos u → Dominates cfg.Edge 0 v u) ↔
      ∀ u v, cfg.Edge u v → pos v ≤ pos u → Dominates cfg.Edge 0 v u :=
    ⟨fun h u v he => h u (List.mem_range.mpr he.source_lt) v he, fun h u _ v he => h u v he⟩
  rw [hiff] at hall
  refine hall.imp_left fun hyes => ⟨hyes.1, _, hyes.2, fun v => ?_⟩
  rw [foldl_enterHeaders_iff]
  constructor
  · rintro (h | ⟨u, -, he, hpos⟩)
    · cases h
    · exact ⟨u, he, hpos⟩
  · rintro ⟨u, he, hpos⟩
    exact Or.inr ⟨u, List.mem_range.mpr he.source_lt, he, hpos⟩

end Tables

/-! ### Acceptance -/

/-- What the tables of an accepted graph say. -/
structure Built (cfg : Cfg) (r : Relooper) : Prop where
  reachable : ∀ b < cfg.size, cfg.Reachable b
  order : ∃ order, IsOrder cfg order r.pos
  idom : ∀ b < cfg.size, b ≠ 0 → ∃ d, r.idom b = some d ∧ IsIdom cfg.Edge 0 d b
  /-- Retreating edges lead to dominators. -/
  back : ∀ u v, cfg.Edge u v → r.pos v ≤ r.pos u → Dominates cfg.Edge 0 v u
  header : ∀ v, r.isLoopHeader v = true ↔ ∃ u, cfg.Edge u v ∧ r.pos v ≤ r.pos u
  merge : r.isMerge = mergeBlocks cfg r.pos
  children : r.domChildren = childrenOf cfg r.pos r.idom

/-- What `new` accepts is reducible. -/
theorem Built.reducible {cfg : Cfg} {r : Relooper} (h : Built cfg r) : Reducible cfg.Edge 0 :=
  reducible_of_retreating h.back

/-- Either the tables are built, or the graph has an unreachable block or is irreducible. -/
theorem new_cases (cfg : Cfg) : ∃ enough, ∀ fuel, enough ≤ fuel →
    (∃ r, new cfg fuel = pure r ∧ Built cfg r) ∨
    (∃ e, new cfg fuel = throw e) ∧
      ¬ ((∀ b < cfg.size, cfg.Reachable b) ∧ Reducible cfg.Edge 0) := by
  refine ⟨cfg.left Dfs.start + 1 + (cfg.size * cfg.size + 1) + (cfg.size + cfg.size),
    fun fuel hfuel => ?_⟩
  obtain ⟨order, horder, o⟩ := cfg.rpo_spec (show cfg.left Dfs.start < fuel by omega)
  have hlength := o.length_le
  by_cases hsize : order.length = cfg.size
  · have hreach : ∀ b < cfg.size, cfg.Reachable b := by
      have hsub : order ⊆ List.range cfg.size := fun b hb =>
        List.mem_range.mpr ((o.mem b).mp hb).lt
      have hperm := (o.nodup.subperm hsub).perm_of_length_le (by rw [List.length_range, hsize])
      exact fun b hb => (o.mem b).mp (hperm.mem_iff.mpr (List.mem_range.mpr hb))
    have hmem : ∀ b < cfg.size, b ∈ order := fun b hb => (o.mem b).mpr (hreach b hb)
    have hall : ∀ u v, cfg.Edge u v → u ∈ order := fun u v hedge => hmem u hedge.source_lt
    have hheight := height_start_le o
    obtain ⟨idom, hidom, hinv, hmeets⟩ := (passInv_start o).idomsLoop o hall
      (fun x hx => ((o.mem x).mp hx).lt) (show order.length + order.length ≤ fuel by omega)
      (lt_of_le_of_lt hheight (show cfg.size * cfg.size < fuel by omega))
    have hdom : ∀ u < cfg.size, ∀ v, ∃ r, dominates idom (positions order) v fuel u = some r ∧
        (r = true ↔ Dominates cfg.Edge 0 v u) := by
      intro u hu v
      have hlt := o.pos_lt (hmem u hu)
      exact hinv.dominates o hall hmeets (hmem u hu) (by omega)
    have hnew : new cfg fuel = (do
        let isLoopHeader ← loopHeaders cfg (positions order) idom fuel
        pure {
          pos := positions order
          idom := idom
          domChildren := childrenOf cfg (positions order) idom
          isLoopHeader := isLoopHeader
          isMerge := mergeBlocks cfg (positions order) }) := by
      rw [new, horder]
      show (if order.length ≠ cfg.size then _ else _) = _
      rw [if_neg (not_not.mpr hsize), idoms, hidom]
      rfl
    rw [hnew]
    rcases loopHeaders_cases hdom with ⟨hback, headers, hrun, hheader⟩ | ⟨hback, e, hrun⟩
    · refine Or.inl ⟨_, by rw [hrun, pure_bind], hreach, ⟨order, o⟩, ?_, hback, hheader, rfl, rfl⟩
      exact fun b hb hb0 => hinv.isIdom o hall hmeets (hmem b hb) hb0
    · refine Or.inr ⟨⟨e, by rw [hrun]; rfl⟩, fun h => hback fun u v hedge hpos => ?_⟩
      obtain ⟨p, hp, hsmall⟩ := o.exists_path (hmem v hedge.lt)
      obtain ⟨l, hchain, hlast, hlarge⟩ :=
        Cfg.rpo_retreats horder o (hall u v hedge) hedge hpos
      exact h.2.dominates hp hsmall hchain hlast hedge hlarge
  · refine Or.inr ⟨⟨"unreachable blocks in CFG", ?_⟩, fun h => hsize ?_⟩
    · rw [new, horder]
      show (if order.length ≠ cfg.size then _ else _) = _
      rw [if_pos hsize]
    · have hsub : List.range cfg.size ⊆ order := fun b hb =>
        (o.mem b).mpr (h.1 b (List.mem_range.mp hb))
      have hle := (List.nodup_range.subperm hsub).length_le
      rw [List.length_range] at hle
      omega

/-- **A graph is accepted exactly if every block is reachable and it is reducible.** -/
theorem new_ok_iff (cfg : Cfg) : ∃ enough, ∀ fuel, enough ≤ fuel →
    ∃ result, (new cfg fuel).run = some result ∧
      ((∃ r, result = .ok r) ↔
        (∀ b < cfg.size, cfg.Reachable b) ∧ Reducible cfg.Edge 0) := by
  obtain ⟨enough, h⟩ := new_cases cfg
  refine ⟨enough, fun fuel hfuel => ?_⟩
  rcases h fuel hfuel with ⟨r, hr, hbuilt⟩ | ⟨⟨e, he⟩, hnot⟩
  · refine ⟨.ok r, by rw [hr]; rfl, iff_of_true ⟨r, rfl⟩ ⟨hbuilt.reachable, hbuilt.reducible⟩⟩
  · refine ⟨.error e, by rw [he]; rfl, iff_of_false ?_ hnot⟩
    rintro ⟨r, hr⟩
    cases hr

example : (new twoEntries 20).run.map (fun result => result.map fun _ => ()) =
    some (.error "irreducible CFG: back edge 2 -> 1") := by decide

end Relooper

end Ruju
