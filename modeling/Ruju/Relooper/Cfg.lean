import Ruju.Library.Dominators
import Mathlib.Algebra.BigOperators.Group.Finset.Basic
import Mathlib.Algebra.BigOperators.Fin

/-!
# Control-flow graphs and their reverse postorder

The graph that `relooper.rs` works on, and `rpo`, the depth-first search that numbers its
blocks.  The search keeps a stack of blocks with the index of the next successor to look
at.  The top of the stack is the head of the list here.

`DfsInv` is the invariant of the search.  From it come the three facts that the computation
of dominators rests on: the order lists the reachable blocks once each, the entry comes
first, and every other block has a predecessor before it.
-/

namespace Ruju.Relooper

/-- `Cfg`: successors and predecessors of each block.  Block 0 is the entry. -/
structure Cfg where
  succs : List (List Nat)
  preds : List (List Nat)
  nonempty : 0 < succs.length
  preds_length : preds.length = succs.length
  succs_lt : ∀ u, ∀ v ∈ succs.getD u [], v < succs.length
  mem_preds : ∀ u v, u ∈ preds.getD v [] ↔ v ∈ succs.getD u []

namespace Cfg

variable (cfg : Cfg)

/-- The number of blocks. -/
def size : Nat := cfg.succs.length

/-- `cfg.succs[u]`. -/
def succsOf (u : Nat) : List Nat := cfg.succs.getD u []

/-- `cfg.preds[v]`. -/
def predsOf (v : Nat) : List Nat := cfg.preds.getD v []

/-- There is an edge from `u` to `v`. -/
def Edge (u v : Nat) : Prop := v ∈ cfg.succsOf u

instance (u v : Nat) : Decidable (cfg.Edge u v) := inferInstanceAs (Decidable (v ∈ cfg.succsOf u))

/-- There is a path from the entry. -/
def Reachable (b : Nat) : Prop := Relation.ReflTransGen cfg.Edge 0 b

variable {cfg}

theorem mem_predsOf {u v : Nat} : u ∈ cfg.predsOf v ↔ cfg.Edge u v := cfg.mem_preds u v

theorem Edge.lt {u v : Nat} (h : cfg.Edge u v) : v < cfg.size := cfg.succs_lt u v h

theorem Edge.source_lt {u v : Nat} (h : cfg.Edge u v) : u < cfg.size := by
  by_contra hu
  have hnil : cfg.succsOf u = [] := by
    rw [succsOf, List.getD_eq_getElem?_getD, List.getElem?_eq_none (Nat.le_of_not_lt hu)]
    rfl
  rw [Edge, hnil] at h
  cases h

theorem Reachable.lt {b : Nat} (h : cfg.Reachable b) : b < cfg.size := by
  cases h with
  | refl => exact cfg.nonempty
  | tail _ hedge => exact hedge.lt

end Cfg

/-- The graph with these successors; the predecessors of a block are listed by number. -/
def Cfg.ofSuccs (succs : List (List Nat)) (nonempty : 0 < succs.length)
    (hlt : ∀ l ∈ succs, ∀ v ∈ l, v < succs.length) : Cfg where
  succs := succs
  preds := (List.range succs.length).map fun v =>
    (List.range succs.length).filter fun u => v ∈ succs.getD u []
  nonempty := nonempty
  preds_length := by rw [List.length_map, List.length_range]
  succs_lt u v hv := by
    rw [List.getD_eq_getElem?_getD] at hv
    cases hu : succs[u]? with
    | none =>
      rw [hu] at hv
      cases hv
    | some l =>
      rw [hu] at hv
      exact hlt l (List.mem_of_getElem? hu) v hv
  mem_preds u v := by
    have hin : ∀ {u v}, v ∈ succs.getD u [] → u < succs.length ∧ v < succs.length := by
      intro u v hv
      rw [List.getD_eq_getElem?_getD] at hv
      cases hu : succs[u]? with
      | none =>
        rw [hu] at hv
        cases hv
      | some l =>
        rw [hu] at hv
        exact ⟨(List.getElem?_eq_some_iff.mp hu).1, hlt l (List.mem_of_getElem? hu) v hv⟩
    by_cases hv : v < succs.length
    · rw [List.getD_eq_getElem?_getD, List.getElem?_map, List.getElem?_range hv]
      simp only [Option.map_some, Option.getD_some, List.mem_filter, List.mem_range,
        decide_eq_true_eq]
      exact ⟨fun h => h.2, fun h => ⟨(hin h).1, h⟩⟩
    · rw [List.getD_eq_getElem?_getD, List.getElem?_eq_none (by simpa using hv)]
      constructor
      · intro h
        cases h
      · exact fun h => absurd (hin h).2 hv

/-! ### `rpo` -/

/-- The state of the search. -/
structure Dfs where
  visited : Nat → Bool
  post : List Nat
  /-- Blocks with the index of the next successor, the top first. -/
  stack : List (Nat × Nat)

/-- One round of the loop, with `(u, i)` on top of `rest`. -/
def Cfg.visit (cfg : Cfg) (s : Dfs) (u i : Nat) (rest : List (Nat × Nat)) : Dfs :=
  match (cfg.succsOf u)[i]? with
  | some v =>
    if s.visited v then { s with stack := (u, i + 1) :: rest }
    else { s with
      visited := Function.update s.visited v true
      stack := (v, 0) :: (u, i + 1) :: rest }
  | none => { s with post := s.post ++ [u], stack := rest }

/-- The loop of `rpo`. -/
def Cfg.search (cfg : Cfg) : Nat → Dfs → Option Dfs
  | 0, _ => none
  | fuel + 1, s =>
    match s.stack with
    | [] => some s
    | (u, i) :: rest => cfg.search fuel (cfg.visit s u i rest)

/-- The state at the entry. -/
def Dfs.start : Dfs where
  visited := Function.update (fun _ => false) 0 true
  post := []
  stack := [(0, 0)]

/-- `rpo`. -/
def Cfg.rpo (cfg : Cfg) (fuel : Nat) : Option (List Nat) :=
  (cfg.search fuel Dfs.start).map fun s => s.post.reverse

/-- The positions in an order: `pos[b] = p` for the `p`th block `b`. -/
def positions (order : List Nat) : Nat → Nat :=
  order.zipIdx.foldl (fun pos bp => Function.update pos bp.1 bp.2) fun _ => 0

/-! ### The invariant of the search -/

section Search

variable {cfg : Cfg} {s : Dfs} {u i : Nat} {rest : List (Nat × Nat)}

/-- The blocks on the stack. -/
def Dfs.active (s : Dfs) : List Nat := s.stack.map Prod.fst

/-- What holds between two rounds. -/
structure DfsInv (cfg : Cfg) (s : Dfs) : Prop where
  visited : ∀ v, s.visited v = true ↔ v ∈ s.post ∨ v ∈ s.active
  nodup : (s.post ++ s.active).Nodup
  reachable : ∀ v, s.visited v = true → cfg.Reachable v
  /-- A block was pushed from the one below it. -/
  chain : s.stack.IsChain fun a b => cfg.Edge b.1 a.1
  /-- The entry is at the bottom until it is finished, as the last block. -/
  bottom : s.active.getLast? = some 0 ∨ s.stack = [] ∧ s.post.getLast? = some 0
  /-- The successors looked at are visited. -/
  looked : ∀ e ∈ s.stack, ∀ v ∈ (cfg.succsOf e.1).take e.2, s.visited v = true
  finished : ∀ w ∈ s.post, ∀ v ∈ cfg.succsOf w, s.visited v = true
  /-- A finished block has a predecessor that is finished later. -/
  forward : ∀ l₁ v l₂, s.post.reverse = l₁ ++ v :: l₂ → v ≠ 0 →
    ∃ p, cfg.Edge p v ∧ (p ∈ s.active ∨ p ∈ l₁)

theorem dfsInv_start : DfsInv cfg Dfs.start where
  visited v := by
    by_cases hv : v = 0
    · subst hv
      simp [Dfs.start, Dfs.active]
    · simp [Dfs.start, Dfs.active, hv]
  nodup := by simp [Dfs.start, Dfs.active]
  reachable v hv := by
    by_cases h0 : v = 0
    · subst h0
      exact Relation.ReflTransGen.refl
    · simp [Dfs.start, h0] at hv
  chain := List.isChain_singleton _
  bottom := Or.inl rfl
  looked := by simp [Dfs.start]
  finished := by simp [Dfs.start]
  forward l₁ v l₂ h := by simp [Dfs.start] at h

/-- Only the block of a stack entry matters for the chain. -/
theorem isChain_index (h : ((u, i) :: rest).IsChain fun a b => cfg.Edge b.1 a.1) (k : Nat) :
    ((u, k) :: rest).IsChain fun a b => cfg.Edge b.1 a.1 := by
  cases rest with
  | nil => exact List.isChain_singleton _
  | cons e rest =>
    rw [List.isChain_cons_cons] at h ⊢
    exact h

theorem DfsInv.active_getLast (d : DfsInv cfg s) (hs : s.stack = (u, i) :: rest) :
    s.active.getLast? = some 0 := by
  refine d.bottom.resolve_right ?_
  rw [hs]
  rintro ⟨h, -⟩
  cases h

/-- The index moves on over a visited successor. -/
theorem DfsInv.skip (d : DfsInv cfg s) (hs : s.stack = (u, i) :: rest) {v : Nat}
    (hv : (cfg.succsOf u)[i]? = some v) (hvis : s.visited v = true) :
    DfsInv cfg { s with stack := (u, i + 1) :: rest } := by
  have hactive : ({ s with stack := (u, i + 1) :: rest } : Dfs).active = s.active := by
    simp [Dfs.active, hs]
  refine ⟨?_, ?_, d.reachable, ?_, ?_, ?_, d.finished, ?_⟩
  · rw [hactive]
    exact d.visited
  · rw [hactive]
    exact d.nodup
  · exact isChain_index (hs ▸ d.chain) (i + 1)
  · rw [hactive]
    exact Or.inl (d.active_getLast hs)
  · intro e he w hw
    rcases List.mem_cons.mp he with rfl | he
    · rw [List.take_add_one, List.mem_append, hv] at hw
      rcases hw with hw | hw
      · exact d.looked (u, i) (hs ▸ List.mem_cons_self) w hw
      · rw [List.mem_singleton.mp hw]
        exact hvis
    · exact d.looked e (hs ▸ List.mem_cons_of_mem _ he) w hw
  · rw [hactive]
    exact d.forward

/-- A new block is pushed. -/
theorem DfsInv.push (d : DfsInv cfg s) (hs : s.stack = (u, i) :: rest) {v : Nat}
    (hv : (cfg.succsOf u)[i]? = some v) (hvis : s.visited v = false) :
    DfsInv cfg { s with
      visited := Function.update s.visited v true
      stack := (v, 0) :: (u, i + 1) :: rest } := by
  have hedge : cfg.Edge u v := List.mem_of_getElem? hv
  have hactive : ({ s with
      visited := Function.update s.visited v true
      stack := (v, 0) :: (u, i + 1) :: rest } : Dfs).active = v :: s.active := by
    simp [Dfs.active, hs]
  have hmono : ∀ w, s.visited w = true → Function.update s.visited v true w = true := by
    intro w hw
    by_cases hwv : w = v
    · rw [hwv, Function.update_self]
    · rw [Function.update_of_ne hwv]
      exact hw
  have hnew : ¬ (v ∈ s.post ∨ v ∈ s.active) := by
    rw [← d.visited, hvis]
    exact Bool.false_ne_true
  have hu : s.visited u = true := by
    rw [d.visited]
    exact Or.inr (by simp [Dfs.active, hs])
  refine ⟨?_, ?_, ?_, ?_, ?_, ?_, ?_, ?_⟩
  · intro w
    rw [hactive, List.mem_cons]
    show Function.update s.visited v true w = true ↔ w ∈ s.post ∨ w = v ∨ w ∈ s.active
    by_cases hwv : w = v
    · subst hwv
      simp
    · rw [Function.update_of_ne hwv, d.visited]
      simp [hwv]
  · rw [hactive]
    have hperm : (v :: (s.post ++ s.active)).Perm (s.post ++ v :: s.active) :=
      List.perm_middle.symm
    refine hperm.nodup (List.nodup_cons.mpr ⟨?_, d.nodup⟩)
    rw [List.mem_append]
    exact hnew
  · intro w hw
    replace hw : Function.update s.visited v true w = true := hw
    by_cases hwv : w = v
    · rw [hwv]
      exact (d.reachable u hu).tail hedge
    · rw [Function.update_of_ne hwv] at hw
      exact d.reachable w hw
  · exact List.isChain_cons_cons.mpr ⟨hedge, isChain_index (hs ▸ d.chain) (i + 1)⟩
  · rw [hactive, List.getLast?_cons, d.active_getLast hs]
    exact Or.inl rfl
  · intro e he w hw
    rcases List.mem_cons.mp he with rfl | he
    · simp at hw
    rcases List.mem_cons.mp he with rfl | he
    · rw [List.take_add_one, List.mem_append, hv] at hw
      rcases hw with hw | hw
      · exact hmono w (d.looked (u, i) (hs ▸ List.mem_cons_self) w hw)
      · rw [List.mem_singleton.mp hw]
        exact Function.update_self _ _ _
    · exact hmono w (d.looked e (hs ▸ List.mem_cons_of_mem _ he) w hw)
  · exact fun w hw x hx => hmono x (d.finished w hw x hx)
  · intro l₁ w l₂ hl hw
    obtain ⟨p, hp, hmem⟩ := d.forward l₁ w l₂ hl hw
    rw [hactive]
    exact ⟨p, hp, hmem.imp_left (List.mem_cons_of_mem v)⟩

/-- A block with all successors looked at is finished. -/
theorem DfsInv.pop (d : DfsInv cfg s) (hs : s.stack = (u, i) :: rest)
    (hi : (cfg.succsOf u)[i]? = none) :
    DfsInv cfg { s with post := s.post ++ [u], stack := rest } := by
  have hactive : s.active = u :: rest.map Prod.fst := by simp [Dfs.active, hs]
  have hactive' : ({ s with post := s.post ++ [u], stack := rest } : Dfs).active =
      rest.map Prod.fst := rfl
  have hchain := d.chain
  rw [hs] at hchain
  refine ⟨?_, ?_, d.reachable, ?_, ?_, ?_, ?_, ?_⟩
  · intro w
    rw [hactive', d.visited, hactive]
    simp only [List.mem_append, List.mem_cons, List.not_mem_nil, or_false]
    tauto
  · rw [hactive', List.append_assoc]
    have hnodup := d.nodup
    rw [hactive] at hnodup
    exact hnodup
  · exact hchain.tail
  · rw [hactive']
    have hbottom := d.active_getLast hs
    rw [hactive] at hbottom
    cases rest with
    | nil =>
      refine Or.inr ⟨rfl, ?_⟩
      rw [List.getLast?_concat]
      exact hbottom
    | cons e rest =>
      refine Or.inl ?_
      rw [List.map_cons, List.getLast?_cons_cons] at hbottom
      exact hbottom
  · exact fun e he => d.looked e (hs ▸ List.mem_cons_of_mem _ he)
  · intro w hw x hx
    rcases List.mem_append.mp hw with hw | hw
    · exact d.finished w hw x hx
    · rw [List.mem_singleton.mp hw] at hx
      refine d.looked (u, i) (hs ▸ List.mem_cons_self) x ?_
      rw [List.take_of_length_le (List.getElem?_eq_none_iff.mp hi)]
      exact hx
  · intro l₁ v l₂ hl hv
    rw [List.reverse_append, List.reverse_singleton, List.singleton_append] at hl
    rw [hactive']
    cases l₁ with
    | nil =>
      -- the block finished here: the one below it on the stack
      obtain ⟨rfl, -⟩ := List.cons.inj hl
      cases rest with
      | nil =>
        have hbottom := d.active_getLast hs
        rw [hactive] at hbottom
        exact absurd (Option.some.inj hbottom) hv
      | cons e rest =>
        exact ⟨e.1, (List.isChain_cons_cons.mp hchain).1, Or.inl List.mem_cons_self⟩
    | cons w l₁ =>
      rw [List.cons_append] at hl
      obtain ⟨rfl, htail⟩ := List.cons.inj hl
      obtain ⟨p, hp, hmem⟩ := d.forward l₁ v l₂ htail hv
      rw [hactive, List.mem_cons] at hmem
      rcases hmem with (rfl | hmem) | hmem
      · exact ⟨p, hp, Or.inr List.mem_cons_self⟩
      · exact ⟨p, hp, Or.inl hmem⟩
      · exact ⟨p, hp, Or.inr (List.mem_cons_of_mem _ hmem)⟩

/-- One visit keeps the invariant of the search. -/
theorem DfsInv.visit (d : DfsInv cfg s) (hs : s.stack = (u, i) :: rest) :
    DfsInv cfg (cfg.visit s u i rest) := by
  unfold Cfg.visit
  cases hi : (cfg.succsOf u)[i]? with
  | none => exact d.pop hs hi
  | some v =>
    dsimp only
    split
    case isTrue hv => exact d.skip hs hi hv
    case isFalse hv => exact d.push hs hi (Bool.eq_false_iff.mpr hv)

/-- The whole search keeps it, and ends with an empty stack. -/
theorem DfsInv.search {fuel : Nat} {t : Dfs} (d : DfsInv cfg s)
    (h : cfg.search fuel s = some t) : DfsInv cfg t ∧ t.stack = [] := by
  induction fuel generalizing s with
  | zero => cases h
  | succ fuel ih =>
    rw [Cfg.search] at h
    split at h
    case h_1 hs =>
      cases h
      exact ⟨d, hs⟩
    case h_2 u i rest hs => exact ih (d.visit hs) h

/-! ### Termination of the search -/

/-- The rounds that a block takes: one for each successor, and one to finish it. -/
def Cfg.rounds (cfg : Cfg) (u : Nat) : Nat := (cfg.succsOf u).length + 1

/-- The rounds left: those of the blocks not visited yet, and of the stack. -/
def Cfg.left (cfg : Cfg) (s : Dfs) : Nat :=
  (∑ v ∈ Finset.range cfg.size, if s.visited v then 0 else cfg.rounds v) +
    (s.stack.map fun e => cfg.rounds e.1 - e.2).sum

/-- Visiting a block takes its rounds from the sum. -/
theorem sum_visited {visited : Nat → Bool} {v n : Nat} (f : Nat → Nat) (hv : v < n)
    (hvis : visited v = false) :
    (∑ w ∈ Finset.range n, if visited w then 0 else f w) =
      f v + ∑ w ∈ Finset.range n, if Function.update visited v true w then 0 else f w := by
  have hmem : v ∈ Finset.range n := Finset.mem_range.mpr hv
  rw [← Finset.add_sum_erase _ _ hmem,
    ← Finset.add_sum_erase _ (fun w => if Function.update visited v true w then 0 else f w) hmem]
  simp only [hvis, Function.update_self, Bool.false_eq_true, if_false, if_true, Nat.zero_add]
  congr 1
  refine Finset.sum_congr rfl fun w hw => ?_
  rw [Function.update_of_ne (Finset.ne_of_mem_erase hw)]

theorem Cfg.left_visit (hs : s.stack = (u, i) :: rest) (hi : i ≤ (cfg.succsOf u).length) :
    cfg.left (cfg.visit s u i rest) < cfg.left s := by
  have hrounds : cfg.rounds u = (cfg.succsOf u).length + 1 := rfl
  unfold Cfg.visit
  cases hv : (cfg.succsOf u)[i]? with
  | none =>
    simp only [Cfg.left, hs, List.map_cons, List.sum_cons]
    omega
  | some v =>
    have hlt : i < (cfg.succsOf u).length := (List.getElem?_eq_some_iff.mp hv).1
    have hedge : cfg.Edge u v := List.mem_of_getElem? hv
    dsimp only
    split
    case isTrue =>
      simp only [Cfg.left, hs, List.map_cons, List.sum_cons]
      omega
    case isFalse hvis =>
      have hsum := sum_visited cfg.rounds hedge.lt (Bool.eq_false_iff.mpr hvis)
      simp only [Cfg.left, hs, List.map_cons, List.sum_cons]
      omega

/-- The indices on the stack stay in range. -/
def Dfs.InRange (cfg : Cfg) (s : Dfs) : Prop := ∀ e ∈ s.stack, e.2 ≤ (cfg.succsOf e.1).length

theorem Dfs.InRange.visit (h : s.InRange cfg) (hs : s.stack = (u, i) :: rest) :
    (cfg.visit s u i rest).InRange cfg := by
  have hrest : ∀ e ∈ rest, e.2 ≤ (cfg.succsOf e.1).length := fun e he =>
    h e (hs ▸ List.mem_cons_of_mem _ he)
  unfold Cfg.visit
  cases hv : (cfg.succsOf u)[i]? with
  | none => exact hrest
  | some v =>
    have hlt : i < (cfg.succsOf u).length := (List.getElem?_eq_some_iff.mp hv).1
    dsimp only
    split
    · exact List.forall_mem_cons.mpr ⟨hlt, hrest⟩
    · exact List.forall_mem_cons.mpr
        ⟨Nat.zero_le _, List.forall_mem_cons.mpr ⟨hlt, hrest⟩⟩

/-- Every visit lowers what is left, so enough fuel ends the search. -/
theorem Cfg.search_terminates (h : s.InRange cfg) {fuel : Nat} (hfuel : cfg.left s < fuel) :
    ∃ t, cfg.search fuel s = some t := by
  induction fuel generalizing s with
  | zero => omega
  | succ fuel ih =>
    rw [Cfg.search]
    split
    · exact ⟨s, rfl⟩
    case h_2 u i rest hs =>
      have hi := h (u, i) (hs ▸ List.mem_cons_self)
      have hless := cfg.left_visit hs hi
      exact ih (h.visit hs) (by omega)

end Search

/-! ### The order -/

/-- What the computation of dominators uses of an order and the positions in it. -/
structure IsOrder (cfg : Cfg) (order : List Nat) (pos : Nat → Nat) : Prop where
  nodup : order.Nodup
  mem : ∀ b, b ∈ order ↔ cfg.Reachable b
  head : order.head? = some 0
  pos_get : ∀ i b, order[i]? = some b → pos b = i
  /-- Every block but the entry has a predecessor before it. -/
  forward : ∀ b ∈ order, b ≠ 0 → ∃ p ∈ order, cfg.Edge p b ∧ pos p < pos b

theorem foldl_positions_of_not_mem {l : List (Nat × Nat)} {pos : Nat → Nat} {b : Nat}
    (h : ∀ e ∈ l, e.1 ≠ b) :
    l.foldl (fun pos bp => Function.update pos bp.1 bp.2) pos b = pos b := by
  induction l generalizing pos with
  | nil => rfl
  | cons e l ih =>
    rw [List.foldl_cons, ih fun e' he' => h e' (List.mem_cons_of_mem _ he')]
    exact Function.update_of_ne (h e List.mem_cons_self).symm _ _

theorem foldl_positions_get {order : List Nat} (hnodup : order.Nodup) {pos : Nat → Nat}
    {k i b : Nat} (h : order[i]? = some b) :
    (order.zipIdx k).foldl (fun pos bp => Function.update pos bp.1 bp.2) pos b = k + i := by
  induction order generalizing pos k i with
  | nil => cases h
  | cons a order ih =>
    rw [List.nodup_cons] at hnodup
    rw [List.zipIdx_cons, List.foldl_cons]
    cases i with
    | zero =>
      obtain rfl : a = b := Option.some.inj h
      have hnot : ∀ e ∈ order.zipIdx (k + 1), e.1 ≠ a := by
        rintro ⟨w, j⟩ he rfl
        exact hnodup.1 (List.fst_mem_of_mem_zipIdx he)
      rw [foldl_positions_of_not_mem hnot, Function.update_self]
      rfl
    | succ i =>
      rw [ih hnodup.2 h]
      omega

/-- `positions` inverts the order. -/
theorem positions_get {order : List Nat} (hnodup : order.Nodup) {i b : Nat}
    (h : order[i]? = some b) : positions order b = i := by
  rw [positions, foldl_positions_get hnodup h, Nat.zero_add]

theorem DfsInv.post_getLast {cfg : Cfg} {s : Dfs} (d : DfsInv cfg s) (hs : s.stack = []) :
    s.post.getLast? = some 0 := by
  refine (d.bottom.resolve_left ?_).2
  rw [Dfs.active, hs]
  intro h
  cases h

/-- What the search has finished is what can be reached. -/
theorem DfsInv.mem_post {cfg : Cfg} {s : Dfs} (d : DfsInv cfg s) (hs : s.stack = []) {b : Nat} :
    b ∈ s.post ↔ cfg.Reachable b := by
  have hactive : s.active = [] := by simp [Dfs.active, hs]
  have hvisited : ∀ v, s.visited v = true ↔ v ∈ s.post := by
    intro v
    rw [d.visited, hactive]
    simp
  constructor
  · exact fun hb => d.reachable b ((hvisited b).mpr hb)
  · intro hb
    induction hb with
    | refl => exact List.mem_of_getLast? (d.post_getLast hs)
    | tail _ hedge ih => exact (hvisited _).mp (d.finished _ ih _ hedge)

/-- **The search yields an order.** -/
theorem DfsInv.isOrder {cfg : Cfg} {s : Dfs} (d : DfsInv cfg s) (hs : s.stack = []) :
    IsOrder cfg s.post.reverse (positions s.post.reverse) := by
  have hactive : s.active = [] := by simp [Dfs.active, hs]
  have hnodup : s.post.reverse.Nodup := by
    have h := d.nodup
    rw [hactive, List.append_nil] at h
    exact List.nodup_reverse.mpr h
  refine ⟨hnodup, ?_, ?_, fun i b => positions_get hnodup, ?_⟩
  · intro b
    rw [List.mem_reverse, d.mem_post hs]
  · rw [List.head?_reverse]
    exact d.post_getLast hs
  · intro b hb hne
    obtain ⟨l₁, l₂, hsplit⟩ := List.append_of_mem hb
    obtain ⟨p, hedge, hp⟩ := d.forward l₁ b l₂ hsplit hne
    have hp₁ : p ∈ l₁ := by
      refine hp.resolve_left ?_
      rw [hactive]
      exact List.not_mem_nil
    obtain ⟨k, hk⟩ := List.mem_iff_getElem?.mp hp₁
    have hlt : k < l₁.length := (List.getElem?_eq_some_iff.mp hk).1
    have hposp : positions s.post.reverse p = k := by
      refine positions_get hnodup ?_
      rw [hsplit, List.getElem?_append_left hlt]
      exact hk
    have hposb : positions s.post.reverse b = l₁.length := by
      refine positions_get hnodup ?_
      rw [hsplit, List.getElem?_append_right le_rfl, Nat.sub_self]
      rfl
    refine ⟨p, ?_, hedge, ?_⟩
    · rw [hsplit]
      exact List.mem_append_left _ hp₁
    · rw [hposp, hposb]
      exact hlt

/-- With enough fuel, `rpo` ends, and its result is an order. -/
theorem Cfg.rpo_spec (cfg : Cfg) {fuel : Nat} (hfuel : cfg.left Dfs.start < fuel) :
    ∃ order, cfg.rpo fuel = some order ∧ IsOrder cfg order (positions order) := by
  have hrange : Dfs.start.InRange cfg :=
    List.forall_mem_singleton.mpr (Nat.zero_le _)
  obtain ⟨t, ht⟩ := cfg.search_terminates hrange hfuel
  obtain ⟨d, hstack⟩ := dfsInv_start.search ht
  refine ⟨t.post.reverse, ?_, d.isOrder hstack⟩
  rw [Cfg.rpo, ht]
  rfl

end Ruju.Relooper
