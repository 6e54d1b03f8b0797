import Ruju.Library.Structured
import Ruju.Relooper.Accept

/-!
# The walk over the dominator tree

`Relooper::run` walks the dominator tree and calls back its caller, who emits the code.  The
callbacks do not act back on the walk, so the walk is modelled as the sequence of the calls
(`Event`).

A branch needs its target on the stack of frames.  `Scope` is the invariant that provides
for it: around the code of a block there is a loop frame for every loop header that strictly
dominates it, and a block frame for every later merge block whose immediate dominator
strictly dominates it.  With it the walk of an accepted graph succeeds (`Built.run_ok`).
-/

namespace Ruju.Relooper

/-- `Term`: how a block ends. -/
inductive Term where
  | ite (then_ else_ : Nat)
  | goto (target : Nat)
  | ret
  deriving DecidableEq, Repr

/-- `Frame`: an open construct. -/
inductive Frame where
  | loop (header : Nat)
  | block (follow : Nat)
  | ite
  deriving DecidableEq, Repr

/-- The calls of `Emit`. -/
inductive Event where
  | openLoop (x : Nat)
  | openBlock (follow : Nat)
  | close
  | stmts (x : Nat)
  | phiMoves (x target : Nat)
  | br (depth : Nat)
  | openIf (x : Nat)
  | elseArm
  | ret (x : Nat)
  deriving DecidableEq, Repr

/-- `depth_of`, with the innermost frame first. -/
def depthOf (frame : Frame) (frames : List Frame) : ExceptT String Option Nat :=
  match frames.findIdx? (· = frame) with
  | some depth => pure depth
  | none => throw "branch target not on the frame stack"

/-- `do_branch`. -/
def doBranch (r : Relooper) (doTree : Nat → List Frame → ExceptT String Option (List Event))
    (x target : Nat) (frames : List Frame) : ExceptT String Option (List Event) :=
  if r.pos target ≤ r.pos x then do
    let depth ← depthOf (.loop target) frames
    pure [.phiMoves x target, .br depth]
  else if r.isMerge target then do
    let depth ← depthOf (.block target) frames
    pure [.phiMoves x target, .br depth]
  else do
    let code ← doTree target frames
    pure (.phiMoves x target :: code)

/-- `node_within`.  The merge children are listed from the last one on. -/
def nodeWithin (r : Relooper) (term : Nat → Term)
    (doTree : Nat → List Frame → ExceptT String Option (List Event)) (x : Nat) :
    List Nat → List Frame → ExceptT String Option (List Event)
  | last :: rest, frames => do
    let inner ← nodeWithin r term doTree x rest (.block last :: frames)
    let follow ← doTree last frames
    pure (.openBlock last :: (inner ++ .close :: follow))
  | [], frames =>
    match term x with
    | .ite then_ else_ => do
      let thenArm ← doBranch r doTree x then_ (.ite :: frames)
      let elseArm ← doBranch r doTree x else_ (.ite :: frames)
      pure (.stmts x :: .openIf x :: (thenArm ++ .elseArm :: (elseArm ++ [.close])))
    | .goto target => do
      let code ← doBranch r doTree x target frames
      pure (.stmts x :: code)
    | .ret => pure [.stmts x, .ret x]

/-- `do_tree`. -/
def doTree (r : Relooper) (term : Nat → Term) :
    Nat → Nat → List Frame → ExceptT String Option (List Event)
  | 0, _, _ => ExceptT.mk none
  | fuel + 1, x, frames =>
    let mergeChildren := ((r.domChildren x).filter fun c => r.isMerge c).reverse
    if r.isLoopHeader x then do
      let body ← nodeWithin r term (doTree r term fuel) x mergeChildren (.loop x :: frames)
      pure (.openLoop x :: (body ++ [.close]))
    else
      nodeWithin r term (doTree r term fuel) x mergeChildren frames

/-- `Relooper::run`. -/
def run (r : Relooper) (term : Nat → Term) (fuel : Nat) : ExceptT String Option (List Event) :=
  doTree r term fuel 0 []

/-- The successors that a terminator names. -/
def Term.targets : Term → List Nat
  | .ite then_ else_ => [then_, else_]
  | .goto target => [target]
  | .ret => []

/-- The terminators lead along the edges of the graph. -/
def TermsMatch (cfg : Cfg) (term : Nat → Term) : Prop :=
  ∀ x < cfg.size, ∀ v, v ∈ (term x).targets ↔ cfg.Edge x v

/-! ### The tables of an accepted graph -/

namespace Built

variable {cfg : Cfg} {r : Relooper} (h : Built cfg r)

include h

theorem pos_lt {b : Nat} (hb : b < cfg.size) : r.pos b < cfg.size := by
  obtain ⟨order, o⟩ := h.order
  exact lt_of_lt_of_le (o.pos_lt ((o.mem b).mpr (h.reachable b hb))) o.length_le

theorem pos_zero : r.pos 0 = 0 := by
  obtain ⟨order, o⟩ := h.order
  exact o.pos_zero

/-- A dominator has a smaller position. -/
theorem pos_lt_of_dominates {d b : Nat} (hb : b < cfg.size) (hd : Dominates cfg.Edge 0 d b)
    (hne : d ≠ b) : r.pos d < r.pos b := by
  obtain ⟨order, o⟩ := h.order
  obtain ⟨p, hp, hsmall⟩ := o.exists_path ((o.mem b).mpr (h.reachable b hb))
  exact (hsmall d (hd p hp)).resolve_left hne

/-- A block with one forward edge to it is dominated by the source of that edge. -/
theorem isIdom_of_not_merge {x t : Nat} (hedge : cfg.Edge x t) (hpos : r.pos x < r.pos t)
    (hmerge : r.isMerge t = false) : IsIdom cfg.Edge 0 x t := by
  have hone : ∀ p, cfg.Edge p t → r.pos p < r.pos t → p = x := by
    have hmem : ∀ p, cfg.Edge p t → r.pos p < r.pos t →
        p ∈ (cfg.predsOf t).filter fun p => r.pos p < r.pos t := fun p hp hlt =>
      List.mem_filter.mpr ⟨Cfg.mem_predsOf.mpr hp, decide_eq_true hlt⟩
    intro p hp hlt
    have hpmem := hmem p hp hlt
    have hxmem := hmem x hedge hpos
    rw [h.merge, mergeBlocks, decide_eq_false_iff_not, Nat.not_le, Nat.lt_succ_iff] at hmerge
    obtain ⟨q, hq⟩ := List.length_eq_one_iff.mp
      (le_antisymm hmerge (List.length_pos_of_mem hxmem))
    rw [hq, List.mem_singleton] at hpmem hxmem
    rw [hpmem, hxmem]
  -- where a path gets to `t` for the first time, it comes from `x`
  have hthrough : ∀ l y, PathTo cfg.Edge 0 l y → t ∈ l → x ∈ l := by
    intro l y hl
    induction hl with
    | entry =>
      intro ht
      rw [List.mem_singleton.mp ht, h.pos_zero] at hpos
      omega
    | @step l u v hl huv ih =>
      intro ht
      refine List.mem_cons_of_mem _ ?_
      rcases List.mem_cons.mp ht with rfl | ht
      · by_cases hlt : r.pos u < r.pos t
        · rw [← hone u huv hlt]
          exact hl.mem
        · exact ih (h.back u t huv (Nat.le_of_not_lt hlt) l hl)
      · exact ih ht
  have hne : x ≠ t := by
    rintro rfl
    exact absurd hpos (lt_irrefl _)
  have hdom : Dominates cfg.Edge 0 x t := fun l hl => hthrough l t hl hl.mem
  exact ⟨hne, hdom, fun c hc hdc => hdc.pred hc hedge⟩

theorem lt_of_dominates {d b : Nat} (hb : b < cfg.size) (hd : Dominates cfg.Edge 0 d b) :
    d < cfg.size := by
  obtain ⟨order, o⟩ := h.order
  obtain ⟨p, hp, -⟩ := o.exists_path ((o.mem b).mpr (h.reachable b hb))
  have hall : ∀ l y, PathTo cfg.Edge 0 l y → ∀ x ∈ l, x < cfg.size := by
    intro l y hl
    induction hl with
    | entry => exact List.forall_mem_singleton.mpr cfg.nonempty
    | step _ huv ih => exact List.forall_mem_cons.mpr ⟨huv.lt, ih⟩
  exact hall p b hp d (hd p hp)

/-- The immediate dominator is unique. -/
theorem idom_eq {d b : Nat} (hb : b < cfg.size) (hd : IsIdom cfg.Edge 0 d b) :
    r.idom b = some d := by
  have hb0 : b ≠ 0 := by
    rintro rfl
    exact hd.ne hd.dominates.eq_entry
  obtain ⟨d', hd', hidom⟩ := h.idom b hb hb0
  have hlt := h.lt_of_dominates hb hd.dominates
  have hlt' := h.lt_of_dominates hb hidom.dominates
  have hle := hidom.closest d hd.ne hd.dominates
  have hge := hd.closest d' hidom.ne hidom.dominates
  by_cases heq : d = d'
  · rw [heq]
    exact hd'
  · have h₁ := h.pos_lt_of_dominates hlt' hle heq
    have h₂ := h.pos_lt_of_dominates hlt hge (Ne.symm heq)
    omega

/-- The children of a block are those that it immediately dominates. -/
theorem mem_domChildren {x c : Nat} :
    c ∈ r.domChildren x ↔ c < cfg.size ∧ c ≠ 0 ∧ r.idom c = some x := by
  rw [h.children, childrenOf, List.mem_insertionSort, List.mem_filter, List.mem_range]
  simp

theorem isIdom_of_mem_domChildren {x c : Nat} (hc : c ∈ r.domChildren x) :
    IsIdom cfg.Edge 0 x c := by
  obtain ⟨hlt, hne, hidom⟩ := h.mem_domChildren.mp hc
  obtain ⟨d, hd, hisIdom⟩ := h.idom c hlt hne
  rw [hidom] at hd
  cases hd
  exact hisIdom

theorem pairwise_domChildren (x : Nat) :
    (r.domChildren x).Pairwise fun a b => r.pos a ≤ r.pos b := by
  rw [h.children, childrenOf]
  have htotal : Std.Total fun a b => r.pos a ≤ r.pos b := ⟨fun a b => Nat.le_total _ _⟩
  have htrans : IsTrans Nat fun a b => r.pos a ≤ r.pos b := ⟨fun a b c => Nat.le_trans⟩
  exact List.pairwise_insertionSort _ _

theorem lt_of_isMerge {m : Nat} (hm : r.isMerge m = true) : m < cfg.size := by
  rw [h.merge, mergeBlocks, decide_eq_true_eq] at hm
  obtain ⟨p, hp⟩ := List.exists_mem_of_length_pos (Nat.lt_of_lt_of_le Nat.zero_lt_two hm)
  exact (Cfg.mem_predsOf.mp (List.mem_filter.mp hp).1).lt

end Built

/-! ### The frames around a block -/

/-- The frames that the code of `x` needs around it. -/
structure Scope (cfg : Cfg) (r : Relooper) (frames : List Frame) (x : Nat) : Prop where
  loops : ∀ g, r.isLoopHeader g = true → Dominates cfg.Edge 0 g x → g ≠ x →
    Frame.loop g ∈ frames
  merges : ∀ m d, r.isMerge m = true → IsIdom cfg.Edge 0 d m → Dominates cfg.Edge 0 d x →
    d ≠ x → r.pos x < r.pos m → Frame.block m ∈ frames

/-- The frames inside the code of `x`, before those for the merge children `pending`. -/
structure Inside (cfg : Cfg) (r : Relooper) (frames : List Frame) (pending : List Nat)
    (x : Nat) : Prop where
  loops : ∀ g, r.isLoopHeader g = true → Dominates cfg.Edge 0 g x → Frame.loop g ∈ frames
  merges : ∀ m d, r.isMerge m = true → IsIdom cfg.Edge 0 d m → Dominates cfg.Edge 0 d x →
    r.pos x < r.pos m → Frame.block m ∈ frames ∨ d = x ∧ m ∈ pending

section Frames

variable {cfg : Cfg} {r : Relooper} {frames : List Frame} {x : Nat} {pending : List Nat}

theorem scope_entry : Scope cfg r [] 0 where
  loops _ _ hg hne := absurd hg.eq_entry hne
  merges _ _ _ _ hd hne := absurd hd.eq_entry hne

/-- Going into the code of a block. -/
theorem Scope.inside (h : Scope cfg r frames x) {frames' : List Frame} (hsub : frames ⊆ frames')
    (hown : r.isLoopHeader x = true → Frame.loop x ∈ frames')
    (hpending : ∀ m, r.isMerge m = true → IsIdom cfg.Edge 0 x m → m ∈ pending) :
    Inside cfg r frames' pending x where
  loops g hg hdom := by
    by_cases hgx : g = x
    · subst hgx
      exact hown hg
    · exact hsub (h.loops g hg hdom hgx)
  merges m d hm hd hdom hpos := by
    by_cases hdx : d = x
    · subst hdx
      exact Or.inr ⟨rfl, hpending m hm hd⟩
    · exact Or.inl (hsub (h.merges m d hm hd hdom hdx hpos))

/-- The frame of the last merge child is opened. -/
theorem Inside.cons {last : Nat} (h : Inside cfg r frames (last :: pending) x) :
    Inside cfg r (.block last :: frames) pending x where
  loops g hg hdom := List.mem_cons_of_mem _ (h.loops g hg hdom)
  merges m d hm hd hdom hpos := by
    rcases h.merges m d hm hd hdom hpos with hmem | ⟨hdx, hmem⟩
    · exact Or.inl (List.mem_cons_of_mem _ hmem)
    · rcases List.mem_cons.mp hmem with rfl | hmem
      · exact Or.inl List.mem_cons_self
      · exact Or.inr ⟨hdx, hmem⟩

/-- From the code of a block into that of a child before all pending ones. -/
theorem Inside.scope {c : Nat} (h : Inside cfg r frames pending x) (hc : IsIdom cfg.Edge 0 x c)
    (hpos : r.pos x < r.pos c) (hpending : ∀ m ∈ pending, r.pos m ≤ r.pos c) :
    Scope cfg r frames c where
  loops g hg hdom hne := h.loops g hg (hc.closest g hne hdom)
  merges m d hm hd hdom hne hlt := by
    rcases h.merges m d hm hd (hc.closest d hne hdom) (hpos.trans hlt) with hmem | ⟨-, hmem⟩
    · exact hmem
    · exact absurd (hpending m hmem) (Nat.not_le_of_lt hlt)

end Frames

/-! ### The walk succeeds -/

theorem depthOf_of_mem {frame : Frame} {frames : List Frame} (h : frame ∈ frames) :
    ∃ depth, depthOf frame frames = pure depth := by
  have hsome : (frames.findIdx? (· = frame)).isSome = true := by
    rw [List.findIdx?_isSome, List.any_eq_true]
    exact ⟨frame, h, decide_eq_true rfl⟩
  obtain ⟨depth, hdepth⟩ := Option.isSome_iff_exists.mp hsome
  refine ⟨depth, ?_⟩
  rw [depthOf, hdepth]

section Success

variable {cfg : Cfg} {r : Relooper} {term : Nat → Term} {frames : List Frame} {x : Nat}
  {tree : Nat → List Frame → ExceptT String Option (List Event)}
  (h : Built cfg r)
  (htree : ∀ c frames, c < cfg.size → r.pos x < r.pos c → Scope cfg r frames c →
    ∃ code, tree c frames = pure code)

include h htree

/-- A branch finds the frame of its target. -/
theorem doBranch_ok {t : Nat} (hedge : cfg.Edge x t)
    (hin : Inside cfg r frames [] x) : ∃ code, doBranch r tree x t frames = pure code := by
  unfold doBranch
  by_cases hback : r.pos t ≤ r.pos x
  · have hmem := hin.loops t ((h.header t).mpr ⟨x, hedge, hback⟩) (h.back x t hedge hback)
    obtain ⟨depth, hdepth⟩ := depthOf_of_mem hmem
    rw [if_pos hback, hdepth]
    exact ⟨_, rfl⟩
  · rw [if_neg hback]
    have hpos : r.pos x < r.pos t := Nat.lt_of_not_le hback
    cases hmerge : r.isMerge t with
    | true =>
      have ht0 : t ≠ 0 := by
        rintro rfl
        rw [h.pos_zero] at hpos
        omega
      obtain ⟨d, -, hd⟩ := h.idom t hedge.lt ht0
      have hmem := hin.merges t d hmerge hd (hd.dominates.pred hd.ne hedge) hpos
      obtain ⟨depth, hdepth⟩ :=
        depthOf_of_mem (hmem.resolve_right fun hno => List.not_mem_nil hno.2)
      rw [if_pos rfl, hdepth]
      exact ⟨_, rfl⟩
    | false =>
      have hidom := h.isIdom_of_not_merge hedge hpos hmerge
      have hscope := hin.scope hidom hpos fun m hm => absurd hm List.not_mem_nil
      obtain ⟨code, hcode⟩ := htree t frames hedge.lt hpos hscope
      rw [if_neg Bool.false_ne_true, hcode]
      exact ⟨_, rfl⟩

theorem nodeWithin_ok (hterm : TermsMatch cfg term) (hx : x < cfg.size) {pending : List Nat}
    (hchild : ∀ c ∈ pending, c < cfg.size ∧ IsIdom cfg.Edge 0 x c)
    (hsorted : pending.Pairwise fun a b => r.pos b ≤ r.pos a)
    (hin : Inside cfg r frames pending x) :
    ∃ code, nodeWithin r term tree x pending frames = pure code := by
  induction pending generalizing frames with
  | cons last rest ih =>
    obtain ⟨hlast, hrest⟩ := List.forall_mem_cons.mp hchild
    obtain ⟨hle, hsorted⟩ := List.pairwise_cons.mp hsorted
    obtain ⟨inner, hinner⟩ := ih hrest hsorted hin.cons
    have hpos := h.pos_lt_of_dominates hlast.1 hlast.2.dominates hlast.2.ne
    have hscope := hin.scope hlast.2 hpos (List.forall_mem_cons.mpr ⟨le_rfl, hle⟩)
    obtain ⟨follow, hfollow⟩ := htree last frames hlast.1 hpos hscope
    rw [nodeWithin, hinner, pure_bind, hfollow]
    exact ⟨_, rfl⟩
  | nil =>
    have hedge : ∀ t ∈ (term x).targets, cfg.Edge x t := fun t => (hterm x hx t).mp
    rw [nodeWithin]
    cases hx' : term x with
    | ret => exact ⟨_, rfl⟩
    | goto t =>
      obtain ⟨code, hcode⟩ := doBranch_ok h htree (hedge t (by simp [hx', Term.targets])) hin
      simp only [hcode, pure_bind]
      exact ⟨_, rfl⟩
    | ite t e =>
      have hin' : Inside cfg r (.ite :: frames) [] x :=
        ⟨fun g hg hdom => List.mem_cons_of_mem _ (hin.loops g hg hdom),
          fun m d hm hd hdom hpos => (hin.merges m d hm hd hdom hpos).imp_left
            (List.mem_cons_of_mem _)⟩
      obtain ⟨a, ha⟩ := doBranch_ok h htree (hedge t (by simp [hx', Term.targets])) hin'
      obtain ⟨b, hb⟩ := doBranch_ok h htree (hedge e (by simp [hx', Term.targets])) hin'
      simp only [ha, hb, pure_bind]
      exact ⟨_, rfl⟩

omit htree in
/-- The walk ends with fuel for the blocks behind the current one. -/
theorem doTree_ok (hterm : TermsMatch cfg term) {fuel : Nat} (hx : x < cfg.size)
    (hfuel : cfg.size ≤ fuel + r.pos x) (hscope : Scope cfg r frames x) :
    ∃ code, doTree r term fuel x frames = pure code := by
  induction fuel generalizing x frames with
  | zero =>
    have hlt := h.pos_lt hx
    omega
  | succ fuel ih =>
    have htree : ∀ c frames, c < cfg.size → r.pos x < r.pos c → Scope cfg r frames c →
        ∃ code, doTree r term fuel c frames = pure code := fun c frames hc hpos =>
      ih hc (by omega)
    have hmem : ∀ m, m ∈ ((r.domChildren x).filter fun c => r.isMerge c).reverse ↔
        m ∈ r.domChildren x ∧ r.isMerge m = true := by
      intro m
      rw [List.mem_reverse, List.mem_filter]
    have hchild : ∀ c ∈ ((r.domChildren x).filter fun c => r.isMerge c).reverse,
        c < cfg.size ∧ IsIdom cfg.Edge 0 x c := fun c hc =>
      have hc := ((hmem c).mp hc).1
      ⟨(h.mem_domChildren.mp hc).1, h.isIdom_of_mem_domChildren hc⟩
    have hsorted : ((r.domChildren x).filter fun c => r.isMerge c).reverse.Pairwise
        fun a b => r.pos b ≤ r.pos a :=
      List.pairwise_reverse.mpr ((h.pairwise_domChildren x).filter _)
    have hpending : ∀ m, r.isMerge m = true → IsIdom cfg.Edge 0 x m →
        m ∈ ((r.domChildren x).filter fun c => r.isMerge c).reverse := by
      intro m hm hidom
      have hlt := h.lt_of_isMerge hm
      refine (hmem m).mpr ⟨h.mem_domChildren.mpr ⟨hlt, ?_, h.idom_eq hlt hidom⟩, hm⟩
      rintro rfl
      exact hidom.ne hidom.dominates.eq_entry
    rw [doTree]
    cases hheader : r.isLoopHeader x with
    | true =>
      have hin := hscope.inside (List.subset_cons_self (.loop x) frames)
        (fun _ => List.mem_cons_self) hpending
      obtain ⟨body, hbody⟩ := nodeWithin_ok h htree hterm hx hchild hsorted hin
      simp only [if_true, hbody, pure_bind]
      exact ⟨_, rfl⟩
    | false =>
      have hin := hscope.inside (List.Subset.refl frames)
        (fun hno => absurd hno (by rw [hheader]; exact Bool.false_ne_true)) hpending
      exact nodeWithin_ok h htree hterm hx hchild hsorted hin

omit htree in
/-- **The walk over an accepted graph succeeds.** -/
theorem Built.run_ok (hterm : TermsMatch cfg term) {fuel : Nat} (hfuel : cfg.size ≤ fuel) :
    ∃ events, run r term fuel = pure events :=
  doTree_ok h hterm cfg.nonempty (by omega) scope_entry

end Success

end Ruju.Relooper
