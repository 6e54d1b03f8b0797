import Ruju.Relooper.Correct

/-!
# The calls that a walk makes

The walk over an accepted graph calls back for every block and for every edge, and only for
those.  It visits the dominator tree below a block: a merge child behind its frame, and any
other child on the one forward edge to it.
-/

namespace Ruju.Relooper

/-- Calls for blocks and edges of the graph. -/
def Event.Valid (cfg : Cfg) (term : Nat → Term) : Event → Prop
  | .stmts x => x < cfg.size
  | .phiMoves x target => x < cfg.size ∧ target ∈ (term x).targets
  | .openIf x => x < cfg.size ∧ ∃ then_ else_, term x = .ite then_ else_
  | .ret x => x < cfg.size ∧ term x = .ret
  | _ => True

/-- All calls for a block are made. -/
structure Covered (term : Nat → Term) (events : List Event) (x : Nat) : Prop where
  stmts : .stmts x ∈ events
  moves : ∀ t ∈ (term x).targets, .phiMoves x t ∈ events
  openIf : ∀ then_ else_, term x = .ite then_ else_ → .openIf x ∈ events
  ret : term x = .ret → .ret x ∈ events

theorem Covered.mono {term : Nat → Term} {events events' : List Event} {x : Nat}
    (h : Covered term events x) (hsub : events ⊆ events') : Covered term events' x :=
  ⟨hsub h.stmts, fun t ht => hsub (h.moves t ht), fun a b hab => hsub (h.openIf a b hab),
    fun hret => hsub (h.ret hret)⟩

section Calls

variable {cfg : Cfg} {r : Relooper} {term : Nat → Term} {frames : List Frame} {x t : Nat}
  {events : List Event} {tree : Nat → List Frame → ExceptT String Option (List Event)}

/-! ### Only blocks and edges -/

theorem valid_doBranch
    (htree : ∀ t frames events, t < cfg.size → tree t frames = pure events →
      ∀ e ∈ events, e.Valid cfg term)
    (hx : x < cfg.size) (ht : t ∈ (term x).targets) (hlt : t < cfg.size)
    (h : doBranch r tree x t frames = pure events) : ∀ e ∈ events, e.Valid cfg term := by
  have hmove : Event.Valid cfg term (.phiMoves x t) := ⟨hx, ht⟩
  rcases doBranch_cases h with ⟨depth, -, rfl⟩ | ⟨-, code, hcode, rfl⟩
  · exact List.forall_mem_cons.mpr ⟨hmove, List.forall_mem_singleton.mpr trivial⟩
  · exact List.forall_mem_cons.mpr ⟨hmove, htree t frames code hlt hcode⟩

theorem valid_nodeWithin
    (htree : ∀ t frames events, t < cfg.size → tree t frames = pure events →
      ∀ e ∈ events, e.Valid cfg term)
    (hx : x < cfg.size) (htargets : ∀ t ∈ (term x).targets, t < cfg.size) {pending : List Nat}
    (hpending : ∀ c ∈ pending, c < cfg.size)
    (h : nodeWithin r term tree x pending frames = pure events) :
    ∀ e ∈ events, e.Valid cfg term := by
  induction pending generalizing frames events with
  | cons last rest ih =>
    obtain ⟨hlast, hrest⟩ := List.forall_mem_cons.mp hpending
    rw [nodeWithin] at h
    obtain ⟨inner, hinner, h⟩ := bind_eq_pure_iff.mp h
    obtain ⟨next, hnext, h⟩ := bind_eq_pure_iff.mp h
    obtain rfl := pure_inj h
    simp only [List.forall_mem_cons, List.forall_mem_append]
    exact ⟨trivial, ih hrest hinner, trivial, htree last frames next hlast hnext⟩
  | nil =>
    rw [nodeWithin] at h
    cases hterm : term x with
    | ret =>
      rw [hterm] at h
      obtain rfl := pure_inj h
      simp only [List.forall_mem_cons]
      exact ⟨hx, ⟨hx, hterm⟩, fun e he => absurd he List.not_mem_nil⟩
    | goto t =>
      rw [hterm] at h
      obtain ⟨code, hcode, h⟩ := bind_eq_pure_iff.mp h
      obtain rfl := pure_inj h
      have ht : t ∈ (term x).targets := by simp [hterm, Term.targets]
      exact List.forall_mem_cons.mpr
        ⟨hx, valid_doBranch htree hx ht (htargets t ht) hcode⟩
    | ite t e =>
      rw [hterm] at h
      obtain ⟨a, ha, h⟩ := bind_eq_pure_iff.mp h
      obtain ⟨b, hb, h⟩ := bind_eq_pure_iff.mp h
      obtain rfl := pure_inj h
      have ht : t ∈ (term x).targets := by simp [hterm, Term.targets]
      have he : e ∈ (term x).targets := by simp [hterm, Term.targets]
      simp only [List.forall_mem_cons, List.forall_mem_append]
      exact ⟨hx, ⟨hx, t, e, hterm⟩, valid_doBranch htree hx ht (htargets t ht) ha, trivial,
        valid_doBranch htree hx he (htargets e he) hb, trivial,
        fun e he => absurd he List.not_mem_nil⟩

/-- The walk visits only blocks and edges of the graph. -/
theorem valid_doTree (h : Built cfg r) (hterm : TermsMatch cfg term) {fuel : Nat}
    (hx : x < cfg.size) (hrun : doTree r term fuel x frames = pure events) :
    ∀ e ∈ events, e.Valid cfg term := by
  induction fuel generalizing x frames events with
  | zero => cases hrun
  | succ fuel ih =>
    have htargets : ∀ t ∈ (term x).targets, t < cfg.size := fun t ht =>
      ((hterm x hx t).mp ht).lt
    have hpending : ∀ c ∈ ((r.domChildren x).filter fun c => r.isMerge c).reverse,
        c < cfg.size := fun c hc =>
      (h.mem_domChildren.mp (List.mem_filter.mp (List.mem_reverse.mp hc)).1).1
    rw [doTree] at hrun
    split at hrun
    · obtain ⟨body, hbody, hevents⟩ := bind_eq_pure_iff.mp hrun
      obtain rfl := pure_inj hevents
      simp only [List.forall_mem_cons, List.forall_mem_append]
      exact ⟨trivial, valid_nodeWithin (fun _ _ _ => ih) hx htargets hpending hbody, trivial,
        fun e he => absurd he List.not_mem_nil⟩
    · exact valid_nodeWithin (fun _ _ _ => ih) hx htargets hpending hrun

/-! ### All blocks and edges -/

/-- A block is dominated through one of the children. -/
theorem Built.exists_child (h : Built cfg r) {b : Nat} (hb : b < cfg.size)
    (hdom : Dominates cfg.Edge 0 x b) (hne : x ≠ b) :
    ∃ c, IsIdom cfg.Edge 0 x c ∧ c < cfg.size ∧ Dominates cfg.Edge 0 c b := by
  induction hn : r.pos b using Nat.strong_induction_on generalizing b with
  | _ n ih =>
    have hb0 : b ≠ 0 := by
      rintro rfl
      exact hne hdom.eq_entry
    obtain ⟨d, -, hd⟩ := h.idom b hb hb0
    by_cases hxd : x = d
    · subst hxd
      exact ⟨b, hd, hb, fun l hl => hl.mem⟩
    · have hdlt := h.lt_of_dominates hb hd.dominates
      have hpos := h.pos_lt_of_dominates hb hd.dominates hd.ne
      obtain ⟨c, hc, hclt, hcd⟩ :=
        ih (r.pos d) (by omega) hdlt (hd.closest x hne hdom) hxd rfl
      refine ⟨c, hc, hclt, fun l hl => ?_⟩
      obtain ⟨l', hl', hsub⟩ := hl.exists_of_mem (hd.dominates l hl)
      exact hsub (hcd l' hl')

/-- The calls of a branch, and of the target if it is emitted here. -/
theorem subset_doBranch (h : doBranch r tree x t frames = pure events) :
    .phiMoves x t ∈ events ∧
      (r.pos x < r.pos t → r.isMerge t = false →
        ∃ code, tree t frames = pure code ∧ code ⊆ events) := by
  constructor
  · rcases doBranch_cases h with ⟨depth, -, rfl⟩ | ⟨-, code, -, rfl⟩
    · exact List.mem_cons_self
    · exact List.mem_cons_self
  · intro hpos hmerge
    rw [doBranch, if_neg (Nat.not_le_of_lt hpos), hmerge, if_neg Bool.false_ne_true] at h
    obtain ⟨code, hcode, h⟩ := bind_eq_pure_iff.mp h
    obtain rfl := pure_inj h
    exact ⟨code, hcode, List.subset_cons_self _ _⟩

/-- The calls for a block, and those of the children that are emitted with it. -/
theorem covered_nodeWithin {pending : List Nat}
    (h : nodeWithin r term tree x pending frames = pure events) :
    Covered term events x ∧
      (∀ c ∈ pending, ∃ frames code, tree c frames = pure code ∧ code ⊆ events) ∧
      ∀ t ∈ (term x).targets, r.pos x < r.pos t → r.isMerge t = false →
        ∃ frames code, tree t frames = pure code ∧ code ⊆ events := by
  induction pending generalizing frames events with
  | cons last rest ih =>
    rw [nodeWithin] at h
    obtain ⟨inner, hinner, h⟩ := bind_eq_pure_iff.mp h
    obtain ⟨next, hnext, h⟩ := bind_eq_pure_iff.mp h
    obtain rfl := pure_inj h
    have hsub : inner ⊆ .openBlock last :: (inner ++ .close :: next) :=
      List.Subset.trans (List.subset_append_left _ _) (List.subset_cons_self _ _)
    have hsub' : next ⊆ .openBlock last :: (inner ++ .close :: next) :=
      List.Subset.trans (List.Subset.trans (List.subset_cons_self _ _)
        (List.subset_append_right _ _)) (List.subset_cons_self _ _)
    obtain ⟨hcovered, hpending, htargets⟩ := ih hinner
    refine ⟨hcovered.mono hsub, List.forall_mem_cons.mpr ⟨⟨_, next, hnext, hsub'⟩, ?_⟩, ?_⟩
    · intro c hc
      obtain ⟨frames, code, hcode, hsubset⟩ := hpending c hc
      exact ⟨frames, code, hcode, List.Subset.trans hsubset hsub⟩
    · intro t ht hpos hmerge
      obtain ⟨frames, code, hcode, hsubset⟩ := htargets t ht hpos hmerge
      exact ⟨frames, code, hcode, List.Subset.trans hsubset hsub⟩
  | nil =>
    rw [nodeWithin] at h
    cases hterm : term x with
    | ret =>
      rw [hterm] at h
      obtain rfl := pure_inj h
      refine ⟨⟨?_, ?_, ?_, ?_⟩, ?_, ?_⟩ <;> simp [hterm, Term.targets]
    | goto t =>
      rw [hterm] at h
      obtain ⟨code, hcode, h⟩ := bind_eq_pure_iff.mp h
      obtain rfl := pure_inj h
      obtain ⟨hmove, hinline⟩ := subset_doBranch hcode
      have hsub : code ⊆ .stmts x :: code := List.subset_cons_self _ _
      refine ⟨⟨List.mem_cons_self, ?_, ?_, ?_⟩, fun c hc => absurd hc List.not_mem_nil, ?_⟩
      · rw [hterm]
        exact List.forall_mem_singleton.mpr (hsub hmove)
      · simp [hterm]
      · simp [hterm]
      · refine List.forall_mem_singleton.mpr fun hpos hmerge => ?_
        obtain ⟨inner, hinner, hsubset⟩ := hinline hpos hmerge
        exact ⟨_, inner, hinner, List.Subset.trans hsubset hsub⟩
    | ite t e =>
      rw [hterm] at h
      obtain ⟨a, ha, h⟩ := bind_eq_pure_iff.mp h
      obtain ⟨b, hb, h⟩ := bind_eq_pure_iff.mp h
      obtain rfl := pure_inj h
      obtain ⟨hmove, hinline⟩ := subset_doBranch ha
      obtain ⟨hmove', hinline'⟩ := subset_doBranch hb
      have hsub : a ⊆ .stmts x :: .openIf x :: (a ++ .elseArm :: (b ++ [.close])) := by
        intro e he
        simp [he]
      have hsub' : b ⊆ .stmts x :: .openIf x :: (a ++ .elseArm :: (b ++ [.close])) := by
        intro e he
        simp [he]
      refine ⟨⟨List.mem_cons_self, ?_, ?_, ?_⟩, fun c hc => absurd hc List.not_mem_nil, ?_⟩
      · rw [hterm]
        exact List.forall_mem_cons.mpr
          ⟨hsub hmove, List.forall_mem_singleton.mpr (hsub' hmove')⟩
      · exact fun _ _ _ => List.mem_cons_of_mem _ List.mem_cons_self
      · simp [hterm]
      · refine List.forall_mem_cons.mpr
          ⟨fun hpos hmerge => ?_, List.forall_mem_singleton.mpr fun hpos hmerge => ?_⟩
        · obtain ⟨inner, hinner, hsubset⟩ := hinline hpos hmerge
          exact ⟨_, inner, hinner, List.Subset.trans hsubset hsub⟩
        · obtain ⟨inner, hinner, hsubset⟩ := hinline' hpos hmerge
          exact ⟨_, inner, hinner, List.Subset.trans hsubset hsub'⟩

/-- The calls for the blocks below a block in the dominator tree. -/
theorem covered_doTree (h : Built cfg r) (hterm : TermsMatch cfg term) {fuel : Nat}
    (hx : x < cfg.size) (hrun : doTree r term fuel x frames = pure events) :
    ∀ b < cfg.size, Dominates cfg.Edge 0 x b → Covered term events b := by
  induction fuel generalizing x frames events with
  | zero => cases hrun
  | succ fuel ih =>
    have hnode : ∃ frames' code, code ⊆ events ∧ nodeWithin r term (doTree r term fuel) x
        ((r.domChildren x).filter fun c => r.isMerge c).reverse frames' = pure code := by
      rw [doTree] at hrun
      split at hrun
      · obtain ⟨body, hbody, hevents⟩ := bind_eq_pure_iff.mp hrun
        obtain rfl := pure_inj hevents
        refine ⟨_, body, fun e he => ?_, hbody⟩
        simp [he]
      · exact ⟨_, events, List.Subset.refl _, hrun⟩
    obtain ⟨frames', code, hsub, hcode⟩ := hnode
    obtain ⟨hcovered, hpending, hinline⟩ := covered_nodeWithin hcode
    intro b hb hdom
    by_cases hne : x = b
    · subst hne
      exact hcovered.mono hsub
    obtain ⟨c, hc, hclt, hcb⟩ := h.exists_child hb hdom hne
    -- the child is a merge block, or `x` is its only forward predecessor
    have hchild : ∃ frames code', doTree r term fuel c frames = pure code' ∧ code' ⊆ code := by
      have hc0 : c ≠ 0 := by
        rintro rfl
        exact hc.ne hc.dominates.eq_entry
      cases hmerge : r.isMerge c with
      | true =>
        refine hpending c (List.mem_reverse.mpr (List.mem_filter.mpr ⟨?_, hmerge⟩))
        exact h.mem_domChildren.mpr ⟨hclt, hc0, h.idom_eq hclt hc⟩
      | false =>
        obtain ⟨order, o⟩ := h.order
        obtain ⟨p, -, hedge, hpos⟩ := o.forward c ((o.mem c).mpr (h.reachable c hclt)) hc0
        have hp := h.idom_eq hclt (h.isIdom_of_not_merge hedge hpos hmerge)
        rw [h.idom_eq hclt hc] at hp
        obtain rfl := Option.some.inj hp
        exact hinline c ((hterm x hx c).mpr hedge) hpos hmerge
    obtain ⟨frames, code', hcode', hsub'⟩ := hchild
    exact (ih hclt hcode' b hb hcb).mono (List.Subset.trans hsub' hsub)

/-- **A walk covers the graph.** -/
theorem Built.covered (h : Built cfg r) (hterm : TermsMatch cfg term) {fuel : Nat}
    (hrun : run r term fuel = pure events) :
    (∀ e ∈ events, e.Valid cfg term) ∧ ∀ b < cfg.size, Covered term events b := by
  exact ⟨valid_doTree h hterm cfg.nonempty hrun, fun b hb =>
    covered_doTree h hterm cfg.nonempty hrun b hb (dominates_entry b)⟩

end Calls

end Ruju.Relooper
