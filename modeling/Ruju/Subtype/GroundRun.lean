import Ruju.Subtype.Ground

/-!
# The algorithm runs the trees

On ground types a call of `sub` reads its union decisions and nothing else of
the environment, so it runs the tree of the call (`Denotes`), and the drivers
run the search of `Ruju.Library.Search` on it.  The two are tied together by
induction on the weight of the arguments: `sub` one level up needs the trees of
smaller calls, and a nested query needs enough passes for the tree of its own
call.

The result is `subtype_ground`: with enough fuel a query of ground types
returns, and answers whether its tree holds.
-/

namespace Ruju

/-! ### Union states as cursors -/

namespace UnionState

/-- The decisions a state supplies: the stored ones, and 0 from there on. -/
def stream (st : UnionState) : Bits := fun i => decide (i < st.used) && st.bits i

/-- A state as a cursor. -/
def cursor (st : UnionState) : Cursor := ⟨st.stream, st.depth, st.more⟩

/-- The cursor has not left the stored decisions. -/
def Ready (st : UnionState) : Prop := st.depth ≤ st.used

/-- A decision that is met for the first time is 0, and is stored. -/
theorem pick_of_new {st : UnionState} (h : st.depth = st.used) :
    st.pick = (false, ⟨st.used + 1, st.used + 1, st.used + 1,
      Function.update st.bits st.used false⟩) := by
  simp [pick, h]

theorem pick_of_stored {st : UnionState} (h : st.depth < st.used) :
    st.pick = (st.bits st.depth, ⟨st.depth + 1, if st.bits st.depth then st.more else st.depth + 1,
      st.used, st.bits⟩) := by
  cases hb : st.bits st.depth <;> simp [pick, Nat.not_le.mpr h, hb]

/-- `pick_union_decision` is a step of the abstract cursor. -/
theorem pick_spec {st : UnionState} (h : st.Ready) :
    st.pick.1 = st.cursor.bit ∧ st.pick.2.cursor = st.cursor.step ∧ st.pick.2.Ready := by
  rcases Nat.lt_or_eq_of_le h with hlt | heq
  · have hbit : st.cursor.bit = st.bits st.depth := by
      simp [cursor, Cursor.bit, stream, hlt]
    rw [pick_of_stored hlt]
    refine ⟨hbit.symm, ?_, hlt⟩
    rw [Cursor.step, hbit]
    rfl
  · -- a new decision is stored, as 0
    have hbit : st.cursor.bit = false := by
      simp [cursor, Cursor.bit, stream, heq]
    rw [pick_of_new heq]
    refine ⟨hbit.symm, ?_, le_rfl⟩
    rw [Cursor.step, hbit]
    simp only [cursor, heq, Bool.false_eq_true, if_false, Cursor.mk.injEq, and_true]
    funext i
    by_cases hi : i = st.used
    · simp [stream, hi]
    · simp only [stream, Function.update_of_ne hi]
      congr 1
      exact decide_eq_decide.mpr (by omega)

theorem next_eq_none {st : UnionState} : st.next = none ↔ st.cursor.more = 0 := by
  simp [next, cursor]

/-- `next_union_state` moves on to the next stream of decisions. -/
theorem stream_next {st st' : UnionState} (hr : st.Ready) (hs : st.cursor.Sound)
    (h : st.next = some st') : st'.stream = st.cursor.next := by
  have hle := hs.le
  unfold Ready at hr
  simp only [cursor] at hle
  unfold next at h
  split at h
  · cases h
  case isFalse hmore =>
    cases h
    funext i
    have hnext : st.cursor.next i =
        if i + 1 < st.more then st.stream i else decide (i + 1 = st.more) := rfl
    rw [hnext]
    simp only [stream]
    by_cases hi : i + 1 < st.more
    · rw [if_pos hi, Function.update_of_ne (by omega)]
      congr 1
      exact decide_eq_decide.mpr (by omega)
    · rw [if_neg hi]
      by_cases heq : i + 1 = st.more
      · have : i = st.more - 1 := by omega
        subst this
        simp [heq]
        omega
      · have : ¬ i < st.more := by omega
        simp [this, heq]

@[simp] theorem cursor_rewind (st : UnionState) : st.rewind.cursor = .start st.stream := rfl

theorem ready_rewind (st : UnionState) : st.rewind.Ready := Nat.zero_le _

theorem cursor_restore (dst saved : UnionState) : (dst.restore saved).cursor = saved.cursor := by
  have hstream : (dst.restore saved).stream = saved.stream := by
    funext i
    simp only [stream, restore]
    by_cases hi : i < saved.used
    · have : i < saved.savedBits := by
        unfold savedBits
        omega
      rw [if_pos this]
      rfl
    · rw [decide_eq_false hi, Bool.false_and]
      exact Bool.and_eq_false_imp.mpr fun h => absurd (of_decide_eq_true h) hi
  simp only [cursor, hstream]
  rfl

end UnionState

/-! ### Computations that run a tree -/

theorem SubM.bind_some {α β : Type} {m : SubM α} {f : α → SubM β} {e e' : Env} {a : α}
    (h : m e = some (a, e')) : (m >>= f) e = f a e' := by
  simp only [bind, StateT.bind, h, Option.bind]

theorem SubM.modify_bind {β : Type} (f : Env → Env) (m : PUnit → SubM β) (e : Env) :
    ((modify f : SubM PUnit) >>= m) e = m ⟨⟩ (f e) :=
  rfl

/-- An environment without variables. -/
structure Env.Plain (e : Env) : Prop where
  vars : e.vars = []
  loffset : e.loffset = 0
  envout : e.envout = []
  lready : e.lunions.Ready
  rready : e.runions.Ready

/-- From `e`, the computation `m` returns what the tree returns, and reads the
decisions the tree reads. -/
def DenotesAt (m : SubM Bool) (t : DecisionTree) (e : Env) : Prop :=
  ∃ e', m e = some ((t.run e.lunions.cursor e.runions.cursor).1, e') ∧ e'.Plain ∧
    e'.lunions.cursor = (t.run e.lunions.cursor e.runions.cursor).2.1 ∧
    e'.runions.cursor = (t.run e.lunions.cursor e.runions.cursor).2.2

/-- `DenotesAt` from every environment without variables. -/
def Denotes (m : SubM Bool) (t : DecisionTree) : Prop :=
  ∀ e : Env, e.Plain → DenotesAt m t e

namespace Denotes

variable {m m' : SubM Bool} {t t' : DecisionTree}

theorem pure (b : Bool) : Denotes (Pure.pure b) (.ret b) :=
  fun e he => ⟨e, rfl, he, rfl, rfl⟩

/-- An effect that keeps the decisions. -/
theorem update {f : Env → Env} (hm : Denotes m t)
    (hf : ∀ e, e.Plain → (f e).Plain ∧ (f e).lunions.cursor = e.lunions.cursor ∧
      (f e).runions.cursor = e.runions.cursor) :
    Denotes (do modify f; m) t := by
  intro e he
  obtain ⟨hplain, hl, hr⟩ := hf e he
  obtain ⟨e', hrun, he', hl', hr'⟩ := hm (f e) hplain
  rw [hl, hr] at hrun hl' hr'
  exact ⟨e', hrun, he', hl', hr'⟩

/-- An effect on the result's environment that keeps the decisions. -/
theorem thenUpdate {f : Env → Env} (hm : Denotes m t)
    (hf : ∀ e, e.Plain → (f e).Plain ∧ (f e).lunions.cursor = e.lunions.cursor ∧
      (f e).runions.cursor = e.runions.cursor) :
    Denotes (do let b ← m; modify f; Pure.pure b) t := by
  intro e he
  obtain ⟨e', hrun, he', hl', hr'⟩ := hm e he
  obtain ⟨hplain, hl, hr⟩ := hf e' he'
  refine ⟨f e', ?_, hplain, hl.trans hl', hr.trans hr'⟩
  simp only [bind, StateT.bind, hrun]
  rfl

theorem and (hm : Denotes m t) (hm' : Denotes m' t') : Denotes (SubM.and m m') (t.and t') := by
  intro e he
  obtain ⟨e₁, hrun, he₁, hl, hr⟩ := hm e he
  rw [DenotesAt, DecisionTree.run_and]
  cases hres : (t.run e.lunions.cursor e.runions.cursor).1 with
  | true =>
    obtain ⟨e₂, hrun₂, he₂, hl₂, hr₂⟩ := hm' e₁ he₁
    rw [hl, hr] at hrun₂ hl₂ hr₂
    rw [hres] at hrun
    refine ⟨e₂, ?_, he₂, hl₂, hr₂⟩
    simp only [SubM.and, bind, StateT.bind, hrun]
    exact hrun₂
  | false =>
    rw [hres] at hrun
    refine ⟨e₁, ?_, he₁, hl, hr⟩
    simp only [Bool.false_eq_true, if_false, hres]
    simp only [SubM.and, bind, StateT.bind, hrun]
    rfl

theorem and_false (hm : Denotes m (.ret false)) : Denotes (SubM.and m m') (.ret false) := by
  intro e he
  obtain ⟨e₁, hrun, he₁, hl, hr⟩ := hm e he
  exact ⟨e₁, SubM.bind_some hrun, he₁, hl, hr⟩

theorem pickLeft {f : Bool → SubM Bool} (hf : Denotes (f false) t) (ht : Denotes (f true) t') :
    Denotes (SubM.pickUnionDecision false >>= f) (.left t t') := by
  intro e he
  obtain ⟨hbit, hcur, hready⟩ := UnionState.pick_spec he.lready
  have hstep : (SubM.pickUnionDecision false >>= f) e =
      f e.lunions.pick.1 { e with lunions := e.lunions.pick.2 } := rfl
  have hplain : ({ e with lunions := e.lunions.pick.2 } : Env).Plain :=
    ⟨he.vars, he.loffset, he.envout, hready, he.rready⟩
  rw [DenotesAt, hstep, hbit, DecisionTree.run]
  cases hb : e.lunions.cursor.bit with
  | true =>
    have h := ht _ hplain
    rw [DenotesAt, hcur] at h
    exact h
  | false =>
    have h := hf _ hplain
    rw [DenotesAt, hcur] at h
    exact h

theorem pickRight {f : Bool → SubM Bool} (hf : Denotes (f false) t) (ht : Denotes (f true) t') :
    Denotes (SubM.pickUnionDecision true >>= f) (.right t t') := by
  intro e he
  obtain ⟨hbit, hcur, hready⟩ := UnionState.pick_spec he.rready
  have hstep : (SubM.pickUnionDecision true >>= f) e =
      f e.runions.pick.1 { e with runions := e.runions.pick.2 } := rfl
  have hplain : ({ e with runions := e.runions.pick.2 } : Env).Plain :=
    ⟨he.vars, he.loffset, he.envout, he.lready, hready⟩
  rw [DenotesAt, hstep, hbit, DecisionTree.run]
  cases hb : e.runions.cursor.bit with
  | true =>
    have h := ht _ hplain
    rw [DenotesAt, hcur] at h
    exact h
  | false =>
    have h := hf _ hplain
    rw [DenotesAt, hcur] at h
    exact h

/-- A computation that looks at the environment first. -/
theorem get {f : Env → SubM Bool} (hf : ∀ e, e.Plain → DenotesAt (f e) t e) :
    Denotes (do let e ← MonadState.get; f e) t :=
  fun e he => hf e he

theorem at_of_eq {e : Env} (he : e.Plain) (hm : Denotes m t) (h : m' e = m e) :
    DenotesAt m' t e := by
  obtain ⟨e', hrun, hrest⟩ := hm e he
  exact ⟨e', h.trans hrun, hrest⟩

/-- The two sides of a decision as one rule. -/
theorem pickElement {f : Ty → SubM Bool} {g : Ty → DecisionTree} {x : Ty}
    (h : ∀ a ∈ x.arms, Denotes (f a) (g a)) :
    Denotes (SubM.pickUnionElement false x >>= f) (pickTree .left g x) ∧
      Denotes (SubM.pickUnionElement true x >>= f) (pickTree .right g x) := by
  induction x with
  | union i a b iha ihb =>
    obtain ⟨hal, har⟩ := iha fun c hc => h c (List.mem_append_left _ hc)
    obtain ⟨hbl, hbr⟩ := ihb fun c hc => h c (List.mem_append_right _ hc)
    have hstep : ∀ r, SubM.pickUnionElement r (.union i a b) >>= f =
        SubM.pickUnionDecision r >>= fun d =>
          if d then SubM.pickUnionElement r b >>= f else SubM.pickUnionElement r a >>= f := by
      intro r
      rw [SubM.pickUnionElement, bind_assoc]
      congr 1
      funext d
      cases d <;> rfl
    rw [hstep, hstep, pickTree, pickTree]
    exact ⟨pickLeft hal hbl, pickRight har hbr⟩
  | _ =>
    have ha := h _ (List.mem_singleton_self _)
    exact ⟨ha, ha⟩

end Denotes

/-! ### The drivers run the search -/

/-- An environment without variables, whatever its cursors. -/
structure Env.Bare (e : Env) : Prop where
  vars : e.vars = []
  loffset : e.loffset = 0
  envout : e.envout = []

theorem Env.Plain.bare {e : Env} (h : e.Plain) : e.Bare :=
  ⟨h.vars, h.loffset, h.envout⟩

theorem Env.Bare.restoreVars {e : Env} (h : e.Bare) {se : SavedVars} (hse : se.vars = []) :
    (e.restoreVars se).Bare := by
  refine ⟨?_, h.loffset, ?_⟩
  · simp [Env.restoreVars, h.vars, hse]
  · simp [Env.restoreVars, h.envout]

theorem SubM.nextUnionState_right {e : Env} :
    (∀ st, e.runions.next = some st →
      SubM.nextUnionState true e = some (true, { e with runions := st })) ∧
      (e.runions.next = none → SubM.nextUnionState true e = some (false, e)) :=
  ⟨fun st h => by simp [SubM.nextUnionState, h], fun h => by simp [SubM.nextUnionState, h]⟩

theorem SubM.nextUnionState_left {e : Env} :
    (∀ st, e.lunions.next = some st →
      SubM.nextUnionState false e = some (true, { e with lunions := st })) ∧
      (e.lunions.next = none → SubM.nextUnionState false e = some (false, e)) :=
  ⟨fun st h => by simp [SubM.nextUnionState, h], fun h => by simp [SubM.nextUnionState, h]⟩

section Drivers
variable {k : Knot} {x y : Ty} {param : Param} {t : DecisionTree}

/-- The ∃ driver computes the search over the right streams. -/
theorem existsLoop_run (hm : Denotes (k.sub x y param) t) {se : SavedVars} (hse : se.vars = [])
    {n : Nat} {e : Env} (he : e.Bare) {b : Bool} {c : Cursor}
    (hrun : t.existsSearch e.lunions.stream n e.runions.stream = some (b, c)) :
    ∃ e', existsLoop k x y se param n e = some (b, e') ∧ e'.Bare ∧
      (b = true → e'.lunions.cursor = c ∧ e'.lunions.Ready) := by
  induction n generalizing e with
  | zero => cases hrun
  | succ n ih =>
    obtain ⟨e₁, hsub, he₁, hl, hr⟩ := hm
      { e with runions := e.runions.rewind, lunions := e.lunions.rewind }
      ⟨he.vars, he.loffset, he.envout, e.lunions.ready_rewind, e.runions.ready_rewind⟩
    simp only [UnionState.cursor_rewind] at hsub hl hr
    obtain ⟨hml, hmr⟩ := DecisionTree.run_moves t (.start e.lunions.stream)
      (.start e.runions.stream)
    rw [DecisionTree.existsSearch] at hrun
    rw [existsLoop, SubM.modify_bind]
    cases hres : (t.run (.start e.lunions.stream) (.start e.runions.stream)).1 with
    | true =>
      rw [hres] at hsub hrun
      cases hrun
      exact ⟨e₁, SubM.bind_some hsub, he₁.bare, fun _ => ⟨hl, he₁.lready⟩⟩
    | false =>
      rw [hres] at hsub hrun
      simp only [Bool.false_eq_true, if_false] at hrun
      have hnext : e₁.runions.next = none ↔ _ := UnionState.next_eq_none
      rw [hr] at hnext
      split at hrun
      case isTrue hmore =>
        cases hrun
        refine ⟨e₁.restoreVars se, ?_, he₁.bare.restoreVars hse, fun h => by cases h⟩
        refine (SubM.bind_some hsub).trans ?_
        simp only [Bool.false_eq_true, if_false]
        exact SubM.bind_some (SubM.nextUnionState_right.2 (hnext.mpr hmore))
      case isFalse hmore =>
        obtain ⟨st, hst⟩ : ∃ st, e₁.runions.next = some st :=
          Option.ne_none_iff_exists'.mp fun h => hmore (hnext.mp h)
        have hstream := UnionState.stream_next he₁.rready
          (by rw [hr]; exact hmr.sound (Cursor.start_sound _)) hst
        rw [hr] at hstream
        have hlstream : e₁.lunions.stream = e.lunions.stream := by
          have := congrArg Cursor.stream hl
          rw [hml.stream] at this
          exact this
        let e₂ : Env :=
          { Env.restoreVars { { e₁ with runions := st } with
              envidx := e₁.envout.length } se with envidx := e₁.envidx }
        have he₂ : e₂.Bare := by
          have h := Env.Bare.restoreVars (e := { { e₁ with runions := st } with
            envidx := e₁.envout.length }) ⟨he₁.vars, he₁.loffset, he₁.envout⟩ hse
          exact ⟨h.vars, h.loffset, h.envout⟩
        obtain ⟨e', hloop, hrest⟩ := ih (e := e₂) he₂ (by
          rw [← hstream, ← hlstream] at hrun
          exact hrun)
        refine ⟨e', ?_, hrest⟩
        refine (SubM.bind_some hsub).trans ?_
        simp only [Bool.false_eq_true, if_false]
        exact (SubM.bind_some (SubM.nextUnionState_right.1 st hst)).trans hloop

theorem existsSubtype_run (hm : Denotes (k.sub x y param) t) {se : SavedVars}
    (hse : se.vars = []) {e : Env} (he : e.Bare) {b : Bool} {c : Cursor}
    (hrun : t.existsSearch e.lunions.stream k.passes Bits.zeros = some (b, c)) :
    ∃ e', existsSubtype k x y se param e = some (b, e') ∧ e'.Bare ∧
      (b = true → e'.lunions.cursor = c ∧ e'.lunions.Ready) := by
  have hzeros : ({ e.runions with used := 0 } : UnionState).stream = Bits.zeros := by
    funext i
    simp [UnionState.stream, Bits.zeros]
  exact existsLoop_run hm hse
    (e := { e with runions := { e.runions with used := 0 } })
    ⟨he.vars, he.loffset, he.envout⟩ (by rw [hzeros]; exact hrun)

/-- The ∀ driver computes the search over the left streams. -/
theorem forallLoop_run (hm : Denotes (k.sub x y param) t) (hp : 2 ^ t.depth ≤ k.passes)
    {se : SavedVars} (hse : se.vars = []) {n : Nat} {e : Env} (he : e.Bare) {b : Bool}
    (hrun : t.forallSearch k.passes n e.lunions.stream = some b) :
    ∃ e', forallLoop k x y param n se e = some (b, e') := by
  induction n generalizing e se with
  | zero => cases hrun
  | succ n ih =>
    rw [DecisionTree.forallSearch] at hrun
    rw [forallLoop]
    rcases DecisionTree.existsSearch_spec t e.lunions.stream (n := k.passes) (u := Bits.zeros)
      (fun u' hu' => absurd hu' (Bits.not_before_zeros u')) (by omega) with
      ⟨c, hex, -, hsound, -⟩ | ⟨c, hex, -⟩
    · obtain ⟨e₁, hloop, he₁, hsome⟩ := existsSubtype_run hm hse he hex
      obtain ⟨hcur, hready⟩ := hsome rfl
      have hnext : e₁.lunions.next = none ↔ _ := UnionState.next_eq_none
      rw [hex] at hrun
      simp only at hrun
      rw [hcur] at hnext
      split at hrun
      case isTrue hmore =>
        cases hrun
        refine ⟨e₁, (SubM.bind_some hloop).trans ?_⟩
        simp only [if_true]
        exact SubM.bind_some (SubM.nextUnionState_left.2 (hnext.mpr hmore))
      case isFalse hmore =>
        obtain ⟨st, hst⟩ : ∃ st, e₁.lunions.next = some st :=
          Option.ne_none_iff_exists'.mp fun h => hmore (hnext.mp h)
        have hstream := UnionState.stream_next hready (by rw [hcur]; exact hsound) hst
        rw [hcur] at hstream
        obtain ⟨e', hrest⟩ := @ih ({ e₁ with lunions := st } : Env).saveVars
          he₁.vars { e₁ with lunions := st }
          ⟨he₁.vars, he₁.loffset, he₁.envout⟩ (by rw [hstream]; exact hrun)
        refine ⟨e', (SubM.bind_some hloop).trans ?_⟩
        simp only [if_true]
        exact (SubM.bind_some (SubM.nextUnionState_left.1 st hst)).trans hrest
    · obtain ⟨e₁, hloop, -⟩ := existsSubtype_run hm hse he hex
      rw [hex] at hrun
      cases hrun
      exact ⟨e₁, SubM.bind_some hloop⟩

/-- A fresh query answers whether the tree of its call holds. -/
theorem issubtypeStep_run (hm : Denotes (k.sub x y .none) t) (hp : 2 ^ t.depth ≤ k.passes)
    (n : Nat) :
    ∃ n', issubtypeStep k x y n = some (open Classical in decide t.Holds, n') := by
  obtain ⟨b, hsearch, hb⟩ := DecisionTree.forallSearch_zeros t hp
  have hzeros : ({ ({ next := n } : Env).lunions with used := 0 } : UnionState).stream =
      Bits.zeros := by
    funext i
    simp [UnionState.stream, Bits.zeros]
  obtain ⟨e', hloop⟩ := @forallLoop_run _ _ _ _ _ hm hp ({ next := n } : Env).saveVars rfl _
    ( { ({ next := n } : Env) with lunions := { ({ next := n } : Env).lunions with used := 0 } })
    ⟨rfl, rfl, rfl⟩ b (by rw [hzeros]; exact hsearch)
  refine ⟨e'.next, ?_⟩
  have hrun : forallExistsSubtype k x y .none { next := n } = some (b, e') := hloop
  have hdec : b = (open Classical in decide t.Holds) := by
    by_cases h : t.Holds
    · simp [h, hb.mpr h]
    · cases hb' : b with
      | true => exact absurd (hb.mp hb') h
      | false => simp [h]
  rw [issubtypeStep, hrun, ← hdec]
  rfl

end Drivers

/-! ### Ground types have no variables -/

namespace Ty

theorem hasFreeTypevars_of_ground {t : Ty} (h : t.isGround) : t.hasFreeTypevars = false := by
  have hlist : ∀ {ps : List Ty} {pred : Ty → Bool}, (∀ p ∈ ps, p.hasFreeVarWhere pred [] = false) →
      hasFreeVarsWhere pred [] ps = false := by
    intro ps pred hps
    induction ps with
    | nil => rfl
    | cons p ps ih =>
      rw [hasFreeVarsWhere, hps p (List.mem_cons_self ..),
        ih fun q hq => hps q (List.mem_cons_of_mem _ hq), Bool.or_self]
  refine ground_induct (P := fun t => t.hasFreeTypevars = false) (fun n _ => rfl) ?_ ?_ ?_ t h
  · intro ps hg ih
    rw [hasFreeTypevars, hasFreeVarWhere]
    refine hlist fun p hp => ?_
    rcases groundElems_cases hg with ⟨hs, -⟩ | ⟨xs, i, s, rfl, hs, -⟩
    · exact ih p (Or.inl (by rw [hs]; exact hp))
    · rcases List.mem_append.mp hp with hp | hp
      · exact ih p (Or.inl (by rw [hs]; exact hp))
      · obtain rfl := List.mem_singleton.mp hp
        rw [hasFreeVarWhere]
        exact ih s (Or.inr (by rw [hs]))
  · intro c ps hc hlen hg ih
    rw [hasFreeTypevars, hasFreeVarWhere]
    exact hlist ih
  · intro i a b ha hb iha ihb
    rw [hasFreeTypevars, hasFreeVarWhere]
    exact Bool.or_eq_false_iff.mpr ⟨iha, ihb⟩

theorem isTypevar_of_ground {t : Ty} (h : t.isGround) : t.isTypevar = false := by
  cases t <;> first | rfl | simp [isGround] at h

theorem isUnionall_of_ground {t : Ty} (h : t.isGround) : t.isUnionall = false := by
  cases t <;> first | rfl | simp [isGround] at h

theorem isBoxedLong_of_ground {t : Ty} (h : t.isGround) : t.isBoxedLong = false := by
  cases t <;> first | rfl | simp [isGround] at h

theorem isGround_typeOf (t : Ty) : t.typeOf.isGround := by
  cases t <;> rfl

theorem isTuple_app {c : Con} {ps : List Ty} (hc : c ≠ .tuple) :
    (app c ps).isTuple = false := by
  cases c <;> first | rfl | exact absurd rfl hc

theorem groundParams_of_app {c : Con} {ps : List Ty} (hc : c ≠ .tuple)
    (h : (app c ps).isGround) : ps.length = c.arity ∧ ∀ p ∈ ps, p.isGround := by
  have h' : (decide (ps.length = c.arity) && groundParams ps) = true := by
    cases c <;> first | exact absurd rfl hc | exact h
  rwa [Bool.and_eq_true, decide_eq_true_eq, groundParams_iff] at h'

end Ty

/-! ### One level of the recursion -/

/-- The recursive calls of `k` run the trees of ground arguments of total weight
below `w`. -/
structure Knot.Runs (k : Knot) (w : Nat) : Prop where
  sub : ∀ p q, p.isGround → q.isGround → p.weight + q.weight < w →
    ∀ param, Denotes (k.sub p q param) (tree p q)
  issubtype : ∀ p q, p.isGround → q.isGround → p.weight + q.weight < w →
    ∀ n, ∃ n', k.issubtype p q n = some (open Classical in decide (tree p q).Holds, n')

section Step
variable {k : Knot} {w : Nat} (hk : k.Runs w)
include hk

/-- On ground types a local search is a fresh query. -/
theorem localForallExistsSubtype_run {x y : Ty} (hx : x.isGround) (hy : y.isGround)
    (hw : x.weight + y.weight < w) (param : Param) (limitSlow : Option Bool) :
    Denotes (localForallExistsSubtype k x y param limitSlow)
      (.ret (localAnswer tree x y)) := by
  unfold localForallExistsSubtype localAnswer
  cases hobv : y.obviouslyInUnion x with
  | true => exact Denotes.pure true
  | false =>
    simp only [Bool.false_eq_true, if_false, Ty.hasFreeTypevars_of_ground hx,
      Ty.hasFreeTypevars_of_ground hy, Bool.not_false, Bool.and_self, if_true, Bool.false_or]
    intro e he
    obtain ⟨n', hn'⟩ := hk.issubtype x y hx hy hw e.next
    refine ⟨{ e with next := n' }, ?_, ⟨he.vars, he.loffset, he.envout, he.lready, he.rready⟩,
      rfl, rfl⟩
    simp [SubM.alloc, hn', DecisionTree.run]

theorem equalBack_run {x y : Ty} (hx : x.isGround) (hy : y.isGround)
    (hw : x.weight + y.weight < w) :
    Denotes (equalBack k x y) (.ret (localAnswer tree y x)) := by
  have hneg : ∀ e : Env, e.Plain → ({ e with loffset := -e.loffset } : Env).Plain ∧
      e.lunions.cursor = e.lunions.cursor ∧ e.runions.cursor = e.runions.cursor := fun e he =>
    ⟨⟨he.vars, by simp [he.loffset], he.envout, he.lready, he.rready⟩, rfl, rfl⟩
  exact Denotes.update (Denotes.thenUpdate
    (localForallExistsSubtype_run hk hy hx (by omega) .none (some false)) hneg) hneg

theorem equalBothWays_run {x y : Ty} (hx : x.isGround) (hy : y.isGround)
    (hw : x.weight + y.weight < w) : Denotes (equalBothWays k x y) (bothWaysTree tree x y) := by
  have hand : Denotes (SubM.and (localForallExistsSubtype k x y .invariant none) (equalBack k x y))
      (bothWaysTree tree x y) := by
    have h := Denotes.and (localForallExistsSubtype_run hk hx hy hw .invariant none)
      (equalBack_run hk hx hy hw)
    unfold bothWaysTree
    cases hl : localAnswer tree x y <;> rw [hl] at h <;> exact h
  refine Denotes.get fun e he => ?_
  simp only [Ty.isTypevar_of_ground hy, Bool.and_false, Bool.false_and, Bool.false_eq_true,
    if_false]
  obtain ⟨e', hrun, he', hl, hr⟩ := hand e he
  -- the left decisions are put back: a query of its own has not touched them
  refine ⟨{ e' with lunions := e'.lunions.restore e.lunions }, ?_, ?_, ?_, hr⟩
  · exact (SubM.bind_some hrun).trans rfl
  · exact ⟨he'.vars, he'.loffset, he'.envout, he.lready, he'.rready⟩
  · rw [UnionState.cursor_restore]
    rfl

theorem equalWith_run {x y : Ty} (hx : x.isGround) (hy : y.isGround)
    (hw : x.weight + y.weight < w) {greedy : Option (SubM Bool)} {m : Option DecisionTree}
    (hgreedy : ∀ a, greedy = some a → ∃ t, m = some t ∧ Denotes a t)
    (hnone : greedy = none → m = none) :
    Denotes (equalWith k greedy x y) (equalWithTree tree m x y) := by
  refine Denotes.get fun e he => ?_
  unfold equalWithTree
  have hif : ∀ {c : Bool} {a a' : SubM Bool} {t t' : DecisionTree}, (c = true → DenotesAt a t e) →
      (c = false → DenotesAt a' t' e) →
      DenotesAt (if c then a else a') (if c then t else t') e := by
    intro c a a' t t' h h'
    cases c with
    | true => exact h rfl
    | false => exact h' rfl
  refine hif (fun _ => ?_) fun _ => hif (fun _ => Denotes.pure false e he) fun _ =>
    hif (fun _ => Denotes.pure false e he) fun _ => hif (fun _ => ?_) fun _ => ?_
  · have h := Denotes.pure true e he
    rw [he.loffset]
    exact h
  · exact hk.sub x y hx hy hw .invariant e he
  · cases greedy with
    | none =>
      rw [hnone rfl]
      exact equalBothWays_run hk hx hy hw e he
    | some a =>
      obtain ⟨t, ht, ha⟩ := hgreedy a rfl
      rw [ht]
      exact Denotes.pickRight (f := fun b => if b then equalBothWays k x y else a) ha
        (equalBothWays_run hk hx hy hw) e he

/-- `forall_exists_equal` reads the decisions of its greedy path only. -/
theorem forallExistsEqual_run {x y : Ty} (hx : x.isGround) (hy : y.isGround)
    (hw : x.weight + y.weight < w) : Denotes (forallExistsEqual k x y) (equalTree tree x y) := by
  induction x generalizing y with
  | union i a b iha ihb =>
    cases y with
    | union j c d =>
      simp only [Ty.isGround, Bool.and_eq_true] at hx hy
      simp only [Ty.weight] at hw
      rw [forallExistsEqual, equalTree_union]
      refine equalWith_run hk (by simp [Ty.isGround, hx]) (by simp [Ty.isGround, hy])
        (by simpa [Ty.weight] using hw) (fun m hm => ?_) (fun h => by cases h)
      cases hm
      exact ⟨_, rfl, Denotes.and (iha hx.1 hy.1 (by omega)) (ihb hx.2 hy.2 (by omega))⟩
    | _ =>
      rw [forallExistsEqual, equalTree_of_not_unions rfl]
      · exact equalWith_run hk hx hy hw (fun m hm => by cases hm) fun _ => rfl
      · simp
  | _ =>
    rw [forallExistsEqual, equalTree_of_not_unions rfl]
    · exact equalWith_run hk hx hy hw (fun m hm => by cases hm) fun _ => rfl
    · simp

theorem invariantParams_run {xs ys : List Ty} (hx : ∀ x ∈ xs, x.isGround)
    (hy : ∀ y ∈ ys, y.isGround) (hw : ∀ x ∈ xs, ∀ y ∈ ys, x.weight + y.weight < w) :
    Denotes (invariantParams k xs ys) (invariantTree tree xs ys) := by
  induction xs generalizing ys with
  | nil =>
    rw [invariantParams, invariantTree]
    · exact Denotes.pure true
    all_goals simp
  | cons x xs ih =>
    cases ys with
    | nil =>
      rw [invariantParams, invariantTree]
      · exact Denotes.pure true
      all_goals simp
    | cons y ys =>
      have hrest := ih (fun a ha => hx a (List.mem_cons_of_mem _ ha))
        (fun b hb => hy b (List.mem_cons_of_mem _ hb))
        fun a ha b hb => hw a (List.mem_cons_of_mem _ ha) b (List.mem_cons_of_mem _ hb)
      rw [invariantParams, invariantTree]
      split
      · exact hrest
      · exact Denotes.and (forallExistsEqual_run hk (hx x (List.mem_cons_self ..))
          (hy y (List.mem_cons_self ..))
          (hw x (List.mem_cons_self ..) y (List.mem_cons_self ..))) hrest

end Step

/-! ### Tuples -/

/-- `Pairs k param pairs`: every pair is compared by a call that runs its tree. -/
def PairsRun (k : Knot) (pairs : List (Ty × Ty)) : Prop :=
  ∀ p ∈ pairs, ∀ param, Denotes (k.sub p.1 p.2 param) (tree p.1 p.2)

section Tuples
variable {k : Knot} {param : Param}

/-- The trailing `Vararg`s of both sides: the elements are compared twice. -/
theorem subtypeTupleVarargs_run {i j : Nat} {s v : Ty} (h : PairsRun k [(s, v), (s, v)])
    (vx vy : Int) :
    Denotes (subtypeTupleVarargs k (.vararg i s) (.vararg j v) vx vy param)
      (allTree tree [(s, v), (s, v)]) := by
  have hs := h (s, v) (List.mem_cons_self ..)
  have htwice := Denotes.and (Denotes.and (hs param) (hs .covariant)) (Denotes.pure true)
  rw [DecisionTree.and_assoc] at htwice
  exact Denotes.get fun e he => htwice e he

theorem tupleTailEnd_run (lx ly : Nat) {ys : List Ty} (hys : ∀ y ∈ ys, y.varargNum = none)
    (vx vy : Nat) : Denotes (tupleTailEnd k lx ly ys vx vy) (.ret true) := by
  unfold tupleTailEnd
  cases ys with
  | nil => exact Denotes.pure true
  | cons y ys =>
    simp only [checkVarargLength, hys y (List.mem_cons_self ..)]
    split <;> exact Denotes.pure true

/-- What follows the plain elements of a tuple on the left. -/
def leftTail : Option (Nat × Ty) → List Ty
  | none => []
  | some (i, s) => [.vararg i s]

/-- The comparisons of a left `Vararg` with a right one. -/
def tailPairs (v : Ty) : Option (Nat × Ty) → List (Ty × Ty)
  | none => []
  | some (_, s) => [(s, v), (s, v)]

theorem isVararg_of_ground {t : Ty} (h : t.isGround) : t.isVararg = false := by
  cases t <;> first | rfl | simp [Ty.isGround] at h

theorem varargNum_of_ground {t : Ty} (h : t.isGround) : t.varargNum = none := by
  cases t <;> first | rfl | simp [Ty.isGround] at h

theorem bumpVararg_zero {ts : List Ty} (h : ∀ t ∈ ts, t.isVararg = false) :
    bumpVararg ts 0 = 0 := by
  unfold bumpVararg
  split
  · simp [h _ (List.mem_singleton_self _)]
  · rfl

/-- A ground element ahead of a tail does not start the `Vararg` count. -/
theorem bumpVararg_ground {x : Ty} (hx : x.isGround) (xs : List Ty) :
    bumpVararg (x :: xs) 0 = 0 := by
  cases xs with
  | nil => simp [bumpVararg, isVararg_of_ground hx]
  | cons y xs => rfl

theorem advanceParams_zero (x : Ty) (xs : List Ty) : advanceParams 0 (x :: xs) = xs := by
  cases xs <;> rfl

/-- The comparison once the right side has come to its `Vararg`: every element
left is compared with `v`. -/
theorem tupleTail_vararg_run (lx ly : Nat) {xs : List Ty} (hxs : ∀ x ∈ xs, x.isGround)
    (tail : Option (Nat × Ty)) {j : Nat} {v : Ty} (hv : v ≠ Ty.any) {vy : Nat} {n : Nat}
    (hn : xs.length + 1 < n)
    (h : PairsRun k (xs.map (fun x => (x, v)) ++ tailPairs v tail)) :
    Denotes (tupleTail k lx ly param n (xs ++ leftTail tail) [.vararg j v] 0 vy)
      (allTree tree (xs.map (fun x => (x, v)) ++ tailPairs v tail)) := by
  induction xs generalizing n vy with
  | nil =>
    obtain ⟨n, rfl⟩ : ∃ m, n = m + 1 := ⟨n - 1, by omega⟩
    cases tail with
    | none =>
      have hnum : ∀ y ∈ [Ty.vararg j v], y.varargNum = none := by simp [Ty.varargNum]
      exact tupleTailEnd_run lx ly hnum _ _
    | some p =>
      obtain ⟨i, s⟩ := p
      have hvy : 0 < bumpVararg [.vararg j v] vy := by simp [bumpVararg, Ty.isVararg]
      have hvx : bumpVararg [.vararg i s] 0 = 1 := rfl
      rw [List.nil_append, leftTail, tupleTail]
      simp only [hvx, hvy, Nat.zero_lt_one, decide_true, Bool.and_self, if_true]
      exact subtypeTupleVarargs_run h _ _
  | cons x xs ih =>
    obtain ⟨n, rfl⟩ : ∃ m, n = m + 1 := ⟨n - 1, by omega⟩
    have hx := hxs x (List.mem_cons_self ..)
    have hvy : bumpVararg [.vararg j v] vy = vy + 1 := by simp [bumpVararg, Ty.isVararg]
    rw [List.cons_append, tupleTail]
    simp only [hvy, bumpVararg_ground hx, lt_irrefl, decide_false, Bool.false_and,
      Bool.false_eq_true, if_false, Ty.varargElem, hv, Bool.and_false, advanceParams_zero,
      headElem, Nat.zero_lt_succ, if_true]
    refine Denotes.and (h (x, v) (List.mem_cons_self ..) param) ?_
    have hadv : advanceParams (vy + 1) [Ty.vararg j v] = [.vararg j v] := rfl
    rw [hadv]
    exact ih (fun y hy => hxs y (List.mem_cons_of_mem _ hy)) (by simp at hn; omega)
      fun p hp => h p (List.mem_cons_of_mem _ hp)

/-- Against a trailing `Vararg{Any}` only the `Vararg` of the left is compared. -/
theorem tupleTail_any_run (lx ly : Nat) {xs : List Ty} (hxs : ∀ x ∈ xs, x.isGround)
    (tail : Option (Nat × Ty)) {j n : Nat} (h : PairsRun k (tailPairs Ty.any tail)) :
    Denotes (tupleTail k lx ly param (n + 1) (xs ++ leftTail tail) [.vararg j Ty.any] 0 0)
      (allTree tree (tailPairs Ty.any tail)) := by
  have hnum : ∀ y ∈ [Ty.vararg j Ty.any], y.varargNum = none := by simp [Ty.varargNum]
  have hvy : bumpVararg [.vararg j Ty.any] 0 = 1 := rfl
  cases xs with
  | nil =>
    cases tail with
    | none => exact tupleTailEnd_run lx ly hnum _ _
    | some p =>
      obtain ⟨i, s⟩ := p
      have hvx : bumpVararg [.vararg i s] 0 = 1 := rfl
      rw [List.nil_append, leftTail, tupleTail]
      simp only [hvx, hvy, Nat.zero_lt_one, decide_true, Bool.and_self, if_true]
      exact subtypeTupleVarargs_run h _ _
  | cons x xs =>
    have hx := hxs x (List.mem_cons_self ..)
    rw [List.cons_append, tupleTail]
    simp only [hvy, bumpVararg_ground hx, lt_irrefl, decide_false, Bool.false_and,
      Bool.false_eq_true, if_false, Ty.varargElem, decide_true, Bool.and_self, if_true]
    cases tail with
    | none =>
      have hlast : (xs.getLastD x).isVararg = false := by
        rw [List.getLastD_eq_getLast?]
        cases hl : xs.getLast? with
        | none => exact isVararg_of_ground hx
        | some y => exact isVararg_of_ground (hxs y (List.mem_cons_of_mem _
          (List.mem_of_getLast? hl)))
      simp only [leftTail, List.append_nil, hlast, Bool.false_eq_true, if_false]
      exact tupleTailEnd_run lx ly hnum _ _
    | some p =>
      obtain ⟨i, s⟩ := p
      have hlast : (xs ++ leftTail (some (i, s))).getLastD x = .vararg i s := by
        simp [leftTail, List.getLastD_eq_getLast?]
      simp only [hlast, Ty.isVararg, if_true]
      exact subtypeTupleVarargs_run h _ _

/-- The comparisons behind the elements that have a partner on the right. -/
def restPairs (xs : List Ty) (tail : Option (Nat × Ty)) : Option (Nat × Ty) → List (Ty × Ty)
  | none => []
  | some (_, v) => (if v = Ty.any then [] else xs.map fun x => (x, v)) ++ tailPairs v tail

theorem tupleTail_run (lx ly : Nat) {xs ys : List Ty} (hxs : ∀ x ∈ xs, x.isGround)
    (hys : ∀ y ∈ ys, y.isGround) (tail rtail : Option (Nat × Ty)) {n : Nat}
    (hfixed : rtail = none → tail = none ∧ xs.length = ys.length)
    (hlen : ys.length ≤ xs.length) (hn : xs.length < n)
    (hn' : rtail ≠ none → xs.length + 1 < n)
    (h : PairsRun k (xs.zip ys ++ restPairs (xs.drop ys.length) tail rtail)) :
    Denotes (tupleTail k lx ly param n (xs ++ leftTail tail) (ys ++ leftTail rtail) 0 0)
      (allTree tree (xs.zip ys ++ restPairs (xs.drop ys.length) tail rtail)) := by
  obtain ⟨n, rfl⟩ : ∃ m, n = m + 1 := ⟨n - 1, by omega⟩
  induction ys generalizing xs n with
  | nil =>
    simp only [List.zip_nil_right, List.nil_append, List.length_nil, List.drop_zero] at h ⊢
    cases rtail with
    | none =>
      obtain ⟨rfl, hxs0⟩ := hfixed rfl
      obtain rfl := List.length_eq_zero_iff.mp hxs0
      exact Denotes.pure true
    | some p =>
      obtain ⟨j, v⟩ := p
      by_cases hv : v = Ty.any
      · subst hv
        simp only [restPairs, if_true, List.nil_append] at h ⊢
        exact tupleTail_any_run lx ly hxs tail h
      · simp only [restPairs, hv, if_false] at h ⊢
        exact tupleTail_vararg_run lx ly hxs tail hv (hn' (by simp)) h
  | cons y ys ih =>
    cases xs with
    | nil => simp at hlen
    | cons x xs =>
      have hx := hxs x (List.mem_cons_self ..)
      have hy := hys y (List.mem_cons_self ..)
      simp only [List.length_cons] at hlen hn hn' hfixed
      rw [List.cons_append, List.cons_append, tupleTail]
      simp only [bumpVararg_ground hx, bumpVararg_ground hy, lt_irrefl, decide_false,
        Bool.false_and, Bool.false_eq_true, if_false, zero_ne_one, headElem,
        advanceParams_zero]
      obtain ⟨n, rfl⟩ : ∃ m, n = m + 1 := ⟨n - 1, by omega⟩
      refine Denotes.and (h (x, y) (List.mem_cons_self ..) param) ?_
      refine ih (fun z hz => hxs z (List.mem_cons_of_mem _ hz))
        (fun z hz => hys z (List.mem_cons_of_mem _ hz)) (fun hr => ?_) (by omega)
        (fun p hp => h p (List.mem_cons_of_mem _ hp)) n (by omega)
        fun hr => by have := hn' hr; omega
      obtain ⟨h₁, h₂⟩ := hfixed hr
      exact ⟨h₁, by omega⟩

theorem tailKind_ground {ps : List Ty} (h : ∀ p ∈ ps, p.isGround) : tailKind ps = .none := by
  unfold tailKind
  split
  case h_1 p hp =>
    have hg := h p (List.mem_of_getLast? hp)
    cases p <;> first | rfl | simp [Ty.isGround] at hg
  · rfl

theorem knownLength_ground {ps : List Ty} (h : ∀ p ∈ ps, p.isGround) (e : Env) :
    knownLength e ps = ps.length := by
  unfold knownLength
  split
  case h_1 p hp => rw [varargNum_of_ground (h p (List.mem_of_getLast? hp))]
  case h_2 hp => simp [List.getLast?_eq_none_iff.mp hp]

theorem tailBinding_none {ps : List Ty} {e : Env}
    (h : tailKind ps = .none ∨ tailKind ps = .unbound) :
    tailBinding e ps = none := by
  unfold tailBinding
  unfold tailKind at h
  split
  case h_1 p hp =>
    rw [hp] at h
    rcases h with h | h <;> simp [h]
  · rfl

/-- The length classification of `tuple_subtype` on ground tuples. -/
theorem tupleLengths_run {ps qs : List Ty} (hp : Ty.groundElems ps) (hq : Ty.groundElems qs) :
    Denotes (tupleLengths k ps qs) (.ret (Ty.elementPairs ps qs).isSome) := by
  refine Denotes.get fun e he => ?_
  have hret : ∀ {m : SubM Bool} {b b' : Bool}, m = pure b → b = b' → DenotesAt m (.ret b') e := by
    rintro m b _ rfl rfl
    exact Denotes.pure b e he
  rcases Ty.groundElems_cases hp with ⟨hps, hgp⟩ | ⟨xs, i, s, rfl, hps, hgp, -⟩ <;>
    rcases Ty.groundElems_cases hq with ⟨hqs, hgq⟩ | ⟨ys, j, v, rfl, hqs, hgq, -⟩
  · have hkp := tailKind_ground hgp
    have hkq := tailKind_ground hgq
    simp only [hkp, hkq, ne_eq, not_true, decide_false, Bool.false_and, Bool.false_eq_true,
      if_false, reduceCtorEq, decide_true, if_true, knownLength_ground hgp]
    refine hret rfl ?_
    rw [Ty.elementPairs, hps, hqs]
    by_cases hlen : ps.length = qs.length
    · simp [hlen]
    · have hlen' : ¬ (ps.length : Int) = qs.length := by omega
      simp [hlen, hlen']
  · have hkp := tailKind_ground hgp
    have hkq : tailKind (ys ++ [Ty.vararg j v]) = .unbound := by simp [tailKind, Ty.varargKind]
    simp only [hkp, hkq, ne_eq, not_true, decide_false, Bool.false_and, Bool.false_eq_true,
      if_false, reduceCtorEq, knownLength_ground hgp]
    refine hret rfl ?_
    rw [Ty.elementPairs, hps, hqs]
    by_cases hlen : ys.length ≤ ps.length
    · simp [hlen]
    · simp [hlen]
  · have hkp : tailKind (xs ++ [Ty.vararg i s]) = .unbound := by simp [tailKind, Ty.varargKind]
    have hkq := tailKind_ground hgq
    simp only [hkp, hkq, tailBinding_none (Or.inr hkp), ne_eq, reduceCtorEq, not_false_eq_true,
      decide_true, Option.map_none, Option.getD_none, Bool.not_false, Bool.and_self, if_true,
      Bool.true_or]
    refine hret rfl ?_
    simp [Ty.elementPairs, hps, hqs]
  · have hkp : tailKind (xs ++ [Ty.vararg i s]) = .unbound := by simp [tailKind, Ty.varargKind]
    have hkq : tailKind (ys ++ [Ty.vararg j v]) = .unbound := by simp [tailKind, Ty.varargKind]
    simp only [hkp, hkq, tailBinding_none (Or.inr hkp), ne_eq, reduceCtorEq, not_false_eq_true,
      decide_true, Option.map_none, Option.getD_none, Bool.not_false, Bool.and_self, if_true,
      Bool.true_or]
    refine hret rfl ?_
    rw [Ty.elementPairs, hps, hqs]
    by_cases hlen : ys.length ≤ xs.length
    · simp [hlen]
    · simp [hlen]

/-- `tuple_subtype` compares the lengths, then the paired elements. -/
theorem tupleSubtype_run {ps qs : List Ty} (hp : Ty.groundElems ps) (hq : Ty.groundElems qs)
    (h : ∀ pairs, Ty.elementPairs ps qs = some pairs → PairsRun k pairs) :
    Denotes (tupleSubtype k ps qs param) (tupleTree tree ps qs) := by
  have hbody : Denotes (SubM.and (tupleLengths k ps qs)
      (tupleTail k ps.length qs.length param (ps.length + qs.length + 1) ps qs 0 0))
      (tupleTree tree ps qs) := by
    have hlen := tupleLengths_run (k := k) hp hq
    unfold tupleTree
    cases hpairs : Ty.elementPairs ps qs with
    | none =>
      rw [hpairs] at hlen
      exact Denotes.and_false hlen
    | some pairs =>
      rw [hpairs] at hlen
      refine Denotes.and hlen ?_
      have hrun := h pairs hpairs
      -- the four shapes of `elementPairs`, each an instance of `tupleTail_run`
      rcases Ty.groundElems_cases hp with ⟨hps, hgp⟩ | ⟨xs, i, s, rfl, hps, hgp, -⟩ <;>
        rcases Ty.groundElems_cases hq with ⟨hqs, hgq⟩ | ⟨ys, j, v, rfl, hqs, hgq, -⟩ <;>
        simp only [Ty.elementPairs, hps, hqs] at hpairs
      · split at hpairs
        case isFalse => cases hpairs
        case isTrue hl =>
          cases hpairs
          have := @tupleTail_run k param ps.length qs.length _ _ hgp hgq none none
            (ps.length + qs.length + 1) (fun _ => ⟨rfl, hl⟩) (by omega) (by omega)
            (by simp) (by simpa [restPairs] using hrun)
          simpa [leftTail, restPairs] using this
      · split at hpairs
        case isFalse => cases hpairs
        case isTrue hl =>
          cases hpairs
          have := @tupleTail_run k param ps.length (ys ++ [Ty.vararg j v]).length
            _ _ hgp hgq none (some (j, v)) (ps.length + (ys ++ [Ty.vararg j v]).length + 1)
            (fun h => by cases h) hl (by omega) (by simp)
            (by simpa [restPairs, tailPairs] using hrun)
          simpa [leftTail, restPairs, tailPairs] using this
      · cases hpairs
      · split at hpairs
        case isFalse => cases hpairs
        case isTrue hl =>
          cases hpairs
          have := @tupleTail_run k param (xs ++ [Ty.vararg i s]).length
            (ys ++ [Ty.vararg j v]).length _ _ hgp hgq (some (i, s)) (some (j, v))
            ((xs ++ [Ty.vararg i s]).length + (ys ++ [Ty.vararg j v]).length + 1)
            (fun h => by cases h) hl (by rw [List.length_append]; omega)
            (fun _ => by rw [List.length_append, List.length_append, List.length_singleton,
              List.length_singleton]; omega)
            (by simpa [restPairs, tailPairs] using hrun)
          simpa [leftTail, restPairs, tailPairs] using this
  unfold tupleSubtype
  split
  case isTrue hempty =>
    simp only [Bool.and_eq_true, List.isEmpty_iff] at hempty
    obtain ⟨rfl, rfl⟩ := hempty
    exact Denotes.pure true
  · exact hbody

end Tuples

section Step
variable {k : Knot} {w : Nat} (hk : k.Runs w)
include hk

theorem tupleArms_run {ps : List Ty} {y : Ty} (hx : (Ty.app .tuple ps).isGround)
    (hy : y.isGround) (hname : y.nameOf = some (.con .tuple))
    (hw : (Ty.app .tuple ps).weight + y.weight ≤ w) (param : Param) :
    Denotes (tupleSubtype k ps (y.parameters.getD []) param)
      (tupleTree tree ps (y.parameters.getD [])) := by
  obtain ⟨qs, rfl⟩ : ∃ qs, y = .app .tuple qs := by
    cases y with
    | app d qs => cases d <;> simp_all [Ty.nameOf]
    | _ => simp_all [Ty.nameOf]
  rw [Ty.isGround] at hx hy
  refine tupleSubtype_run hx hy fun pairs hpairs p hp => ?_
  obtain ⟨h₁, h₂⟩ := Ty.isElem_of_mem_elementPairs hpairs hp
  have hw₁ := h₁.weight_lt (c := .tuple)
  have hw₂ : p.2.weight < (Ty.app .tuple qs).weight := h₂.weight_lt
  exact hk.sub _ _ (Ty.groundElems_split hx h₁) (Ty.groundElems_split hy h₂) (by omega)

theorem invariantSubtype_run {c : Con} {ps : List Ty} {y : Ty} (hc : c ≠ .tuple)
    (hx : (Ty.app c ps).isGround) (hy : y.isGround) (hname : y.nameOf = (Ty.app c ps).nameOf)
    (hw : (Ty.app c ps).weight + y.weight ≤ w) :
    Denotes (invariantSubtype k (.app c ps) y)
      (match (Ty.app c ps).parameters, y.parameters with
        | some ps, some qs => invariantTree tree ps qs
        | _, _ => .ret true) := by
  unfold invariantSubtype
  obtain ⟨-, hgp⟩ := Ty.groundParams_of_app hc hx
  cases y with
  | app d qs =>
    have hd : d ≠ .tuple := by
      rintro rfl
      cases c <;> simp_all [Ty.nameOf]
    obtain ⟨-, hgq⟩ := Ty.groundParams_of_app hd hy
    have hkeep : ∀ (f : Nat → Nat) (e : Env), e.Plain →
        ({ e with invdepth := f e.invdepth } : Env).Plain ∧
        e.lunions.cursor = e.lunions.cursor ∧ e.runions.cursor = e.runions.cursor :=
      fun f e he => ⟨⟨he.vars, he.loffset, he.envout, he.lready, he.rready⟩, rfl, rfl⟩
    refine Denotes.update (Denotes.thenUpdate (invariantParams_run hk hgp hgq
      fun p hp q hq => ?_) (hkeep (· - 1))) (hkeep (· + 1))
    have h₁ := Ty.weight_lt_of_mem (c := c) hp
    have h₂ := Ty.weight_lt_of_mem (c := d) hq
    omega
  | _ => exact Denotes.pure true

/-- `datatype_subtype` walks up to the name on the right. -/
theorem datatypeSubtype_run {x y : Ty} (hx : x.isGround) (hy : y.isGround)
    (hw : x.weight + y.weight ≤ w) (param : Param) :
    Denotes (datatypeSubtype k x y param) (datatypeTree tree x y) := by
  unfold datatypeSubtype datatypeTree
  split
  · exact Denotes.pure true
  · cases hwalk : walkToName x y with
    | none => exact Denotes.pure false
    | some xd =>
      cases xd with
      | app c ps =>
        have hname : y.nameOf = (Ty.app c ps).nameOf := Ty.nameOf_of_walkToName hwalk
        obtain rfl := Ty.eq_of_walkToName hwalk
        by_cases hc : c = .tuple
        · subst hc
          exact tupleArms_run hk hx hy hname hw _
        · simp only [Ty.isTuple_app hc, Bool.false_eq_true, if_false]
          exact invariantSubtype_run hk hc hx hy hname hw
      | _ => exact Denotes.pure true

theorem subGround_run {x y : Ty} (hx : x.isGround) (hy : y.isGround)
    (hw : x.weight + y.weight ≤ w) (param : Param) :
    Denotes (subGround k x y param) (armTree tree x y) := by
  unfold subGround armTree
  split
  · exact Denotes.pure true
  · split
    · exact Denotes.pure true
    · simp only [Ty.isUnionall_of_ground hx, Ty.isUnionall_of_ground hy, Bool.false_eq_true,
        if_false]
      have htype : ∀ {z t : Ty}, z.isGround → z.typeParam = some t → t.isGround := by
        intro z t hz ht
        obtain ⟨ps, rfl, hmem⟩ := Ty.mem_of_typeParam ht
        exact (Ty.groundParams_of_app (by simp) hz).2 t hmem
      have hvalues : Denotes (subValues k x y param) (datatypeTree tree x y) := by
        unfold subValues
        rw [Ty.isBoxedLong_of_ground hx, Ty.isBoxedLong_of_ground hy]
        exact datatypeSubtype_run hk hx hy hw param
      cases hxt : x.typeParam with
      | none =>
        cases hyt : y.typeParam with
        | none => exact hvalues
        | some t =>
          simp only [Ty.isTypevar_of_ground (htype hy hyt), Bool.false_and,
            Bool.false_eq_true, if_false]
          exact Denotes.pure false
      | some t =>
        have hlt := Ty.weight_typeOf_lt hxt
        cases hyt : y.typeParam with
        | none =>
          simp only [Ty.isTypevar_of_ground (htype hx hxt), Bool.false_eq_true, if_false]
          exact hk.sub _ _ (Ty.isGround_typeOf t) hy (by omega) param
        | some u => exact hvalues

theorem subMeet_run {x y : Ty} (hx : x.isGround) (hy : y.isGround)
    (hw : x.weight + y.weight ≤ w) (param : Param) :
    Denotes (subMeet k x y param) (armTree tree x y) := by
  have hvars : Denotes (subVars k x y param) (armTree tree x y) := by
    unfold subVars
    rw [Ty.isTypevar_of_ground hx, Ty.isTypevar_of_ground hy]
    exact subGround_run hk hx hy hw param
  unfold subMeet
  split
  · simp [Ty.isGround] at hy
  · exact hvars

/-- A union on the right takes one right decision per level. -/
theorem subRight_run {x y : Ty} (hx : x.isGround) (hy : y.isGround)
    (hw : x.weight + y.weight ≤ w) (param : Param) :
    Denotes (subRight k x y param) (rightTree tree x y) := by
  unfold subRight rightTree
  split
  · split
    · exact Denotes.pure true
    · rw [Ty.isUnionall_of_ground hx]
      have hpick := (Denotes.pickElement (f := fun y' => subMeet k x y' param)
        (g := armTree tree x) (x := y) fun y' hy' => subMeet_run hk hx
          (Ty.isGround_of_mem_arms hy hy') (by have := Ty.weight_le_of_mem_arms hy'; omega) param).2
      intro e he
      refine Denotes.at_of_eq he hpick ?_
      have hsplit : splitsUnion x y e = some (true, e) := by
        simp only [splitsUnion, Ty.isTypevar_of_ground hx]
        rfl
      exact SubM.bind_some hsplit
  · exact subMeet_run hk hx hy hw param

/-- `sub` one level up runs the tree of its own call. -/
theorem subStep_run {x y : Ty} (hx : x.isGround) (hy : y.isGround)
    (hw : x.weight + y.weight ≤ w) (param : Param) :
    Denotes (subStep k x y param) (tree x y) := by
  rw [tree_eq]
  refine Denotes.get fun e he => ?_
  unfold treeStep
  by_cases hxy : x = y
  · rw [if_pos ⟨hxy, he.loffset⟩, if_pos hxy]
    exact Denotes.pure true e he
  · rw [if_neg fun h => hxy h.1, if_neg hxy]
    cases hux : x.isUnion with
    | false => exact subRight_run hk hx hy hw param e he
    | true =>
      simp only [if_true]
      split
      · exact Denotes.pure true e he
      · rw [Ty.isTypevar_of_ground hy]
        simp only [Bool.and_false, Bool.false_and, Bool.false_eq_true, if_false]
        refine (Denotes.pickElement (f := fun x' => subRight k x' y param)
          (g := fun x' => rightTree tree x' y) (x := x) fun x' hx' => ?_).1 e he
        exact subRight_run hk (Ty.isGround_of_mem_arms hx hx') hy
          (by have := Ty.weight_le_of_mem_arms hx'; omega) param

end Step

/-! ### How deep the trees are -/

namespace Ty

theorem length_le_weights (ps : List Ty) : ps.length ≤ weights ps := by
  induction ps with
  | nil => rfl
  | cons p ps ih =>
    have := p.weight_pos
    rw [weights, List.length_cons]
    omega

theorem length_splitElems_le (ps : List Ty) : (splitElems ps).1.length ≤ ps.length := by
  fun_induction splitElems ps with
  | case1 => rfl
  | case2 => simp
  | case3 p ps hp ih => simpa using ih

/-- A tuple makes at most two comparisons more than it has elements. -/
theorem length_elementPairs_le {ps qs : List Ty} {pairs : List (Ty × Ty)}
    (h : elementPairs ps qs = some pairs) : pairs.length ≤ weights ps + 2 := by
  have hps := length_splitElems_le ps
  have hw := length_le_weights ps
  unfold elementPairs at h
  split at h
  case h_1 xs ys hxs hys =>
    rw [hxs] at hps
    split at h
    · cases h
      simp only [List.length_zip] at hps ⊢
      omega
    · cases h
  case h_2 xs ys v hxs hys =>
    rw [hxs] at hps
    split at h
    · cases h
      simp only [List.length_append, List.length_zip] at hps ⊢
      split
      · simp only [List.length_nil]
        omega
      · simp only [List.length_map, List.length_drop]
        omega
    · cases h
  case h_3 => cases h
  case h_4 xs s ys v hxs hys =>
    rw [hxs] at hps
    split at h
    · cases h
      simp only [List.length_append, List.length_zip, List.length_cons, List.length_nil] at hps ⊢
      split
      · simp only [List.length_nil]
        omega
      · simp only [List.length_map, List.length_drop]
        omega
    · cases h

end Ty

section Depth
variable {g : Ty → Ty → DecisionTree} {B : Nat}

theorem depth_allTree_le {pairs : List (Ty × Ty)} (h : ∀ p ∈ pairs, (g p.1 p.2).depth ≤ B) :
    (allTree g pairs).depth ≤ pairs.length * B := by
  induction pairs with
  | nil => simp [allTree, DecisionTree.depth]
  | cons p ps ih =>
    have h₁ := DecisionTree.depth_and (g p.1 p.2) (allTree g ps)
    have h₂ := h p (List.mem_cons_self ..)
    have h₃ := ih fun q hq => h q (List.mem_cons_of_mem _ hq)
    rw [allTree, List.length_cons, Nat.succ_mul]
    omega

theorem depth_equalWithTree_le {x y : Ty} (h : (g x y).depth ≤ B) (m : Option DecisionTree) :
    (equalWithTree g m x y).depth ≤ max B (m.elim 0 (·.depth + 1)) := by
  unfold equalWithTree
  split
  · simp [DecisionTree.depth]
  · split
    · simp [DecisionTree.depth]
    · split
      · simp [DecisionTree.depth]
      · split
        · omega
        · cases m with
          | none => simp [bothWaysTree, DecisionTree.depth]
          | some t => simp [bothWaysTree, DecisionTree.depth]

theorem depth_equalTree_le {x y : Ty}
    (h : ∀ p q, p.weight + q.weight ≤ x.weight + y.weight → (g p q).depth ≤ B) :
    (equalTree g x y).depth ≤ x.weight * (B + 1) := by
  have hone : ∀ {u : Ty}, B ≤ u.weight * (B + 1) := fun {u} =>
    le_trans (Nat.le_succ B) (Nat.le_mul_of_pos_left _ u.weight_pos)
  induction x generalizing y with
  | union i a b iha ihb =>
    cases y with
    | union j c d =>
      have h₀ := depth_equalWithTree_le (h _ _ le_rfl)
        (some ((equalTree g a c).and (equalTree g b d)))
      have h₁ := DecisionTree.depth_and (equalTree g a c) (equalTree g b d)
      have h₂ := iha (y := c) fun p q hpq => h p q (by simp only [Ty.weight]; omega)
      have h₃ := ihb (y := d) fun p q hpq => h p q (by simp only [Ty.weight]; omega)
      have h₄ := hone (u := a)
      rw [equalTree_union]
      simp only [Option.elim, Ty.weight, Nat.add_mul, one_mul] at h₀ ⊢
      omega
    | _ =>
      rw [equalTree_of_not_unions rfl]
      exact (depth_equalWithTree_le (h _ _ le_rfl) none).trans (by simpa using hone)
  | _ =>
    rw [equalTree_of_not_unions rfl]
    exact (depth_equalWithTree_le (h _ _ le_rfl) none).trans (by simpa using hone)

theorem depth_invariantTree_le {ps qs : List Ty}
    (h : ∀ p ∈ ps, ∀ q ∈ qs, (equalTree g p q).depth ≤ p.weight * (B + 1)) :
    (invariantTree g ps qs).depth ≤ Ty.weights ps * (B + 1) := by
  induction ps generalizing qs with
  | nil =>
    rw [invariantTree]
    · simp [DecisionTree.depth]
    · simp
  | cons p ps ih =>
    cases qs with
    | nil =>
      rw [invariantTree]
      · simp [DecisionTree.depth]
      · simp
    | cons q qs =>
      have h₁ := h p (List.mem_cons_self ..) q (List.mem_cons_self ..)
      have h₂ := @ih qs fun p' hp' q' hq' =>
        h p' (List.mem_cons_of_mem _ hp') q' (List.mem_cons_of_mem _ hq')
      have h₃ := DecisionTree.depth_and (equalTree g p q) (invariantTree g ps qs)
      rw [invariantTree, Ty.weights, Nat.add_mul]
      split <;> omega

theorem depth_datatypeTree_le {x y : Ty}
    (h : ∀ p q, p.weight + q.weight < x.weight + y.weight → (g p q).depth ≤ B) :
    (datatypeTree g x y).depth ≤ (x.weight + 1) * (B + 1) := by
  have hret : ∀ b, (DecisionTree.ret b).depth ≤ (x.weight + 1) * (B + 1) := fun b => Nat.zero_le _
  unfold datatypeTree
  split
  · exact hret true
  · split
    · exact hret false
    case h_2 xd hxd =>
      cases xd with
      | app c ps =>
        obtain rfl := Ty.eq_of_walkToName hxd
        split
        · simp only [Ty.parameters, Option.getD_some, tupleTree]
          split
          case h_1 pairs hpairs =>
            have hlen := Ty.length_elementPairs_le hpairs
            have hdepth := depth_allTree_le (g := g) (B := B) fun p hp => by
              obtain ⟨h₁, h₂⟩ := Ty.isElem_of_mem_elementPairs hpairs hp
              refine h _ _ (Nat.add_lt_add h₁.weight_lt ?_)
              cases y with
              | app d qs => exact h₂.weight_lt
              | _ => simp [Ty.IsElem, Ty.splitElems] at h₂
            refine hdepth.trans (Nat.mul_le_mul ?_ (Nat.le_succ B))
            rw [Ty.weight]
            omega
          · exact hret false
        · split
          case h_1 ps' qs hps hqs =>
            obtain ⟨d, rfl⟩ : ∃ d, y = .app d qs := by
              cases y <;> simp_all [Ty.parameters]
            cases hps
            refine (depth_invariantTree_le fun p hp q hq =>
              depth_equalTree_le fun p' q' hpq => h p' q' ?_).trans
              (Nat.mul_le_mul_right _ (by rw [Ty.weight]; omega))
            have h₁ := Ty.weight_lt_of_mem (c := c) hp
            have h₂ := Ty.weight_lt_of_mem (c := d) hq
            omega
          · exact hret true
      | _ => exact hret true

theorem depth_armTree_le {x y : Ty}
    (h : ∀ p q, p.weight + q.weight < x.weight + y.weight → (g p q).depth ≤ B) :
    (armTree g x y).depth ≤ (x.weight + 1) * (B + 1) := by
  unfold armTree
  split
  · exact Nat.zero_le _
  · split
    · exact Nat.zero_le _
    · split
      case h_1 t hx hy =>
        refine (h _ _ ?_).trans
          ((Nat.le_succ B).trans (Nat.le_mul_of_pos_left _ (Nat.succ_pos _)))
        have hlt := Ty.weight_typeOf_lt hx
        omega
      · exact Nat.zero_le _
      · exact depth_datatypeTree_le h

theorem depth_pickTree_le {node : DecisionTree → DecisionTree → DecisionTree}
    (hnode : ∀ t u, (node t u).depth = max t.depth u.depth + 1) {f : Ty → DecisionTree} {t : Ty}
    (h : ∀ x ∈ t.arms, (f x).depth ≤ B) : (pickTree node f t).depth ≤ t.weight + B := by
  induction t with
  | union i a b iha ihb =>
    have h₁ := iha fun x hx => h x (List.mem_append_left _ hx)
    have h₂ := ihb fun x hx => h x (List.mem_append_right _ hx)
    rw [pickTree, hnode, Ty.weight]
    omega
  | _ => exact (h _ (List.mem_singleton_self _)).trans (Nat.le_add_left _ _)

/-- A query reads no more decisions than its types allow. -/
theorem depth_treeStep_le {x y : Ty}
    (h : ∀ p q, p.weight + q.weight < x.weight + y.weight → (g p q).depth ≤ B) :
    (treeStep g x y).depth ≤ x.weight + y.weight + (x.weight + 1) * (B + 1) := by
  have hright : ∀ x' ∈ x.arms,
      (rightTree g x' y).depth ≤ y.weight + (x.weight + 1) * (B + 1) := by
    intro x' hx'
    have hwx := Ty.weight_le_of_mem_arms hx'
    have harm : ∀ y' ∈ y.arms, (armTree g x' y').depth ≤ (x.weight + 1) * (B + 1) := by
      intro y' hy'
      have hwy := Ty.weight_le_of_mem_arms hy'
      exact (depth_armTree_le fun p q hpq => h p q (by omega)).trans
        (Nat.mul_le_mul_right _ (by omega))
    unfold rightTree
    split
    · split
      · exact Nat.zero_le _
      · exact depth_pickTree_le (fun _ _ => rfl) harm
    case isFalse hy =>
      refine (harm y ?_).trans (Nat.le_add_left _ _)
      rw [Ty.arms_of_not_union (by simpa using hy)]
      exact List.mem_singleton_self _
  unfold treeStep
  split
  · exact Nat.zero_le _
  · split
    · split
      · exact Nat.zero_le _
      · rw [Nat.add_assoc]
        exact depth_pickTree_le (fun _ _ => rfl) hright
    case isFalse hx =>
      refine (hright x ?_).trans (by omega)
      rw [Ty.arms_of_not_union (by simpa using hx)]
      exact List.mem_singleton_self _

end Depth

/-- Trees of calls of bounded weight have bounded depth. -/
theorem exists_depth_bound (w : Nat) :
    ∃ B, ∀ x y : Ty, x.weight + y.weight < w → (tree x y).depth ≤ B := by
  induction w with
  | zero => exact ⟨0, fun x y h => absurd h (Nat.not_lt_zero _)⟩
  | succ w ih =>
    obtain ⟨B, hB⟩ := ih
    refine ⟨w + (w + 1) * (B + 1), fun x y hxy => ?_⟩
    rw [tree_eq]
    refine (depth_treeStep_le fun p q hpq => hB p q (by omega)).trans ?_
    exact Nat.add_le_add (by omega) (Nat.mul_le_mul_right _ (by omega))

/-! ### The algorithm on ground types -/

/-- With enough fuel the algorithm runs the trees of all ground calls of bounded
weight. -/
theorem exists_runs (w : Nat) : ∃ N, ∀ n, N ≤ n → (engine n).Runs w := by
  induction w with
  | zero =>
    exact ⟨0, fun n _ => ⟨fun p q _ _ h => absurd h (Nat.not_lt_zero _),
      fun p q _ _ h => absurd h (Nat.not_lt_zero _)⟩⟩
  | succ w ih =>
    obtain ⟨N, hN⟩ := ih
    obtain ⟨B, hB⟩ := exists_depth_bound (w + 1)
    refine ⟨max (N + 2) (2 ^ B + 1), fun n hn => ?_⟩
    have hsub : ∀ m, N + 1 ≤ m → ∀ p q, p.isGround → q.isGround →
        p.weight + q.weight < w + 1 → ∀ param, Denotes ((engine m).sub p q param) (tree p q) := by
      intro m hm p q hp hq hpq param
      obtain ⟨m, rfl⟩ : ∃ m', m = m' + 1 := ⟨m - 1, by omega⟩
      exact subStep_run (hN m (by omega)) hp hq (by omega) param
    refine ⟨hsub n (by omega), fun p q hp hq hpq next => ?_⟩
    obtain ⟨m, rfl⟩ : ∃ m, n = m + 2 := ⟨n - 2, by omega⟩
    refine issubtypeStep_run (hsub (m + 1) (by omega) p q hp hq hpq .none) ?_ next
    calc 2 ^ (tree p q).depth ≤ 2 ^ B := Nat.pow_le_pow_right (by omega) (hB p q hpq)
      _ ≤ m + 1 := by omega

/-- **Ground queries.**  With enough fuel a query of ground types returns, and
answers whether the tree of its call holds. -/
theorem subtype_ground {x y : Ty} (hx : x.isGround) (hy : y.isGround) :
    ∃ N, ∀ fuel, N ≤ fuel → ∀ next,
      subtype fuel next x y = some (open Classical in decide (tree x y).Holds) := by
  obtain ⟨N, hN⟩ := exists_runs (x.weight + y.weight + 1)
  refine ⟨N, fun fuel hfuel next => ?_⟩
  obtain ⟨n', hn'⟩ := (hN fuel hfuel).issubtype x y hx hy (Nat.lt_succ_self _) next
  rw [subtype, hn']
  rfl

end Ruju
