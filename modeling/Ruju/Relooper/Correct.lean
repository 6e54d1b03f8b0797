import Ruju.Relooper.Walk

/-!
# The emitted code follows the graph

The caller of the relooper decides what is emitted for the statements of a block, for an
edge, for a condition and for a return (`Emission`).  Whatever it is, the structured code
does what a machine does that goes from block to block (`blockStep`).

The frames of the walk and the labels of the running code correspond (`Labelled`): the label
of a loop or block frame is the code of its block, as the walk emits it outside of that
frame.  A branch therefore ends up in front of the code of its target, and this is all that
the simulation needs from the walk, besides that it succeeds.
-/

namespace Ruju.Relooper

open Structured

/-- What the caller emits. -/
structure Emission (L : Type) where
  stmts : Nat → List L
  phiMoves : Nat → Nat → List L
  cond : Nat → List L
  ret : Nat → List L

variable {L σ : Type}

/-- The tokens that a call adds to the code. -/
def Event.tokens (E : Emission L) : Event → List (Tok L)
  | .openLoop _ => [.loop]
  | .openBlock _ => [.block]
  | .close => [.close]
  | .stmts x => (E.stmts x).map .leaf
  | .phiMoves x target => (E.phiMoves x target).map .leaf
  | .br depth => [.br depth]
  | .openIf x => (E.cond x).map .leaf ++ [.ite]
  | .elseArm => [.els]
  | .ret x => (E.ret x).map .leaf

/-- The code that the calls add up to. -/
def codeOf (E : Emission L) (events : List Event) : List (Tok L) := events.flatMap (·.tokens E)

@[simp]
theorem codeOf_nil (E : Emission L) : codeOf E [] = [] := rfl

@[simp]
theorem codeOf_cons (E : Emission L) (e : Event) (events : List Event) :
    codeOf E (e :: events) = e.tokens E ++ codeOf E events := List.flatMap_cons ..

@[simp]
theorem codeOf_append (E : Emission L) (events events' : List Event) :
    codeOf E (events ++ events') = codeOf E events ++ codeOf E events' := List.flatMap_append ..

/-- Along an edge. -/
def follow (P : Leaves L σ) (E : Emission L) (x target : Nat) (s : σ) : Effect (Nat × σ) σ :=
  (runLeaves P (E.phiMoves x target) s).bind fun s => .next (target, s)

/-- The end of a block. -/
def leave (P : Leaves L σ) (E : Emission L) (term : Nat → Term) (x : Nat) (s : σ) :
    Effect (Nat × σ) σ :=
  match term x with
  | .ret => (runLeaves P (E.ret x) s).bind fun s => .trap s
  | .goto target => follow P E x target s
  | .ite then_ else_ =>
    (runLeaves P (E.cond x) s).bind fun s =>
      match P.cond s with
      | some (b, s) => follow P E x (if b then then_ else else_) s
      | none => .trap s

/-- A block, and the edge to the next one. -/
def blockStep (P : Leaves L σ) (E : Emission L) (term : Nat → Term) (c : Nat × σ) :
    Effect (Nat × σ) σ :=
  (runLeaves P (E.stmts c.1) c.2).bind (leave P E term c.1)

/-! ### Inverting the walk -/

theorem bind_eq_pure_iff {α β : Type} {m : ExceptT String Option α}
    {f : α → ExceptT String Option β} {b : β} :
    m >>= f = pure b ↔ ∃ a, m = pure a ∧ f a = pure b := by
  constructor
  · intro h
    match m, h with
    | some (.ok a), h => exact ⟨a, rfl, h⟩
    | some (.error e), h => cases h
    | none, h => cases h
  · rintro ⟨a, rfl, h⟩
    rw [pure_bind]
    exact h

theorem pure_inj {α : Type} {a b : α}
    (h : (pure a : ExceptT String Option α) = pure b) : a = b := by
  cases h
  rfl

theorem depthOf_eq_pure_iff {frame : Frame} {frames : List Frame} {depth : Nat} :
    depthOf frame frames = pure depth ↔ frames.findIdx? (· = frame) = some depth := by
  unfold depthOf
  cases frames.findIdx? (· = frame) with
  | none => exact iff_of_false (fun h => nomatch h) (fun h => nomatch h)
  | some d =>
    exact ⟨fun h => congrArg some (pure_inj h), fun h => congrArg pure (Option.some.inj h)⟩

section Shape

variable {r : Relooper} {term : Nat → Term} {frames : List Frame} {x t : Nat}
  {events : List Event} {tree : Nat → List Frame → ExceptT String Option (List Event)}

/-- The three kinds of branches. -/
theorem doBranch_cases (h : doBranch r tree x t frames = pure events) :
    (∃ depth, (frames.findIdx? (· = .loop t) = some depth ∨
        frames.findIdx? (· = .block t) = some depth) ∧
      events = [.phiMoves x t, .br depth]) ∨
    r.pos x < r.pos t ∧ ∃ code, tree t frames = pure code ∧ events = .phiMoves x t :: code := by
  unfold doBranch at h
  split at h
  case isTrue =>
    obtain ⟨depth, hdepth, hevents⟩ := bind_eq_pure_iff.mp h
    exact Or.inl ⟨depth, Or.inl (depthOf_eq_pure_iff.mp hdepth), (pure_inj hevents).symm⟩
  case isFalse hpos =>
    split at h
    · obtain ⟨depth, hdepth, hevents⟩ := bind_eq_pure_iff.mp h
      exact Or.inl ⟨depth, Or.inr (depthOf_eq_pure_iff.mp hdepth), (pure_inj hevents).symm⟩
    · obtain ⟨code, hcode, hevents⟩ := bind_eq_pure_iff.mp h
      exact Or.inr ⟨Nat.lt_of_not_le hpos, code, hcode, (pure_inj hevents).symm⟩

theorem balanced_doBranch (E : Emission L)
    (htree : ∀ t frames events, tree t frames = pure events → Balanced (codeOf E events))
    (h : doBranch r tree x t frames = pure events) : Balanced (codeOf E events) := by
  rcases doBranch_cases h with ⟨depth, -, rfl⟩ | ⟨-, code, hcode, rfl⟩
  · simp only [codeOf_cons, codeOf_nil, List.append_nil]
    exact (Balanced.leaves _).append (Balanced.br depth)
  · rw [codeOf_cons]
    exact (Balanced.leaves _).append (htree t frames code hcode)

theorem balanced_nodeWithin (E : Emission L)
    (htree : ∀ t frames events, tree t frames = pure events → Balanced (codeOf E events))
    {pending : List Nat} (h : nodeWithin r term tree x pending frames = pure events) :
    Balanced (codeOf E events) := by
  induction pending generalizing frames events with
  | cons last rest ih =>
    rw [nodeWithin] at h
    obtain ⟨inner, hinner, h⟩ := bind_eq_pure_iff.mp h
    obtain ⟨next, hnext, h⟩ := bind_eq_pure_iff.mp h
    obtain rfl := pure_inj h
    simp only [codeOf_cons, codeOf_append]
    have hblock := (ih hinner).block.append (htree last frames next hnext)
    simpa [Event.tokens] using hblock
  | nil =>
    rw [nodeWithin] at h
    cases hterm : term x with
    | ret =>
      rw [hterm] at h
      obtain rfl := pure_inj h
      simp only [codeOf_cons, codeOf_nil, List.append_nil]
      exact (Balanced.leaves _).append (Balanced.leaves _)
    | goto t =>
      rw [hterm] at h
      obtain ⟨code, hcode, h⟩ := bind_eq_pure_iff.mp h
      obtain rfl := pure_inj h
      rw [codeOf_cons]
      exact (Balanced.leaves _).append (balanced_doBranch E htree hcode)
    | ite t e =>
      rw [hterm] at h
      obtain ⟨a, ha, h⟩ := bind_eq_pure_iff.mp h
      obtain ⟨b, hb, h⟩ := bind_eq_pure_iff.mp h
      obtain rfl := pure_inj h
      have hite := (balanced_doBranch E htree ha).ite (balanced_doBranch E htree hb)
      have hcond := (Balanced.leaves (E.stmts x)).append
        ((Balanced.leaves (E.cond x)).append hite)
      simpa [Event.tokens] using hcond

/-- The code of a subtree closes what it opens. -/
theorem balanced_doTree (E : Emission L) {fuel : Nat}
    (h : doTree r term fuel x frames = pure events) : Balanced (codeOf E events) := by
  induction fuel generalizing x frames events with
  | zero => cases h
  | succ fuel ih =>
    have htree : ∀ t frames events, doTree r term fuel t frames = pure events →
        Balanced (codeOf E events) := fun _ _ _ => ih
    rw [doTree] at h
    split at h
    · obtain ⟨body, hbody, h⟩ := bind_eq_pure_iff.mp h
      obtain rfl := pure_inj h
      have hloop := (balanced_nodeWithin E htree hbody).loop
      simpa [Event.tokens] using hloop
    · exact balanced_nodeWithin E htree h

end Shape

/-! ### Simulation -/

/-- The block that a branch to a frame goes to. -/
def Frame.target : Frame → Option Nat
  | .loop header => some header
  | .block follow => some follow
  | .ite => none

/-- The label of a frame is the code of its target, emitted outside of the frame. -/
inductive Labelled (r : Relooper) (term : Nat → Term) (E : Emission L) :
    List Frame → List (List (Tok L)) → Prop
  | nil : Labelled r term E [] []
  | cons {frame : Frame} {frames : List Frame} {label : List (Tok L)}
      {labels : List (List (Tok L))} :
      (∀ t, frame.target = some t → ∃ fuel events rest,
        doTree r term fuel t frames = pure events ∧ label = codeOf E events ++ rest) →
      Labelled r term E frames labels → Labelled r term E (frame :: frames) (label :: labels)

/-- The running code is in front of the code of a block. -/
inductive At (cfg : Cfg) (r : Relooper) (term : Nat → Term) (E : Emission L) :
    Nat × σ → Config L σ → Prop
  | mk {x fuel : Nat} {frames : List Frame} {events : List Event} {rest : List (Tok L)}
      {labels : List (List (Tok L))} {s : σ} :
      x < cfg.size → doTree r term fuel x frames = pure events → Labelled r term E frames labels →
      At cfg r term E (x, s) ⟨codeOf E events ++ rest, labels, s⟩

section Simulation

variable {cfg : Cfg} {r : Relooper} {term : Nat → Term} {E : Emission L} {P : Leaves L σ}
  {frames : List Frame} {labels : List (List (Tok L))} {x t : Nat} {events : List Event}

/-- A frame with a target leads to the code of the target. -/
theorem Labelled.target (h : Labelled r term E frames labels) {depth : Nat} {frame : Frame}
    (hframe : frame.target = some t) (hdepth : frames.findIdx? (· = frame) = some depth) :
    ∃ fuel events rest, doTree r term fuel t (frames.drop (depth + 1)) = pure events ∧
      labels[depth]? = some (codeOf E events ++ rest) ∧
      Labelled r term E (frames.drop (depth + 1)) (labels.drop (depth + 1)) := by
  induction h generalizing depth with
  | nil => cases hdepth
  | @cons f frames label labels hlabel hlabels ih =>
    rw [List.findIdx?_cons] at hdepth
    by_cases hf : f = frame
    · simp only [hf, decide_true, if_true] at hdepth
      cases hdepth
      obtain ⟨fuel, events, rest, htree, hcode⟩ := hlabel t (hf ▸ hframe)
      exact ⟨fuel, events, rest, htree, congrArg some hcode, hlabels⟩
    · simp only [hf, decide_false, Bool.false_eq_true, if_false] at hdepth
      obtain ⟨d, hd, rfl⟩ := Option.map_eq_some_iff.mp hdepth
      exact ih hd

/-- The configurations behind `x` in the order of positions. -/
def Behind (r : Relooper) (x : Nat) (c : Nat × σ) : Prop := r.pos x < r.pos c.1

theorem reached_branch {fuel : Nat} (ht : t < cfg.size)
    (h : doBranch r (doTree r term fuel) x t frames = pure events)
    (hlabels : Labelled r term E frames labels) (rest : List (Tok L)) (s : σ) :
    Reached (step P) (At cfg r term E) (Behind r x) (follow P E x t s)
      ⟨codeOf E events ++ rest, labels, s⟩ := by
  rcases doBranch_cases h with ⟨depth, hdepth, rfl⟩ | ⟨hpos, code, hcode, rfl⟩
  · obtain ⟨fuel', events', rest', htree, hlabel, hdrop⟩ :=
      hdepth.elim (hlabels.target (t := t) rfl) (hlabels.target (t := t) rfl)
    have hcode : codeOf E [.phiMoves x t, .br depth] ++ rest =
        (E.phiMoves x t).map Tok.leaf ++ (.br depth :: rest) := by
      simp [Event.tokens]
    rw [hcode]
    refine Reached.leaves fun s' _ =>
      ⟨.next ⟨codeOf E events' ++ rest', labels.drop (depth + 1), s'⟩,
      .next (.mk ht htree hdrop), Or.inl (Gets.of_step ?_)⟩
    simp only [step, hlabel]
  · rw [codeOf_cons, List.append_assoc]
    refine Reached.leaves fun s' _ => ⟨_, .next (.mk ht hcode hlabels),
      Or.inr ⟨Gets.refl _ _, fun c' hc' => ?_⟩⟩
    cases hc'
    exact hpos

/-- From the code inside the frames of a block the machine gets to the next block. -/
theorem reached_node {fuel : Nat} (hret : ∀ x s s', runLeaves P (E.ret x) s ≠ .next s')
    (htargets : ∀ t ∈ (term x).targets, t < cfg.size) {pending : List Nat}
    (h : nodeWithin r term (doTree r term fuel) x pending frames = pure events)
    (hlabels : Labelled r term E frames labels) (rest : List (Tok L)) (s : σ) :
    Reached (step P) (At cfg r term E) (Behind r x) (blockStep P E term (x, s))
      ⟨codeOf E events ++ rest, labels, s⟩ := by
  induction pending generalizing frames labels events rest with
  | cons last pending ih =>
    rw [nodeWithin] at h
    obtain ⟨inner, hinner, h⟩ := bind_eq_pure_iff.mp h
    obtain ⟨next, hnext, h⟩ := bind_eq_pure_iff.mp h
    obtain rfl := pure_inj h
    have hbalanced := balanced_nodeWithin E (fun _ _ _ => balanced_doTree E) hinner
    have hcode : codeOf E (.openBlock last :: (inner ++ .close :: next)) ++ rest =
        .block :: (codeOf E inner ++ .close :: (codeOf E next ++ rest)) := by
      simp [Event.tokens]
    rw [hcode]
    refine Reached.of_gets (Gets.of_step rfl) (ih hinner ?_ _)
    rw [hbalanced.skip_close]
    refine .cons (fun t ht => ?_) hlabels
    cases ht
    exact ⟨_, _, _, hnext, rfl⟩
  | nil =>
    rw [nodeWithin] at h
    cases hterm : term x with
    | ret =>
      rw [hterm] at h
      obtain rfl := pure_inj h
      have hcode : codeOf E [.stmts x, .ret x] ++ rest =
          (E.stmts x).map Tok.leaf ++ ((E.ret x).map Tok.leaf ++ rest) := by
        simp [Event.tokens]
      rw [hcode]
      refine Reached.leaves fun s' _ => ?_
      simp only [leave, hterm]
      exact Reached.leaves fun s'' hs'' => absurd hs'' (hret x s' s'')
    | goto t =>
      rw [hterm] at h
      obtain ⟨code, hcode, h⟩ := bind_eq_pure_iff.mp h
      obtain rfl := pure_inj h
      rw [codeOf_cons, List.append_assoc]
      refine Reached.leaves fun s' _ => ?_
      simp only [leave, hterm]
      exact reached_branch (htargets t (by simp [hterm, Term.targets])) hcode hlabels rest s'
    | ite t e =>
      rw [hterm] at h
      obtain ⟨a, ha, h⟩ := bind_eq_pure_iff.mp h
      obtain ⟨b, hb, h⟩ := bind_eq_pure_iff.mp h
      obtain rfl := pure_inj h
      have hcode : codeOf E (.stmts x :: .openIf x ::
            (a ++ .elseArm :: (b ++ [.close]))) ++ rest =
          (E.stmts x).map Tok.leaf ++ ((E.cond x).map Tok.leaf ++
            .ite :: (codeOf E a ++ .els :: (codeOf E b ++ .close :: rest))) := by
        simp [Event.tokens]
      rw [hcode]
      refine Reached.leaves fun s' _ => ?_
      simp only [leave, hterm]
      refine Reached.leaves fun s' _ => ?_
      have hbalanced := balanced_doBranch E (fun _ _ _ => balanced_doTree E) ha
      have hbalanced' := balanced_doBranch E (fun _ _ _ => balanced_doTree E) hb
      have hite : Labelled r term E (.ite :: frames) (rest :: labels) :=
        .cons (fun t ht => by cases ht) hlabels
      cases hcond : P.cond s' with
      | none =>
        refine ⟨_, .trap, Or.inl (Gets.of_step ?_)⟩
        simp only [step, hcond]
      | some p =>
        obtain ⟨c, s''⟩ := p
        have hstep : step P ⟨.ite :: (codeOf E a ++ .els :: (codeOf E b ++ .close :: rest)),
            labels, s'⟩ = .next
              ⟨if c then codeOf E a ++ .els :: (codeOf E b ++ .close :: rest)
                else codeOf E b ++ .close :: rest, rest :: labels, s''⟩ := by
          simp only [step, hcond, hbalanced.skipElse_els, hbalanced.skip_els hbalanced']
        refine Reached.of_gets (Gets.of_step hstep) ?_
        cases c with
        | true =>
          exact reached_branch (htargets t (by simp [hterm, Term.targets])) ha hite _ s''
        | false =>
          exact reached_branch (htargets e (by simp [hterm, Term.targets])) hb hite _ s''

/-- **One step from block to block is matched by the structured code.** -/
theorem At.matched (hbuilt : Built cfg r) (hterm : TermsMatch cfg term)
    (hret : ∀ x s s', runLeaves P (E.ret x) s ≠ .next s') (c : Nat × σ) (d : Config L σ)
    (h : At cfg r term E c d) :
    Matched (blockStep P E term) (step P) (At cfg r term E) (fun c => cfg.size - r.pos c.1)
      c d := by
  obtain @⟨x, fuel, frames, events, rest, labels, s, hx, htree, hlabels⟩ := h
  have htargets : ∀ t ∈ (term x).targets, t < cfg.size := fun t ht => ((hterm x hx t).mp ht).lt
  have hbehind : Reached (step P) (At cfg r term E) (Behind r x) (blockStep P E term (x, s))
      ⟨codeOf E events ++ rest, labels, s⟩ := by
    cases fuel with
    | zero => cases htree
    | succ fuel =>
      have htree' := htree
      rw [doTree] at htree
      split at htree
      · obtain ⟨body, hbody, h⟩ := bind_eq_pure_iff.mp htree
        obtain rfl := pure_inj h
        have hcode : codeOf E (.openLoop x :: (body ++ [.close])) ++ rest =
            .loop :: (codeOf E body ++ .close :: rest) := by
          simp [Event.tokens]
        rw [hcode]
        refine Reached.of_gets (Gets.of_step rfl) (reached_node hret htargets hbody ?_ _ s)
        refine .cons (fun t ht => ?_) hlabels
        cases ht
        exact ⟨_, _, rest, htree', hcode.symm⟩
      · exact reached_node hret htargets htree hlabels rest s
  -- positions are bounded, so being behind is being smaller
  obtain ⟨e, hsame, hgets⟩ := hbehind
  refine ⟨e, hsame, hgets.imp_right fun hsmall => ⟨hsmall.1, fun c' hc' => ?_⟩⟩
  have hpos : r.pos x < r.pos c'.1 := hsmall.2 c' hc'
  rw [hc'] at hsame
  cases hsame with
  | next hat =>
    cases hat with
    | mk hy =>
      exact Nat.sub_lt_sub_left (hpos.trans (hbuilt.pos_lt hy)) hpos

end Simulation

/-! ### Visited blocks and edges -/

/-- What a run shows: the statements of blocks, the moves of edges, and the return. -/
inductive Seen where
  | visit (x : Nat)
  | move (x target : Nat)
  | ret (x : Nat)
  deriving DecidableEq, Repr

/-- What has been seen, and the branch outcomes to come. -/
structure Journal where
  trace : List Seen
  outcomes : Nat → Bool

/-- One more event is seen. -/
def Journal.note (j : Journal) (e : Seen) : Journal := { j with trace := j.trace ++ [e] }

/-- The outcome of a branch is taken. -/
def Journal.branch (j : Journal) : Bool × Journal :=
  (j.outcomes 0, { j with outcomes := fun n => j.outcomes (n + 1) })

/-- The graph goes from block to block. -/
def graphStep (term : Nat → Term) (c : Nat × Journal) : Effect (Nat × Journal) Journal :=
  let j := c.2.note (.visit c.1)
  match term c.1 with
  | .ret => .done (j.note (.ret c.1))
  | .goto target => .next (target, j.note (.move c.1 target))
  | .ite then_ else_ =>
    let target := if j.branch.1 then then_ else else_
    .next (target, j.branch.2.note (.move c.1 target))

/-- The leaves of the emitted code are noted. -/
def noting : Leaves Seen Journal where
  exec e j :=
    match e with
    | .ret x => .done (j.note (.ret x))
    | e => .next (j.note e)
  cond j := some j.branch

/-- One leaf for each call. -/
def seenEmission : Emission Seen where
  stmts x := [.visit x]
  phiMoves x target := [.move x target]
  cond _ := []
  ret x := [.ret x]

/-- The graph and a machine with the noting leaves, seen from outside. -/
def seenOf {C : Type} (journal : C → Journal) : Effect C Journal → List Seen
  | .next c => (journal c).trace
  | .done j => j.trace
  | .trap j => j.trace

/-- What is seen of the graph in `n` blocks. -/
def graphTrace (term : Nat → Term) (outcomes : Nat → Bool) (n : Nat) : List Seen :=
  seenOf Prod.snd (after (graphStep term) n (0, ⟨[], outcomes⟩))

/-- What is seen of the emitted code in `n` steps. -/
def codeTrace (events : List Event) (outcomes : Nat → Bool) (n : Nat) : List Seen :=
  seenOf Config.state
    (after (step noting) n ⟨codeOf seenEmission events, [], ⟨[], outcomes⟩⟩)

theorem blockStep_seenEmission (term : Nat → Term) :
    blockStep noting seenEmission term = graphStep term := by
  funext c
  unfold blockStep graphStep leave
  cases hterm : term c.1 with
  | ret => rfl
  | goto t => rfl
  | ite t e => rfl

/-- A step only adds to what has been seen. -/
theorem trace_prefix_step (c : Config Seen Journal) :
    c.state.trace <+: seenOf Config.state (step noting c) := by
  obtain ⟨code, labels, j⟩ := c
  cases code with
  | nil => exact List.prefix_rfl
  | cons tok code =>
    cases tok with
    | leaf e => cases e <;> exact List.prefix_append _ _
    | block => exact List.prefix_rfl
    | loop => exact List.prefix_rfl
    | ite => exact List.prefix_rfl
    | els => cases labels <;> exact List.prefix_rfl
    | close => cases labels <;> exact List.prefix_rfl
    | br d =>
      cases hd : labels[d]? with
      | none =>
        simp only [step, hd]
        exact List.prefix_rfl
      | some l =>
        simp only [step, hd]
        exact List.prefix_rfl

theorem codeTrace_prefix {events : List Event} {outcomes : Nat → Bool} {m n : Nat} (h : m ≤ n) :
    codeTrace events outcomes m <+: codeTrace events outcomes n := by
  induction h with
  | refl => exact List.prefix_rfl
  | @step n _ ih =>
    refine ih.trans ?_
    unfold codeTrace
    rw [after_succ]
    cases after (step noting) n _ with
    | next c => exact trace_prefix_step c
    | done j => exact List.prefix_rfl
    | trap j => exact List.prefix_rfl

/-- Machines that correspond have seen the same. -/
theorem SameEnd.seenOf_eq {cfg : Cfg} {r : Relooper} {term : Nat → Term}
    {e : Effect (Nat × Journal) Journal} {e' : Effect (Config Seen Journal) Journal}
    (h : SameEnd (At cfg r term seenEmission) e e') :
    seenOf Prod.snd e = seenOf Config.state e' := by
  cases h with
  | next hat =>
    cases hat
    rfl
  | done => rfl
  | trap => rfl

/-- **The emitted code visits the blocks and moves along the edges of the graph**, for every
sequence of branch outcomes. -/
theorem run_follows_graph (cfg : Cfg) (term : Nat → Term) (hterm : TermsMatch cfg term) :
    ∃ enough, ∀ fuel, enough ≤ fuel → ∀ r, new cfg fuel = pure r →
      ∃ events, run r term fuel = pure events ∧ ∀ outcomes,
        (∀ n, ∃ m, codeTrace events outcomes m = graphTrace term outcomes n) ∧
        ∀ m, ∃ n, codeTrace events outcomes m <+: graphTrace term outcomes n := by
  obtain ⟨enough, hnew⟩ := new_cases cfg
  refine ⟨enough + cfg.size, fun fuel hfuel r hr => ?_⟩
  have hbuilt : Built cfg r := by
    rcases hnew fuel (by omega) with ⟨r', hr', hbuilt⟩ | ⟨⟨e, he⟩, -⟩
    · rw [hr] at hr'
      rw [pure_inj hr']
      exact hbuilt
    · rw [hr] at he
      cases he
  obtain ⟨events, hevents⟩ := hbuilt.run_ok hterm (show cfg.size ≤ fuel by omega)
  have hmatched := At.matched (P := noting) (E := seenEmission) hbuilt hterm
    (fun _ _ _ h => nomatch h)
  rw [blockStep_seenEmission] at hmatched
  refine ⟨events, hevents, fun outcomes => ?_⟩
  have hstart : At cfg r term seenEmission (0, (⟨[], outcomes⟩ : Journal))
      ⟨codeOf seenEmission events, [], ⟨[], outcomes⟩⟩ := by
    rw [← List.append_nil (codeOf seenEmission events)]
    exact .mk cfg.nonempty hevents .nil
  constructor
  · intro n
    obtain ⟨m, hsame⟩ := exists_after hmatched hstart n
    exact ⟨m, (SameEnd.seenOf_eq hsame).symm⟩
  · intro m
    obtain ⟨n, k, hk, hsame⟩ := exists_after_of_le hmatched hstart m
    refine ⟨n, ?_⟩
    rw [graphTrace, SameEnd.seenOf_eq hsame]
    exact codeTrace_prefix hk

/-- A loop with a branch out of it. -/
def oneLoop : Cfg := Cfg.ofSuccs [[1], [1, 2], []] (by decide) (by decide)

/-- The terminators of `oneLoop`. -/
def oneLoopTerm : Nat → Term
  | 0 => .goto 1
  | 1 => .ite 1 2
  | _ => .ret

theorem termsMatch_oneLoop : TermsMatch oneLoop oneLoopTerm := by
  intro x hx v
  match x, hx with
  | 0, _ => exact Iff.rfl
  | 1, _ => exact Iff.rfl
  | 2, _ => exact Iff.rfl

theorem run_follows_oneLoop : TermsMatch oneLoop oneLoopTerm ∧
    ∃ enough, ∀ fuel, enough ≤ fuel → ∀ r, new oneLoop fuel = pure r →
      ∃ events, run r oneLoopTerm fuel = pure events ∧ ∀ outcomes,
        (∀ n, ∃ m, codeTrace events outcomes m = graphTrace oneLoopTerm outcomes n) ∧
        ∀ m, ∃ n, codeTrace events outcomes m <+: graphTrace oneLoopTerm outcomes n :=
  ⟨termsMatch_oneLoop, run_follows_graph oneLoop oneLoopTerm termsMatch_oneLoop⟩

example : ((new oneLoop 20 >>= fun r => run r oneLoopTerm 20).run : Option (Except String _)) =
    some (.ok [.stmts 0, .phiMoves 0 1, .openLoop 1, .stmts 1, .openIf 1, .phiMoves 1 1, .br 1,
      .elseArm, .phiMoves 1 2, .stmts 2, .ret 2, .close, .close]) := by decide

end Ruju.Relooper
