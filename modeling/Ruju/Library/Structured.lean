import Mathlib.Logic.Function.Iterate
import Mathlib.Tactic.Common

/-!
# Structured control flow

Code with nested blocks, loops and conditionals, written as a flat sequence of tokens as in
WebAssembly.  A branch names the construct that it leaves by the number of constructs
between, and goes to the end of a block or to the start of a loop.

Everything else is a leaf, and what leaves do is a parameter: they transform a state, end
the run or trap, and a conditional reads its condition from the state.

The machine keeps the code that is left and, for every open construct, the code at which a
branch to it goes on.  `Balanced` code can be skipped over on the way to the end of a
construct, which is all that the proofs need to know about nesting.
-/

namespace Ruju.Structured

/-- Tokens. -/
inductive Tok (L : Type) where
  | leaf (a : L)
  | block
  | loop
  | ite
  | els
  | close
  | br (depth : Nat)
  deriving DecidableEq, Repr

/-- The end of a step or a run. -/
inductive Effect (C σ : Type) where
  | next (c : C)
  | done (s : σ)
  | trap (s : σ)
  deriving DecidableEq, Repr

/-- Going on after a step. -/
def Effect.bind {C D σ : Type} (e : Effect C σ) (f : C → Effect D σ) : Effect D σ :=
  match e with
  | .next c => f c
  | .done s => .done s
  | .trap s => .trap s

/-- What the leaves do, and how a conditional reads its condition. -/
structure Leaves (L σ : Type) where
  exec : L → σ → Effect σ σ
  cond : σ → Option (Bool × σ)

variable {L σ : Type}

/-! ### Nesting -/

/-- The code behind the end of the construct that the code is in. -/
def skip : Nat → List (Tok L) → List (Tok L)
  | _, [] => []
  | n, .block :: code => skip (n + 1) code
  | n, .loop :: code => skip (n + 1) code
  | n, .ite :: code => skip (n + 1) code
  | 0, .close :: code => code
  | n + 1, .close :: code => skip n code
  | n, .leaf _ :: code => skip n code
  | n, .els :: code => skip n code
  | n, .br _ :: code => skip n code

/-- The second arm of the conditional that the code is in. -/
def skipElse : Nat → List (Tok L) → List (Tok L)
  | _, [] => []
  | n, .block :: code => skipElse (n + 1) code
  | n, .loop :: code => skipElse (n + 1) code
  | n, .ite :: code => skipElse (n + 1) code
  | 0, .close :: code => .close :: code
  | n + 1, .close :: code => skipElse n code
  | 0, .els :: code => code
  | n + 1, .els :: code => skipElse (n + 1) code
  | n, .leaf _ :: code => skipElse n code
  | n, .br _ :: code => skipElse n code

/-- Every construct that is opened is closed again. -/
structure Balanced (code : List (Tok L)) : Prop where
  skip : ∀ n rest, Structured.skip n (code ++ rest) = Structured.skip n rest
  skipElse : ∀ n rest, Structured.skipElse n (code ++ rest) = Structured.skipElse n rest

namespace Balanced

theorem nil : Balanced ([] : List (Tok L)) := ⟨fun _ _ => rfl, fun _ _ => rfl⟩

theorem append {c c' : List (Tok L)} (h : Balanced c) (h' : Balanced c') :
    Balanced (c ++ c') where
  skip n rest := by rw [List.append_assoc, h.skip, h'.skip]
  skipElse n rest := by rw [List.append_assoc, h.skipElse, h'.skipElse]

theorem leaf (a : L) : Balanced [Tok.leaf a] :=
  ⟨fun n _ => by cases n <;> rfl, fun n _ => by cases n <;> rfl⟩

theorem br (d : Nat) : Balanced [(Tok.br d : Tok L)] :=
  ⟨fun n _ => by cases n <;> rfl, fun n _ => by cases n <;> rfl⟩

theorem leaves (l : List L) : Balanced (l.map Tok.leaf) := by
  induction l with
  | nil => exact nil
  | cons a l ih => exact (leaf a).append ih

theorem block {c : List (Tok L)} (h : Balanced c) : Balanced (.block :: (c ++ [.close])) where
  skip n rest := by
    rw [List.cons_append, List.append_assoc, Structured.skip, h.skip]
    rfl
  skipElse n rest := by
    rw [List.cons_append, List.append_assoc, Structured.skipElse, h.skipElse]
    rfl

theorem loop {c : List (Tok L)} (h : Balanced c) : Balanced (.loop :: (c ++ [.close])) where
  skip n rest := by
    rw [List.cons_append, List.append_assoc, Structured.skip, h.skip]
    rfl
  skipElse n rest := by
    rw [List.cons_append, List.append_assoc, Structured.skipElse, h.skipElse]
    rfl

theorem ite {c c' : List (Tok L)} (h : Balanced c) (h' : Balanced c') :
    Balanced (.ite :: (c ++ .els :: (c' ++ [.close]))) where
  skip n rest := by
    rw [List.cons_append, List.append_assoc, Structured.skip, h.skip, List.cons_append,
      List.append_assoc, Structured.skip, h'.skip]
    rfl
  skipElse n rest := by
    rw [List.cons_append, List.append_assoc, Structured.skipElse, h.skipElse, List.cons_append,
      List.append_assoc, Structured.skipElse, h'.skipElse]
    rfl

/-- Balanced code up to the end of the construct. -/
theorem skip_close {c : List (Tok L)} (h : Balanced c) (rest : List (Tok L)) :
    Structured.skip 0 (c ++ .close :: rest) = rest := h.skip 0 _

/-- Balanced code up to the second arm. -/
theorem skipElse_els {c : List (Tok L)} (h : Balanced c) (rest : List (Tok L)) :
    Structured.skipElse 0 (c ++ .els :: rest) = rest := h.skipElse 0 _

/-- Both arms are skipped to get behind a conditional. -/
theorem skip_els {c c' : List (Tok L)} (h : Balanced c) (h' : Balanced c')
    (rest : List (Tok L)) : Structured.skip 0 (c ++ .els :: (c' ++ .close :: rest)) = rest := by
  rw [h.skip, Structured.skip, h'.skip_close]

end Balanced

/-! ### The machine -/

/-- The code that is left, the targets of branches from it, innermost first, and the state. -/
structure Config (L σ : Type) where
  code : List (Tok L)
  labels : List (List (Tok L))
  state : σ

/-- One step.  The end of the code must not be reached. -/
def step (P : Leaves L σ) (c : Config L σ) : Effect (Config L σ) σ :=
  match c.code with
  | [] => .trap c.state
  | .leaf a :: code => (P.exec a c.state).bind fun s => .next { c with code := code, state := s }
  | .block :: code => .next { c with code := code, labels := skip 0 code :: c.labels }
  | .loop :: code => .next { c with code := code, labels := (.loop :: code) :: c.labels }
  | .ite :: code =>
    match P.cond c.state with
    | some (b, s) => .next {
      code := if b then code else skipElse 0 code
      labels := skip 0 code :: c.labels
      state := s }
    | none => .trap c.state
  | .els :: _ =>
    match c.labels with
    | l :: ls => .next { c with code := l, labels := ls }
    | [] => .trap c.state
  | .close :: code =>
    match c.labels with
    | _ :: ls => .next { c with code := code, labels := ls }
    | [] => .trap c.state
  | .br d :: _ =>
    match c.labels[d]? with
    | some l => .next { c with code := l, labels := c.labels.drop (d + 1) }
    | none => .trap c.state

/-- A sequence of leaves. -/
def runLeaves (P : Leaves L σ) : List L → σ → Effect σ σ
  | [], s => .next s
  | a :: l, s => (P.exec a s).bind (runLeaves P l)

/-! ### Runs -/

section Runs

variable {C : Type} {f : C → Effect C σ} {c c' : C} {e : Effect C σ} {n m : Nat}

/-- The machine after `n` steps, or as it was when it ended. -/
def after (f : C → Effect C σ) (n : Nat) (c : C) : Effect C σ :=
  (fun e => e.bind f)^[n] (.next c)

theorem after_succ (f : C → Effect C σ) (n : Nat) (c : C) :
    after f (n + 1) c = (after f n c).bind f :=
  Function.iterate_succ_apply' _ _ _

theorem after_add (h : after f n c = .next c') (m : Nat) : after f (n + m) c = after f m c' := by
  rw [after, Nat.add_comm, Function.iterate_add_apply]
  exact congrArg (fun e => e.bind f)^[m] h

/-- A machine that has ended does not move. -/
theorem after_of_ended (h : after f n c = e) (he : ∀ c', e ≠ .next c') (hnm : n ≤ m) :
    after f m c = e := by
  induction hnm with
  | refl => exact h
  | step _ ih =>
    rw [after_succ, ih]
    cases e with
    | next c' => exact absurd rfl (he c')
    | done s => rfl
    | trap s => rfl

/-- The machine gets from `c` to `e` in `n` steps or more. -/
def Gets (f : C → Effect C σ) (n : Nat) (c : C) (e : Effect C σ) : Prop :=
  ∃ m, n ≤ m ∧ after f m c = e

theorem Gets.refl (f : C → Effect C σ) (c : C) : Gets f 0 c (.next c) := ⟨0, Nat.le_refl 0, rfl⟩

theorem Gets.trans (h : Gets f n c (.next c')) (h' : Gets f m c' e) : Gets f (n + m) c e := by
  obtain ⟨k, hk, hkc⟩ := h
  obtain ⟨l, hl, hle⟩ := h'
  refine ⟨k + l, by omega, ?_⟩
  rw [after_add hkc]
  exact hle

theorem Gets.of_step (h : f c = e) : Gets f 1 c e := ⟨1, Nat.le_refl 1, h⟩

theorem Gets.anti (h : Gets f n c e) (hmn : m ≤ n) : Gets f m c e := by
  obtain ⟨k, hk, hke⟩ := h
  exact ⟨k, by omega, hke⟩

/-- A step in front. -/
theorem Gets.head (h : f c = .next c') (h' : Gets f n c' e) : Gets f (n + 1) c e := by
  rw [Nat.add_comm]
  exact (Gets.of_step h).trans h'

/-- Once a machine has ended, any number of steps can be counted. -/
theorem Gets.of_ended (h : Gets f n c e) (he : ∀ c', e ≠ .next c') (m : Nat) : Gets f m c e := by
  obtain ⟨k, -, hke⟩ := h
  exact ⟨k + m, by omega, after_of_ended hke he (by omega)⟩

end Runs

/-- Leaves are executed one after the other. -/
theorem gets_leaves (P : Leaves L σ) (l : List L) (rest : List (Tok L))
    (labels : List (List (Tok L))) (s : σ) :
    Gets (step P) l.length ⟨l.map Tok.leaf ++ rest, labels, s⟩
      ((runLeaves P l s).bind fun s => .next ⟨rest, labels, s⟩) := by
  induction l generalizing s with
  | nil => exact Gets.refl _ _
  | cons a l ih =>
    have hstep : step P ⟨(a :: l).map Tok.leaf ++ rest, labels, s⟩ =
        (P.exec a s).bind fun s => .next ⟨l.map Tok.leaf ++ rest, labels, s⟩ := rfl
    rw [runLeaves]
    cases he : P.exec a s with
    | next s' =>
      rw [he] at hstep
      exact (ih s').head hstep
    | done s' =>
      rw [he] at hstep
      exact (Gets.of_step hstep).of_ended (fun _ h => nomatch h) _
    | trap s' =>
      rw [he] at hstep
      exact (Gets.of_step hstep).of_ended (fun _ h => nomatch h) _

/-! ### Simulation -/

/-- What has become of two machines: related configurations, or the same end. -/
inductive SameEnd {C D : Type} (R : C → D → Prop) : Effect C σ → Effect D σ → Prop
  | next {c : C} {d : D} : R c d → SameEnd R (.next c) (.next d)
  | done {s : σ} : SameEnd R (.done s) (.done s)
  | trap {s : σ} : SameEnd R (.trap s) (.trap s)

section Simulation

variable {C D : Type} {f : C → Effect C σ} {g : D → Effect D σ} {R : C → D → Prop}
  {rank : C → Nat} {c : C} {d : D}

/-- The second machine gets from `d` to where the first one has got to.  If it may do so
without a step, the first one has to be at a smaller configuration. -/
def Reached (g : D → Effect D σ) (R : C → D → Prop) (smaller : C → Prop) (e : Effect C σ) (d : D) :
    Prop :=
  ∃ e', SameEnd R e e' ∧ (Gets g 1 d e' ∨ Gets g 0 d e' ∧ ∀ c', e = .next c' → smaller c')

theorem Reached.of_gets {smaller : C → Prop} {e : Effect C σ} {d' : D} {n : Nat}
    (hd : Gets g n d (.next d')) (h : Reached g R smaller e d') : Reached g R smaller e d := by
  obtain ⟨e', hsame, h | ⟨h, hsmaller⟩⟩ := h
  · exact ⟨e', hsame, Or.inl ((hd.trans h).anti (by omega))⟩
  · exact ⟨e', hsame, Or.inr ⟨(hd.trans h).anti (by omega), hsmaller⟩⟩

/-- Leaves in front. -/
theorem Reached.leaves {P : Leaves L σ} {R : C → Config L σ → Prop} {smaller : C → Prop}
    {k : σ → Effect C σ} {l : List L} {rest : List (Tok L)} {labels : List (List (Tok L))} {s : σ}
    (h : ∀ s', runLeaves P l s = .next s' → Reached (step P) R smaller (k s') ⟨rest, labels, s'⟩) :
    Reached (step P) R smaller ((runLeaves P l s).bind k)
      ⟨l.map Tok.leaf ++ rest, labels, s⟩ := by
  have hgets := gets_leaves P l rest labels s
  cases hrun : runLeaves P l s with
  | next s' =>
    rw [hrun] at hgets
    exact (h s' hrun).of_gets hgets
  | done s' =>
    rw [hrun] at hgets
    exact ⟨_, .done, Or.inl (hgets.of_ended (fun _ h => nomatch h) 1)⟩
  | trap s' =>
    rw [hrun] at hgets
    exact ⟨_, .trap, Or.inl (hgets.of_ended (fun _ h => nomatch h) 1)⟩

/-- The step from `c` is matched by steps from `d`. -/
def Matched (f : C → Effect C σ) (g : D → Effect D σ) (R : C → D → Prop) (rank : C → Nat) (c : C)
    (d : D) : Prop :=
  Reached g R (fun c' => rank c' < rank c) (f c) d

theorem Matched.gets (h : Matched f g R rank c d) : ∃ e, SameEnd R (f c) e ∧ Gets g 0 d e := by
  obtain ⟨e, hsame, h | h⟩ := h
  · exact ⟨e, hsame, h.anti (Nat.zero_le 1)⟩
  · exact ⟨e, hsame, h.1⟩

/-- If the step ends the run, any number of steps can be counted. -/
theorem Matched.gets_of_ended (h : Matched f g R rank c d) (hf : ∀ c', f c ≠ .next c') (m : Nat) :
    ∃ e, SameEnd R (f c) e ∧ Gets g m d e := by
  obtain ⟨e, hsame, hgets⟩ := h.gets
  refine ⟨e, hsame, hgets.of_ended (fun d' hd' => ?_) m⟩
  subst hd'
  generalize hc : f c = e at hsame
  cases hsame
  exact hf _ hc

/-- Every run of the first machine is matched by one of the second. -/
theorem exists_after (hstep : ∀ c d, R c d → Matched f g R rank c d) (h : R c d) (n : Nat) :
    ∃ m, SameEnd R (after f n c) (after g m d) := by
  induction n with
  | zero => exact ⟨0, .next h⟩
  | succ n ih =>
    obtain ⟨m, hsame⟩ := ih
    rw [after_succ]
    generalize hf : after f n c = e at hsame
    generalize hg : after g m d = e' at hsame
    cases hsame with
    | next h' =>
      obtain ⟨e, hsame, k, -, hk⟩ := (hstep _ _ h').gets
      refine ⟨m + k, ?_⟩
      rw [after_add hg, hk]
      exact hsame
    | done =>
      refine ⟨m, ?_⟩
      rw [hg]
      exact .done
    | trap =>
      refine ⟨m, ?_⟩
      rw [hg]
      exact .trap

/-- Every run of the second machine is the beginning of one that matches a run of the
first. -/
theorem exists_after_of_le (hstep : ∀ c d, R c d → Matched f g R rank c d) (h : R c d) (m : Nat) :
    ∃ n k, m ≤ k ∧ SameEnd R (after f n c) (after g k d) := by
  induction m generalizing c d with
  | zero => exact ⟨0, 0, Nat.le_refl 0, .next h⟩
  | succ m ih =>
    -- a step without a match is followed by one of smaller rank
    induction hr : rank c using Nat.strongRecOn generalizing c d with
    | _ r ihr =>
      cases hf : f c with
      | next c' =>
        have hafter : after f 1 c = .next c' := hf
        obtain ⟨e, hsame, hgets⟩ := hstep c d h
        rw [hf] at hsame
        cases hsame with
        | next h' =>
          rcases hgets with ⟨k, hk, hd⟩ | ⟨⟨k, hk, hd⟩, hrank⟩
          · obtain ⟨n, l, hl, hsame⟩ := ih h'
            refine ⟨1 + n, k + l, by omega, ?_⟩
            rw [after_add hafter, after_add hd]
            exact hsame
          · obtain ⟨n, l, hl, hsame⟩ := ihr (rank c') (hr ▸ hrank c' hf) h' rfl
            refine ⟨1 + n, k + l, by omega, ?_⟩
            rw [after_add hafter, after_add hd]
            exact hsame
      | done s =>
        obtain ⟨e, hsame, k, hk, hd⟩ := (hstep c d h).gets_of_ended
          (by rw [hf]; exact fun _ h => nomatch h) (m + 1)
        exact ⟨1, k, hk, hd ▸ hsame⟩
      | trap s =>
        obtain ⟨e, hsame, k, hk, hd⟩ := (hstep c d h).gets_of_ended
          (by rw [hf]; exact fun _ h => nomatch h) (m + 1)
        exact ⟨1, k, hk, hd ▸ hsame⟩

end Simulation

/-! ### Invariants

A state may be out of order in the middle of a sequence of leaves, as long as it is in order
again when control flow is reached. -/

section Invariants

variable (P : Leaves L σ) (I : σ → Prop) (Ok : L → σ → Prop) (Done : σ → Prop)

/-- The leaves lead to a state in order.  Every one of them is executed where it is allowed,
and the run only ends in states that are allowed. -/
def OnTrack : List L → σ → Prop
  | [], s => I s
  | a :: l, s => Ok a s ∧
    match P.exec a s with
    | .next s => OnTrack l s
    | .done s => Done s
    | .trap _ => True

section Tracks

variable {P I Ok Done} {J : σ → Prop}

theorem onTrack_cons {a : L} {l : List L} {s : σ} (hok : Ok a s)
    (h : ∀ s', P.exec a s = .next s' → OnTrack P I Ok Done l s')
    (hdone : ∀ s', P.exec a s = .done s' → Done s') : OnTrack P I Ok Done (a :: l) s := by
  refine ⟨hok, ?_⟩
  cases he : P.exec a s with
  | next s' => exact h s' he
  | done s' => exact hdone s' he
  | trap s' => trivial

theorem OnTrack.append {l l' : List L} {s : σ} (h : OnTrack P J Ok Done l s)
    (h' : ∀ s, J s → OnTrack P I Ok Done l' s) : OnTrack P I Ok Done (l ++ l') s := by
  induction l generalizing s with
  | nil => exact h' s h
  | cons a l ih =>
    obtain ⟨hok, hrest⟩ := h
    refine onTrack_cons hok (fun s' he => ?_) fun s' he => ?_
    · rw [he] at hrest
      exact ih hrest
    · rw [he] at hrest
      exact hrest

end Tracks

/-- Code of which all sequences of leaves have a property. -/
inductive Segmented (good : List L → Prop) : List (Tok L) → Prop
  | nil : Segmented good []
  | control {t : Tok L} {code : List (Tok L)} : (∀ a, t ≠ .leaf a) → Segmented good code →
      Segmented good (t :: code)
  | leaves {l : List L} {code : List (Tok L)} : good l → Segmented good code →
      Segmented good (l.map .leaf ++ code)

variable {P I Ok Done} {good : List L → Prop}

theorem Segmented.append {code code' : List (Tok L)} (h : Segmented good code)
    (h' : Segmented good code') : Segmented good (code ++ code') := by
  induction h with
  | nil => exact h'
  | control ht _ ih => exact .control ht ih
  | leaves hl _ ih =>
    rw [List.append_assoc]
    exact .leaves hl ih

theorem Segmented.skip {code : List (Tok L)} (h : Segmented good code) (n : Nat) :
    Segmented good (skip n code) := by
  induction h generalizing n with
  | nil => exact .nil
  | @control t code ht h ih =>
    cases t with
    | leaf a => exact absurd rfl (ht a)
    | close =>
      cases n with
      | zero => exact h
      | succ n => exact ih n
    | _ => cases n <;> exact ih _
  | leaves _ _ ih =>
    rw [(Balanced.leaves _).skip]
    exact ih n

theorem Segmented.skipElse {code : List (Tok L)} (h : Segmented good code) (n : Nat) :
    Segmented good (skipElse n code) := by
  induction h generalizing n with
  | nil => exact .nil
  | @control t code ht h ih =>
    cases t with
    | leaf a => exact absurd rfl (ht a)
    | close =>
      cases n with
      | zero => exact .control ht h
      | succ n => exact ih n
    | els =>
      cases n with
      | zero => exact h
      | succ n => exact ih (n + 1)
    | _ => cases n <;> exact ih _
  | leaves _ _ ih =>
    rw [(Balanced.leaves _).skipElse]
    exact ih n

/-- The machine is in the middle of leaves that keep to the rules, and all other leaves do as
well. -/
structure Tracked (P : Leaves L σ) (I : σ → Prop) (Ok : L → σ → Prop) (Done : σ → Prop)
    (c : Config L σ) : Prop where
  code : ∃ l rest, c.code = l.map .leaf ++ rest ∧ OnTrack P I Ok Done l c.state ∧
    Segmented (fun l => ∀ s, I s → OnTrack P I Ok Done l s) rest
  labels : ∀ label ∈ c.labels, Segmented (fun l => ∀ s, I s → OnTrack P I Ok Done l s) label

/-- What may come of a step. -/
def Effect.Keeps {C : Type} (good : C → Prop) (Done : σ → Prop) : Effect C σ → Prop
  | .next c => good c
  | .done s => Done s
  | .trap _ => True

theorem Tracked.of_segmented {c : Config L σ} (hI : I c.state)
    (hcode : Segmented (fun l => ∀ s, I s → OnTrack P I Ok Done l s) c.code)
    (hlabels : ∀ label ∈ c.labels, Segmented (fun l => ∀ s, I s → OnTrack P I Ok Done l s) label) :
    Tracked P I Ok Done c :=
  ⟨⟨[], c.code, rfl, hI, hcode⟩, hlabels⟩

theorem Tracked.step_leaf {code : List (Tok L)} {labels : List (List (Tok L))} {s : σ} {a : L}
    {l : List L} (htrack : OnTrack P I Ok Done (a :: l) s)
    (hcode : Segmented (fun l => ∀ s, I s → OnTrack P I Ok Done l s) code)
    (hlabels : ∀ label ∈ labels, Segmented (fun l => ∀ s, I s → OnTrack P I Ok Done l s) label) :
    (step P ⟨(a :: l).map .leaf ++ code, labels, s⟩).Keeps (Tracked P I Ok Done) Done := by
  have hstep : step P ⟨(a :: l).map .leaf ++ code, labels, s⟩ =
      (P.exec a s).bind fun s => .next ⟨l.map .leaf ++ code, labels, s⟩ := rfl
  rw [hstep]
  have hexec := htrack.2
  cases he : P.exec a s with
  | next s' =>
    rw [he] at hexec
    exact ⟨⟨l, code, rfl, hexec, hcode⟩, hlabels⟩
  | done s' =>
    rw [he] at hexec
    exact hexec
  | trap s' => trivial

/-- Steps keep to the rules. -/
theorem Tracked.step (hcond : ∀ s b s', I s → P.cond s = some (b, s') → I s') {c : Config L σ}
    (h : Tracked P I Ok Done c) : (step P c).Keeps (Tracked P I Ok Done) Done := by
  obtain ⟨code, labels, s⟩ := c
  obtain ⟨⟨l, rest, hcode, htrack, hrest⟩, hlabels⟩ := h
  dsimp only at hcode htrack hlabels
  subst hcode
  cases l with
  | cons a l => exact Tracked.step_leaf htrack hrest hlabels
  | nil =>
    rw [List.map_nil, List.nil_append]
    induction hrest with
    | nil => trivial
    | @leaves l code hl hcode ih =>
      cases l with
      | nil => exact ih
      | cons a l => exact Tracked.step_leaf (hl s htrack) hcode hlabels
    | @control t code ht hcode ih =>
      cases t with
      | leaf a => exact absurd rfl (ht a)
      | block =>
        exact .of_segmented htrack hcode
          (List.forall_mem_cons.mpr ⟨hcode.skip 0, hlabels⟩)
      | loop =>
        exact .of_segmented htrack hcode
          (List.forall_mem_cons.mpr ⟨.control ht hcode, hlabels⟩)
      | ite =>
        unfold Structured.step
        dsimp only
        cases hc : P.cond s with
        | none => trivial
        | some p =>
          refine .of_segmented (hcond s p.1 p.2 htrack hc) ?_
            (List.forall_mem_cons.mpr ⟨hcode.skip 0, hlabels⟩)
          dsimp only
          split
          · exact hcode
          · exact hcode.skipElse 0
      | els =>
        cases labels with
        | nil => trivial
        | cons label labels =>
          obtain ⟨hlabel, hlabels⟩ := List.forall_mem_cons.mp hlabels
          exact .of_segmented htrack hlabel hlabels
      | close =>
        cases labels with
        | nil => trivial
        | cons label labels =>
          exact .of_segmented htrack hcode (List.forall_mem_cons.mp hlabels).2
      | br d =>
        unfold Structured.step
        dsimp only
        cases hd : labels[d]? with
        | none => trivial
        | some label =>
          exact .of_segmented htrack (hlabels label (List.mem_of_getElem? hd))
            fun label' hlabel' => hlabels label' (List.mem_of_mem_drop hlabel')

/-- **Runs keep to the rules.** -/
theorem Tracked.after (hcond : ∀ s b s', I s → P.cond s = some (b, s') → I s') {c : Config L σ}
    (h : Tracked P I Ok Done c) (n : Nat) :
    (Structured.after (Structured.step P) n c).Keeps (Tracked P I Ok Done) Done := by
  induction n with
  | zero => exact h
  | succ n ih =>
    rw [after_succ]
    cases hc : Structured.after (Structured.step P) n c with
    | next c' =>
      rw [hc] at ih
      exact ih.step hcond
    | done s =>
      rw [hc] at ih
      exact ih
    | trap s => trivial

/-- A leaf is executed where it is allowed. -/
theorem Tracked.ok {c : Config L σ} (h : Tracked P I Ok Done c) {a : L} {code : List (Tok L)}
    (hcode : c.code = .leaf a :: code) : Ok a c.state := by
  obtain ⟨⟨l, rest, hl, htrack, hrest⟩, -⟩ := h
  rw [hcode] at hl
  cases l with
  | cons b l =>
    obtain ⟨hb, -⟩ := List.cons.inj hl
    cases hb
    exact htrack.1
  | nil =>
    rw [List.map_nil, List.nil_append] at hl
    subst hl
    generalize hrest' : Tok.leaf a :: code = code' at hrest
    induction hrest with
    | nil => cases hrest'
    | control ht _ _ =>
      obtain ⟨rfl, -⟩ := List.cons.inj hrest'
      exact absurd rfl (ht a)
    | @leaves l code' hl _ ih =>
      cases l with
      | nil => exact ih hrest'
      | cons b l =>
        obtain ⟨hb, -⟩ := List.cons.inj hrest'
        cases hb
        exact (hl c.state htrack).1

end Invariants

end Ruju.Structured
