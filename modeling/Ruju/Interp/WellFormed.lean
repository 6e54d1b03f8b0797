import Mathlib.Tactic.Common
import Ruju.Library.Keeps
import Ruju.Interp.Eval

/-!
# Well-formed bodies stay inside their frame and their code

A body is well formed when its slot operands are below the slot count, its SSA
operands and targets below the number of statements, every call has a callee, and
the last statement does not fall through; the same for the bodies of the methods it
defines.  It also has to have a frame: its slots and statements are fewer than `2 ^ 32`
together.  Then no statement of `eval_core` uses an index outside the frame or the
code, however the primitives behave and whatever methods are called on the way.

The one index that well-formedness says nothing about is the slot that a method's
argument is seeded to: nothing ties the number of slots to the signature.
-/

namespace Ruju.Interp

variable {V H : Type}

/-! ### Well-formedness -/

/-- The operand's index is in range. -/
def Op.fits (nslots len : Nat) : Op V → Bool
  | .ssa i => decide (i < len)
  | .slot k => decide (k < nslots)
  | _ => true

/-- Control can reach the next statement. -/
def Stmt.fallsThrough : Stmt V → Bool
  | .goto _ | .return _ | .throw _ | .rethrow => false
  | _ => true

/-- The number of entries of the frame does not wrap around. -/
def hasFrame (nslots len : Nat) : Bool := decide (nslots + len < 2 ^ 32)

/-- The last statement exists and does not fall through. -/
def endsInJump (code : List (Stmt V)) : Bool :=
  match code.getLast? with
  | some s => !s.fallsThrough
  | none => false

mutual

/-- The statement's indices are in range, and the method it defines, if any, is well
formed. -/
def Stmt.fits (nslots len : Nat) : Stmt V → Bool
  | .value op | .return op | .throw op | .popException op | .len op | .isDefined op =>
    op.fits nslots len
  | .call _ args | .callGeneric _ args | .new _ args | .arrayLit args =>
    args.all (Op.fits nslots len)
  | .callValue args => !args.isEmpty && args.all (Op.fits nslots len)
  | .assign slot op => decide (slot < nslots) && op.fits nslots len
  | .assignCall slot args =>
    decide (slot < nslots) && !args.isEmpty && args.all (Op.fits nslots len)
  | .assignGlobal _ op | .getField op _ => op.fits nslots len
  | .goto target | .enter target => decide (target < len)
  | .gotoIfNot cond target => cond.fits nslots len && decide (target < len)
  | .setField a _ b | .arrayRef a b | .push a b => a.fits nslots len && b.fits nslots len
  | .arraySet a b c => a.fits nslots len && b.fits nslots len && c.fits nslots len
  | .assignCaught slot => decide (slot < nslots)
  | .leave _ | .methodFunc _ | .caught | .rethrow | .latestWorld => true
  | .methodDef f sig n code =>
    f.fits nslots len && sig.fits nslots len && allFit n code.length code && endsInJump code &&
      hasFrame n code.length

/-- All statements are in range. -/
def allFit (nslots len : Nat) : List (Stmt V) → Bool
  | [] => true
  | s :: code => s.fits nslots len && allFit nslots len code

end

/-- A well-formed body. -/
def Body.wellFormed (body : Body V) : Bool :=
  allFit body.nslots body.code.length body.code && endsInJump body.code &&
    hasFrame body.nslots body.code.length

theorem Body.wellFormed_iff {body : Body V} : body.wellFormed = true ↔
    allFit body.nslots body.code.length body.code = true ∧ endsInJump body.code = true ∧
      body.nslots + body.code.length < 2 ^ 32 := by
  simp only [Body.wellFormed, hasFrame, Bool.and_eq_true, decide_eq_true_eq, and_assoc]

theorem fits_of_allFit {nslots len : Nat} {code : List (Stmt V)} (h : allFit nslots len code = true)
    {s : Stmt V} (hs : s ∈ code) : s.fits nslots len = true := by
  induction code with
  | nil => exact absurd hs List.not_mem_nil
  | cons t code ih =>
    rw [allFit, Bool.and_eq_true] at h
    rcases List.mem_cons.mp hs with rfl | hs
    · exact h.1
    · exact ih h.2 hs

theorem Body.fits {body : Body V} (h : body.wellFormed = true) {ip : Nat} {s : Stmt V}
    (hs : body.code[ip]? = some s) : s.fits body.nslots body.code.length = true := by
  exact fits_of_allFit (Body.wellFormed_iff.mp h).1 (List.mem_of_getElem? hs)

/-- A statement that falls through is not the last one. -/
theorem Body.next_lt {body : Body V} (h : body.wellFormed = true) {ip : Nat} {s : Stmt V}
    (hs : body.code[ip]? = some s) (hfall : s.fallsThrough = true) :
    ip + 1 < body.code.length := by
  obtain ⟨hlt, rfl⟩ := List.getElem?_eq_some_iff.mp hs
  by_contra hlast
  have hlast : body.code.getLast? = some body.code[ip] := by
    rw [List.getLast?_eq_getElem?, ← hs]
    congr 1
    omega
  have := (Body.wellFormed_iff.mp h).2.1
  rw [endsInJump, hlast] at this
  simp [hfall] at this

/-! ### The invariant of an activation -/

/-- Interpreted methods are well formed. -/
def State.Sane (st : State V H) : Prop :=
  ∀ e ∈ st.methods, e.fptr1 = none → e.body.wellFormed = true

/-- What stays while a statement executes. -/
structure Inside (body : Body V) (ip : Nat) (c : Config V H) : Prop where
  ip_eq : c.ip = ip
  ip_lt : c.ip < body.code.length
  frame : c.frame.length = body.nslots + body.code.length
  handlers : ∀ t ∈ c.handlers, t < body.code.length
  sane : c.state.Sane

/-- No index was outside, and no frame was too small. -/
def Stop.Harmless (stop : Stop) : Prop := stop ≠ .outside ∧ stop ≠ .frameWraps

/-- A call that ends leaves sane methods, and no index was outside. -/
def SafeCall (r : CallResult V H) : Prop :=
  match r with
  | .error stop => stop.Harmless
  | .ok (_, st) => st.Sane

section Statements

variable {P : Prims V H} {body : Body V} {ip : Nat}

/-- The statement keeps the activation inside. -/
abbrev Safe {α : Type} (body : Body V) (ip : Nat) (m : EvalM V H α) (Q : α → Prop) : Prop :=
  Keeps (Inside body ip) Stop.Harmless m Q

theorem Inside.with_heap {c : Config V H} (i : Inside body ip c) (h : H) :
    Inside body ip { c with state := { c.state with heap := h } } :=
  { i with sane := i.sane }

theorem safe_getFrame {i : Nat} (hi : i < body.nslots + body.code.length) :
    Safe body ip (getFrame i : EvalM V H V) fun _ => True := by
  intro c hc
  have hlt : i < c.frame.length := hc.frame ▸ hi
  rw [getFrame, List.getElem?_eq_getElem hlt]
  exact ⟨hc, trivial⟩

/-- A write below the frame length stays inside. -/
theorem safe_setFrame {i : Nat} {v : V} (hi : i < body.nslots + body.code.length) :
    Safe body ip (setFrame i v : EvalM V H Unit) fun _ => True := by
  intro c hc
  rw [setFrame, if_pos (hc.frame ▸ hi)]
  refine ⟨{ hc with frame := ?_ }, trivial⟩
  rw [List.length_set]
  exact hc.frame

theorem safe_setResult {v : V} :
    Safe body ip (setResult body.nslots v : EvalM V H Unit) fun _ => True := by
  intro c hc
  have hip : body.nslots + c.ip < body.nslots + body.code.length := by
    have := hc.ip_lt
    omega
  exact safe_setFrame hip c hc

theorem safe_onHeap {α : Type} {f : HeapOp V H α} : Safe body ip (onHeap f) fun _ => True := by
  intro c hc
  rw [onHeap]
  cases (f c.state.heap).1 with
  | error e => exact hc.with_heap _
  | ok a => exact ⟨hc.with_heap _, trivial⟩

theorem safe_onState {f : State V H → CallResult V H}
    (hf : ∀ st : State V H, st.Sane → SafeCall (f st)) :
    Safe body ip (onState f) fun _ => True := by
  intro c hc
  have h := hf c.state hc.sane
  rw [onState]
  cases hr : f c.state with
  | error stop =>
    rw [hr] at h
    exact h
  | ok r =>
    obtain ⟨r, st⟩ := r
    rw [hr] at h
    have hc' : Inside body ip { c with state := st } := { hc with sane := h }
    cases r with
    | error e => exact hc'
    | ok v => exact ⟨hc', trivial⟩

/-- The calls of an activation are safe. -/
structure SafeCalls (calls : Calls V H) : Prop where
  value : ∀ (f : V) (args : List V) (st : State V H), st.Sane → SafeCall (calls.value f args st)
  invoke : ∀ (f : Nat) (args : List V) (st : State V H), st.Sane → SafeCall (calls.invoke f args st)

/-- A call with a callee stays safe through the callee. -/
theorem safe_callArgs {calls : Calls V H} (hcalls : SafeCalls calls) {vals : List V}
    (hvals : vals ≠ []) : Safe body ip (callArgs calls vals) fun _ => True := by
  cases vals with
  | nil => exact absurd rfl hvals
  | cons f vals => exact safe_onState fun st hst => hcalls.value f vals st hst

/-- Where a statement may send control. -/
def Flow.Within (body : Body V) (s : Stmt V) : Flow V → Prop
  | .next => s.fallsThrough = true
  | .goto target => target < body.code.length
  | .ret _ | .resume _ => True

/-- Storing a result and going on. -/
theorem safe_result {s : Stmt V} (hs : s.fallsThrough = true) {v : V} :
    Safe body ip (do setResult body.nslots v; pure .next : EvalM V H (Flow V))
      (Flow.Within body s) :=
  safe_setResult.bind fun _ _ => Keeps.pure hs

/-! ### Activations -/

/-- What holds between two statements. -/
def Within (body : Body V) (c : Config V H) : Prop := Inside body c.ip c

/-- What holds after a round. -/
def Progress.Safe (body : Body V) : Progress V H → Prop
  | .running c => Within body c
  | .finished _ c => c.state.Sane

theorem Inside.unwind {e : V} {exc : List V} {c : Config V H} (hc : Inside body ip c) :
    (unwind e exc c).Safe body := by
  unfold Interp.unwind
  cases hh : c.handlers with
  | nil => exact hc.sane
  | cons t handlers =>
    refine { ip_eq := rfl, ip_lt := ?_, frame := hc.frame, handlers := ?_, sane := hc.sane }
    · exact hc.handlers t (hh ▸ List.mem_cons_self)
    · exact fun u hu => hc.handlers u (hh ▸ List.mem_cons_of_mem t hu)

/-- Seeding keeps the size of the frame. -/
def SafeFrame (n : Nat) : Except Stop (List V) → Prop
  | .error stop => stop.Harmless
  | .ok frame => frame.length = n

theorem safe_seedFrame (seed : List (Nat × V)) : ∀ frame : List V,
    SafeFrame frame.length (seedFrame seed frame) := by
  induction seed with
  | nil => exact fun frame => rfl
  | cons a seed ih =>
    intro frame
    rw [seedFrame]
    split
    · have := ih (frame.set a.1 a.2)
      rwa [List.length_set] at this
    · exact ⟨Stop.noConfusion, Stop.noConfusion⟩

/-- An activation starts inside its body, or not at all. -/
theorem Within.start (seed : List (Nat × V)) {st : State V H} (hbody : body.wellFormed = true)
    (hst : st.Sane) :
    match start P body seed st with
    | .error stop => stop.Harmless
    | .ok c => Within body c := by
  have h := safe_seedFrame seed (List.replicate (body.nslots + body.code.length) P.null)
  unfold Interp.start
  cases hr : seedFrame seed (List.replicate (body.nslots + body.code.length) P.null) with
  | error stop =>
    rw [hr] at h
    exact h
  | ok frame =>
    rw [hr] at h
    have hends := (Body.wellFormed_iff.mp hbody).2.1
    have hpos : 0 < body.code.length := by
      rw [List.length_pos_iff]
      intro hnil
      simp [hnil, endsInJump] at hends
    exact { ip_eq := rfl, ip_lt := hpos, frame := by simpa [SafeFrame] using h,
            handlers := fun t ht => absurd ht List.not_mem_nil, sane := hst }

theorem mem_of_select {methods : List (Entry V)} {func : Nat} {argtuple : V} {h : H} {e : Entry V}
    (he : select P methods func argtuple h = some e) : e ∈ methods := by
  unfold select at he
  dsimp only at he
  split at he
  · rename_i e' hfind
    obtain rfl := Option.some.inj he
    exact (List.mem_filter.mp (List.mem_of_find?_eq_some hfind)).1
  · exact (List.mem_filter.mp (List.mem_of_head? he)).1

/-- Dispatch enters well-formed bodies only. -/
theorem safe_invoke {enter : Body V → List (Nat × V) → State V H → CallResult V H}
    (henter : ∀ (body : Body V) (seed : List (Nat × V)) (st : State V H),
      body.wellFormed = true → st.Sane → SafeCall (enter body seed st))
    (func : Nat) (args : List V) (st : State V H) (hst : st.Sane) :
    SafeCall (invoke P enter func args st) := by
  unfold invoke
  dsimp only
  split
  · exact hst
  · rename_i e he
    split
    · exact hst
    · rename_i hnone
      exact henter _ _ _ (hst e (mem_of_select he) hnone) hst

/-- No index was outside, and the methods left behind are sane. -/
def SafeRun : Except Stop (Except V V × Config V H) → Prop
  | .error stop => stop.Harmless
  | .ok (_, c) => c.state.Sane

theorem safe_enterWith {loop : Body V → Config V H → Except Stop (Except V V × Config V H)}
    (hloop : ∀ (body : Body V) (c : Config V H), body.wellFormed = true → Within body c →
      SafeRun (loop body c))
    (body : Body V) (seed : List (Nat × V)) (st : State V H) (hbody : body.wellFormed = true)
    (hst : st.Sane) : SafeCall (enterWith P loop body seed st) := by
  have hstart := Within.start (P := P) seed hbody hst
  unfold enterWith
  rw [if_neg (Nat.not_le.mpr (Body.wellFormed_iff.mp hbody).2.2)]
  cases hs : start P body seed st with
  | error stop =>
    rw [hs] at hstart
    exact hstart
  | ok c₀ =>
    rw [hs] at hstart
    have hrun := hloop body c₀ hbody hstart
    dsimp only
    cases hr : loop body c₀ with
    | error stop =>
      rw [hr] at hrun
      exact hrun
    | ok r =>
      rw [hr] at hrun
      exact hrun

theorem safe_callsWith {enter : Body V → List (Nat × V) → State V H → CallResult V H}
    (henter : ∀ (body : Body V) (seed : List (Nat × V)) (st : State V H),
      body.wellFormed = true → st.Sane → SafeCall (enter body seed st)) :
    SafeCalls (callsWith P enter) where
  invoke := safe_invoke henter
  value := fun f args st hst => by
    show SafeCall (callValue P enter f args st)
    unfold callValue
    split
    · exact safe_invoke henter _ _ _ hst
    · exact hst
    · exact hst

/-! ### Statements -/

variable [DecidableEq V]

/-- An operand that fits is read inside the frame. -/
theorem safe_readOp {op : Op V} (hop : op.fits body.nslots body.code.length = true) :
    Safe body ip (readOp P body.nslots op) fun _ => True := by
  cases op with
  | ssa i => exact safe_getFrame (Nat.add_lt_add_left (of_decide_eq_true hop) _)
  | slot k => exact safe_getFrame (Nat.lt_add_right _ (of_decide_eq_true hop))
  | int c => exact Keeps.pure trivial
  | float bits => exact Keeps.pure trivial
  | const v => exact Keeps.pure trivial
  | global sym =>
    refine Keeps.get.bind fun c _ => ?_
    cases getGlobal P.null c.state.main sym with
    | some v => exact Keeps.pure trivial
    | none => exact safe_onHeap

theorem safe_readArgs {args : List (Op V)}
    (hargs : args.all (Op.fits body.nslots body.code.length) = true) :
    Safe body ip (readArgs P body.nslots args) fun vals => vals.length = args.length := by
  induction args with
  | nil => exact Keeps.pure rfl
  | cons op args ih =>
    rw [List.all_cons, Bool.and_eq_true] at hargs
    refine (safe_readOp hargs.1).bind fun v _ => (ih hargs.2).bind fun vals hvals => ?_
    exact Keeps.pure (by simp [hvals])

theorem safe_methodFunc {sym : String} :
    Safe body ip (methodFunc P body.nslots sym) fun _ => True := by
  refine Keeps.get.bind fun c _ => ?_
  cases getGlobal P.null c.state.main sym with
  | none =>
    refine safe_onHeap.bind fun f _ => safe_setResult.bind fun _ _ => ?_
    refine (Keeps.of_modify fun c hc => ?_).bind fun _ _ => Keeps.pure trivial
    exact { hc with sane := hc.sane }
  | some v =>
    dsimp only
    split
    · exact Keeps.pure trivial
    · exact safe_onHeap

/-- **No statement of a well-formed body uses an index outside.** -/
theorem safe_exec {calls : Calls V H} (hcalls : SafeCalls calls) {s : Stmt V}
    (hs : s.fits body.nslots body.code.length = true) :
    Safe body ip (exec P calls body.nslots s) (Flow.Within body s) := by
  cases s with
  | goto target =>
    have htarget : target < body.code.length := of_decide_eq_true hs
    exact Keeps.pure htarget
  | gotoIfNot cond target =>
    rw [Stmt.fits, Bool.and_eq_true] at hs
    refine (safe_readOp hs.1).bind fun v _ => Keeps.get.bind fun c _ => Keeps.ite ?_ ?_
    · exact fun _ => Keeps.pure rfl
    · have htarget : target < body.code.length := of_decide_eq_true hs.2
      exact fun _ => Keeps.pure htarget
  | «return» op => exact (safe_readOp hs).bind fun v _ => Keeps.pure trivial
  | value op => exact (safe_readOp hs).bind fun v _ => safe_result rfl
  | assign slot op =>
    rw [Stmt.fits, Bool.and_eq_true] at hs
    refine (safe_readOp hs.2).bind fun v _ => ?_
    exact (safe_setFrame (Nat.lt_add_right _ (of_decide_eq_true hs.1))).bind fun _ _ =>
      safe_result rfl
  | assignCall slot args =>
    simp only [Stmt.fits, Bool.and_eq_true, decide_eq_true_eq, Bool.not_eq_true',
      List.isEmpty_eq_false_iff] at hs
    refine (safe_readArgs hs.2).bind fun vals hvals => ?_
    have hne : vals ≠ [] := by
      rintro rfl
      exact hs.1.2 (List.length_eq_zero_iff.mp hvals.symm)
    refine (safe_callArgs hcalls hne).bind fun v _ => ?_
    exact (safe_setFrame (Nat.lt_add_right _ hs.1.1)).bind fun _ _ => safe_result rfl
  | latestWorld => exact Keeps.pure rfl
  | assignGlobal sym op =>
    refine (safe_readOp hs).bind fun v _ => safe_setResult.bind fun _ _ => ?_
    refine (Keeps.of_modify fun c hc => ?_).bind fun _ _ => Keeps.pure rfl
    exact { hc with sane := hc.sane }
  | call b args =>
    exact (safe_readArgs hs).bind fun vals _ => safe_onHeap.bind fun v _ => safe_result rfl
  | callGeneric func args =>
    refine (safe_readArgs hs).bind fun vals _ => ?_
    exact (safe_onState fun st hst => hcalls.invoke func vals st hst).bind fun v _ =>
      safe_result rfl
  | callValue args =>
    simp only [Stmt.fits, Bool.and_eq_true, Bool.not_eq_true', List.isEmpty_eq_false_iff] at hs
    refine (safe_readArgs hs.2).bind fun vals hvals => ?_
    have hne : vals ≠ [] := by
      rintro rfl
      exact hs.1 (List.length_eq_zero_iff.mp hvals.symm)
    exact (safe_callArgs hcalls hne).bind fun v _ => safe_result rfl
  | new ty args =>
    refine (safe_readArgs hs).bind fun vals _ => Keeps.get.bind fun c _ => ?_
    exact safe_onHeap.bind fun v _ => safe_result rfl
  | getField op name =>
    exact (safe_readOp hs).bind fun v _ => safe_onHeap.bind fun r _ => safe_result rfl
  | setField obj name rhs =>
    rw [Stmt.fits, Bool.and_eq_true] at hs
    refine (safe_readOp hs.1).bind fun v _ => (safe_readOp hs.2).bind fun r _ => ?_
    exact safe_onHeap.bind fun _ _ => safe_onHeap.bind fun _ _ => safe_result rfl
  | enter catchIp =>
    refine (Keeps.of_modify fun c hc => ?_).bind fun _ _ => Keeps.get.bind
      fun c _ => safe_result rfl
    refine { hc with handlers := fun t ht => ?_ }
    rcases List.mem_cons.mp ht with rfl | ht
    · exact of_decide_eq_true hs
    · exact hc.handlers t ht
  | leave n =>
    refine (Keeps.of_modify fun c hc => ?_).bind fun _ _ => Keeps.pure rfl
    exact { hc with handlers := fun t ht => hc.handlers t (List.mem_of_mem_drop ht) }
  | throw op => exact (safe_readOp hs).bind fun e _ => Keeps.throw
  | methodFunc sym => exact safe_methodFunc.bind fun v _ => safe_result rfl
  | methodDef f sig n code =>
    simp only [Stmt.fits, Bool.and_eq_true] at hs
    obtain ⟨⟨⟨⟨hf, hsig⟩, hcode⟩, hends⟩, hframe⟩ := hs
    refine (safe_readOp hf).bind fun fv _ => (safe_readOp hsig).bind fun sv _ => ?_
    refine safe_onHeap.bind fun _ _ => ?_
    refine safe_onHeap.bind fun func _ => safe_onHeap.bind fun sigTuple _ => ?_
    refine (Keeps.of_modify fun c hc => ?_).bind fun _ _ => safe_result rfl
    -- the new method is well formed, as the statement says
    refine { hc with sane := fun e he hnone => ?_ }
    rcases List.mem_append.mp he with he | he
    · exact hc.sane e he hnone
    · rw [List.mem_singleton.mp he, Body.wellFormed, hcode, hends, hframe]
      rfl
  | caught => exact Keeps.get.bind fun c _ => safe_result rfl
  | assignCaught slot =>
    refine Keeps.get.bind fun c _ => ?_
    exact (safe_setFrame (Nat.lt_add_right _ (of_decide_eq_true hs))).bind fun _ _ =>
      safe_result rfl
  | rethrow => exact Keeps.get.bind fun c _ => Keeps.pure trivial
  | popException op =>
    refine (safe_readOp hs).bind fun v _ => ?_
    refine (Keeps.of_modify fun c hc => ?_).bind fun _ _ => Keeps.pure rfl
    exact { hc with sane := hc.sane }
  | arrayLit args =>
    exact (safe_readArgs hs).bind fun vals _ => safe_onHeap.bind fun a _ => safe_result rfl
  | arrayRef a idx =>
    rw [Stmt.fits, Bool.and_eq_true] at hs
    refine (safe_readOp hs.1).bind fun av _ => (safe_readOp hs.2).bind fun i _ => ?_
    exact safe_onHeap.bind fun _ _ => safe_onHeap.bind fun r _ => safe_result rfl
  | arraySet a idx rhs =>
    simp only [Stmt.fits, Bool.and_eq_true] at hs
    refine (safe_readOp hs.1.1).bind fun av _ => (safe_readOp hs.1.2).bind fun i _ => ?_
    refine (safe_readOp hs.2).bind fun r _ => safe_onHeap.bind fun _ _ => ?_
    exact safe_onHeap.bind fun _ _ => safe_onHeap.bind fun _ _ => safe_result rfl
  | push a v =>
    rw [Stmt.fits, Bool.and_eq_true] at hs
    refine (safe_readOp hs.1).bind fun av _ => (safe_readOp hs.2).bind fun vv _ => ?_
    exact safe_onHeap.bind fun _ _ => safe_onHeap.bind fun _ _ => safe_result rfl
  | len a => exact (safe_readOp hs).bind fun av _ => safe_onHeap.bind fun n _ => safe_result rfl
  | isDefined op =>
    have hread : Safe body ip (isDefinedOp P op) fun _ => True := by
      cases op with
      | slot k =>
        exact (safe_getFrame (Nat.lt_add_right _ (of_decide_eq_true hs))).bind fun v _ =>
          Keeps.pure trivial
      | global sym => exact Keeps.get.bind fun c _ => Keeps.pure trivial
      | _ => exact Keeps.pure trivial
    exact hread.bind fun _ _ => safe_result rfl

/-! ### Whole evaluations -/

/-- **One round of the loop.** -/
theorem Within.step {calls : Calls V H} (hcalls : SafeCalls calls) (hbody : body.wellFormed = true)
    {c : Config V H} (hc : Within body c) :
    match step P calls body c with
    | .error stop => stop.Harmless
    | .ok p => p.Safe body := by
  obtain ⟨s, hs⟩ : ∃ s, body.code[c.ip]? = some s := ⟨_, List.getElem?_eq_getElem hc.ip_lt⟩
  have hsafe : Safe body c.ip (exec P calls body.nslots s) (Flow.Within body s) :=
    safe_exec hcalls (Body.fits hbody hs)
  have hexec := hsafe c hc
  rw [Interp.step, hs]
  dsimp only
  cases hr : exec P calls body.nslots s c with
  | error stop =>
    rw [hr] at hexec
    exact hexec
  | ok r =>
    obtain ⟨r, c'⟩ := r
    rw [hr] at hexec
    cases r with
    | error e => exact Inside.unwind hexec
    | ok flow =>
      obtain ⟨hc', hflow⟩ := hexec
      cases flow with
      | next =>
        have hlt := Body.next_lt hbody hs hflow
        exact { hc' with ip_eq := rfl, ip_lt := by rw [hc'.ip_eq]; exact hlt }
      | goto target => exact { hc' with ip_eq := rfl, ip_lt := hflow }
      | ret v => exact hc'.sane
      | resume e => exact Inside.unwind hc'

/-- **A well-formed body is evaluated inside its frame and its code**, and so are all
methods it calls. -/
theorem run_inside : ∀ (fuel : Nat) (body : Body V) (c : Config V H), body.wellFormed = true →
    Within body c → SafeRun (run P fuel body c) := by
  intro fuel
  induction fuel with
  | zero => exact fun _ _ _ _ => ⟨Stop.noConfusion, Stop.noConfusion⟩
  | succ fuel ih =>
    intro body c hbody hc
    -- calls evaluate other bodies with less fuel
    have hcalls := safe_callsWith (P := P) (safe_enterWith (P := P) ih)
    have hstep := Within.step (P := P) hcalls hbody hc
    rw [run]
    cases hs : step P (callsWith P (enterWith P (run P fuel))) body c with
    | error stop =>
      rw [hs] at hstep
      exact hstep
    | ok p =>
      rw [hs] at hstep
      cases p with
      | running c' => exact ih body c' hbody hstep
      | finished r c' => exact hstep

end Statements

end Ruju.Interp
