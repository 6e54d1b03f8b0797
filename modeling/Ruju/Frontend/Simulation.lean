import Mathlib.Data.List.Forall2
import Ruju.Frontend.Machine

/-!
# Lowered code does what the source means

The code of a statement, started in a configuration that holds the variables and the
heap of an environment, does what the semantics says.  If the statement ends, control
is behind the code, with the same handlers and the same exception stack as before.  If
it raises an exception, a round of the loop unwinds with this exception, from a
configuration with the same handlers.  If the semantics has run out of fuel, the machine
takes at least as many steps as there was fuel.

What is left on the exception stack is followed exactly: an exception that escapes from
a catch clause, or that goes through a finally clause, leaves something on the stack,
and every other one leaves it as it was.
-/

namespace Ruju.Frontend

open Interp

section Relation

variable {V H : Type} [DecidableEq V] (P : Prims V H) (G : Guard V H) (code : List (Stmt V))
  (names : List String) (structs : List StructDef)

/-- A round of the loop that goes on, with good operands. -/
def Next (c c' : Config V H) : Prop :=
  Guarded P G.good ⟨names.length, code⟩ c ∧
    ∀ calls, step P calls ⟨names.length, code⟩ c = .ok (.running c')

/-- The loop gets from one configuration to the other. -/
abbrev Reaches (c c' : Config V H) : Prop :=
  Relation.ReflTransGen (Next P G code names) c c'

/-- A round of the loop that unwinds, with good operands. -/
def Throws (e : V) (exc : List V) (c c' : Config V H) : Prop :=
  Guarded P G.good ⟨names.length, code⟩ c ∧
    ∀ calls, step P calls ⟨names.length, code⟩ c = .ok (unwind e exc c')

/-- The configuration holds the variables and the heap, which the guard admits. -/
structure Holds (c : Config V H) (env : Env V H) : Prop where
  vars : ∀ x ∈ names, c.frame[names.idxOf x]? = some (env.vars x)
  heap : c.state.heap = env.heap
  good : ∀ x, G.good (env.vars x)
  inv : G.inv env.heap
  length : c.frame.length = names.length + code.length
  structs : c.state.structs = structs

/-- What the code between two positions leaves as it is. -/
structure Kept (lo hi : Nat) (c c' : Config V H) : Prop where
  ssa : ∀ i, i < lo ∨ hi ≤ i → c'.frame[names.length + i]? = c.frame[names.length + i]?
  handlers : c'.handlers = c.handlers
  main : c'.state.main = c.state.main
  methods : c'.state.methods = c.state.methods

/-- The operand has the value, and code behind `hi` does not change that. -/
def Carries (hi : Nat) (env : Env V H) (c : Config V H) (op : Op V) (v : V) : Prop :=
  match op with
  | .slot k => ∃ x ∈ names, k = names.idxOf x ∧ env.vars x = v
  | .ssa i => i < hi ∧ c.frame[names.length + i]? = some v
  | .int n => P.boxInt n = v
  | .float bits => P.boxFloat bits = v
  | _ => False

/-- The code has ended, at `stop`. -/
structure Falls (lo hi stop : Nat) (c : Config V H) (env : Env V H) (c' : Config V H) : Prop where
  reaches : Reaches P G code names c c'
  ip : c'.ip = stop
  holds : Holds G code names structs c' env
  kept : Kept names lo hi c c'
  exc : c'.state.exc = c.state.exc

/-- The code has raised an exception. -/
structure Escapes (lo hi : Nat) (c : Config V H) (r : Raised V) (env : Env V H)
    (c' : Config V H) : Prop where
  throws : ∃ c₁ junk, Reaches P G code names c c₁ ∧
    Throws P G code names r.exc (r.exc :: (junk ++ c.state.exc)) c₁ c'
  holds : Holds G code names structs c' env
  kept : Kept names lo hi c c'
  exc : ∃ junk, c'.state.exc = junk ++ c.state.exc ∧ (junk = [] ↔ r.escaped = false)
  good : G.good r.exc

/-- The machine does from `c` what the computation does in `env`: it ends at `stop` with
a result that satisfies `Q`, or raises an exception. -/
def Realizes {α : Type} (fuel lo hi stop : Nat) (c : Config V H) (env : Env V H) (m : SrcM V H α)
    (Q : α → Env V H → Config V H → Prop) : Prop :=
  match m env with
  | none => Spins (Next P G code names) fuel c
  | some (.ok a, env') =>
    ∃ c', Falls P G code names structs lo hi stop c env' c' ∧ Q a env' c'
  | some (.error r, env') =>
    ∃ c', Escapes P G code names structs lo hi c r env' c'

end Relation

/-! ### Composition -/

section Composition

variable {V H : Type} [DecidableEq V] {P : Prims V H} {G : Guard V H} {code : List (Stmt V)}
  {names : List String} {structs : List StructDef}

theorem SrcM.bind_apply {α β : Type} (m : SrcM V H α) (f : α → SrcM V H β) (env : Env V H) :
    (m >>= f) env =
      match m env with
      | none => none
      | some (.error r, env') => some (.error r, env')
      | some (.ok a, env') => f a env' := by
  show (StateT.bind m _) env = _
  unfold StateT.bind
  cases m env with
  | none => rfl
  | some r =>
    obtain ⟨r, env'⟩ := r
    cases r <;> rfl

variable {lo hi lo' hi' stop stop' fuel fuel' : Nat} {c c' c'' c₁ : Config V H}
  {env env' env'' : Env V H}

namespace Kept

theorem refl (lo hi : Nat) (c : Config V H) : Kept names lo hi c c :=
  ⟨fun _ _ => rfl, rfl, rfl, rfl⟩

theorem mono (h : Kept names lo hi c c') (hlo : lo' ≤ lo) (hhi : hi ≤ hi') :
    Kept names lo' hi' c c' :=
  ⟨fun i hi => h.ssa i (by omega), h.handlers, h.main, h.methods⟩

theorem trans (h : Kept names lo hi c c') (h' : Kept names lo hi c' c'') :
    Kept names lo hi c c'' :=
  ⟨fun i hi => (h'.ssa i hi).trans (h.ssa i hi), h'.handlers.trans h.handlers,
    h'.main.trans h.main, h'.methods.trans h.methods⟩

end Kept

theorem Falls.trans (h : Falls P G code names structs lo hi stop c env' c')
    (h' : Falls P G code names structs lo hi stop' c' env'' c'') :
    Falls P G code names structs lo hi stop' c env'' c'' :=
  ⟨h.reaches.trans h'.reaches, h'.ip, h'.holds, h.kept.trans h'.kept, h'.exc.trans h.exc⟩

theorem Falls.mono (h : Falls P G code names structs lo hi stop c env' c') (hlo : lo' ≤ lo)
    (hhi : hi ≤ hi') : Falls P G code names structs lo' hi' stop c env' c' :=
  { h with kept := h.kept.mono hlo hhi }

theorem Falls.escapes {r : Raised V} (h : Falls P G code names structs lo hi stop c env' c')
    (h' : Escapes P G code names structs lo hi c' r env'' c'') :
    Escapes P G code names structs lo hi c r env'' c'' := by
  obtain ⟨c₁, junk, hreach, hthrow⟩ := h'.throws
  rw [h.exc] at hthrow
  have hexc := h'.exc
  rw [h.exc] at hexc
  exact ⟨⟨c₁, junk, h.reaches.trans hreach, hthrow⟩, h'.holds, h.kept.trans h'.kept, hexc, h'.good⟩

theorem Escapes.mono {r : Raised V} (h : Escapes P G code names structs lo hi c r env' c')
    (hlo : lo' ≤ lo) (hhi : hi ≤ hi') : Escapes P G code names structs lo' hi' c r env' c' :=
  { h with kept := h.kept.mono hlo hhi }

section Realizes

variable {α β : Type} {m : SrcM V H α} {f : α → SrcM V H β}
  {Q Q' : α → Env V H → Config V H → Prop} {R : β → Env V H → Config V H → Prop}

theorem realizes_pure {a : α} (hc : Holds G code names structs c env) (hQ : Q a env c) :
    Realizes P G code names structs fuel lo hi c.ip c env (pure a) Q :=
  ⟨c, ⟨.refl, rfl, hc, .refl lo hi c, rfl⟩, hQ⟩

/-- What the computation returns, with what the machine has done. -/
@[elab_as_elim]
theorem Realizes.elim {motive : Option (Except (Raised V) α × Env V H) → Prop}
    (h : Realizes P G code names structs fuel lo hi stop c env m Q)
    (spins : Spins (Next P G code names) fuel c → motive none)
    (falls : ∀ a env' c', Falls P G code names structs lo hi stop c env' c' → Q a env' c' →
      motive (some (.ok a, env')))
    (escapes : ∀ r env' c', Escapes P G code names structs lo hi c r env' c' →
      motive (some (.error r, env'))) : motive (m env) := by
  unfold Realizes at h
  rcases hm : m env with _ | ⟨r | a, env'⟩ <;> rw [hm] at h
  · exact spins h
  · obtain ⟨c', hesc⟩ := h
    exact escapes r env' c' hesc
  · obtain ⟨c', hfalls, hQ⟩ := h
    exact falls a env' c' hfalls hQ

/-- The same computation, from one configuration and then from another one: what is shown
for each of its outcomes. -/
theorem Realizes.imp (h : Realizes P G code names structs fuel lo hi stop c env m Q)
    (hnone : Spins (Next P G code names) fuel c → Spins (Next P G code names) fuel' c₁)
    (hok : ∀ a env' c', Falls P G code names structs lo hi stop c env' c' → Q a env' c' →
      ∃ c'', Falls P G code names structs lo' hi' stop' c₁ env' c'' ∧ Q' a env' c'')
    (herr : ∀ r env' c', Escapes P G code names structs lo hi c r env' c' →
      ∃ c'', Escapes P G code names structs lo' hi' c₁ r env' c'') :
    Realizes P G code names structs fuel' lo' hi' stop' c₁ env m Q' := by
  unfold Realizes
  exact h.elim hnone hok herr

theorem Realizes.mono (h : Realizes P G code names structs fuel lo hi stop c env m Q)
    (hlo : lo' ≤ lo) (hhi : hi ≤ hi') :
    Realizes P G code names structs fuel lo' hi' stop c env m Q :=
  h.imp id (fun _ _ c' hfalls hQ => ⟨c', hfalls.mono hlo hhi, hQ⟩)
    fun _ _ c' hesc => ⟨c', hesc.mono hlo hhi⟩

/-- With less fuel, fewer steps are asked for. -/
theorem Realizes.anti (h : Realizes P G code names structs fuel lo hi stop c env m Q)
    (hfuel : fuel' ≤ fuel) : Realizes P G code names structs fuel' lo hi stop c env m Q :=
  h.imp (fun hspins => hspins.anti hfuel) (fun _ _ c' hfalls hQ => ⟨c', hfalls, hQ⟩)
    fun _ _ c' hesc => ⟨c', hesc⟩

/-- The machine first gets to `c₁`, with the same environment. -/
theorem Realizes.of_falls (hf : Falls P G code names structs lo hi stop' c env c₁)
    (h : Realizes P G code names structs fuel lo hi stop c₁ env m Q) :
    Realizes P G code names structs fuel lo hi stop c env m Q :=
  h.imp (Spins.of_reaches hf.reaches) (fun _ _ c' hfalls hQ => ⟨c', hf.trans hfalls, hQ⟩)
    fun _ _ c' hesc => ⟨c', hf.escapes hesc⟩

/-- The machine goes on behind the computation. -/
theorem Realizes.then (h : Realizes P G code names structs fuel lo hi stop c env m Q)
    (hf : ∀ a env' c', Falls P G code names structs lo hi stop c env' c' → Q a env' c' →
      ∃ c'', Falls P G code names structs lo hi stop' c' env' c'' ∧ Q' a env' c'') :
    Realizes P G code names structs fuel lo hi stop' c env m Q' := by
  refine h.imp id (fun a env' c' hfalls hQ => ?_) fun _ _ c' hesc => ⟨c', hesc⟩
  obtain ⟨c'', hfalls', hQ'⟩ := hf a env' c' hfalls hQ
  exact ⟨c'', hfalls.trans hfalls', hQ'⟩

/-- One computation after the other. -/
theorem Realizes.bind (h : Realizes P G code names structs fuel lo hi stop c env m Q)
    (hf : ∀ a env' c', Falls P G code names structs lo hi stop c env' c' → Q a env' c' →
      Realizes P G code names structs fuel lo hi stop' c' env' (f a) R) :
    Realizes P G code names structs fuel lo hi stop' c env (m >>= f) R := by
  unfold Realizes
  rw [SrcM.bind_apply]
  refine h.elim id (fun a env' c' hfalls hQ => ?_) fun r env' c' hesc => ⟨c', hesc⟩
  dsimp only
  exact (hf a env' c' hfalls hQ).elim (Spins.of_reaches hfalls.reaches)
    (fun _ _ c'' hfalls' hR => ⟨c'', hfalls.trans hfalls', hR⟩)
    fun _ _ c'' hesc => ⟨c'', hfalls.escapes hesc⟩

end Realizes

/-! ### Code at a position -/

/-- The code has this piece at `pc`. -/
def CodeAt (code : List (Stmt V)) (pc : Nat) (piece : List (Stmt V)) : Prop :=
  piece <+: code.drop pc

namespace CodeAt

variable {pc : Nat} {s : Stmt V} {a b : List (Stmt V)}

omit [DecidableEq V]

theorem left (h : CodeAt code pc (a ++ b)) : CodeAt code pc a :=
  (List.prefix_append a b).trans h

theorem right (h : CodeAt code pc (a ++ b)) : CodeAt code (pc + a.length) b := by
  have hdrop := List.IsPrefix.drop h a.length
  rwa [List.drop_left, List.drop_drop] at hdrop

theorem head (h : CodeAt code pc (s :: b)) : code[pc]? = some s := by
  obtain ⟨rest, hrest⟩ := h
  rw [← List.head?_drop, ← hrest]
  rfl

theorem tail (h : CodeAt code pc (s :: b)) : CodeAt code (pc + 1) b :=
  CodeAt.right (a := [s]) h

end CodeAt

/-! ### One round -/

/-- Storing a result changes no variable. -/
theorem Holds.store (hc : Holds G code names structs c env) (i : Nat) (v : V) :
    Holds G code names structs { c with frame := c.frame.set (names.length + i) v } env where
  vars x hx := by
    have hlt := List.idxOf_lt_length_of_mem hx
    rw [List.getElem?_set_ne (by omega)]
    exact hc.vars x hx
  heap := hc.heap
  good := hc.good
  inv := hc.inv
  length := by
    rw [List.length_set]
    exact hc.length
  structs := hc.structs

/-- What an operand carries is what `read_op` finds. -/
theorem Carries.value {op : Op V} {v : V} (hc : Holds G code names structs c env)
    (h : Carries P names hi env c op v) : operandValue P names.length c op = some v := by
  cases op with
  | slot k =>
    obtain ⟨x, hx, rfl, rfl⟩ := h
    exact hc.vars x hx
  | ssa i => exact h.2
  | int n => exact congrArg some h
  | float bits => exact congrArg some h
  | const w => exact h.elim
  | global sym => exact h.elim

/-- Code behind the operand leaves its value. -/
theorem Carries.keep {op : Op V} {v : V} (h : Carries P names hi env c op v)
    (hvars : env'.vars = env.vars) (hkept : Kept names lo hi' c c') (hlo : hi ≤ lo)
    (hhi : hi ≤ stop) : Carries P names stop env' c' op v := by
  cases op with
  | slot k =>
    obtain ⟨x, hx, hk, hv⟩ := h
    exact ⟨x, hx, hk, (congrFun hvars x).trans hv⟩
  | ssa i =>
    have hlt : i < hi := h.1
    exact ⟨by omega, (hkept.ssa i (.inl (by omega))).trans h.2⟩
  | int n => exact h
  | float bits => exact h
  | const w => exact h
  | global sym => exact h

theorem step_eq {calls : Calls V H} {s : Stmt V} {r : Except V (Flow V) × Config V H}
    (hs : code[c.ip]? = some s) (he : exec P calls names.length s c = .ok r) :
    step P calls ⟨names.length, code⟩ c = .ok (advance r) := by
  simp only [step, hs, he]
  rfl

theorem guarded_of {s : Stmt V} (hs : code[c.ip]? = some s)
    (h : ∀ op ∈ operands s, ∀ v, operandValue P names.length c op = some v → G.good v) :
    Guarded P G.good ⟨names.length, code⟩ c := by
  intro s' hs'
  obtain rfl : s = s' := Option.some.inj (hs.symm.trans hs')
  exact h

theorem guarded_nil {s : Stmt V} (hs : code[c.ip]? = some s) (hops : operands s = []) :
    Guarded P G.good ⟨names.length, code⟩ c :=
  guarded_of hs fun _ hop => absurd (hops ▸ hop) List.not_mem_nil

theorem guarded_single {s : Stmt V} {op : Op V} {v : V} (hs : code[c.ip]? = some s)
    (hops : operands s = [op]) (hv : operandValue P names.length c op = some v) (hgood : G.good v) :
    Guarded P G.good ⟨names.length, code⟩ c := by
  refine guarded_of hs fun o ho w hw => ?_
  obtain rfl : o = op := List.mem_singleton.mp (hops ▸ ho)
  obtain rfl := Option.some.inj (hv.symm.trans hw)
  exact hgood

/-- A statement that carries out an operation on the heap. -/
theorem realizes_performs (fuel : Nat) {s : Stmt V} {g : HeapOp V H V}
    (hc : Holds G code names structs c env)
    (hs : code[c.ip]? = some s)
    (hguard : ∀ op ∈ operands s, ∀ v, operandValue P names.length c op = some v → G.good v)
    (hp : Performs P names.length c s g) (hy : Yields G G.good g) :
    Realizes P G code names structs fuel c.ip (c.ip + 1) (c.ip + 1) c env (liftHeap g)
      fun v env' c' => Carries P names (c.ip + 1) env' c' (.ssa c.ip) v ∧ G.good v ∧
        env'.vars = env.vars := by
  have hip : names.length + c.ip < c.frame.length := by
    have := (List.getElem?_eq_some_iff.mp hs).1
    have := hc.length
    omega
  have hguarded := guarded_of hs hguard
  have hyh := hy env.heap hc.inv
  have hg := hc.heap
  unfold Realizes liftHeap
  cases hr : g env.heap with
  | mk r h' =>
    rw [hr] at hyh
    have hheap : onHeap g c = .ok (r, { c with state := { c.state with heap := h' } }) := by
      rw [onHeap, hc.heap, hr]
    cases r with
    | ok v =>
      let c₁ : Config V H := { c with
        frame := c.frame.set (names.length + c.ip) v, state := { c.state with heap := h' } }
      have hexec : ∀ calls, exec P calls names.length s c = .ok (.ok .next, c₁) := by
        intro calls
        rw [hp calls, bind_of_ok hheap]
        exact bind_of_ok (setFrame_eq v hip)
      refine ⟨{ c₁ with ip := c.ip + 1 }, ⟨.single ⟨hguarded, fun calls => ?_⟩, rfl, ?_, ?_, rfl⟩,
        ⟨Nat.lt_succ_self _, ?_⟩, hyh.1, rfl⟩
      · exact step_eq hs (hexec calls)
      · exact { hc.store c.ip v with heap := rfl, inv := hyh.2 }
      · refine ⟨fun i hi => ?_, rfl, rfl, rfl⟩
        exact List.getElem?_set_ne (by omega)
      · exact List.getElem?_set_self hip
    | error e =>
      let c₁ : Config V H := { c with state := { c.state with heap := h' } }
      have hexec : ∀ calls, exec P calls names.length s c = .ok (.error e, c₁) := by
        intro calls
        rw [hp calls, bind_of_error hheap]
      refine ⟨c₁, ⟨⟨c, [], .refl, hguarded, fun calls => step_eq hs (hexec calls)⟩,
        { hc with heap := rfl, inv := hyh.2 }, ⟨fun _ _ => rfl, rfl, rfl, rfl⟩,
        ⟨[], rfl, by simp⟩, hyh.1⟩⟩

/-! ### Expressions -/

theorem liftHeap_bind {α β : Type} (f : HeapOp V H α) (g : α → HeapOp V H β) :
    (liftHeap (f >>= g) : SrcM V H β) = liftHeap f >>= fun a => liftHeap (g a) := by
  funext env
  rw [SrcM.bind_apply, liftHeap, liftHeap, heapOp_bind]
  cases f env.heap with
  | mk r h => cases r <;> rfl

variable {ops : List (Op V)} {vals : List V}

/-- The operands are read as they were evaluated. -/
theorem values_of (hc : Holds G code names structs c env)
    (h : List.Forall₂ (fun op v => Carries P names hi env c op v ∧ G.good v) ops vals) :
    List.Forall₂ (fun op v => operandValue P names.length c op = some v) ops vals :=
  List.Forall₂.imp (fun _ _ hv => hv.1.value hc) h

/-- Good operands are read only. -/
theorem good_of (hc : Holds G code names structs c env)
    (h : List.Forall₂ (fun op v => Carries P names hi env c op v ∧ G.good v) ops vals) :
    ∀ op ∈ ops, ∀ v, operandValue P names.length c op = some v → G.good v := by
  induction h with
  | nil => exact fun op hop => absurd hop List.not_mem_nil
  | cons hv _ ih =>
    intro op hop w hw
    rcases List.mem_cons.mp hop with rfl | hop
    · obtain rfl := Option.some.inj ((hv.1.value hc).symm.trans hw)
      exact hv.2
    · exact ih op hop w hw

theorem good_vals
    (h : List.Forall₂ (fun op v => Carries P names hi env c op v ∧ G.good v) ops vals) :
    ∀ v ∈ vals, G.good v := by
  induction h with
  | nil => exact fun v hv => absurd hv List.not_mem_nil
  | cons hv _ ih =>
    intro w hw
    rcases List.mem_cons.mp hw with rfl | hw
    · exact hv.2
    · exact ih w hw

/-- The code at `pc` carries out the operations and leaves its results in the operands. -/
def Computes {α ω : Type} (P : Prims V H) (G : Guard V H) (code : List (Stmt V))
    (names : List String) (structs : List StructDef) (fuel : Nat) (vars : String → V) (pc : Nat)
    (piece : List (Stmt V) × ω) (g : HeapOp V H α)
    (Q : Nat → ω → α → Env V H → Config V H → Prop) : Prop :=
  ∀ c env, env.vars = vars → Holds G code names structs c env → c.ip = pc →
    CodeAt code pc piece.1 →
    Realizes P G code names structs fuel pc (pc + piece.1.length) (pc + piece.1.length) c env
      (liftHeap g) (Q (pc + piece.1.length) piece.2)

/-- The operands have these values, and the code behind them leaves that. -/
def Values (P : Prims V H) (G : Guard V H) (names : List String) (vars : String → V) (hi : Nat)
    (ops : List (Op V)) (vals : List V) (env : Env V H) (c : Config V H) : Prop :=
  List.Forall₂ (fun op v => Carries P names hi env c op v ∧ G.good v) ops vals ∧ env.vars = vars

/-- The operand has this value, and the code behind it leaves that. -/
def Value (P : Prims V H) (G : Guard V H) (names : List String) (vars : String → V) (hi : Nat)
    (op : Op V) (v : V) (env : Env V H) (c : Config V H) : Prop :=
  (Carries P names hi env c op v ∧ G.good v) ∧ env.vars = vars

variable {vars : String → V} {pc : Nat}

/-- A statement behind the code of its operands. -/
theorem realizes_last (fuel : Nat) {s : Stmt V} {g : HeapOp V H V}
    (hc : Holds G code names structs c env) (hip : c.ip = pc) (hs : code[pc]? = some s)
    (hops : ∀ op ∈ operands s, op ∈ ops) (hvals : Values P G names vars hi ops vals env c)
    (hp : Performs P names.length c s g) (hy : Yields G G.good g)
    (hlo : lo ≤ pc) :
    Realizes P G code names structs fuel lo (pc + 1) (pc + 1) c env (liftHeap g)
      (Value P G names vars (pc + 1) (.ssa pc)) := by
  subst hip
  have hr := realizes_performs fuel hc hs
    (fun op hop => good_of hc hvals.1 op (hops op hop)) hp hy
  refine (hr.mono hlo (Nat.le_refl _)).then fun v env' c' hfalls hv =>
    ⟨c', ⟨.refl, hfalls.ip, hfalls.holds, .refl _ _ _, rfl⟩, ⟨hv.1, hv.2.1⟩, ?_⟩
  exact hv.2.2.trans hvals.2

theorem Computes.last {piece : List (Stmt V) × List (Op V)} {gs : HeapOp V H (List V)}
    {s : Stmt V} {g : List V → HeapOp V H V}
    (h : Computes P G code names structs fuel vars pc piece gs (Values P G names vars))
    (hops : operands s = piece.2)
    (hperf : ∀ (c : Config V H) vals, c.state.structs = structs →
      List.Forall₂ (fun op v => operandValue P names.length c op = some v) piece.2 vals →
      Performs P names.length c s (g vals))
    (hy : ∀ vals, (∀ v ∈ vals, G.good v) → Yields G G.good (g vals)) :
    Computes P G code names structs fuel vars pc
      (piece.1 ++ [s], Op.ssa (pc + piece.1.length)) (gs >>= g) (Value P G names vars) := by
  intro c env hvars hc hip hcode
  have hlen : pc + (piece.1 ++ [s]).length = pc + piece.1.length + 1 := by
    rw [List.length_append]
    rfl
  rw [liftHeap_bind, hlen]
  refine ((h c env hvars hc hip hcode.left).mono (Nat.le_refl pc) (Nat.le_succ _)).bind
    fun vals env' c' hfalls hvals => ?_
  exact realizes_last fuel hfalls.holds hfalls.ip hcode.right.head (fun op hop => hops ▸ hop) hvals
    (hperf c' vals hfalls.holds.structs (values_of hfalls.holds hvals.1))
    (hy vals (good_vals hvals.1)) (Nat.le_add_right _ _)

variable {ga : HeapOp V H V}

/-- A statement with one operand. -/
theorem Computes.one {piece : List (Stmt V) × Op V} {s : Stmt V}
    {g : V → HeapOp V H V}
    (h : Computes P G code names structs fuel vars pc piece ga (Value P G names vars))
    (hops : operands s = [piece.2])
    (hperf : ∀ (c : Config V H) v, operandValue P names.length c piece.2 = some v →
      Performs P names.length c s (g v))
    (hy : ∀ v, G.good v → Yields G G.good (g v)) :
    Computes P G code names structs fuel vars pc
      (piece.1 ++ [s], Op.ssa (pc + piece.1.length)) (ga >>= g) (Value P G names vars) := by
  intro c env hvars hc hip hcode
  have hlen : pc + (piece.1 ++ [s]).length = pc + piece.1.length + 1 := by
    rw [List.length_append]
    rfl
  rw [liftHeap_bind, hlen]
  refine ((h c env hvars hc hip hcode.left).mono (Nat.le_refl pc) (Nat.le_succ _)).bind
    fun v env' c' hfalls hv => ?_
  exact realizes_last fuel hfalls.holds hfalls.ip hcode.right.head (fun op hop => hops ▸ hop)
    ⟨.cons hv.1 .nil, hv.2⟩ (hperf c' v (hv.1.1.value hfalls.holds)) (hy v hv.1.2)
    (Nat.le_add_right _ _)

/-- One operand after the other. -/
theorem Computes.cons {a : List (Stmt V) × Op V} {b : List (Stmt V) × List (Op V)}
    {gb : HeapOp V H (List V)}
    (ha : Computes P G code names structs fuel vars pc a ga (Value P G names vars))
    (hb : Computes P G code names structs fuel vars (pc + a.1.length) b gb
      (Values P G names vars)) :
    Computes P G code names structs fuel vars pc (a.1 ++ b.1, a.2 :: b.2)
      (do let v ← ga; let vs ← gb; pure (v :: vs)) (Values P G names vars) := by
  intro c env hvars hc hip hcode
  have hlen : pc + (a.1 ++ b.1).length = pc + a.1.length + b.1.length := by
    rw [List.length_append, Nat.add_assoc]
  rw [liftHeap_bind, hlen]
  refine ((ha c env hvars hc hip hcode.left).mono (Nat.le_refl pc) (Nat.le_add_right _ _)).bind
    fun v env₁ c₁ hfalls hv => ?_
  rw [liftHeap_bind]
  refine ((hb c₁ env₁ hv.2 hfalls.holds hfalls.ip hcode.right).bind
    fun vs env₂ c₂ hfalls₂ hvs => ?_).mono (Nat.le_add_right _ _) (Nat.le_refl _)
  have hkeep : Carries P names (pc + a.1.length + b.1.length) env₂ c₂ a.2 v :=
    hv.1.1.keep (hvs.2.trans hv.2.symm) hfalls₂.kept (Nat.le_refl _) (Nat.le_add_right _ _)
  rw [← hfalls₂.ip]
  refine realizes_pure hfalls₂.holds ?_
  rw [hfalls₂.ip]
  exact ⟨.cons ⟨hkeep, hv.1.2⟩ hvs.1, hvs.2⟩

/-- A statement with two operands. -/
theorem Computes.two {a b : List (Stmt V) × Op V} {gb : HeapOp V H V} {s : Stmt V}
    {g : V → V → HeapOp V H V}
    (ha : Computes P G code names structs fuel vars pc a ga (Value P G names vars))
    (hb : Computes P G code names structs fuel vars (pc + a.1.length) b gb
      (Value P G names vars))
    (hops : ∀ op ∈ operands s, op ∈ [a.2, b.2])
    (hperf : ∀ (c : Config V H) v w, operandValue P names.length c a.2 = some v →
      operandValue P names.length c b.2 = some w → Performs P names.length c s (g v w))
    (hy : ∀ v w, G.good v → G.good w → Yields G G.good (g v w)) :
    Computes P G code names structs fuel vars pc
      (a.1 ++ (b.1 ++ [s]), Op.ssa (pc + a.1.length + b.1.length))
      (do let v ← ga; let w ← gb; g v w) (Value P G names vars) := by
  intro c env hvars hc hip hcode
  have hlen : pc + (a.1 ++ (b.1 ++ [s])).length = pc + a.1.length + b.1.length + 1 := by
    simp only [List.length_append, List.length_cons, List.length_nil]
    omega
  rw [liftHeap_bind, hlen]
  refine ((ha c env hvars hc hip hcode.left).mono (Nat.le_refl pc) (by omega)).bind
    fun v env₁ c₁ hfalls hv => ?_
  rw [liftHeap_bind]
  refine (((hb c₁ env₁ hv.2 hfalls.holds hfalls.ip hcode.right.left).mono (Nat.le_refl _)
    (Nat.le_succ _)).bind fun w env₂ c₂ hfalls₂ hw => ?_).mono
    (Nat.le_add_right _ _) (Nat.le_refl _)
  have hkeep : Carries P names (pc + a.1.length + b.1.length) env₂ c₂ a.2 v :=
    hv.1.1.keep (hw.2.trans hv.2.symm) hfalls₂.kept (Nat.le_refl _) (Nat.le_add_right _ _)
  exact realizes_last fuel hfalls₂.holds hfalls₂.ip hcode.right.right.head hops
    ⟨.cons ⟨hkeep, hv.1.2⟩ (.cons hw.1 .nil), hw.2⟩
    (hperf c₂ v w (hkeep.value hfalls₂.holds) (hw.1.1.value hfalls₂.holds)) (hy v w hv.1.2 hw.1.2)
    (Nat.le_add_right _ _)

omit [DecidableEq V] in
/-- The operand of an expression is a literal where the expression is one. -/
theorem isLiteral_compileExpr (pc : Nat) (e : Expr) :
    (compileExpr names structs pc e : List (Stmt V) × Op V).2.isLiteral = e.isLiteral := by
  cases e <;> rfl

omit [DecidableEq V] in
theorem isLiteral_compileExprs (pc : Nat) (es : List Expr) :
    (compileExprs names structs pc es : List (Stmt V) × List (Op V)).2.map Op.isLiteral =
      es.map Expr.isLiteral := by
  induction es generalizing pc with
  | nil => rfl
  | cons e es ih => exact congrArg₂ List.cons (isLiteral_compileExpr pc e) (ih _)

omit [DecidableEq V] in
theorem length_compileExprs (pc : Nat) (es : List Expr) :
    (compileExprs names structs pc es : List (Stmt V) × List (Op V)).2.length = es.length := by
  simpa using congrArg List.length (isLiteral_compileExprs (V := V) pc es)

variable (hP : Closed P G)
include hP

mutual

/-- The code of an expression computes its value. -/
theorem computes_expr : ∀ (e : Expr) (pc : Nat), e.closed names structs = true →
    Computes P G code names structs fuel vars pc (compileExpr names structs pc e)
      (evalExpr P structs vars e) (Value P G names vars)
  | .int n, pc, _ => by
    rintro c env hvars hc rfl -
    exact realizes_pure hc ⟨⟨rfl, hP.boxInt n⟩, hvars⟩
  | .float bits, pc, _ => by
    rintro c env hvars hc rfl -
    exact realizes_pure hc ⟨⟨rfl, hP.boxFloat bits⟩, hvars⟩
  | .var name, pc, hcl => by
    rintro c env rfl hc rfl -
    exact realizes_pure hc ⟨⟨⟨name, of_decide_eq_true hcl, rfl, rfl⟩, hc.good name⟩, rfl⟩
  | .bin op lhs rhs, pc, hcl => by
    rw [Expr.closed, Bool.and_eq_true] at hcl
    refine (computes_expr lhs pc hcl.1).two (computes_expr rhs _ hcl.2)
      (s := .call (binop op).1 (binArgs op _ _)) ?_ ?_ ?_
    · intro o ho
      simpa using mem_binArgs.mp ho
    · intro c v w hv hw
      exact performs_call _ (forall₂_binArgs hv hw)
    · intro v w hv hw
      refine hP.apply _ _ fun x hx => ?_
      rcases mem_binArgs.mp hx with rfl | rfl
      · exact hv
      · exact hw
  | .call name args, pc, hcl => by
    rw [Expr.closed, Bool.and_eq_true] at hcl
    cases hf : callee structs name args.length with
    | error msg =>
      rw [hf] at hcl
      cases hcl.1
    | ok f =>
      rw [compileExpr, evalExpr, calleeOf, hf, ← isLiteral_compileExprs (V := V) pc args]
      have htakes : f.Takes (compileExprs (V := V) names structs pc args).2.length := by
        rw [length_compileExprs]
        exact callee_takes hf
      refine (computes_exprs args pc hcl.2).last ?_ ?_ ?_
      · exact operands_callee f _
      · exact fun c vals hst hvals => performs_callee htakes structs hst hvals
      · exact fun vals hvals => hP.callee f structs fun v hv => hvals v.2 (List.of_mem_zip hv).2
  | .field base name, pc, hcl =>
    (computes_expr base pc hcl).one rfl (fun _ _ hv => performs_getField name hv)
      fun _ hv => hP.getField name hv
  | .arrayLit elems, pc, hcl =>
    (computes_exprs elems pc hcl).last rfl (fun _ _ _ hvals => performs_arrayLit hvals)
      fun _ hvals => hP.arrayLit hvals
  | .index base idx, pc, hcl => by
    rw [Expr.closed, Bool.and_eq_true] at hcl
    refine (computes_expr base pc hcl.1).two (computes_expr idx _ hcl.2) (fun _ ho => ho)
      (fun _ _ _ hv hw => ?_) fun _ w hv _ => (hP.keep _ _ hv).bind fun _ ha => hP.arrayRef w ha
    rw [← isLiteral_compileExpr (V := V) pc base, ← isLiteral_compileExpr (V := V) _ idx]
    exact performs_arrayRef hv hw

/-- The code of arguments computes their values. -/
theorem computes_exprs : ∀ (es : List Expr) (pc : Nat), Expr.allClosed names structs es = true →
    Computes P G code names structs fuel vars pc (compileExprs names structs pc es)
      (evalExprs P structs vars es) (Values P G names vars)
  | [], pc, _ => by
    rintro c env hvars hc rfl -
    exact realizes_pure hc ⟨.nil, hvars⟩
  | e :: es, pc, hcl => by
    rw [Expr.allClosed, Bool.and_eq_true] at hcl
    exact (computes_expr e pc hcl.1).cons (computes_exprs es _ hcl.2)

end

end Composition

end Ruju.Frontend
