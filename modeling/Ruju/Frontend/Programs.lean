import Ruju.Frontend.Statements
import Ruju.Frontend.Registry
import Ruju.Interp.WellFormed
import Ruju.Interp.Boxes

/-!
# Lowering is correct

The body that the lowering builds for a program, run by the loop of `eval_core`, gives
the outcome that the program has as a source text: it ends iff the program ends, with the
same value or the same uncaught exception, the same values of the variables and the same
heap.

This holds of every run in which no statement loses the box of a literal.  Index and field
statements read their operands into locals, and a literal is boxed when it is read: while
the box of `7` in `a[1] = 7` is made, the box of `1` is in no root, and a collection may give
its cell to the new one.  The simulation itself (`Started.endsAfter`) needs no such condition,
since the semantics looks at the box again where the code does; the condition (`Calm`, for
every configuration that the run visits) takes the semantics to the one in which boxes
stay.
-/

namespace Ruju.Frontend

open Interp

/-! ### Runs of the loop -/

section Run

variable {V H : Type} [DecidableEq V] {P : Prims V H} {G : Guard V H} {code : List (Stmt V)}
  {names : List String} {c c' c'' : Config V H}

/-- The loop ends after `N` rounds, with this outcome. -/
def EndsAfter (P : Prims V H) (body : Body V) (c : Config V H) (N : Nat) (r : Except V V)
    (c' : Config V H) : Prop :=
  ∀ n, run P n body c = if n < N then .error .outOfFuel else .ok (r, c')

theorem endsAfter_of_finished {body : Body V} {r : Except V V}
    (h : ∀ calls, step P calls body c = .ok (.finished r c')) : EndsAfter P body c 1 r c' := by
  intro n
  cases n with
  | zero => rfl
  | succ n => rw [run, h, if_neg (by omega)]

theorem EndsAfter.of_next {N : Nat} {r : Except V V} (hn : Next P G code names c c')
    (h : EndsAfter P ⟨names.length, code⟩ c' N r c'') :
    EndsAfter P ⟨names.length, code⟩ c (N + 1) r c'' := by
  intro n
  cases n with
  | zero => rfl
  | succ n =>
    rw [run, hn.2]
    dsimp only
    rw [h n]
    simp only [Nat.add_lt_add_iff_right]

theorem EndsAfter.of_reaches {N : Nat} {r : Except V V} (hr : Reaches P G code names c c')
    (h : EndsAfter P ⟨names.length, code⟩ c' N r c'') :
    ∃ N', EndsAfter P ⟨names.length, code⟩ c N' r c'' := by
  induction hr using Relation.ReflTransGen.head_induction_on with
  | refl => exact ⟨N, h⟩
  | head hn _ ih =>
    obtain ⟨N', hN'⟩ := ih
    exact ⟨N' + 1, hN'.of_next hn⟩

theorem run_of_spins {n : Nat} (h : Spins (Next P G code names) n c) :
    run P n ⟨names.length, code⟩ c = .error .outOfFuel := by
  induction n generalizing c with
  | zero => rfl
  | succ n ih =>
    obtain ⟨c', hn, hrest⟩ := h
    rw [run, hn.2]
    exact ih hrest

end Run

/-! ### Whole programs -/

section Programs

variable {V H : Type} [DecidableEq V]

/-- The outcome of a program: a program without a value has the value 0. -/
def outcome (P : Prims V H) : Except (Raised V) (Option V) → Except V V
  | .ok v => .ok (v.getD (P.boxInt 0))
  | .error r => .error r.exc

/-- What a run leaves on the exception stack. -/
def Leaves (before after : List V) : Except (Raised V) (Option V) → Prop
  | .ok _ => after = before
  | .error r => ∃ junk, after = junk ++ before ∧ (junk = [] ↔ r.escaped = false)

/-- The run has ended in `c'` as the program has ended in `env`. -/
structure Ended (names : List String) (c : Config V H) (r : Except (Raised V) (Option V))
    (env : Env V H) (c' : Config V H) : Prop where
  vars : ∀ x ∈ names, c'.frame[names.idxOf x]? = some (env.vars x)
  heap : c'.state.heap = env.heap
  main : c'.state.main = c.state.main
  methods : c'.state.methods = c.state.methods
  structs : c'.state.structs = c.state.structs
  exc : Leaves c.state.exc c'.state.exc r

variable {P : Prims V H} {G : Guard V H} {names : List String} {structs : List StructDef}
  {prog : List SrcStmt} {c : Config V H} {env : Env V H} {fuel : Nat}

/-- The code of a program. -/
def programCode (names : List String) (structs : List StructDef) (prog : List SrcStmt) :
    List (Stmt V) :=
  (compileBlock names structs 0 prog).1 ++
    [.return ((compileBlock names structs 0 prog).2.getD (.int 0))]

/-- The operand of the `return`. -/
theorem OptValue.result {hi : Nat} {op : Option (Op V)} {v : Option V} {code : List (Stmt V)}
    (hP : Closed P G) (hc : Holds G code names structs c env)
    (h : OptValue P G names hi op v env c) :
    operandValue P names.length c (op.getD (.int 0)) = some (v.getD (P.boxInt 0)) ∧
      G.good (v.getD (P.boxInt 0)) := by
  cases op with
  | none =>
    cases v with
    | none => exact ⟨rfl, hP.boxInt 0⟩
    | some v => exact h.elim
  | some op =>
    cases v with
    | none => exact h.elim
    | some v => exact ⟨h.1.value hc, h.2⟩

/-- The loop gets to its end `c'` as the program does, all that it reads is good, and so is
the value. -/
structure Completes (P : Prims V H) (G : Guard V H) (body : Body V) (names : List String)
    (c : Config V H) (r : Except (Raised V) (Option V)) (env : Env V H)
    (c' : Config V H) : Prop where
  last : ∃ c₁, Reaches P G body.code names c c₁ ∧ Guarded P G.good body c₁ ∧
    ∀ calls, step P calls body c₁ = .ok (.finished (outcome P r) c')
  ended : Ended names c r env c'
  good : ∀ v, outcome P r = .ok v → G.good v

/-- The loop on the code of a program: it goes on for at least as many rounds as there is
fuel, or ends as the program does. -/
theorem program_completes (hP : Closed P G) (hcl : SrcStmt.allClosed names structs prog = true)
    (hc : Holds G (programCode names structs prog) names structs c env) (hip : c.ip = 0)
    (hhandlers : c.handlers = []) :
    match evalBlock P structs fuel prog env with
    | none => Spins (Next P G (programCode names structs prog) names) fuel c
    | some (r, env') => ∃ c', Completes P G ⟨names.length, programCode names structs prog⟩ names
      c r env' c' := by
  have hcode : CodeAt (programCode (V := V) names structs prog) 0
      ((compileBlock names structs 0 prog).1 ++
        [.return ((compileBlock names structs 0 prog).2.getD (.int 0))]) := List.prefix_rfl
  have hrun := implements_block hP fuel prog 0 hcl c env hc hip hcode.left
  have hreturn := hcode.right.head
  generalize programCode names structs prog = code at *
  generalize compileBlock names structs 0 prog = piece at *
  unfold Realizes at hrun
  cases hm : evalBlock P structs fuel prog env with
  | none =>
    rw [hm] at hrun
    exact hrun
  | some r =>
    obtain ⟨r, env'⟩ := r
    rw [hm] at hrun
    cases r with
    | error r =>
      obtain ⟨c', hesc⟩ := hrun
      obtain ⟨c₁, junk, hreach, hguard, hstep⟩ := hesc.throws
      refine ⟨c', ⟨c₁, hreach, hguard, fun calls => ?_⟩, ⟨hesc.holds.vars, hesc.holds.heap,
        hesc.kept.main, hesc.kept.methods, hesc.holds.structs.trans hc.structs.symm, hesc.exc⟩,
        fun _ hv => (by cases hv)⟩
      rw [hstep calls, unwind, hesc.kept.handlers, hhandlers]
      rfl
    | ok v =>
      obtain ⟨c', hfalls, hv⟩ := hrun
      obtain ⟨hval, hgood⟩ := hv.result hP hfalls.holds
      rw [← hfalls.ip] at hreturn
      refine ⟨c', ⟨c', hfalls.reaches, guarded_of hreturn fun o ho w hw => ?_, fun calls => ?_⟩,
        ⟨hfalls.holds.vars, hfalls.holds.heap, hfalls.kept.main, hfalls.kept.methods,
          hfalls.holds.structs.trans hc.structs.symm, hfalls.exc⟩, ?_⟩
      · obtain rfl := List.mem_singleton.mp ho
        obtain rfl := Option.some.inj (hval.symm.trans hw)
        exact hgood
      · have hexec : exec P calls names.length (.return (piece.2.getD (.int 0))) c' =
            .ok (.ok (.ret (v.getD (P.boxInt 0))), c') := by
          rw [exec, bind_of_ok (readOp_eq hval)]
          rfl
        rw [step_eq hreturn hexec]
        rfl
      · intro w hw
        cases hw
        exact hgood

/-- The variables and the heap when the loop begins. -/
def initialEnv (P : Prims V H) (names : List String) (c : Config V H) : Env V H where
  vars x := c.frame.getD (names.idxOf x) P.null
  heap := c.state.heap

/-- How the loop begins. -/
theorem start_eq {body : Body V} {seed : List (Nat × V)} {st : State V H} {c : Config V H}
    (h : start P body seed st = .ok c) :
    c.ip = 0 ∧ c.handlers = [] ∧ c.state = st ∧
      c.frame.length = body.nslots + body.code.length := by
  obtain ⟨frame, hframe, rfl⟩ := map_eq_ok.mp h
  have hsafe := safe_seedFrame seed (List.replicate (body.nslots + body.code.length) P.null)
  rw [hframe, List.length_replicate] at hsafe
  exact ⟨rfl, rfl, rfl, hsafe⟩

/-- No value and no heap is asked for anything. -/
def anything : Guard V H := ⟨fun _ => True, fun _ => True⟩

theorem holds_initialEnv {code : List (Stmt V)} (P : Prims V H)
    (hlen : c.frame.length = names.length + code.length) (hst : c.state.structs = structs) :
    Holds anything code names structs c (initialEnv P names c) where
  vars x hx := by
    have hlt := List.idxOf_lt_length_of_mem hx
    have hframe : names.idxOf x < c.frame.length := by omega
    show _ = some (c.frame.getD (names.idxOf x) P.null)
    rw [List.getD_eq_getElem?_getD, List.getElem?_eq_getElem hframe]
    rfl
  heap := rfl
  good _ := trivial
  inv := trivial
  length := hlen
  structs := hst

/-- A lowered program in the configuration in which the loop begins. -/
structure Started (P : Prims V H) (structs : List StructDef) (prog : List SrcStmt) (body : Body V)
    (names : List String) (c : Config V H) : Prop where
  lowered : lowerProgram structs prog = (.ok (body, names), c.state.structs)
  started : ∃ seed st, start P body seed st = .ok c

/-- The program and the loop, for a program that has been lowered. -/
theorem Started.completes {body : Body V} (h : Started P structs prog body names c)
    (hP : Closed P G) (hc : Holds G body.code names c.state.structs c env) (fuel : Nat) :
    match evalBlock P c.state.structs fuel prog env with
    | none => Spins (Next P G body.code names) fuel c
    | some (r, env') => ∃ c', Completes P G body names c r env' c' := by
  obtain ⟨hbody, hcl, -⟩ := lowerProgram_code h.lowered
  obtain ⟨seed, st, hstart⟩ := h.started
  obtain ⟨hip, hhandlers, -, -⟩ := start_eq hstart
  subst hbody
  exact program_completes hP hcl hc hip hhandlers

/-- The variables and the heap of the configuration itself. -/
theorem Started.holds {body : Body V} (h : Started P structs prog body names c) :
    Holds anything body.code names c.state.structs c (initialEnv P names c) := by
  obtain ⟨hbody, -, -⟩ := lowerProgram_code h.lowered
  obtain ⟨seed, st, hstart⟩ := h.started
  obtain ⟨-, -, -, hlen⟩ := start_eq hstart
  subst hbody
  exact holds_initialEnv P hlen rfl

omit [DecidableEq V] in
theorem closed_anything (P : Prims V H) : Closed P anything := by
  have hyields : ∀ {α : Type} (g : HeapOp V H α), Yields anything (fun _ => True) g := by
    intro α g h _
    refine ⟨?_, trivial⟩
    cases (g h).1 <;> trivial
  have hreports : ∀ {α : Type} (f : H → Except String α × H),
      Reports (V := V) anything (fun _ => True) f := fun _ _ _ => ⟨fun _ _ => trivial, trivial⟩
  exact ⟨fun _ => trivial, fun _ => trivial, fun _ _ _ _ => trivial,
    fun _ _ _ => ⟨trivial, trivial⟩, fun _ _ _ _ _ => ⟨trivial, trivial⟩, fun _ _ _ => hyields _,
    fun _ _ _ _ => hreports _, fun _ _ _ => hreports _, fun _ _ _ _ _ => hreports _,
    fun _ _ => hyields _, fun _ _ _ => hyields _, fun _ _ _ _ _ => hyields _,
    fun _ _ _ _ => hyields _⟩

/-- The program and the loop end together. -/
theorem Started.endsAfter {body : Body V} (h : Started P structs prog body names c)
    (hc : Holds anything body.code names c.state.structs c env) (fuel : Nat) :
    match evalBlock P c.state.structs fuel prog env with
    | none => run P fuel body c = .error .outOfFuel
    | some (r, env') =>
      ∃ N c', EndsAfter P body c N (outcome P r) c' ∧ Ended names c r env' c' := by
  have hends := h.completes (closed_anything P) hc fuel
  obtain ⟨hbody, -, -⟩ := lowerProgram_code h.lowered
  subst hbody
  cases hm : evalBlock P c.state.structs fuel prog env with
  | none =>
    rw [hm] at hends
    exact run_of_spins hends
  | some r =>
    obtain ⟨r, env'⟩ := r
    rw [hm] at hends
    obtain ⟨c', hcompletes⟩ := hends
    obtain ⟨c₁, hreach, -, hstep⟩ := hcompletes.last
    obtain ⟨N, hN⟩ := (endsAfter_of_finished hstep).of_reaches hreach
    exact ⟨N, c', hN, hcompletes.ended⟩

/-! ### Boxes in no root

A statement that keeps its operands in locals holds the box of a literal in no root while it
boxes the literals behind it.  Where a collection frees such a box, the statement works on
something else, and the run is not the program's any more.  A run in which this does not
happen is a run of the primitives that keep every box. -/

/-- The operand, if it is the box of a literal and another one is boxed behind it. -/
def heldAcross (op : Op V) (boxes : Bool) : List (Op V) :=
  if op.isLiteral && boxes then [op] else []

/-- The literals that a statement holds in no root while it boxes another one. -/
def heldLiterals : Stmt V → List (Op V)
  | .setField a _ b | .arrayRef a b | .push a b | .methodDef a b _ _ => heldAcross a b.isLiteral
  | .arraySet a i v => heldAcross a (i.isLiteral || v.isLiteral) ++ heldAcross i v.isLiteral
  | _ => []

/-- The next statement finds the literals that it holds: no collection frees one of them. -/
def Calm (P : Prims V H) (body : Body V) (c : Config V H) : Prop :=
  ∀ s, body.code[c.ip]? = some s → ∀ op ∈ heldLiterals s, ∀ v,
    operandValue P body.nslots c op = some v → P.unrooted v c.state.heap = v

/-- The loop gets from one configuration to the other. -/
def Visits (P : Prims V H) (body : Body V) : Config V H → Config V H → Prop :=
  Relation.ReflTransGen fun c c' =>
    ∃ n, step P (callsWith P (enterWith P (run P n))) body c = .ok (.running c')

/-- A program that holds no literal is calm. -/
theorem calm_of_heldLiterals {body : Body V}
    (h : (body.code.all fun s => (heldLiterals s).isEmpty) = true) (c : Config V H) :
    Calm P body c := by
  intro s hs op hop
  have hempty := List.all_eq_true.mp h s (List.mem_of_getElem? hs)
  rw [List.isEmpty_iff.mp hempty] at hop
  cases hop

omit [DecidableEq V] in
/-- A literal that is found. -/
theorem onHeap_keep {literal boxes : Bool} {v : V}
    (h : (literal && boxes) = true → P.unrooted v c.state.heap = v) :
    onHeap (P.keep literal boxes v) c = .ok (.ok v, c) := by
  have hkeep : (if literal && boxes then P.unrooted v c.state.heap else v) = v := by
    split
    case isTrue hboxes => exact h hboxes
    case isFalse => rfl
  rw [onHeap, Prims.keep, hkeep]

/-- What follows an operand runs with its value, in the same configuration. -/
theorem bind_readOp_congr {α : Type} {nslots : Nat} {op : Op V} {k k' : V → EvalM V H α}
    (h : ∀ v, operandValue P nslots c op = some v → k v c = k' v c) :
    (readOp P nslots op >>= k) c = (readOp P nslots op >>= k') c := by
  cases hv : operandValue P nslots c op with
  | some v =>
    rw [bind_of_ok (readOp_eq hv), bind_of_ok (readOp_eq hv)]
    exact h v hv
  | none =>
    rw [Keeps.bind_apply, Keeps.bind_apply]
    cases op with
    | ssa i => rw [readOp, getFrame, show c.frame[nslots + i]? = none from hv]
    | slot k => rw [readOp, getFrame, show c.frame[k]? = none from hv]
    | int n => cases hv
    | float bits => cases hv
    | const w => cases hv
    | global sym =>
      have hget : (get : EvalM V H (Config V H)) c = .ok (.ok c, c) := rfl
      rw [readOp, bind_of_ok hget, show getGlobal P.null c.state.main sym = none from hv]
      rfl

theorem mem_heldAcross {op : Op V} {boxes : Bool} (h : (op.isLiteral && boxes) = true) :
    op ∈ heldAcross op boxes := by
  rw [heldAcross, if_pos h]
  exact List.mem_cons_self

/-- A statement with two operands that finds its literals. -/
theorem bind_keep_rooted {α : Type} {nslots : Nat} {a b : Op V} (k : V → V → EvalM V H α)
    (h : ∀ op ∈ heldAcross a b.isLiteral, ∀ v, operandValue P nslots c op = some v →
      P.unrooted v c.state.heap = v) :
    (do
      let v ← readOp P nslots a
      let w ← readOp P nslots b
      let v ← onHeap (P.keep a.isLiteral b.isLiteral v)
      k v w : EvalM V H α) c =
    (do
      let v ← readOp P nslots a
      let w ← readOp P nslots b
      let v ← onHeap (P.rooted.keep a.isLiteral b.isLiteral v)
      k v w : EvalM V H α) c := by
  refine bind_readOp_congr fun v hv => bind_readOp_congr fun w _ => ?_
  rw [bind_of_ok (onHeap_keep fun hlit => h a (mem_heldAcross hlit) v hv),
    bind_of_ok (onHeap_keep (P := P.rooted) fun _ => rfl)]

theorem readArgs_rooted (nslots : Nat) (args : List (Op V)) :
    readArgs P.rooted nslots args = readArgs P nslots args := by
  induction args with
  | nil => rfl
  | cons op args ih =>
    rw [readArgs, readArgs, ih]
    rfl

omit [DecidableEq V] in
theorem storeAll_rooted (a : V) (j : Nat) (vals : List V) :
    P.rooted.storeAll a j vals = P.storeAll a j vals := by
  induction vals generalizing j with
  | nil => rfl
  | cons v vals ih =>
    rw [Prims.storeAll, Prims.storeAll, ih]
    rfl

theorem arrayLit_rooted (vals : List V) : P.rooted.arrayLit vals = P.arrayLit vals := by
  unfold Prims.arrayLit
  simp only [storeAll_rooted]
  rfl

/-- A calm round is one of the primitives that keep every box. -/
theorem exec_rooted {calls : Calls V H} {nslots : Nat} {s : Stmt V}
    (h : ∀ op ∈ heldLiterals s, ∀ v, operandValue P nslots c op = some v →
      P.unrooted v c.state.heap = v) :
    exec P calls nslots s c = exec P.rooted calls nslots s c := by
  cases s with
  | setField a name b => exact bind_keep_rooted _ h
  | arrayRef a b => exact bind_keep_rooted _ h
  | push a b => exact bind_keep_rooted _ h
  | methodDef a b n code => exact bind_keep_rooted _ h
  | arraySet a i v =>
    refine bind_readOp_congr fun x hx => bind_readOp_congr fun y hy =>
      bind_readOp_congr fun z _ => ?_
    have ha := fun hlit => h a (List.mem_append_left _ (mem_heldAcross hlit)) x hx
    have hi := fun hlit => h i (List.mem_append_right _ (mem_heldAcross hlit)) y hy
    rw [bind_of_ok (onHeap_keep ha), bind_of_ok (onHeap_keep hi),
      bind_of_ok (onHeap_keep (P := P.rooted) fun _ => rfl),
      bind_of_ok (onHeap_keep (P := P.rooted) fun _ => rfl)]
    rfl
  | callGeneric f args | callValue args | assignCall k args =>
    rw [exec, exec, readArgs_rooted]
  | call b args | new ty args =>
    rw [exec, exec, readArgs_rooted]
    rfl
  | arrayLit args =>
    rw [exec, exec, readArgs_rooted]
    simp only [arrayLit_rooted]
  | _ => rfl

/-- A calm statement does the same with every box kept. -/
theorem step_rooted {calls : Calls V H} {body : Body V} (h : Calm P body c) :
    step P calls body c = step P.rooted calls body c := by
  unfold step
  cases hs : body.code[c.ip]? with
  | none => rfl
  | some s =>
    dsimp only
    rw [exec_rooted (h s hs)]

variable {code : List (Stmt V)} {c' : Config V H}

theorem Next.of_rooted (hn : Next P.rooted G code names c c')
    (h : Calm P ⟨names.length, code⟩ c) : Next P G code names c c' :=
  ⟨hn.1, fun calls => (step_rooted h).trans (hn.2 calls)⟩

/-- In a calm run, the loop takes the steps of the primitives that keep every box. -/
theorem Reaches.of_rooted (hr : Reaches P.rooted G code names c c')
    (h : ∀ c₁, Visits P ⟨names.length, code⟩ c c₁ → Calm P ⟨names.length, code⟩ c₁) :
    Reaches P G code names c c' ∧ Visits P ⟨names.length, code⟩ c c' := by
  induction hr with
  | refl => exact ⟨.refl, .refl⟩
  | tail _ hn ih =>
    have hnext := hn.of_rooted (h _ ih.2)
    exact ⟨ih.1.tail hnext, ih.2.tail ⟨0, hnext.2 _⟩⟩

theorem spins_of_rooted {n : Nat} (hs : Spins (Next P.rooted G code names) n c)
    (h : ∀ c₁, Visits P ⟨names.length, code⟩ c c₁ → Calm P ⟨names.length, code⟩ c₁) :
    Spins (Next P G code names) n c := by
  induction n generalizing c with
  | zero => trivial
  | succ n ih =>
    obtain ⟨c₁, hn, hrest⟩ := hs
    have hnext := hn.of_rooted (h c .refl)
    exact ⟨c₁, hnext, ih hrest fun c₂ hc₂ => h c₂ (.head ⟨0, hnext.2 _⟩ hc₂)⟩

omit [DecidableEq V] in
/-- A lowered program that is started begins in the same way with every box kept. -/
theorem Started.rooted {body : Body V} (h : Started P structs prog body names c) :
    Started P.rooted structs prog body names c := ⟨h.lowered, h.started⟩

/-- The program and a calm run of the loop end together. -/
theorem Started.endsAfter_rooted {body : Body V} (h : Started P structs prog body names c)
    (hcalm : ∀ c', Visits P body c c' → Calm P body c') (fuel : Nat) :
    match evalBlock P.rooted c.state.structs fuel prog (initialEnv P names c) with
    | none => run P fuel body c = .error .outOfFuel
    | some (r, env') =>
      ∃ N c', EndsAfter P body c N (outcome P r) c' ∧ Ended names c r env' c' := by
  have hends := h.rooted.completes (closed_anything P.rooted) h.rooted.holds fuel
  obtain ⟨hbody, -, -⟩ := lowerProgram_code h.lowered
  subst hbody
  cases hm : evalBlock P.rooted c.state.structs fuel prog (initialEnv P names c) with
  | none =>
    rw [show initialEnv P.rooted names c = initialEnv P names c from rfl, hm] at hends
    exact run_of_spins (spins_of_rooted hends hcalm)
  | some r =>
    obtain ⟨r, env'⟩ := r
    rw [show initialEnv P.rooted names c = initialEnv P names c from rfl, hm] at hends
    obtain ⟨c', hcompletes⟩ := hends
    obtain ⟨c₁, hreach, -, hstep⟩ := hcompletes.last
    obtain ⟨hreach', hvisits⟩ := Reaches.of_rooted hreach hcalm
    have hlast := fun calls => (step_rooted (hcalm c₁ hvisits)).trans (hstep calls)
    obtain ⟨N, hN⟩ := (endsAfter_of_finished hlast).of_reaches hreach'
    exact ⟨N, c', hN, hcompletes.ended⟩

/-! ### Lowering -/

/-- **Lowering is correct.**  Where no collection frees the box of a literal that a statement
holds, the loop of `eval_core` on the lowered body ends iff the program does, with its
outcome, its variables and its heap. -/
theorem lowering_correct {body : Body V} (htop : structsOnTop prog = true)
    (h : Started P structs prog body names c)
    (hcalm : ∀ c', Visits P body c c' → Calm P body c') :
    (∀ fuel r env', evalProgram P.rooted fuel structs prog (initialEnv P names c) =
        some (r, env') →
      ∃ N c', EndsAfter P body c N (outcome P r) c' ∧ Ended names c r env' c') ∧
    ∀ n r c', run P n body c = .ok (r, c') → ∃ fuel r' env',
      evalProgram P.rooted fuel structs prog (initialEnv P names c) = some (r', env') ∧
        r = outcome P r' ∧ Ended names c r' env' c' := by
  have hmeaning : ∀ fuel, evalProgram P.rooted fuel structs prog =
      evalBlock P.rooted c.state.structs fuel prog := by
    intro fuel
    obtain ⟨o, L', hblock, hst⟩ := lowerProgram_block h.lowered
    exact evalProgram_eq_evalBlock fuel prog _ o L' htop hblock (hst ▸ .refl _)
  constructor
  · intro fuel r env' heval
    have hends := h.endsAfter_rooted hcalm fuel
    rw [hmeaning] at heval
    rwa [heval] at hends
  · intro n r c' hrun
    have hends := h.endsAfter_rooted hcalm n
    cases hm : evalBlock P.rooted c.state.structs n prog (initialEnv P names c) with
    | none =>
      rw [hm] at hends
      rw [hends] at hrun
      cases hrun
    | some x =>
      obtain ⟨r', env'⟩ := x
      rw [hm] at hends
      obtain ⟨N, c'', hN, hended⟩ := hends
      rw [hN n] at hrun
      split at hrun
      · cases hrun
      · cases hrun
        exact ⟨n, r', env', by rw [hmeaning, hm], rfl, hended⟩

/-- `a = [0, 0]; a[1] = 7; a[1]` -/
def setFirst : List SrcStmt :=
  [.assign "a" (.arrayLit [.int 0, .int 0]), .indexAssign "a" (.int 1) (.int 7),
    .expr (.index (.var "a") (.int 1))]

/-- A runtime in which boxing collects, and the next box gets the cell of a box that was freed:
here the one of the literal 7. -/
def collecting : State Box ArrayHeap := ⟨⟨[], some (.int 7)⟩, [], [], [], []⟩

/-- The index is boxed and then freed while 7 is boxed; the program has the value 7, and its
run ends with an exception. -/
theorem lowering_setFirst :
    Started arrays [] setFirst ⟨1, programCode ["a"] [] setFirst⟩ ["a"]
        ⟨0, List.replicate 6 .null, [], collecting⟩ ∧
      (∃ env, evalProgram arrays.rooted 1 [] setFirst
        (initialEnv arrays ["a"] ⟨0, List.replicate 6 .null, [], collecting⟩) =
          some (.ok (some (.int 7)), env)) ∧
      ∃ c', run arrays 9 ⟨1, programCode ["a"] [] setFirst⟩
        ⟨0, List.replicate 6 .null, [], collecting⟩ = .ok (.error (.error "BoundsError"), c') :=
  ⟨⟨rfl, [], collecting, rfl⟩, ⟨_, rfl⟩, ⟨_, rfl⟩⟩

/-- `try throw(1) catch e; x = e end` -/
def catchAndBind : List SrcStmt :=
  [.tryCatch [.expr (.call "throw" [.int 1])] (some "e") [.assign "x" (.var "e")]]

/-- A program that holds no literal has its value in every run, also where boxing collects. -/
theorem lowering_correct_catchAndBind :
    ∃ N c', EndsAfter arrays ⟨2, programCode ["e", "x"] [] catchAndBind⟩
      ⟨0, List.replicate 11 .null, [], collecting⟩ N (.ok (.int 0)) c' ∧
        c'.frame[1]? = some (.int 1) := by
  have hstarted : Started arrays [] catchAndBind ⟨2, programCode ["e", "x"] [] catchAndBind⟩
      ["e", "x"] ⟨0, List.replicate 11 .null, [], collecting⟩ := ⟨rfl, [], collecting, rfl⟩
  obtain ⟨N, c', hends, hended⟩ := (lowering_correct rfl hstarted
    fun c _ => calm_of_heldLiterals rfl c).1 1 (.ok none) _ rfl
  exact ⟨N, c', hends, hended.vars "x" (by decide)⟩

end Programs

end Ruju.Frontend
