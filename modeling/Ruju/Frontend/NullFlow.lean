import Ruju.Frontend.Toplevel

/-!
# Variables without a value

A slot that was never assigned holds `null`, and `read_op` hands the `null` on without an
exception.  A run that reads only slots that it has assigned before, or that were seeded from
a binding of `Main`, never reads a `null`, as far as the primitives make none themselves.

The condition is followed along the run (`readsAssigned`), with the set of slots assigned so
far.  The argument compares two runs.  Put a value that is not `null` into every slot that is
not assigned at the start: the run reads none of these slots before it assigns them, so it
takes the same steps, reads the same operands and ends with the same outcome
(`coupled_run`).  In the second run every variable has a value from the start, and the
simulation says of it that every operand is good.
-/

namespace Ruju.Frontend

open Interp

/-! ### What a run reads -/

section Reading

variable {V H : Type} [DecidableEq V]

/-- What `read_op` gives for the operands of the next statement. -/
def stepReads (P : Prims V H) (body : Body V) (c : Config V H) : List V :=
  match body.code[c.ip]? with
  | none => []
  | some s => (operands s).filterMap (operandValue P body.nslots c)

/-- What `read_op` gives in a run of the loop. -/
def runReads (P : Prims V H) : Nat → Body V → Config V H → List V
  | 0, _, _ => []
  | fuel + 1, body, c =>
    stepReads P body c ++
      match step P (callsWith P (enterWith P (run P fuel))) body c with
      | .ok (.running c') => runReads P fuel body c'
      | _ => []

/-- What `read_op` gives in a run of `eval_source`. -/
def sourceReads (P : Prims V H) (floats : Floats) (fuel : Nat) (src : List Char)
    (st : State V H) : List V :=
  match parseSource floats src with
  | .error _ => []
  | .ok prog =>
    match lowerProgram st.structs prog with
    | (.error _, _) => []
    | (.ok (body, names), structs) =>
      match start P body (seedMain P.null st.main names) { st with structs := structs } with
      | .error _ => []
      | .ok c => runReads P fuel body c

/-! ### Which slots it has assigned -/

/-- The slot of an operand. -/
def opSlot : Op V → List Nat
  | .slot k => [k]
  | _ => []

/-- The slots that a statement looks at. -/
def slotsRead : Stmt V → List Nat
  | .isDefined op => opSlot op
  | s => (operands s).flatMap opSlot

/-- The slot that a statement assigns. -/
def slotAssigned : Stmt V → List Nat
  | .assign k _ | .assignCall k _ | .assignCaught k => [k]
  | _ => []

/-- Every statement of the run looks only at slots that were assigned before; `A` are those
assigned so far. -/
def readsAssigned (P : Prims V H) : Nat → Body V → List Nat → Config V H → Bool
  | 0, _, _, _ => true
  | fuel + 1, body, A, c =>
    match body.code[c.ip]? with
    | none => true
    | some s =>
      ((slotsRead s).all fun k => decide (k ∈ A)) &&
        match exec P (callsWith P (enterWith P (run P fuel))) body.nslots s c with
        | .error _ => true
        | .ok (r, c₁) =>
          match advance (r, c₁) with
          | .finished _ _ => true
          | .running c' =>
            match r with
            | .ok _ => readsAssigned P fuel body (slotAssigned s ++ A) c'
            | .error _ => readsAssigned P fuel body A c'

/-- In the run of `eval_source`, every variable that is read was assigned before or is bound in
`Main`. -/
def sourceReadsAssigned (P : Prims V H) (floats : Floats) (fuel : Nat) (src : List Char)
    (st : State V H) : Bool :=
  match parseSource floats src with
  | .error _ => true
  | .ok prog =>
    match lowerProgram st.structs prog with
    | (.error _, _) => true
    | (.ok (body, names), structs) =>
      match start P body (seedMain P.null st.main names) { st with structs := structs } with
      | .error _ => true
      | .ok c => readsAssigned P fuel body ((seedMain P.null st.main names).map Prod.fst) c

end Reading

/-! ### Runs that differ in slots they do not read -/

section Alike

variable {V H : Type} {nslots : Nat} {A B : List Nat} {c d : Config V H} {α : Type}

/-- The same configuration, up to slots that are not in `A`. -/
structure Alike (nslots : Nat) (A : List Nat) (c d : Config V H) : Prop where
  ip : d.ip = c.ip
  handlers : d.handlers = c.handlers
  state : d.state = c.state
  length : d.frame.length = c.frame.length
  frame : ∀ i, nslots ≤ i ∨ i ∈ A → d.frame[i]? = c.frame[i]?

theorem Alike.mono (h : Alike nslots B c d) (hAB : ∀ k ∈ A, k ∈ B) : Alike nslots A c d :=
  { h with frame := fun i hi => h.frame i (hi.imp id (hAB i)) }

theorem couples_getFrame {i : Nat} (hi : nslots ≤ i ∨ i ∈ A) :
    Couples (Alike nslots A) (Alike nslots A) (getFrame i : EvalM V H V) := by
  intro c d h
  simp only [getFrame, h.frame i hi]
  cases c.frame[i]? with
  | none => rfl
  | some v => exact ⟨rfl, h⟩

theorem couples_setFrame (k : Nat) (v : V) :
    Couples (Alike nslots A) (Alike nslots (k :: A)) (setFrame k v : EvalM V H Unit) := by
  intro c d h
  simp only [setFrame, h.length]
  by_cases hk : k < c.frame.length
  · rw [if_pos hk, if_pos hk]
    refine ⟨trivial, h.ip, h.handlers, h.state, ?_, fun i hi => ?_⟩
    · rw [List.length_set, List.length_set, h.length]
    · rw [List.getElem?_set, List.getElem?_set, h.length]
      by_cases hki : k = i
      · rw [if_pos hki, if_pos hki]
      · rw [if_neg hki, if_neg hki]
        refine h.frame i (hi.imp id fun hmem => ?_)
        exact (List.mem_cons.mp hmem).resolve_left (Ne.symm hki)
  · rw [if_neg hk, if_neg hk]

theorem couples_setResult (v : V) :
    Couples (Alike nslots A) (Alike nslots A) (setResult nslots v : EvalM V H Unit) := by
  intro c d h
  have hset := couples_setFrame (nslots + c.ip) v c d h
  simp only [setResult, h.ip]
  rcases hc : setFrame (nslots + c.ip) v c with x | ⟨e | a, c'⟩ <;>
    rcases hd : setFrame (nslots + c.ip) v d with y | ⟨e' | b, d'⟩ <;> rw [hc, hd] at hset
  all_goals first | exact hset | exact hset.elim | skip
  exact ⟨trivial, hset.2.mono fun k hk => List.mem_cons_of_mem _ hk⟩

theorem couples_onHeap (f : HeapOp V H α) :
    Couples (Alike nslots A) (Alike nslots A) (onHeap f : EvalM V H α) := by
  intro c d h
  simp only [onHeap, h.state]
  cases (f c.state.heap).1 <;>
    exact ⟨rfl, h.ip, h.handlers, rfl, h.length, h.frame⟩

theorem couples_onState (f : State V H → CallResult V H) :
    Couples (Alike nslots A) (Alike nslots A) (onState f : EvalM V H V) := by
  intro c d h
  simp only [onState, h.state]
  rcases f c.state with stop | ⟨r, st⟩
  · rfl
  · cases r <;> exact ⟨rfl, h.ip, h.handlers, rfl, h.length, h.frame⟩

/-- A change of the handlers and of the state. -/
theorem couples_modify (f : List Nat → List Nat) (g : State V H → State V H) :
    Couples (Alike nslots A) (Alike nslots A)
      (modify fun c => { c with handlers := f c.handlers, state := g c.state } :
        EvalM V H PUnit) :=
  .of_modify fun _ _ h =>
    ⟨h.ip, congrArg f h.handlers, congrArg g h.state, h.length, h.frame⟩

/-- The end of most statements. -/
theorem couples_store (v : V) :
    Couples (Alike nslots A) (Alike nslots A)
      (do setResult nslots v; pure .next : EvalM V H (Flow V)) :=
  (couples_setResult v).seq fun _ => .pure _

/-- The end of an assignment. -/
theorem couples_assign (k : Nat) (v : V) :
    Couples (Alike nslots A) (Alike nslots (k :: A))
      (do setFrame k v; setResult nslots v; pure .next : EvalM V H (Flow V)) :=
  (couples_setFrame k v).bind (fun _ => couples_store v) fun _ _ h =>
    h.mono fun _ hi => List.mem_cons_of_mem k hi

theorem couples_callArgs (calls : Calls V H) (vals : List V) :
    Couples (Alike nslots A) (Alike nslots A) (callArgs calls vals) := by
  cases vals with
  | nil => exact fun _ _ _ => rfl
  | cons callee vals => exact couples_onState _

variable [DecidableEq V] (P : Prims V H)

/-- An operand reads the same in both runs. -/
theorem couples_readOp {op : Op V} (hop : ∀ k ∈ opSlot op, k ∈ A) :
    Couples (Alike nslots A) (Alike nslots A) (readOp P nslots op) := by
  cases op with
  | ssa i => exact couples_getFrame (.inl (Nat.le_add_right _ _))
  | slot k => exact couples_getFrame (.inr (hop k List.mem_cons_self))
  | int n => exact .pure _
  | float bits => exact .pure _
  | const v => exact .pure _
  | global sym =>
    refine .get_bind (fun c d h => by rw [h.state]) fun c => ?_
    cases getGlobal P.null c.state.main sym with
    | some v => exact .pure v
    | none => exact couples_onHeap _

theorem couples_readArgs {ops : List (Op V)} (hops : ∀ k ∈ ops.flatMap opSlot, k ∈ A) :
    Couples (Alike nslots A) (Alike nslots A) (readArgs P nslots ops) := by
  induction ops with
  | nil => exact .pure _
  | cons op ops ih =>
    rw [List.flatMap_cons] at hops
    exact (couples_readOp P fun k hk => hops k (List.mem_append_left _ hk)).seq fun v =>
      (ih fun k hk => hops k (List.mem_append_right _ hk)).seq fun vs => .pure _

theorem couples_methodFunc (sym : String) :
    Couples (Alike nslots A) (Alike nslots A) (methodFunc P nslots sym) := by
  refine .get_bind (fun c d h => by rw [h.state]) fun c => ?_
  cases getGlobal P.null c.state.main sym with
  | some v =>
    dsimp only
    split
    · exact .pure v
    · exact couples_onHeap _
  | none =>
    exact (couples_onHeap _).seq fun f => (couples_setResult f).seq fun _ =>
      (couples_modify id fun st => { st with main := setGlobal sym f st.main }).seq fun _ => .pure f

theorem couples_isDefinedOp {op : Op V} (hop : ∀ k ∈ opSlot op, k ∈ A) :
    Couples (Alike nslots A) (Alike nslots A) (isDefinedOp P op : EvalM V H Bool) := by
  cases op with
  | slot k => exact (couples_getFrame (.inr (hop k List.mem_cons_self))).seq fun v => .pure _
  | global sym => exact .get_bind (fun c d h => by rw [h.state]) fun c => .pure _
  | ssa i => exact .pure _
  | int n => exact .pure _
  | float bits => exact .pure _
  | const v => exact .pure _

/-- **A statement does not see the slots that it does not read.** -/
theorem couples_exec (calls : Calls V H) {s : Stmt V} (hs : ∀ k ∈ slotsRead s, k ∈ A) :
    Couples (Alike nslots A) (Alike nslots (slotAssigned s ++ A)) (exec P calls nslots s) := by
  -- what is read is read alike, one operand after the other
  have hop : ∀ {ops : List (Op V)} {op : Op V}, (∀ k ∈ ops.flatMap opSlot, k ∈ A) → op ∈ ops →
      Couples (Alike nslots A) (Alike nslots A) (readOp P nslots op) := by
    intro ops op hops hmem
    exact couples_readOp P fun k hk => hops k (List.mem_flatMap.mpr ⟨op, hmem, hk⟩)
  cases s with
  | goto target => exact .pure _
  | latestWorld => exact .pure _
  | gotoIfNot cond target =>
    exact (hop hs List.mem_cons_self).seq fun v =>
      .get_bind (fun c d h => by rw [h.state]) fun c => .ite (.pure _) (.pure _)
  | «return» op => exact (hop hs List.mem_cons_self).seq fun v => .pure _
  | value op => exact (hop hs List.mem_cons_self).seq couples_store
  | assign k op => exact (hop hs List.mem_cons_self).seq (couples_assign k)
  | assignCall k args =>
    exact (couples_readArgs P hs).seq
      fun vals => (couples_callArgs calls vals).seq (couples_assign k)
  | assignGlobal sym op =>
    exact (hop hs List.mem_cons_self).seq fun v => (couples_setResult v).seq fun _ =>
      (couples_modify id fun st => { st with main := setGlobal sym v st.main }).seq fun _ => .pure _
  | call b args =>
    exact (couples_readArgs P hs).seq fun vals => (couples_onHeap _).seq couples_store
  | callGeneric f args =>
    exact (couples_readArgs P hs).seq fun vals => (couples_onState _).seq couples_store
  | callValue args =>
    exact (couples_readArgs P hs).seq fun vals => (couples_callArgs calls vals).seq couples_store
  | new ty args =>
    exact (couples_readArgs P hs).seq fun vals => .get_bind (fun c d h => by rw [h.state])
      fun c => (couples_onHeap _).seq couples_store
  | getField op name =>
    exact (hop hs List.mem_cons_self).seq fun v => (couples_onHeap _).seq couples_store
  | setField a name b =>
    exact (hop hs List.mem_cons_self).seq fun v =>
      (hop hs (List.mem_cons_of_mem _ List.mem_cons_self)).seq fun w =>
        (couples_onHeap _).seq fun v => (couples_onHeap _).seq fun _ => couples_store w
  | enter catchIp =>
    exact (couples_modify (catchIp :: ·) id).seq fun _ =>
      .get_bind (fun c d h => by rw [h.state]) fun c => couples_store _
  | leave n => exact (couples_modify (List.drop n) id).seq fun _ => .pure _
  | throw op => exact (hop hs List.mem_cons_self).seq fun e => .throw e
  | methodFunc sym => exact (couples_methodFunc P sym).seq couples_store
  | methodDef f sig n code =>
    exact (hop hs List.mem_cons_self).seq fun v =>
      (hop hs (List.mem_cons_of_mem _ List.mem_cons_self)).seq fun w =>
        (couples_onHeap _).seq fun v => (couples_onHeap _).seq fun func =>
          (couples_onHeap _).seq fun sigTuple =>
            (couples_modify id fun st => { st with
              methods := st.methods ++ [⟨func, sigTuple, ⟨n, code⟩, none⟩] }).seq fun _ =>
                couples_store _
  | caught => exact .get_bind (fun c d h => by rw [h.state]) fun c => couples_store _
  | assignCaught k =>
    exact .get_bind (fun c d h => by rw [h.state]) fun c => couples_assign k _
  | rethrow => exact .get_bind (fun c d h => by rw [h.state]) fun c => .pure _
  | popException op =>
    exact (hop hs List.mem_cons_self).seq fun v => (couples_modify id fun st => { st with
      exc := excRestore (P.unboxInt v st.heap).toNat st.exc }).seq fun _ => .pure _
  | arrayLit args =>
    exact (couples_readArgs P hs).seq fun vals => (couples_onHeap _).seq couples_store
  | arrayRef a i =>
    exact (hop hs List.mem_cons_self).seq fun v =>
      (hop hs (List.mem_cons_of_mem _ List.mem_cons_self)).seq fun w =>
        (couples_onHeap _).seq fun v => (couples_onHeap _).seq couples_store
  | arraySet a i v =>
    exact (hop hs List.mem_cons_self).seq fun x =>
      (hop hs (List.mem_cons_of_mem _ List.mem_cons_self)).seq fun y =>
        (hop hs (List.mem_cons_of_mem _ (List.mem_cons_of_mem _ List.mem_cons_self))).seq fun z =>
          (couples_onHeap _).seq fun x => (couples_onHeap _).seq fun y =>
            (couples_onHeap _).seq fun _ => couples_store z
  | push a v =>
    exact (hop hs List.mem_cons_self).seq fun x =>
      (hop hs (List.mem_cons_of_mem _ List.mem_cons_self)).seq fun y =>
        (couples_onHeap _).seq fun x => (couples_onHeap _).seq fun _ => couples_store x
  | len a => exact (hop hs List.mem_cons_self).seq fun v => (couples_onHeap _).seq couples_store
  | isDefined op => exact (couples_isDefinedOp P hs).seq fun b => couples_store _

omit [DecidableEq V] in
theorem Alike.unwind (h : Alike nslots A c d) (e : V) (exc : List V) :
    (∃ c' d', Interp.unwind e exc c = .running c' ∧ Interp.unwind e exc d = .running d' ∧
        Alike nslots A c' d') ∨
      ∃ out, Interp.unwind e exc c = .finished out c ∧ Interp.unwind e exc d = .finished out d := by
  unfold Interp.unwind
  rw [h.handlers]
  cases c.handlers with
  | nil => exact .inr ⟨_, rfl, rfl⟩
  | cons target handlers =>
    refine .inl ⟨_, _, rfl, rfl, rfl, rfl, ?_, h.length, h.frame⟩
    rw [h.state]

omit [DecidableEq V] in
/-- The end of a round. -/
theorem Alike.advance (h : Alike nslots A c d) (r : Except V (Flow V)) :
    (∃ c' d', Interp.advance (r, c) = .running c' ∧ Interp.advance (r, d) = .running d' ∧
        Alike nslots A c' d') ∨
      ∃ out, Interp.advance (r, c) = .finished out c ∧ Interp.advance (r, d) = .finished out d := by
  match r with
  | .error e =>
    simp only [Interp.advance, h.state]
    exact h.unwind e _
  | .ok .next =>
    refine .inl ⟨_, _, rfl, rfl, ?_, h.handlers, h.state, h.length, h.frame⟩
    rw [h.ip]
  | .ok (.goto target) => exact .inl ⟨_, _, rfl, rfl, rfl, h.handlers, h.state, h.length, h.frame⟩
  | .ok (.ret v) => exact .inr ⟨_, rfl, rfl⟩
  | .ok (.resume e) =>
    simp only [Interp.advance, h.state]
    exact h.unwind e _

variable {P} {body : Body V}

theorem Alike.operandValue (h : Alike nslots A c d) {op : Op V} (hop : ∀ k ∈ opSlot op, k ∈ A) :
    Frontend.operandValue P nslots d op = Frontend.operandValue P nslots c op := by
  cases op with
  | ssa i => exact h.frame _ (.inl (Nat.le_add_right _ _))
  | slot k => exact h.frame k (.inr (hop k List.mem_cons_self))
  | int n => rfl
  | float bits => rfl
  | const v => rfl
  | global sym =>
    show getGlobal P.null d.state.main sym = getGlobal P.null c.state.main sym
    rw [h.state]

omit [DecidableEq V] in
theorem opSlot_sub_slotsRead {s : Stmt V} {op : Op V} (hop : op ∈ operands s) :
    ∀ k ∈ opSlot op, k ∈ slotsRead s := by
  intro k hk
  have hmem : k ∈ (operands s).flatMap opSlot := List.mem_flatMap.mpr ⟨op, hop, hk⟩
  unfold slotsRead
  split
  · cases hop
  · exact hmem

/-- Two runs that are alike look at the same slots. -/
theorem Alike.stepReads (h : Alike body.nslots A c d) {s : Stmt V}
    (hs : body.code[c.ip]? = some s) (hA : ∀ k ∈ slotsRead s, k ∈ A) :
    Frontend.stepReads P body d = Frontend.stepReads P body c := by
  unfold Frontend.stepReads
  rw [h.ip, hs]
  exact List.filterMap_congr fun op hop =>
    h.operandValue fun k hk => hA k (opSlot_sub_slotsRead hop k hk)

/-- **A run does not see the slots that it does not read.**  Two runs from configurations that
differ only in slots that are not assigned read the same operands and have the same outcome, if
one of them looks at assigned slots only. -/
theorem coupled_run (n : Nat) : ∀ (A : List Nat) (c d : Config V H),
    readsAssigned P n body A c = true → Alike body.nslots A c d →
    runReads P n body d = runReads P n body c ∧
      (run P n body d).map Prod.fst = (run P n body c).map Prod.fst := by
  induction n with
  | zero => exact fun _ _ _ _ _ => ⟨rfl, rfl⟩
  | succ n ih =>
    intro A c d hreads h
    rw [readsAssigned] at hreads
    cases hs : body.code[c.ip]? with
    | none =>
      have hs' : body.code[d.ip]? = none := by rw [h.ip, hs]
      simp only [runReads, run, Frontend.stepReads, step, hs, hs', and_self]
    | some s =>
      have hs' : body.code[d.ip]? = some s := by rw [h.ip, hs]
      rw [hs] at hreads
      dsimp only at hreads
      rw [Bool.and_eq_true, List.all_eq_true] at hreads
      obtain ⟨hA, hrest⟩ := hreads
      have hA : ∀ k ∈ slotsRead s, k ∈ A := fun k hk => of_decide_eq_true (hA k hk)
      have hexec := couples_exec P (callsWith P (enterWith P (run P n))) hA c d h
      rw [runReads, runReads, run, run, h.stepReads hs hA]
      simp only [step, hs, hs']
      generalize exec P (callsWith P (enterWith P (run P n))) body.nslots s c = x at *
      generalize exec P (callsWith P (enterWith P (run P n))) body.nslots s d = y at *
      have halike : (∃ stop, x = .error stop ∧ y = .error stop) ∨
          ∃ B r c₁ d₁, x = .ok (r, c₁) ∧ y = .ok (r, d₁) ∧ Alike body.nslots B c₁ d₁ ∧
            ∀ c', advance (r, c₁) = .running c' → readsAssigned P n body B c' = true := by
        rcases x with stop | ⟨e | flow, c₁⟩ <;> rcases y with stop' | ⟨e' | flow', d₁⟩
        all_goals first | exact hexec.elim | skip
        · exact .inl ⟨stop, rfl, congrArg _ hexec.symm⟩
        · obtain ⟨rfl, halike⟩ := hexec
          exact .inr ⟨A, _, c₁, d₁, rfl, rfl, halike, fun c' hc' => by simpa only [hc'] using hrest⟩
        · obtain ⟨rfl, halike⟩ := hexec
          exact .inr ⟨_, _, c₁, d₁, rfl, rfl, halike, fun c' hc' => by simpa only [hc'] using hrest⟩
      rcases halike with ⟨stop, rfl, rfl⟩ | ⟨B, r, c₁, d₁, rfl, rfl, halike, hnext⟩
      · exact ⟨rfl, rfl⟩
      · rcases halike.advance r with ⟨c', d', hc', hd', halike'⟩ | ⟨out, hc', hd'⟩
        · obtain ⟨hsame, hend⟩ := ih B c' d' (hnext c' hc') halike'
          simp only [Except.map, hc', hd', hsame]
          exact ⟨trivial, hend⟩
        · simp only [Except.map, hc', hd', and_self]

end Alike

/-! ### Runs that read good operands only -/

section Good

variable {V H : Type} [DecidableEq V] {P : Prims V H} {G : Guard V H} {names : List String}
  {body : Body V} {c c' : Config V H}

theorem Guarded.stepReads {Good : V → Prop} (h : Guarded P Good body c) :
    ∀ v ∈ stepReads P body c, Good v := by
  intro v hv
  unfold Frontend.stepReads at hv
  split at hv
  · cases hv
  case h_2 s hs =>
    obtain ⟨op, hop, hval⟩ := List.mem_filterMap.mp hv
    exact h s hs op hop v hval

/-- One round, and what is read behind it. -/
theorem Next.runReads {code : List (Stmt V)} (hn : Next P G code names c c') {n : Nat}
    (h : ∀ v ∈ runReads P n ⟨names.length, code⟩ c', G.good v) :
    ∀ v ∈ runReads P (n + 1) ⟨names.length, code⟩ c, G.good v := by
  intro v hv
  rw [Frontend.runReads, hn.2, List.mem_append] at hv
  rcases hv with hv | hv
  · exact hn.1.stepReads v hv
  · exact h v hv

theorem runReads_of_spins {code : List (Stmt V)} {n : Nat}
    (h : Spins (Next P G code names) n c) :
    ∀ v ∈ runReads P n ⟨names.length, code⟩ c, G.good v := by
  induction n generalizing c with
  | zero => exact fun v hv => absurd hv List.not_mem_nil
  | succ n ih =>
    obtain ⟨c', hn, hrest⟩ := h
    exact hn.runReads (ih hrest)

theorem runReads_of_completes {code : List (Stmt V)}
    {r : Except (Raised V) (Option V)} {env : Env V H}
    (h : Completes P G ⟨names.length, code⟩ names c r env c') :
    ∀ n, ∀ v ∈ runReads P n ⟨names.length, code⟩ c, G.good v := by
  obtain ⟨c₁, hreach, hguard, hstep⟩ := h.last
  clear h
  induction hreach using Relation.ReflTransGen.head_induction_on with
  | refl =>
    intro n
    cases n with
    | zero => exact fun v hv => absurd hv List.not_mem_nil
    | succ n =>
      intro v hv
      rw [Frontend.runReads, hstep, List.append_nil] at hv
      exact hguard.stepReads v hv
  | head hn _ ih =>
    intro n
    cases n with
    | zero => exact fun v hv => absurd hv List.not_mem_nil
    | succ n => exact hn.runReads (ih n)

/-- No `null` flows back to the bindings. -/
theorem mem_flushed {null : V} {vars : String → V} {main : List (String × V)} {b : String × V}
    (h : b ∈ flushed null vars names main) (hb : b.2 = null) : b ∈ main := by
  have hset : ∀ (x : String) (v : V) (main : List (String × V)), v ≠ null →
      b ∈ setGlobal x v main → b ∈ main := by
    intro x v main hv
    induction main with
    | nil =>
      intro hmem
      obtain rfl := List.mem_singleton.mp hmem
      exact absurd hb hv
    | cons a main ih =>
      rw [setGlobal]
      split
      · intro hmem
        rcases List.mem_cons.mp hmem with rfl | hmem
        · exact absurd hb hv
        · exact List.mem_cons_of_mem a hmem
      · intro hmem
        rcases List.mem_cons.mp hmem with rfl | hmem
        · exact List.mem_cons_self
        · exact List.mem_cons_of_mem a (ih hmem)
  unfold flushed at h
  induction names generalizing main with
  | nil => exact h
  | cons x names ih =>
    rw [List.foldl_cons] at h
    have hmem := ih h
    split at hmem
    · exact hmem
    case isFalse hv => exact hset x (vars x) main hv hmem

theorem getGlobal_ne_null {null v : V} {main : List (String × V)} {x : String}
    (h : getGlobal null main x = some v) : v ≠ null := by
  unfold getGlobal at h
  split at h
  · split at h
    · cases h
    case isFalse hne =>
      cases h
      exact hne
  · cases h

end Good

section Source

variable {V H : Type} [DecidableEq V] {P : Prims V H} {floats : Floats} {src : List Char}
  {st : State V H} {prog : List SrcStmt} {body : Body V} {names : List String}
  {structs : List StructDef} {inv : H → Prop}

/-- The slots that are seeded. -/
theorem mem_seeded {null : V} {main : List (String × V)} {x : String} (hx : x ∈ names) :
    names.idxOf x ∈ (seedMain null main names).map Prod.fst ↔ (getGlobal null main x).isSome := by
  rw [List.mem_map]
  constructor
  · rintro ⟨p, hp, hpx⟩
    obtain ⟨y, hy, hmap⟩ := List.mem_filterMap.mp hp
    obtain ⟨v, hv, rfl⟩ := Option.map_eq_some_iff.mp hmap
    obtain rfl := (List.idxOf_inj hy).mp hpx
    exact Option.isSome_iff_exists.mpr ⟨v, hv⟩
  · intro hsome
    obtain ⟨v, hv⟩ := Option.isSome_iff_exists.mp hsome
    exact ⟨(names.idxOf x, v), List.mem_filterMap.mpr ⟨x, hx, by rw [hv]; rfl⟩, rfl⟩

/-- The configuration in which the run begins, with a value in every slot. -/
def filled (w : V) (nslots : Nat) (A : List Nat) (c : Config V H) : Config V H :=
  { c with frame := c.frame.mapIdx fun i v => if i < nslots ∧ i ∉ A then w else v }

omit [DecidableEq V] in
theorem alike_filled (w : V) (nslots : Nat) (A : List Nat) (c : Config V H) :
    Alike nslots A c (filled w nslots A c) where
  ip := rfl
  handlers := rfl
  state := rfl
  length := List.length_mapIdx
  frame i hi := by
    show (c.frame.mapIdx _)[i]? = _
    rw [List.getElem?_mapIdx]
    have hnot : ¬ (i < nslots ∧ i ∉ A) := by
      rintro ⟨hlt, hmem⟩
      exact hi.elim (fun h => by omega) hmem
    simp only [if_neg hnot, Option.map_id']

/-- The program and the loop, when every variable has a value from the start. -/
theorem Reads.filled_completes (h : Reads floats src st prog body names structs)
    (hP : Closed P ⟨(· ≠ P.null), inv⟩) (hinv : inv st.heap) {c : Config V H}
    (hstart : Interp.start P body (seedMain P.null st.main names) { st with structs := structs } =
      .ok c) :
    ∃ env, ∀ fuel,
      match evalBlock P structs fuel prog env with
      | none => Spins (Next P ⟨(· ≠ P.null), inv⟩ body.code names) fuel
        (filled (P.boxInt 0) body.nslots ((seedMain P.null st.main names).map Prod.fst) c)
      | some (r, env') => ∃ c', Completes P ⟨(· ≠ P.null), inv⟩ body names
        (filled (P.boxInt 0) body.nslots ((seedMain P.null st.main names).map Prod.fst) c) r env'
        c' := by
  obtain ⟨c', hstart', -, hstate, hholds⟩ := h.start P
  obtain rfl := Except.ok.inj (hstart.symm.trans hstart')
  obtain ⟨hip, hhandlers, -, -⟩ := start_eq hstart
  obtain ⟨hbody, hcl, -⟩ := lowerProgram_code h.lowered
  subst hbody
  refine ⟨⟨fun x => (getGlobal P.null st.main x).getD (P.boxInt 0), st.heap⟩, fun fuel => ?_⟩
  refine program_completes hP hcl ⟨fun x hx => ?_, ?_, fun x => ?_, hinv, ?_, hholds.structs⟩ hip
    hhandlers
  · have hlt := List.idxOf_lt_length_of_mem hx
    have hx' : c.frame[names.idxOf x]? = some ((getGlobal P.null st.main x).getD P.null) :=
      hholds.vars x hx
    show (c.frame.mapIdx _)[_]? = some ((getGlobal P.null st.main x).getD (P.boxInt 0))
    rw [List.getElem?_mapIdx, hx', Option.map_some]
    cases hv : getGlobal P.null st.main x with
    | some v =>
      rw [if_neg fun hnot => hnot.2 ((mem_seeded hx).mpr (by rw [hv]; rfl))]
      rfl
    | none =>
      have hnot : names.idxOf x ∉ (seedMain P.null st.main names).map Prod.fst := by
        rw [mem_seeded hx, hv]
        exact Bool.false_ne_true
      rw [if_pos ⟨hlt, hnot⟩]
      rfl
  · show c.state.heap = st.heap
    rw [hstate]
  · show (getGlobal P.null st.main x).getD (P.boxInt 0) ≠ P.null
    cases hv : getGlobal P.null st.main x with
    | some v => exact getGlobal_ne_null hv
    | none => exact hP.boxInt 0
  · exact List.length_mapIdx.trans hholds.length

/-- Where a value that is read comes from. -/
theorem mem_sourceReads {n : Nat} {v : V} (h : v ∈ sourceReads P floats n src st) :
    ∃ prog, ∃ body : Body V, ∃ names structs c, Reads floats src st prog body names structs ∧
      start P body (seedMain P.null st.main names) { st with structs := structs } = .ok c ∧
        v ∈ runReads P n body c := by
  unfold sourceReads at h
  split at h
  · cases h
  case h_2 prog hparse =>
    split at h
    · cases h
    case h_2 body names structs hlower =>
      split at h
      · cases h
      case h_2 c hstart => exact ⟨prog, body, names, structs, c, ⟨hparse, hlower⟩, hstart, h⟩

theorem Reads.readsAssigned (h : Reads floats src st prog body names structs) {c : Config V H}
    (hstart : Interp.start P body (seedMain P.null st.main names) { st with structs := structs } =
      .ok c) {n : Nat} (hassigned : sourceReadsAssigned P floats n src st = true) :
    Frontend.readsAssigned P n body ((seedMain P.null st.main names).map Prod.fst) c = true := by
  unfold sourceReadsAssigned at hassigned
  rw [h.parsed] at hassigned
  dsimp only at hassigned
  rw [h.lowered] at hassigned
  dsimp only at hassigned
  rwa [hstart] at hassigned

/-- A run that looks at assigned slots only reads no `null` and returns none. -/
theorem Reads.run_noNull (h : Reads floats src st prog body names structs)
    (hP : Closed P ⟨(· ≠ P.null), inv⟩) (hinv : inv st.heap) {c : Config V H}
    (hstart : Interp.start P body (seedMain P.null st.main names) { st with structs := structs } =
      .ok c) {n : Nat} (hassigned : sourceReadsAssigned P floats n src st = true) :
    (∀ v ∈ runReads P n body c, v ≠ P.null) ∧
      ∀ v c', run P n body c = .ok (.ok v, c') → v ≠ P.null := by
  obtain ⟨env, hcompletes⟩ := h.filled_completes hP hinv hstart
  obtain ⟨hreads, hout⟩ := coupled_run n _ c _ (h.readsAssigned hstart hassigned)
    (alike_filled (P.boxInt 0) _ _ c)
  have hn := hcompletes n
  obtain ⟨hbody, -, -⟩ := lowerProgram_code h.lowered
  subst hbody
  rw [← hreads]
  cases heval : evalBlock P structs n prog env with
  | none =>
    rw [heval] at hn
    refine ⟨runReads_of_spins hn, fun v c' hrun => ?_⟩
    rw [hrun, run_of_spins hn] at hout
    cases hout
  | some r =>
    rw [heval] at hn
    obtain ⟨d, hd⟩ := hn
    refine ⟨runReads_of_completes hd n, fun v c' hrun => ?_⟩
    obtain ⟨c₁, hreach, -, hstep⟩ := hd.last
    obtain ⟨N, hN⟩ := (endsAfter_of_finished hstep).of_reaches hreach
    rw [hrun, hN n] at hout
    split at hout
    · cases hout
    · exact hd.good v (Except.ok.inj hout)

end Source

/-- Boxes are never `null`, and everything else raises an error text. -/
theorem closed_boxes : Closed boxes ⟨(· ≠ boxes.null), fun _ => True⟩ := by
  have hthrow : ∀ {α : Type} {Q : α → Prop} (msg : String),
      Yields ⟨(· ≠ boxes.null), fun _ => True⟩ Q (Box.throw msg) :=
    fun _ _ _ => ⟨Box.noConfusion, trivial⟩
  have happly : ∀ b x y, Box.apply b x y ≠ .null := by
    intro b x y
    cases b <;> exact Box.noConfusion
  refine ⟨fun _ => Box.noConfusion, fun _ => Box.noConfusion, fun _ _ _ h => h,
    fun _ _ _ => ⟨Box.noConfusion, trivial⟩, fun _ _ _ _ _ => ⟨Box.noConfusion, trivial⟩,
    fun b vals _ => ?_, fun _ _ _ _ _ _ => ⟨fun _ h => (by cases h), trivial⟩,
    fun _ _ _ _ _ => ⟨fun _ h => (by cases h), trivial⟩,
    fun _ _ _ _ _ _ _ => ⟨fun _ h => (by cases h), trivial⟩, fun _ _ => hthrow _,
    fun _ _ _ => hthrow _, fun _ _ _ _ _ => hthrow _, fun _ _ _ _ => hthrow _⟩
  simp only [boxes]
  split
  · exact fun _ _ => ⟨happly b _ _, trivial⟩
  · exact hthrow _

end Ruju.Frontend
