import Ruju.Frontend.ParserSafety
import Ruju.Frontend.Programs

/-!
# Evaluating a source text

`eval_source` of `frontend.rs`.  A text is read, lowered and run.  The variables of
the program are bindings of `Main`: their slots are seeded from the bindings before the run,
and flow back to them after a run that has succeeded.  A slot without a value is `null`,
and is left out on the way back.

Where the text is read and lowered, the run ends as the program does, evaluated with the
variables that `Main` binds (`evalSource_ends`).
-/

namespace Ruju.Frontend

open Interp

/-! ### Reading -/

/-- `lex` and `parse_program`; the fuel is enough for every text (`parseSource_safe`). -/
def parseSource (floats : Floats) (src : List Char) : Except Fail (List SrcStmt) :=
  match lex floats src with
  | .error msg => .error (.err msg)
  | .ok toks => (parseProgram floats (2 * toks.length + 3) toks).map Prod.fst

/-! ### Running -/

/-- The `Err` of `eval_source`: a message of the front end, or the uncaught exception, which
is then formatted. -/
inductive SrcError (V : Type)
  | message (msg : String)
  | uncaught (e : V)
deriving DecidableEq

section Evaluate

variable {V H : Type} [DecidableEq V]

/-- The slots that are seeded from the bindings. -/
def seedMain (null : V) (main : List (String × V)) (names : List String) : List (Nat × V) :=
  names.filterMap fun x => (getGlobal null main x).map fun v => (names.idxOf x, v)

/-- The slots flow back to the bindings, those without a value apart. -/
def flushMain (null : V) (names : List String) (frame : List V) (main : List (String × V)) :
    Except Stop (List (String × V)) :=
  names.foldlM (fun main x =>
    match frame[names.idxOf x]? with
    | none => .error .outside
    | some v => .ok (if v = null then main else setGlobal x v main)) main

/-- `eval_source` -/
def evalSource (P : Prims V H) (floats : Floats) (fuel : Nat) (src : List Char) (st : State V H) :
    Except Stop (Except (SrcError V) V × State V H) :=
  match parseSource floats src with
  | .error (.err msg) => .ok (.error (.message msg), st)
  | .error .panic => .error .outside
  | .error .fuel => .error .outOfFuel
  | .ok prog =>
    match lowerProgram st.structs prog with
    | (.error msg, structs) => .ok (.error (.message msg), { st with structs := structs })
    | (.ok (body, names), structs) =>
      (evalCore P fuel body (seedMain P.null st.main names)
        (fun frame st => (flushMain P.null names frame st.main).map fun main =>
          { st with main := main })
        { st with structs := structs }).map fun r => (r.1.mapError .uncaught, r.2)

/-! ### Slots and bindings -/

theorem seedFrame_eq (g : Nat → V) : ∀ (seed : List (Nat × V)) (frame : List V),
    (∀ p ∈ seed, p.1 < frame.length ∧ p.2 = g p.1) →
    ∃ frame', seedFrame seed frame = .ok frame' ∧
      ∀ i, frame'[i]? = if i ∈ seed.map Prod.fst then some (g i) else frame[i]? := by
  intro seed
  induction seed with
  | nil => exact fun frame _ => ⟨frame, rfl, fun i => rfl⟩
  | cons p seed ih =>
    intro frame hseed
    obtain ⟨hlt, hval⟩ := hseed p List.mem_cons_self
    have hrest : ∀ q ∈ seed, q.1 < (frame.set p.1 p.2).length ∧ q.2 = g q.1 := by
      intro q hq
      rw [List.length_set]
      exact hseed q (List.mem_cons_of_mem p hq)
    obtain ⟨frame', hok, hframe⟩ := ih _ hrest
    refine ⟨frame', by rw [seedFrame, if_pos hlt, hok], fun i => ?_⟩
    rw [hframe i, List.map_cons]
    by_cases hi : i ∈ seed.map Prod.fst
    · rw [if_pos hi, if_pos (List.mem_cons_of_mem p.1 hi)]
    · rw [if_neg hi]
      by_cases hp : i = p.1
      · subst hp
        rw [if_pos List.mem_cons_self, List.getElem?_set_self hlt, hval]
      · rw [if_neg (List.not_mem_cons_of_ne_of_not_mem hp hi), List.getElem?_set_ne (Ne.symm hp)]

/-- The variables that `Main` binds, and the heap. -/
def mainEnv (P : Prims V H) (st : State V H) : Env V H where
  vars x := (getGlobal P.null st.main x).getD P.null
  heap := st.heap

/-- The frame that is seeded from the bindings. -/
theorem seedFrame_main (null : V) (main : List (String × V)) (names : List String) (n : Nat) :
    ∃ frame, seedFrame (seedMain null main names) (List.replicate (names.length + n) null) =
        .ok frame ∧
      ∀ x ∈ names, frame[names.idxOf x]? = some ((getGlobal null main x).getD null) := by
  have hseed : ∀ p ∈ seedMain null main names,
      p.1 < (List.replicate (names.length + n) null).length ∧
        p.2 = ((names[p.1]?).bind (getGlobal null main)).getD null := by
    intro p hp
    obtain ⟨x, hx, hmap⟩ := List.mem_filterMap.mp hp
    obtain ⟨v, hv, rfl⟩ := Option.map_eq_some_iff.mp hmap
    have hlt := List.idxOf_lt_length_of_mem hx
    refine ⟨by rw [List.length_replicate]; omega, ?_⟩
    rw [List.getElem?_eq_getElem hlt, List.getElem_idxOf, Option.bind_some, hv]
    rfl
  obtain ⟨frame, hok, hframe⟩ :=
    seedFrame_eq (fun i => ((names[i]?).bind (getGlobal null main)).getD null) _ _ hseed
  refine ⟨frame, hok, fun x hx => ?_⟩
  have hlt := List.idxOf_lt_length_of_mem hx
  rw [hframe]
  split
  · rw [List.getElem?_eq_getElem hlt, List.getElem_idxOf, Option.bind_some]
  case isFalse hnot =>
    cases hv : getGlobal null main x with
    | some v =>
      refine absurd (List.mem_map.mpr ⟨(names.idxOf x, v), ?_, rfl⟩) hnot
      exact List.mem_filterMap.mpr ⟨x, hx, by rw [hv]; rfl⟩
    | none =>
      rw [List.getElem?_replicate, if_pos (by omega)]
      rfl

/-- The bindings after the variables have flowed back. -/
def flushed (null : V) (vars : String → V) (names : List String) (main : List (String × V)) :
    List (String × V) :=
  names.foldl (fun main x => if vars x = null then main else setGlobal x (vars x) main) main

theorem flushMain_eq {null : V} {vars : String → V} {names : List String} {frame : List V}
    (h : ∀ x ∈ names, frame[names.idxOf x]? = some (vars x)) (main : List (String × V)) :
    flushMain null names frame main = .ok (flushed null vars names main) := by
  have hpart : ∀ (part : List String), (∀ x ∈ part, x ∈ names) → ∀ main,
      part.foldlM (fun main x =>
        match frame[names.idxOf x]? with
        | none => Except.error Stop.outside
        | some v => Except.ok (if v = null then main else setGlobal x v main)) main =
      Except.ok (part.foldl (fun main x =>
        if vars x = null then main else setGlobal x (vars x) main) main) := by
    intro part
    induction part with
    | nil => exact fun _ _ => rfl
    | cons x part ih =>
      intro hpart main
      rw [List.foldlM_cons, h x (hpart x List.mem_cons_self)]
      exact ih (fun y hy => hpart y (List.mem_cons_of_mem x hy)) _
  exact hpart names (fun _ hx => hx) main

end Evaluate

/-! ### Texts that are read and lowered -/

section Ends

variable {V H : Type} [DecidableEq V] {P : Prims V H} {floats : Floats} {src : List Char}
  {st : State V H} {prog : List SrcStmt} {body : Body V} {names : List String}
  {structs : List StructDef}

/-- The text is read as a program, which is lowered. -/
structure Reads (floats : Floats) (src : List Char) (st : State V H) (prog : List SrcStmt)
    (body : Body V) (names : List String) (structs : List StructDef) : Prop where
  parsed : parseSource floats src = .ok prog
  lowered : lowerProgram st.structs prog = (.ok (body, names), structs)

/-- The state in which the run begins. -/
theorem Reads.start (h : Reads floats src st prog body names structs) (P : Prims V H) :
    ∃ c, Interp.start P body (seedMain P.null st.main names) { st with structs := structs } =
        .ok c ∧
      Started P st.structs prog body names c ∧ c.state = { st with structs := structs } ∧
      Holds anything body.code names structs c (mainEnv P st) := by
  obtain ⟨hbody, -, -⟩ := lowerProgram_code h.lowered
  have hslots : body.nslots = names.length := by rw [hbody]
  obtain ⟨frame, hframe, hvars⟩ := seedFrame_main P.null st.main names body.code.length
  have hstart : Interp.start P body (seedMain P.null st.main names) { st with structs := structs } =
      .ok ⟨0, frame, [], { st with structs := structs }⟩ := by
    rw [Interp.start, hslots, hframe]
    rfl
  obtain ⟨-, -, -, hlen⟩ := start_eq hstart
  rw [hslots] at hlen
  exact ⟨_, hstart, ⟨h.lowered, _, _, hstart⟩, rfl, hvars, rfl, fun _ => trivial, trivial, hlen,
    rfl⟩

/-- The run of the text, given the run of the loop. -/
theorem Reads.evalSource_eq (h : Reads floats src st prog body names structs) {c : Config V H}
    (hstart : Interp.start P body (seedMain P.null st.main names) { st with structs := structs } =
      .ok c) (n : Nat) :
    evalSource P floats n src st =
      match run P n body c with
      | .error stop => .error stop
      | .ok (.error e, c') => .ok (.error (.uncaught e), c'.state)
      | .ok (.ok v, c') => (flushMain P.null names c'.frame c'.state.main).map fun main =>
        (.ok v, { c'.state with main := main }) := by
  unfold evalSource evalCore
  rw [h.parsed]
  dsimp only
  rw [h.lowered]
  dsimp only
  rw [hstart]
  dsimp only
  cases run P n body c with
  | error stop => rfl
  | ok r =>
    obtain ⟨r, c'⟩ := r
    cases r with
    | error e => rfl
    | ok v =>
      dsimp only
      cases flushMain P.null names c'.frame c'.state.main <;> rfl

/-- The state after a run, as the program has ended in `env`. -/
structure SrcEnded (P : Prims V H) (names : List String) (structs : List StructDef)
    (st : State V H) (r : Except (Raised V) (Option V)) (env : Env V H) (st' : State V H) :
    Prop where
  heap : st'.heap = env.heap
  main : st'.main =
    match outcome P r with
    | .ok _ => flushed P.null env.vars names st.main
    | .error _ => st.main
  methods : st'.methods = st.methods
  structs : st'.structs = structs
  exc : Leaves st.exc st'.exc r

/-- The run of the text ends with this outcome in this state, if it has this many rounds. -/
def SrcEnds (P : Prims V H) (floats : Floats) (src : List Char) (st : State V H) (N : Nat)
    (r : Except (SrcError V) V) (st' : State V H) : Prop :=
  ∀ n, evalSource P floats n src st = if n < N then .error .outOfFuel else .ok (r, st')

/-- **The run of a text ends as its program does.** -/
theorem Reads.ends (h : Reads floats src st prog body names structs) (P : Prims V H) (fuel : Nat) :
    match evalBlock P structs fuel prog (mainEnv P st) with
    | none => evalSource P floats fuel src st = .error .outOfFuel
    | some (r, env) => ∃ N st', SrcEnds P floats src st N ((outcome P r).mapError .uncaught) st' ∧
      SrcEnded P names structs st r env st' := by
  obtain ⟨c, hstart, hstarted, hstate, hholds⟩ := h.start P
  have hstructs : c.state.structs = structs := by rw [hstate]
  have hends := hstarted.endsAfter (hstructs.symm ▸ hholds) fuel
  rw [hstructs] at hends
  cases hm : evalBlock P structs fuel prog (mainEnv P st) with
  | none =>
    rw [hm] at hends
    dsimp only at hends ⊢
    rw [h.evalSource_eq hstart, hends]
  | some r =>
    obtain ⟨r, env⟩ := r
    rw [hm] at hends
    obtain ⟨N, c', hN, hended⟩ := hends
    have hmain : c'.state.main = st.main := by rw [hended.main, hstate]
    have hmethods : c'.state.methods = st.methods := by rw [hended.methods, hstate]
    have hexc : Leaves st.exc c'.state.exc r := by
      have := hended.exc
      rwa [hstate] at this
    have hregistry : c'.state.structs = structs := hended.structs.trans hstructs
    cases ho : outcome P r with
    | error e =>
      refine ⟨N, c'.state, fun n => ?_, ⟨hended.heap, by rw [ho, hmain], hmethods, hregistry, hexc⟩⟩
      rw [h.evalSource_eq hstart, hN n, ho]
      by_cases hn : n < N
      · rw [if_pos hn, if_pos hn]
      · rw [if_neg hn, if_neg hn]
        rfl
    | ok v =>
      refine ⟨N, { c'.state with main := flushed P.null env.vars names st.main }, fun n => ?_,
        ⟨hended.heap, by rw [ho], hmethods, hregistry, hexc⟩⟩
      rw [h.evalSource_eq hstart, hN n, ho]
      by_cases hn : n < N
      · rw [if_pos hn, if_pos hn]
      · rw [if_neg hn, if_neg hn]
        dsimp only
        rw [flushMain_eq hended.vars, hmain]
        rfl

/-- A run that has ended: the text was not read or not lowered, and only the registry may have
changed, or it was. -/
theorem evalSource_cases {n : Nat} {r : Except (SrcError V) V} {st' : State V H}
    (h : evalSource P floats n src st = .ok (r, st')) :
    ((∃ msg structs, r = .error (.message msg) ∧ st' = { st with structs := structs }) ∧
      ∀ prog (body : Body V) names structs, ¬ Reads floats src st prog body names structs) ∨
    ∃ prog, ∃ body : Body V, ∃ names structs, Reads floats src st prog body names structs := by
  unfold evalSource at h
  cases hparse : parseSource floats src with
  | error e =>
    refine Or.inl ⟨?_, fun prog body names structs hr => ?_⟩
    · rw [hparse] at h
      cases e <;> cases h
      exact ⟨_, st.structs, rfl, rfl⟩
    · have := hr.parsed
      rw [hparse] at this
      cases this
  | ok prog =>
    cases hlower : (lowerProgram st.structs prog : Except String (Body V × List String) × _) with
    | mk r structs =>
      cases r with
      | error msg =>
        refine Or.inl ⟨?_, fun prog' body names structs' hr => ?_⟩
        · rw [hparse] at h
          dsimp only at h
          rw [hlower] at h
          cases h
          exact ⟨msg, structs, rfl, rfl⟩
        · obtain rfl := Except.ok.inj (hparse.symm.trans hr.parsed)
          cases hlower.symm.trans hr.lowered
      | ok r => exact Or.inr ⟨prog, r.1, r.2, structs, hparse, hlower⟩

/-- A text is read and lowered in one way. -/
theorem Reads.unique {prog' : List SrcStmt} {body' : Body V} {names' : List String}
    {structs' : List StructDef} (h : Reads floats src st prog body names structs)
    (h' : Reads floats src st prog' body' names' structs') :
    prog = prog' ∧ body = body' ∧ names = names' ∧ structs = structs' := by
  obtain rfl := Except.ok.inj (h.parsed.symm.trans h'.parsed)
  cases h.lowered.symm.trans h'.lowered
  exact ⟨rfl, rfl, rfl, rfl⟩

/-- A run has one outcome. -/
theorem SrcEnds.unique {N N' : Nat} {r r' : Except (SrcError V) V} {s s' : State V H}
    (h : SrcEnds P floats src st N r s) (h' : SrcEnds P floats src st N' r' s') :
    r = r' ∧ s = s' := by
  have heq := (h (max N N')).symm.trans (h' (max N N'))
  rw [if_neg (by omega), if_neg (by omega)] at heq
  cases heq
  exact ⟨rfl, rfl⟩

/-- The run of a text that has ended, and how its program has ended. -/
theorem Reads.ended (h : Reads floats src st prog body names structs) {n : Nat}
    {r : Except (SrcError V) V} {st' : State V H}
    (hn : evalSource P floats n src st = .ok (r, st')) :
    ∃ r₀ env, evalBlock P structs n prog (mainEnv P st) = some (r₀, env) ∧
      r = (outcome P r₀).mapError .uncaught ∧ SrcEnded P names structs st r₀ env st' := by
  have hends := h.ends P n
  cases hm : evalBlock P structs n prog (mainEnv P st) with
  | none =>
    rw [hm] at hends
    dsimp only at hends
    rw [hends] at hn
    cases hn
  | some x =>
    obtain ⟨r₀, env⟩ := x
    rw [hm] at hends
    obtain ⟨N, s, hN, hended⟩ := hends
    rw [hN n] at hn
    split at hn <;> cases hn
    exact ⟨r₀, env, rfl, rfl, hended⟩

/-! ### The exception stack -/

/-- The program of the text ends with an exception that was raised inside a catch clause or
went through a finally clause. -/
def EndsEscaped (P : Prims V H) (floats : Floats) (src : List Char) (st : State V H) : Prop :=
  ∃ prog, ∃ body : Body V, ∃ names structs fuel r env,
    Reads floats src st prog body names structs ∧
      evalBlock P structs fuel prog (mainEnv P st) = some (.error r, env) ∧ r.escaped = true

omit [DecidableEq V] in
theorem Leaves.length_eq_iff {before after : List V} {r : Except (Raised V) (Option V)}
    (h : Leaves before after r) :
    after.length = before.length ↔ ∀ e, r = .error e → e.escaped = false := by
  cases r with
  | ok v =>
    refine iff_of_true (congrArg List.length h) fun e he => ?_
    cases he
  | error e =>
    obtain ⟨junk, rfl, hjunk⟩ := h
    rw [List.length_append, Nat.add_eq_right, List.length_eq_zero_iff, hjunk]
    constructor
    · intro hesc e' he'
      cases he'
      exact hesc
    · exact fun hesc => hesc e rfl

end Ends

/-- No floats. -/
def noFloats : Floats := ⟨fun _ => 0, fun _ => ""⟩

end Ruju.Frontend
