import Ruju.Frontend.Simulation

/-!
# Statements do what they mean

The simulation for statements and blocks, one lemma for each kind of statement.  The two
kinds of try statement share the part in front of the handler (`protects`): the body
ends behind its `leave`, or its exception lands at the handler with the exception on the
stack.  A catch clause then ends with `pop_exception`, which brings the stack back to
its depth at `enter`; a finally clause ends with `rethrow`.
-/

namespace Ruju.Frontend

open Interp

section Statements

variable {V H : Type} [DecidableEq V] {P : Prims V H} {G : Guard V H} {code : List (Stmt V)}
  {names : List String} {structs : List StructDef}
  {lo hi stop fuel pc : Nat} {c c' : Config V H} {env env' : Env V H}

/-! ### Rounds without an operation -/

/-- A statement that only moves control. -/
theorem falls_jump {s : Stmt V} {flow : Flow V} (hc : Holds G code names structs c env)
    (hs : code[c.ip]? = some s)
    (hguard : Guarded P G.good ⟨names.length, code⟩ c)
    (hexec : ∀ calls, exec P calls names.length s c = .ok (.ok flow, c))
    (hflow : advance (.ok flow, c) = .running { c with ip := stop }) :
    Falls P G code names structs lo hi stop c env { c with ip := stop } where
  reaches := .single ⟨hguard, fun calls => by rw [step_eq hs (hexec calls), hflow]⟩
  ip := rfl
  holds := { hc with }
  kept := ⟨fun _ _ => rfl, rfl, rfl, rfl⟩
  exc := rfl

theorem falls_goto (hc : Holds G code names structs c env) (hs : code[c.ip]? = some (.goto stop)) :
    Falls P G code names structs lo hi stop c env { c with ip := stop } :=
  falls_jump hc hs (guarded_nil hs rfl) (fun _ => rfl) rfl

variable {op : Op V} {target : Nat}

/-- The jump of a condition. -/
theorem falls_gotoIfNot {v : V} (hc : Holds G code names structs c env)
    (hs : code[c.ip]? = some (.gotoIfNot op target))
    (hv : operandValue P names.length c op = some v) (hgood : G.good v) :
    Falls P G code names structs lo hi
      (if P.unboxBool v env.heap then c.ip + 1 else target) c env
      { c with ip := if P.unboxBool v env.heap then c.ip + 1 else target } := by
  have hguard := guarded_single hs rfl hv hgood
  have hget : (get : EvalM V H (Config V H)) c = .ok (.ok c, c) := rfl
  have hexec : ∀ calls, exec P calls names.length (.gotoIfNot op target) c =
      if P.unboxBool v c.state.heap then .ok (.ok .next, c) else .ok (.ok (.goto target), c) := by
    intro calls
    rw [exec, bind_of_ok (readOp_eq hv), bind_of_ok hget]
    split <;> rfl
  rw [← hc.heap]
  by_cases hb : P.unboxBool v c.state.heap
  · rw [if_pos hb]
    exact falls_jump hc hs hguard (fun calls => by rw [hexec, if_pos hb]) rfl
  · rw [if_neg hb]
    exact falls_jump hc hs hguard (fun calls => by rw [hexec, if_neg hb]) rfl

variable {name : String}

/-- Storing a value in a variable, and as the result of the statement. -/
theorem Holds.assign (hc : Holds G code names structs c env) (hname : name ∈ names)
    (i : Nat) {v : V} (hgood : G.good v) :
    Holds G code names structs
      { c with frame := (c.frame.set (names.idxOf name) v).set (names.length + i) v }
      (env.assign name v) where
  vars x hx := by
    have hlt := List.idxOf_lt_length_of_mem hx
    rw [List.getElem?_set_ne (by omega)]
    by_cases hxn : x = name
    · subst hxn
      have hlen : names.idxOf x < c.frame.length := by
        rw [hc.length]
        omega
      rw [List.getElem?_set_self hlen, Env.assign_self]
    · have hne : names.idxOf name ≠ names.idxOf x := fun h => hxn ((List.idxOf_inj hname).mp h).symm
      rw [List.getElem?_set_ne hne, Env.assign_of_ne hxn]
      exact hc.vars x hx
  heap := hc.heap
  good x := by
    by_cases hxn : x = name
    · subst hxn
      rw [Env.assign_self]
      exact hgood
    · rw [Env.assign_of_ne hxn]
      exact hc.good x
  inv := hc.inv
  length := by
    rw [List.length_set, List.length_set]
    exact hc.length
  structs := hc.structs

/-- An assignment. -/
theorem realizes_assign {v : V} (hc : Holds G code names structs c env)
    (hname : name ∈ names) (hip : c.ip = pc) (hs : code[pc]? = some (.assign (names.idxOf name) op))
    (hv : operandValue P names.length c op = some v) (hgood : G.good v) (hlo : lo ≤ pc) :
    Realizes P G code names structs fuel lo (pc + 1) (pc + 1) c env (setVar name v)
      fun _ env' _ => env' = env.assign name v := by
  subst hip
  have hlt := (List.getElem?_eq_some_iff.mp hs).1
  have hlen := hc.length
  have hslot := List.idxOf_lt_length_of_mem hname
  let c₁ : Config V H :=
    { c with frame := (c.frame.set (names.idxOf name) v).set (names.length + c.ip) v }
  have hset : names.length + c.ip < (c.frame.set (names.idxOf name) v).length := by
    rw [List.length_set, hlen]
    omega
  have hexec : ∀ calls, exec P calls names.length (.assign (names.idxOf name) op) c =
      .ok (.ok .next, c₁) := by
    intro calls
    rw [exec, bind_of_ok (readOp_eq hv), bind_of_ok (setFrame_eq v (by omega))]
    exact bind_of_ok (setFrame_eq v hset)
  refine ⟨{ c₁ with ip := c.ip + 1 },
    ⟨.single ⟨guarded_single hs rfl hv hgood, fun calls => step_eq hs (hexec calls)⟩, rfl,
      { hc.assign hname c.ip hgood with }, ⟨fun i hi => ?_, rfl, rfl, rfl⟩, rfl⟩, rfl⟩
  show ((c.frame.set (names.idxOf name) v).set (names.length + c.ip) v)[names.length + i]? = _
  rw [List.getElem?_set_ne (by omega), List.getElem?_set_ne (by omega)]

/-! ### What a statement's code does -/

/-- The operand holds the value of the statement, if it has one. -/
def OptValue (P : Prims V H) (G : Guard V H) (names : List String) (hi : Nat)
    (op : Option (Op V)) (v : Option V) (env : Env V H) (c : Config V H) : Prop :=
  match op, v with
  | none, none => True
  | some op, some v => Carries P names hi env c op v ∧ G.good v
  | _, _ => False

/-- The code at `pc` does what the computation does. -/
def Implements {α ω : Type} (P : Prims V H) (G : Guard V H) (code : List (Stmt V))
    (names : List String) (structs : List StructDef) (fuel : Nat) (pc : Nat)
    (piece : List (Stmt V) × ω) (m : SrcM V H α)
    (Q : Nat → ω → α → Env V H → Config V H → Prop) : Prop :=
  ∀ c env, Holds G code names structs c env → c.ip = pc →
    CodeAt code pc piece.1 →
    Realizes P G code names structs fuel pc (pc + piece.1.length) (pc + piece.1.length) c env m
      (Q (pc + piece.1.length) piece.2)

/-- The same, when nothing is said about the result. -/
def Runs {α : Type} (P : Prims V H) (G : Guard V H) (code : List (Stmt V)) (names : List String)
    (structs : List StructDef) (fuel : Nat) (pc : Nat) (piece : List (Stmt V))
    (m : SrcM V H α) : Prop :=
  ∀ c env, Holds G code names structs c env → c.ip = pc →
    CodeAt code pc piece →
    Realizes P G code names structs fuel pc (pc + piece.length) (pc + piece.length) c env m
      fun _ _ _ => True

/-- A computation without an effect takes no step. -/
theorem Realizes.of_value {α β : Type} {m : SrcM V H α} {a : α} {f : α → SrcM V H β}
    {Q : β → Env V H → Config V H → Prop} (hm : m env = some (.ok a, env))
    (h : Realizes P G code names structs fuel lo hi stop c env (f a) Q) :
    Realizes P G code names structs fuel lo hi stop c env (m >>= f) Q := by
  unfold Realizes at h ⊢
  rw [SrcM.bind_apply, hm]
  exact h

/-- An operation without a result of its own. -/
theorem Realizes.of_effect {f : HeapOp V H Unit} {w : V} {Q : V → Env V H → Config V H → Prop}
    (h : Realizes P G code names structs fuel lo hi stop c env (liftHeap (do f; pure w)) Q) :
    Realizes P G code names structs fuel lo hi stop c env (liftHeap f) fun _ => Q w := by
  unfold Realizes at h ⊢
  rw [liftHeap, heapOp_bind] at h
  rw [liftHeap]
  cases hf : f env.heap with
  | mk r h' =>
    rw [hf] at h
    cases r <;> exact h

theorem Implements.discard {ω α : Type} {piece : List (Stmt V) × ω} {m : SrcM V H α}
    {Q : Nat → ω → α → Env V H → Config V H → Prop}
    (h : Implements P G code names structs fuel pc piece m Q) :
    Runs P G code names structs fuel pc piece.1 (Frontend.discard m) := by
  intro c env hc hip hcode
  refine (h c env hc hip hcode).bind fun a env' c' hfalls _ => ?_
  rw [← hfalls.ip]
  exact realizes_pure hfalls.holds trivial

/-- A jump in front of the code is one more step. -/
theorem Realizes.of_goto {α : Type} {m : SrcM V H α}
    {Q : α → Env V H → Config V H → Prop} (hc : Holds G code names structs c env)
    (hs : code[c.ip]? = some (.goto target))
    (h : Realizes P G code names structs fuel lo hi stop { c with ip := target } env m Q) :
    Realizes P G code names structs (fuel + 1) lo hi stop c env m Q := by
  have hgo : Falls P G code names structs lo hi target c env _ := falls_goto hc hs
  have hnext : Next P G code names c { c with ip := target } :=
    ⟨guarded_nil hs rfl, fun calls => step_eq hs rfl⟩
  exact h.imp (fun hspins => ⟨_, hnext, hspins⟩)
    (fun _ _ c' hfalls hQ => ⟨c', hgo.trans hfalls, hQ⟩)
    fun _ _ c' hesc => ⟨c', hgo.escapes hesc⟩

/-- A jump behind the code. -/
theorem Realizes.goto {α : Type} {m : SrcM V H α}
    (h : Realizes P G code names structs fuel lo hi stop c env m
      fun _ _ _ => True)
    (hs : code[stop]? = some (.goto target)) :
    Realizes P G code names structs fuel lo hi target c env m
      fun _ _ _ => True :=
  h.then fun _ _ _ hfalls _ => ⟨_, falls_goto hfalls.holds (hfalls.ip.symm ▸ hs), trivial⟩

/-- A statement without a value. -/
theorem Realizes.noValue {α : Type} {m : SrcM V H α}
    (h : Realizes P G code names structs fuel lo hi stop c env m
      fun _ _ _ => True) :
    Realizes P G code names structs fuel lo hi stop c env (do let _ ← m; pure none)
      (OptValue P G names stop none) := by
  refine h.bind fun _ env' c' hfalls _ => ?_
  rw [← hfalls.ip]
  exact realizes_pure hfalls.holds trivial

variable (hP : Closed P G)
include hP

variable {e : Expr}

theorem realizes_expr (fuel : Nat) (hcl : e.closed names structs = true)
    (hc : Holds G code names structs c env)
    (hip : c.ip = pc) (hcode : CodeAt code pc (compileExpr names structs pc e).1) :
    Realizes P G code names structs fuel pc
      (pc + (compileExpr (V := V) names structs pc e).1.length)
      (pc + (compileExpr (V := V) names structs pc e).1.length) c env (expr P structs e)
      (Value P G names env.vars (pc + (compileExpr (V := V) names structs pc e).1.length)
        (compileExpr names structs pc e).2) :=
  computes_expr hP e pc hcl c env rfl hc hip hcode

theorem implements_assign
    (hcl : (SrcStmt.assign name e).closed names structs = true) :
    Implements P G code names structs fuel pc
      (compileStmt names structs pc (.assign name e)) (evalStmt P structs fuel (.assign name e))
      (OptValue P G names) := by
  intro c env hc hip hcode
  rw [SrcStmt.closed, Bool.and_eq_true] at hcl
  have hname := of_decide_eq_true hcl.2
  rw [compileStmt] at hcode ⊢
  rw [evalStmt]
  dsimp only at hcode ⊢
  have he := realizes_expr hP fuel hcl.1 hc hip hcode.left
  generalize compileExpr names structs pc e = a at *
  have hlen : pc + (a.1 ++ [Stmt.assign (names.idxOf name) a.2]).length = pc + a.1.length + 1 := by
    rw [List.length_append]
    rfl
  rw [hlen]
  refine (he.mono (Nat.le_refl pc) (Nat.le_succ _)).bind
    fun v env₁ c₁ hfalls hv => ?_
  refine (realizes_assign hfalls.holds hname hfalls.ip hcode.right.head
    (hv.1.1.value hfalls.holds) hv.1.2 (Nat.le_add_right _ _)).bind fun _ env₂ c₂ hfalls₂ henv => ?_
  subst henv
  rw [← hfalls₂.ip]
  exact realizes_pure hfalls₂.holds ⟨⟨name, hname, rfl, env₁.assign_self name v⟩, hv.1.2⟩

theorem implements_expr (hcl : e.closed names structs = true)
    :
    Implements P G code names structs fuel pc (compileStmt names structs pc (.expr e))
      (evalStmt P structs fuel (.expr e)) (OptValue P G names) := by
  intro c env hc hip hcode
  rw [compileStmt] at hcode ⊢
  rw [evalStmt]
  refine (realizes_expr hP fuel hcl hc hip hcode).bind fun v env₁ c₁ hfalls hv => ?_
  rw [← hfalls.ip]
  refine realizes_pure hfalls.holds ?_
  rw [hfalls.ip]
  exact hv.1

/-- A statement that stores the value of an operand somewhere in the heap. -/
theorem realizes_store {s : Stmt V} {f : HeapOp V H Unit} {w : V} {ops : List (Op V)}
    {vals : List V} {vars : String → V} (hc : Holds G code names structs c env) (hip : c.ip = pc)
    (hs : code[pc]? = some s) (hops : ∀ op ∈ operands s, op ∈ ops)
    (hvals : Values P G names vars pc ops vals env c)
    (hop : Carries P names pc env c op w ∧ G.good w)
    (hp : Performs P names.length c s (do f; pure w)) (hy : Yields G (fun _ => True) f) :
    Realizes P G code names structs fuel pc (pc + 1) (pc + 1) c env
      (do liftHeap f; pure (some w)) (OptValue P G names (pc + 1) (some op)) := by
  have hlast := realizes_last fuel hc hip hs hops hvals hp
    (hy.bind fun _ _ => Yields.pure hop.2) (Nat.le_refl pc)
  refine hlast.of_effect.bind fun _ env₁ c₁ hfalls hv => ?_
  have hvars : env₁.vars = env.vars := hv.2.trans hvals.2.symm
  rw [← hfalls.ip]
  refine realizes_pure hfalls.holds ⟨?_, hop.2⟩
  exact hop.1.keep hvars hfalls.kept (Nat.le_refl pc) (by rw [hfalls.ip]; omega)

theorem implements_fieldAssign {var field : String}
    (hcl : (SrcStmt.fieldAssign var field e).closed names structs = true) :
    Implements P G code names structs fuel pc
      (compileStmt names structs pc (.fieldAssign var field e))
      (evalStmt P structs fuel (.fieldAssign var field e)) (OptValue P G names) := by
  intro c env hc hip hcode
  rw [SrcStmt.closed, Bool.and_eq_true] at hcl
  have hname := of_decide_eq_true hcl.2
  rw [compileStmt] at hcode ⊢
  rw [evalStmt]
  dsimp only at hcode ⊢
  have he := realizes_expr hP fuel hcl.1 hc hip hcode.left
  generalize compileExpr names structs pc e = a at *
  have hlen : pc + (a.1 ++ [Stmt.setField (.slot (names.idxOf var)) field a.2]).length =
      pc + a.1.length + 1 := by
    rw [List.length_append]
    rfl
  rw [hlen]
  refine (he.mono (Nat.le_refl pc) (Nat.le_succ _)).bind
    fun v env₁ c₁ hfalls hv => ?_
  have hobj : Carries P names (pc + a.1.length) env₁ c₁ (.slot (names.idxOf var)) (env₁.vars var) :=
    ⟨var, hname, rfl, rfl⟩
  refine Realizes.of_value (a := env₁.vars var) rfl ?_
  have hvals : Values P G names env.vars (pc + a.1.length) [.slot (names.idxOf var), a.2]
      [env₁.vars var, v] env₁ c₁ :=
    ⟨.cons ⟨hobj, hfalls.holds.good var⟩ (.cons hv.1 .nil), hv.2⟩
  exact (realizes_store hP hfalls.holds hfalls.ip hcode.right.head (fun _ ho => ho) hvals hv.1
    (performs_setField field (hobj.value hfalls.holds) (hv.1.1.value hfalls.holds))
    (hP.setField field (hfalls.holds.good var) hv.1.2)).mono (Nat.le_add_right _ _) (Nat.le_refl _)

theorem implements_indexAssign {var : String} {idx : Expr}
    (hcl : (SrcStmt.indexAssign var idx e).closed names structs = true) :
    Implements P G code names structs fuel pc
      (compileStmt names structs pc (.indexAssign var idx e))
      (evalStmt P structs fuel (.indexAssign var idx e)) (OptValue P G names) := by
  intro c env hc hip hcode
  rw [SrcStmt.closed, Bool.and_eq_true, Bool.and_eq_true] at hcl
  have hname := of_decide_eq_true hcl.2.2
  rw [compileStmt] at hcode ⊢
  rw [evalStmt]
  dsimp only at hcode ⊢
  have hi := realizes_expr hP fuel hcl.1 hc hip hcode.left
  have ha : (compileExpr names structs pc idx : List (Stmt V) × Op V).2.isLiteral = idx.isLiteral :=
    isLiteral_compileExpr pc idx
  generalize compileExpr names structs pc idx = a at *
  have he := fun (env₁ : Env V H) (c₁ : Config V H)
    (hc₁ : Holds G code names structs c₁ env₁) (hip₁ : c₁.ip = pc + a.1.length) =>
      realizes_expr hP fuel hcl.2.1 hc₁ hip₁ hcode.right.left
  have hb : (compileExpr names structs (pc + a.1.length) e : List (Stmt V) × Op V).2.isLiteral =
      e.isLiteral := isLiteral_compileExpr _ e
  generalize compileExpr names structs (pc + a.1.length) e = b at *
  have hlen : pc + (a.1 ++ (b.1 ++ [Stmt.arraySet (.slot (names.idxOf var)) a.2 b.2])).length =
      pc + a.1.length + b.1.length + 1 := by
    simp only [List.length_append, List.length_cons, List.length_nil]
    omega
  rw [hlen]
  refine (hi.mono (Nat.le_refl pc) (by omega)).bind fun i env₁ c₁ hfalls hi => ?_
  refine (((he env₁ c₁ hfalls.holds hfalls.ip).mono (Nat.le_refl _) (Nat.le_succ _)
   ).bind fun v env₂ c₂ hfalls₂ hv => ?_).mono (Nat.le_add_right _ _)
    (Nat.le_refl _)
  have hidx : Carries P names (pc + a.1.length + b.1.length) env₂ c₂ a.2 i :=
    hi.1.1.keep hv.2 hfalls₂.kept (Nat.le_refl _) (Nat.le_add_right _ _)
  have harr : Carries P names (pc + a.1.length + b.1.length) env₂ c₂ (.slot (names.idxOf var))
      (env₂.vars var) := ⟨var, hname, rfl, rfl⟩
  refine Realizes.of_value (a := env₂.vars var) rfl ?_
  rw [← bind_assoc, ← liftHeap_bind]
  have hvals : Values P G names env₁.vars (pc + a.1.length + b.1.length)
      [.slot (names.idxOf var), a.2, b.2] [env₂.vars var, i, v] env₂ c₂ :=
    ⟨.cons ⟨harr, hfalls₂.holds.good var⟩ (.cons ⟨hidx, hi.1.2⟩ (.cons hv.1 .nil)), hv.2⟩
  have hperf := performs_arraySet (harr.value hfalls₂.holds) (hidx.value hfalls₂.holds)
    (hv.1.1.value hfalls₂.holds)
  rw [show Op.isLiteral (.slot (names.idxOf var) : Op V) = false from rfl, P.keep_of_rooted,
    pure_bind, ha, hb, ← bind_assoc] at hperf
  exact (realizes_store hP hfalls₂.holds hfalls₂.ip hcode.right.right.head (fun _ ho => ho) hvals
    hv.1 hperf ((hP.keep _ _ hi.1.2).bind fun i _ =>
      hP.arraySet i (hfalls₂.holds.good var) hv.1.2)).mono (Nat.le_add_right _ _) (Nat.le_refl _)

/-- A condition in front of the code. -/
theorem realizes_cond {α : Type} {a : List (Stmt V) × Op V}
    {f : Bool → SrcM V H α} {Q : α → Env V H → Config V H → Prop}
    (hcl : e.closed names structs = true)
    (hc : Holds G code names structs c env) (hip : c.ip = pc)
    (ha : compileExpr names structs pc e = a) (hcode : CodeAt code pc a.1)
    (hjump : code[pc + a.1.length]? = some (.gotoIfNot a.2 target)) (hhi : pc + a.1.length ≤ hi)
    (hf : ∀ (b : Bool) (env₁ : Env V H) (c₁ : Config V H),
      Holds G code names structs c₁ env₁ →
      c₁.ip = (if b then pc + a.1.length + 1 else target) →
      Realizes P G code names structs fuel pc hi stop c₁ env₁ (f b) Q) :
    Realizes P G code names structs fuel pc hi stop c env
      (do let v ← expr P structs e; let b ← truth P v; f b) Q := by
  subst ha
  refine ((realizes_expr hP fuel hcl hc hip hcode).mono (Nat.le_refl pc) hhi
   ).bind fun v env₁ c₁ hfalls hv => ?_
  rw [← hfalls.ip] at hjump
  refine Realizes.of_value (a := P.unboxBool v env₁.heap) rfl ?_
  have hgo : Falls P G code names structs pc hi _ c₁ env₁ _ :=
    falls_gotoIfNot hfalls.holds hjump (hv.1.1.value hfalls.holds) hv.1.2
  refine Realizes.of_falls hgo (hf _ env₁ _ hgo.holds ?_)
  rw [hgo.ip, hfalls.ip]

/-- A conditional, from the code of its branches. -/
theorem implements_ite {cond : Expr} {then_ else_ : List SrcStmt}
    (hcl : cond.closed names structs = true)
    (hthen : ∀ pc, Implements P G code names structs fuel pc
      (compileBlock names structs pc then_) (evalBlock P structs fuel then_) (OptValue P G names))
    (helse : ∀ pc, Implements P G code names structs fuel pc
      (compileBlock names structs pc else_) (evalBlock P structs fuel else_)
      (OptValue P G names)) :
    Implements P G code names structs fuel pc
      (compileStmt names structs pc (.ite cond then_ else_))
      (evalStmt P structs fuel (.ite cond then_ else_)) (OptValue P G names) := by
  intro c env hc hip hcode
  rw [compileStmt] at hcode ⊢
  rw [evalStmt]
  dsimp only at hcode ⊢
  generalize ha : compileExpr names structs pc cond = a at *
  have hT := (hthen (pc + a.1.length + 1)).discard
  generalize compileBlock names structs (pc + a.1.length + 1) then_ = t at *
  have hE := (helse (pc + a.1.length + 1 + t.1.length + 1)).discard
  generalize compileBlock names structs (pc + a.1.length + 1 + t.1.length + 1) else_ = e at *
  have hlen : pc + (a.1 ++ Stmt.gotoIfNot a.2 (pc + a.1.length + 1 + t.1.length + 1) ::
      (t.1 ++ Stmt.goto (pc + a.1.length + 1 + t.1.length + 1 + e.1.length) :: e.1)).length =
      pc + a.1.length + 1 + t.1.length + 1 + e.1.length := by
    simp only [List.length_append, List.length_cons]
    omega
  rw [hlen]
  refine realizes_cond hP hcl hc hip ha hcode.left hcode.right.head (by omega)
    fun b env₁ c₁ hc₁ hip₁ => ?_
  cases b with
  | true =>
    have hrun := hT c₁ env₁ hc₁ hip₁ hcode.right.tail.left
    refine ((hrun.mono ?_ ?_).goto hcode.right.tail.right.head).noValue
    · omega
    · omega
  | false =>
    have hrun := hE c₁ env₁ hc₁ hip₁ hcode.right.tail.right.tail
    refine (hrun.mono ?_ (Nat.le_refl _)).noValue
    omega

/-- The rounds of a loop: every round takes a step. -/
theorem realizes_loop {cond : Expr} {stmts : List SrcStmt} {a : List (Stmt V) × Op V}
    {b : List (Stmt V)} (hcl : cond.closed names structs = true)
    (ha : compileExpr names structs pc cond = a)
    (hcode : CodeAt code pc
      (a.1 ++ .gotoIfNot a.2 (pc + a.1.length + 1 + b.length + 1) :: (b ++ [.goto pc])))
    (hbody : Runs P G code names structs fuel (pc + a.1.length + 1) b
      (Frontend.discard (evalBlock P structs fuel stmts))) :
    ∀ n ≤ fuel, ∀ (c : Config V H) (env : Env V H),
      Holds G code names structs c env → c.ip = pc →
      Realizes P G code names structs n pc (pc + a.1.length + 1 + b.length + 1)
        (pc + a.1.length + 1 + b.length + 1) c env
        (loop (do let v ← expr P structs cond; truth P v)
          (Frontend.discard (evalBlock P structs fuel stmts)) n) fun _ _ _ => True
  | 0, _, c, env, _, _ => trivial
  | n + 1, hn, c, env, hc, hip => by
    rw [loop, bind_assoc]
    refine realizes_cond hP hcl hc hip ha hcode.left hcode.right.head (by omega)
      fun t env₁ c₁ hc₁ hip₁ => ?_
    cases t with
    | false =>
      have hstop : c₁.ip = pc + a.1.length + 1 + b.length + 1 := hip₁
      rw [← hstop]
      exact realizes_pure hc₁ trivial
    | true =>
      have hrun := (hbody c₁ env₁ hc₁ hip₁ hcode.right.tail.left).anti hn
      rw [if_pos rfl]
      refine (hrun.mono ?_ ?_).bind fun _ env₂ c₂ hfalls₂ _ => ?_
      · omega
      · omega
      have hgoto : code[c₂.ip]? = some (.goto pc) := by
        rw [hfalls₂.ip]
        exact hcode.right.tail.right.head
      have hc₃ : Holds G code names structs { c₂ with ip := pc } env₂ := { hfalls₂.holds with }
      exact Realizes.of_goto hfalls₂.holds hgoto
        (realizes_loop hcl ha hcode hbody n (by omega) _ env₂ hc₃ rfl)

variable {stmts : List SrcStmt}

/-- A loop, from the code of its body. -/
theorem implements_while {cond : Expr} (hcl : cond.closed names structs = true)
   
    (hbody : ∀ pc, Implements P G code names structs fuel pc
      (compileBlock names structs pc stmts) (evalBlock P structs fuel stmts)
      (OptValue P G names)) :
    Implements P G code names structs fuel pc
      (compileStmt names structs pc (.while cond stmts))
      (evalStmt P structs fuel (.while cond stmts)) (OptValue P G names) := by
  intro c env hc hip hcode
  rw [compileStmt] at hcode ⊢
  rw [evalStmt]
  dsimp only at hcode ⊢
  generalize ha : compileExpr names structs pc cond = a at *
  have hB := (hbody (pc + a.1.length + 1)).discard
  generalize (compileBlock names structs (pc + a.1.length + 1) stmts).1 = b at *
  have hlen : pc + (a.1 ++ Stmt.gotoIfNot a.2 (pc + a.1.length + 1 + b.length + 1) ::
      (b ++ [Stmt.goto pc])).length = pc + a.1.length + 1 + b.length + 1 := by
    simp only [List.length_append, List.length_cons, List.length_nil]
    omega
  rw [hlen]
  exact (realizes_loop hP hcl ha hcode hB fuel (Nat.le_refl fuel) c env hc hip).noValue

/-! ### Handlers -/

omit hP

/-- An exception has diverted control to a handler. -/
structure Lands (P : Prims V H) (G : Guard V H) (code : List (Stmt V)) (names : List String)
    (structs : List StructDef) (lo hi target : Nat) (c : Config V H) (r : Raised V) (env : Env V H)
    (c' : Config V H) : Prop where
  reaches : Reaches P G code names c c'
  ip : c'.ip = target
  holds : Holds G code names structs c' env
  kept : Kept names lo hi c c'
  exc : ∃ junk, c'.state.exc = r.exc :: (junk ++ c.state.exc)
  depth : c'.frame[names.length + lo]? = some (P.boxInt c.state.exc.length)
  good : G.good r.exc

/-- `enter` -/
theorem next_enter (hc : Holds G code names structs c env) (hip : c.ip = pc)
    (hs : code[pc]? = some (.enter target)) :
    Next P G code names c { c with
      ip := pc + 1
      frame := c.frame.set (names.length + pc) (P.boxInt c.state.exc.length)
      handlers := target :: c.handlers } := by
  subst hip
  have hlt := (List.getElem?_eq_some_iff.mp hs).1
  have hset : names.length + c.ip < c.frame.length := by
    rw [hc.length]
    omega
  refine ⟨guarded_nil hs rfl, fun calls => ?_⟩
  have hexec : exec P calls names.length (.enter target) c = .ok (.ok .next, { c with
      frame := c.frame.set (names.length + c.ip) (P.boxInt c.state.exc.length)
      handlers := target :: c.handlers }) := by
    have hmod : (modify fun c => { c with handlers := target :: c.handlers } : EvalM V H PUnit) c =
        .ok (.ok ⟨⟩, { c with handlers := target :: c.handlers }) := rfl
    have hget : (get : EvalM V H (Config V H)) { c with handlers := target :: c.handlers } =
        .ok (.ok { c with handlers := target :: c.handlers },
          { c with handlers := target :: c.handlers }) := rfl
    rw [exec, bind_of_ok hmod, bind_of_ok hget]
    exact bind_of_ok (setFrame_eq _ hset)
  rw [step_eq hs hexec]
  rfl

/-- `leave 1` -/
theorem next_leave (hs : code[c.ip]? = some (.leave 1)) :
    Next P G code names c { c with ip := c.ip + 1, handlers := c.handlers.drop 1 } :=
  ⟨guarded_nil hs rfl, fun _ => step_eq hs rfl⟩

/-- A round that unwinds to a handler goes on there. -/
theorem Throws.next {e : V} {exc : List V} {handlers : List Nat}
    (h : Throws P G code names e exc c c') (hh : c'.handlers = target :: handlers) :
    Next P G code names c { c' with
      ip := target, handlers := handlers, state := { c'.state with exc := exc } } := by
  refine ⟨h.1, fun calls => ?_⟩
  rw [h.2 calls, unwind, hh]

variable {b rest : List (Stmt V)}

/-- A body with a handler: it ends behind its `leave`, or the exception lands. -/
theorem protects {α : Type} {m : SrcM V H α}
    (hbody : Runs P G code names structs fuel (pc + 1) b m)
    (hcode : CodeAt code pc (.enter target :: (b ++ .leave 1 :: rest)))
    (hc : Holds G code names structs c env) (hip : c.ip = pc)
    (hhi : pc + 1 + b.length ≤ hi) :
    match m env with
    | none => Spins (Next P G code names) fuel c
    | some (.ok _, env₁) => ∃ c₁,
      Falls P G code names structs pc hi (pc + 1 + b.length + 1) c env₁ c₁
    | some (.error r, env₁) => ∃ c₁, Lands P G code names structs pc hi target c r env₁ c₁ := by
  let c₀ : Config V H := { c with
    ip := pc + 1
    frame := c.frame.set (names.length + pc) (P.boxInt c.state.exc.length)
    handlers := target :: c.handlers }
  have henter : Next P G code names c c₀ := next_enter hc hip hcode.head
  have hc₀ : Holds G code names structs c₀ env := { hc.store pc _ with }
  have hpc : pc < code.length := (List.getElem?_eq_some_iff.mp hcode.head).1
  have hdepth : c₀.frame[names.length + pc]? = some (P.boxInt c.state.exc.length) :=
    List.getElem?_set_self (by rw [hc.length]; omega)
  -- what the body leaves alone is left alone by the whole
  have hssa : ∀ c₁ : Config V H, Kept names (pc + 1) (pc + 1 + b.length) c₀ c₁ →
      ∀ i, i < pc ∨ hi ≤ i → c₁.frame[names.length + i]? = c.frame[names.length + i]? := by
    intro c₁ hkept i hi
    rw [hkept.ssa i (by omega)]
    exact List.getElem?_set_ne (by omega)
  have hrun := hbody c₀ env hc₀ rfl hcode.tail.left
  refine hrun.elim (Spins.of_reaches (.single henter)) (fun a env₁ c₁ hfalls _ => ?_)
    fun r env₁ c₁ hesc => ?_
  · have hleave : code[c₁.ip]? = some (.leave 1) := by
      rw [hfalls.ip]
      exact hcode.tail.right.head
    have hhandlers : c₁.handlers.drop 1 = c.handlers := by
      rw [hfalls.kept.handlers]
      rfl
    refine ⟨{ c₁ with ip := c₁.ip + 1, handlers := c₁.handlers.drop 1 },
      ⟨.head henter (hfalls.reaches.tail (next_leave hleave)), ?_, { hfalls.holds with },
        ⟨hssa c₁ hfalls.kept, hhandlers, hfalls.kept.main, hfalls.kept.methods⟩, hfalls.exc⟩⟩
    show c₁.ip + 1 = _
    rw [hfalls.ip]
  · obtain ⟨c₂, junk, hreach, hthrow⟩ := hesc.throws
    have hland := hthrow.next hesc.kept.handlers
    refine ⟨_, ⟨.head henter (hreach.tail hland), rfl, { hesc.holds with },
      ⟨hssa c₁ hesc.kept, rfl, hesc.kept.main, hesc.kept.methods⟩, ⟨junk, rfl⟩, ?_, hesc.good⟩⟩
    exact (hesc.kept.ssa pc (.inl (Nat.lt_succ_self pc))).trans hdepth

variable {r : Raised V} {env' : Env V H} {c₁ c₂ : Config V H}

/-- What happens in a handler goes on from the statement. -/
theorem Lands.escapes {r' : Raised V}
    (h : Lands P G code names structs lo hi target c r env c₁)
    (h' : Escapes P G code names structs lo hi c₁ r' env' c₂) :
    Escapes P G code names structs lo hi c ⟨r'.exc, true⟩ env' c₂ := by
  obtain ⟨junk, hexc⟩ := h.exc
  obtain ⟨c₃, junk₁, hreach, hthrow⟩ := h'.throws
  obtain ⟨junk₂, hexc₂, -⟩ := h'.exc
  rw [hexc] at hthrow hexc₂
  refine ⟨⟨c₃, junk₁ ++ r.exc :: junk, h.reaches.trans hreach, ?_⟩, h'.holds,
    h.kept.trans h'.kept, ⟨junk₂ ++ r.exc :: junk, ?_, by simp⟩, h'.good⟩
  · simpa using hthrow
  · simpa using hexc₂

/-- `exc_restore` drops what is above the depth. -/
theorem excRestore_append (junk exc : List V) : excRestore exc.length (junk ++ exc) = exc := by
  rw [excRestore, List.length_append, Nat.add_sub_cancel, List.drop_left]

/-- `pop_exception`, at the end of a handler. -/
theorem Lands.pop
    (hbox : G.good (P.boxInt c.state.exc.length))
    (h : Lands P G code names structs lo hi target c r env c₁)
    (h' : Falls P G code names structs (lo + 1) hi stop c₁ env' c₂)
    (hs : code[stop]? = some (.popException (.ssa lo))) :
    ∃ c₃, Falls P G code names structs lo hi (stop + 1) c env' c₃ := by
  obtain ⟨junk, hexc⟩ := h.exc
  have hval : operandValue P names.length c₂ (.ssa lo) = some (P.boxInt c.state.exc.length) :=
    (h'.kept.ssa lo (.inl (Nat.lt_succ_self lo))).trans h.depth
  have hs₂ : code[c₂.ip]? = some (.popException (.ssa lo)) := by
    rw [h'.ip]
    exact hs
  let c₃ : Config V H := { c₂ with state := { c₂.state with exc := c.state.exc } }
  have hrestore : excRestore (P.unboxInt (P.boxInt c.state.exc.length) c₂.state.heap).toNat
      c₂.state.exc = c.state.exc := by
    rw [P.unboxInt_boxInt, Int.toNat_natCast, h'.exc, hexc]
    exact excRestore_append (r.exc :: junk) c.state.exc
  have hexec : ∀ calls, exec P calls names.length (.popException (.ssa lo)) c₂ =
      .ok (.ok .next, c₃) := by
    intro calls
    rw [exec, bind_of_ok (readOp_eq hval)]
    exact congrArg (fun exc : List V => (.ok (.ok .next, { c₂ with state := { c₂.state with
      exc := exc } }) : Except Stop (Except V (Flow V) × Config V H))) hrestore
  have hkept := h.kept.trans (h'.kept.mono (Nat.le_succ lo) (Nat.le_refl hi))
  refine ⟨{ c₃ with ip := c₂.ip + 1 }, ⟨(h.reaches.trans h'.reaches).tail
    ⟨guarded_single hs₂ rfl hval hbox, fun calls => step_eq hs₂ (hexec calls)⟩, ?_,
    { h'.holds with },
    { hkept with }, rfl⟩⟩
  show c₂.ip + 1 = _
  rw [h'.ip]

/-- `rethrow`, at the end of a cleanup. -/
theorem Lands.rethrow
    (h : Lands P G code names structs lo hi target c r env c₁)
    (h' : Falls P G code names structs lo hi stop c₁ env' c₂)
    (hs : code[stop]? = some .rethrow) :
    Escapes P G code names structs lo hi c ⟨r.exc, true⟩ env' c₂ := by
  obtain ⟨junk, hexc⟩ := h.exc
  rw [← h'.exc] at hexc
  have hs₂ : code[c₂.ip]? = some .rethrow := by
    rw [h'.ip]
    exact hs
  have hthrow : Throws P G code names r.exc (r.exc :: (junk ++ c.state.exc)) c₂ c₂ := by
    refine ⟨guarded_nil hs₂ rfl, fun calls => ?_⟩
    have hexec : exec P calls names.length .rethrow c₂ =
        .ok (.ok (.resume (c₂.state.exc.headD P.nothing)), c₂) := rfl
    rw [step_eq hs₂ hexec, advance, hexc]
    rfl
  exact ⟨⟨c₂, junk, h.reaches.trans h'.reaches, hthrow⟩, h'.holds, h.kept.trans h'.kept,
    ⟨r.exc :: junk, hexc, by simp⟩, h.good⟩

/-- `catch name` binds the exception that has landed. -/
theorem realizes_catch {var : Option String} {e : V} (hc : Holds G code names structs c env)
    (hip : c.ip = pc) (hvar : (var.all fun name => decide (name ∈ names)) = true)
    (hcode : CodeAt code pc (compileCatch names pc var)) (hexc : ∃ exc, c.state.exc = e :: exc)
    (hgood : G.good e) :
    Realizes P G code names structs fuel pc (pc + (compileCatch (V := V) names pc var).length)
      (pc + (compileCatch (V := V) names pc var).length) c env (bindCaught var e)
      fun _ _ _ => True := by
  subst hip
  cases var with
  | none => exact realizes_pure hc trivial
  | some name =>
    obtain ⟨exc, hexc⟩ := hexc
    have hname : name ∈ names := of_decide_eq_true hvar
    have hs : code[c.ip]? = some .caught := hcode.head
    have hset : names.length + c.ip < c.frame.length := by
      rw [hc.length]
      have := (List.getElem?_eq_some_iff.mp hs).1
      omega
    let c₁ : Config V H := { c with frame := c.frame.set (names.length + c.ip) e, ip := c.ip + 1 }
    have hexec : ∀ calls, exec P calls names.length .caught c =
        .ok (.ok .next, { c with frame := c.frame.set (names.length + c.ip) e }) := by
      intro calls
      have hget : (get : EvalM V H (Config V H)) c = .ok (.ok c, c) := rfl
      rw [exec, bind_of_ok hget, hexc]
      exact bind_of_ok (setFrame_eq e hset)
    have hcaught : Falls P G code names structs c.ip (c.ip + 2) (c.ip + 1) c env c₁ := by
      refine ⟨.single ⟨guarded_nil hs rfl,
        fun calls => step_eq hs (hexec calls)⟩, rfl, { hc.store c.ip e with },
        ⟨fun i hi => ?_, rfl, rfl, rfl⟩, rfl⟩
      exact List.getElem?_set_ne (by omega)
    have hval : operandValue P names.length c₁ (.ssa c.ip) = some e :=
      List.getElem?_set_self hset
    have hassign : Realizes P G code names structs fuel c.ip (c.ip + 1 + 1) (c.ip + 1 + 1)
        c₁ env (setVar name e) fun _ env' _ => env' = env.assign name e :=
      realizes_assign hcaught.holds hname rfl hcode.tail.head hval hgood (Nat.le_succ _)
    exact Realizes.of_falls hcaught (hassign.then fun _ _ c' hfalls _ =>
      ⟨c', ⟨.refl, hfalls.ip, hfalls.holds, .refl _ _ _, rfl⟩, trivial⟩)

/-- A try statement with a catch clause. -/
theorem realizes_catching {last : Nat}
    {m : SrcM V H Unit} {handler : V → SrcM V H Unit} (hP : Closed P G)
    (hbody : Runs P G code names structs fuel (pc + 1) b m)
    (hcode : CodeAt code pc (.enter target :: (b ++ .leave 1 :: .goto (last + 1) :: rest)))
    (hpop : code[last]? = some (.popException (.ssa pc)))
    (hc : Holds G code names structs c env) (hip : c.ip = pc)
    (hhi : pc + 1 + b.length ≤ hi)
    (hhandler : ∀ (e : V) (c₁ : Config V H) (env₁ : Env V H),
      Holds G code names structs c₁ env₁ → c₁.ip = target → (∃ exc, c₁.state.exc = e :: exc) →
      G.good e → Realizes P G code names structs fuel (pc + 1) hi last c₁ env₁ (handler e)
        fun _ _ _ => True) :
    Realizes P G code names structs fuel pc hi (last + 1) c env (catching m handler)
      fun _ _ _ => True := by
  have hprot := protects hbody hcode hc hip hhi
  unfold Realizes catching
  cases hm : m env with
  | none =>
    rw [hm] at hprot
    exact hprot
  | some r =>
    obtain ⟨r, env₁⟩ := r
    rw [hm] at hprot
    cases r with
    | ok a =>
      obtain ⟨c₁, hfalls⟩ := hprot
      have hgoto : code[c₁.ip]? = some (.goto (last + 1)) := by
        rw [hfalls.ip]
        exact hcode.tail.right.tail.head
      exact ⟨_, hfalls.trans (falls_goto hfalls.holds hgoto), trivial⟩
    | error r =>
      obtain ⟨c₁, hlands⟩ := hprot
      obtain ⟨junk, hexc⟩ := hlands.exc
      dsimp only
      refine (hhandler r.exc c₁ env₁ hlands.holds hlands.ip ⟨_, hexc⟩ hlands.good).elim
        (Spins.of_reaches hlands.reaches) (fun _ env₂ c₂ hfalls _ => ?_) fun _ env₂ c₂ hesc =>
          ⟨c₂, hlands.escapes (hesc.mono (Nat.le_succ pc) (Nat.le_refl hi))⟩
      obtain ⟨c₃, hfalls₃⟩ := hlands.pop (hP.boxInt _) hfalls hpop
      exact ⟨c₃, hfalls₃, trivial⟩

/-- A try statement with a finally clause.  Its cleanup is there twice. -/
theorem realizes_finalizing {stopN last : Nat}
    {m cleanup : SrcM V H Unit}
    (hbody : Runs P G code names structs fuel (pc + 1) b m)
    (hcode : CodeAt code pc (.enter target :: (b ++ .leave 1 :: rest)))
    (hgoto : code[stopN]? = some (.goto (last + 1))) (hrethrow : code[last]? = some .rethrow)
    (hc : Holds G code names structs c env) (hip : c.ip = pc)
    (hhi : pc + 1 + b.length ≤ hi)
    (hnormal : ∀ (c₁ : Config V H) (env₁ : Env V H),
      Holds G code names structs c₁ env₁ → c₁.ip = pc + 1 + b.length + 1 →
      Realizes P G code names structs fuel pc hi stopN c₁ env₁ cleanup
        fun _ _ _ => True)
    (hexceptional : ∀ (c₁ : Config V H) (env₁ : Env V H),
      Holds G code names structs c₁ env₁ → c₁.ip = target →
      Realizes P G code names structs fuel pc hi last c₁ env₁ cleanup
        fun _ _ _ => True) :
    Realizes P G code names structs fuel pc hi (last + 1) c env (finalizing m cleanup)
      fun _ _ _ => True := by
  have hprot := protects hbody hcode hc hip hhi
  unfold Realizes finalizing
  cases hm : m env with
  | none =>
    rw [hm] at hprot
    exact hprot
  | some r =>
    obtain ⟨r, env₁⟩ := r
    rw [hm] at hprot
    cases r with
    | ok a =>
      obtain ⟨c₁, hfalls⟩ := hprot
      have hrun := (hnormal c₁ env₁ hfalls.holds hfalls.ip).goto hgoto
      exact Realizes.of_falls hfalls hrun
    | error r =>
      obtain ⟨c₁, hlands⟩ := hprot
      obtain ⟨junk, hexc⟩ := hlands.exc
      dsimp only
      exact (hexceptional c₁ env₁ hlands.holds hlands.ip).elim (Spins.of_reaches hlands.reaches)
        (fun _ _ c₂ hfalls _ => ⟨c₂, hlands.rethrow hfalls hrethrow⟩)
        fun _ _ c₂ hesc => ⟨c₂, hlands.escapes hesc⟩

/-! ### All statements -/

/-- A `try`/`catch`, from the code of its body and its handler. -/
theorem implements_tryCatch {handler : List SrcStmt} {var : Option String}
    (hP : Closed P G) (hvar : (var.all fun name => decide (name ∈ names)) = true)
    (hbody : ∀ pc, Implements P G code names structs fuel pc
      (compileBlock names structs pc stmts) (evalBlock P structs fuel stmts)
      (OptValue P G names))
    (hhandler : ∀ pc, Implements P G code names structs fuel pc
      (compileBlock names structs pc handler) (evalBlock P structs fuel handler)
      (OptValue P G names)) :
    Implements P G code names structs fuel pc
      (compileStmt names structs pc (.tryCatch stmts var handler))
      (evalStmt P structs fuel (.tryCatch stmts var handler)) (OptValue P G names) := by
  intro c env hc hip hcode
  rw [compileStmt] at hcode ⊢
  rw [evalStmt]
  dsimp only at hcode ⊢
  have hB := (hbody (pc + 1)).discard
  generalize (compileBlock names structs (pc + 1) stmts).1 = b at *
  generalize hcs : pc + 1 + b.length + 2 = cs at *
  generalize hk : compileCatch names cs var = k at *
  have hH := (hhandler (cs + k.length)).discard
  generalize (compileBlock names structs (cs + k.length) handler).1 = h at *
  have hlen :
    pc + (Stmt.enter cs :: (b ++ Stmt.leave 1 :: Stmt.goto (cs + k.length + h.length + 1) ::
      (k ++ (h ++ [Stmt.popException (.ssa pc)])))).length = cs + k.length + h.length + 1 := by
    simp only [List.length_append, List.length_cons, List.length_nil]
    omega
  have hcs' : pc + 1 + b.length + 1 + 1 = cs := by omega
  have hrest : CodeAt code cs (k ++ (h ++ [.popException (.ssa pc)])) := by
    rw [← hcs']
    exact hcode.tail.right.tail.tail
  rw [hlen]
  refine (realizes_catching hP hB hcode hrest.right.right.head hc hip (by omega) ?_).noValue
  intro e c₁ env₁ hc₁ hip₁ hexc hgood
  have hcatch : Realizes P G code names structs fuel cs (cs + k.length) (cs + k.length) c₁ env₁
      (bindCaught var e) fun _ _ _ => True := by
    subst hk
    exact realizes_catch hc₁ hip₁ hvar hrest.left hexc hgood
  refine (hcatch.mono ?_ ?_).bind fun _ env₂ c₂ hfalls _ => ?_
  · omega
  · omega
  refine (hH c₂ env₂ hfalls.holds hfalls.ip hrest.right.left).mono ?_ ?_
  · omega
  · omega

/-- A `try`/`finally`: the cleanup has code on both paths. -/
theorem implements_tryFinally {cleanup : List SrcStmt}
    (hbody : ∀ pc, Implements P G code names structs fuel pc
      (compileBlock names structs pc stmts) (evalBlock P structs fuel stmts)
      (OptValue P G names))
    (hnormal : ∀ pc, Implements P G code names structs fuel pc
      (compileBlock names structs pc cleanup) (evalBlock P structs fuel cleanup)
      (OptValue P G names))
    (hexceptional : ∀ pc, Implements P G code names structs fuel pc
      (compileBlock names structs pc cleanup) (evalBlock P structs fuel cleanup)
      (OptValue P G names)) :
    Implements P G code names structs fuel pc
      (compileStmt names structs pc (.tryFinally stmts cleanup))
      (evalStmt P structs fuel (.tryFinally stmts cleanup)) (OptValue P G names) := by
  intro c env hc hip hcode
  rw [compileStmt] at hcode ⊢
  rw [evalStmt]
  dsimp only at hcode ⊢
  have hB := (hbody (pc + 1)).discard
  generalize (compileBlock names structs (pc + 1) stmts).1 = b at *
  have hN := (hnormal (pc + 1 + b.length + 1)).discard
  generalize (compileBlock names structs (pc + 1 + b.length + 1) cleanup).1 = k at *
  generalize hcs : pc + 1 + b.length + 1 + k.length + 1 = cs at *
  have hE := (hexceptional cs).discard
  generalize (compileBlock names structs cs cleanup).1 = k' at *
  have hlen : pc + (Stmt.enter cs :: (b ++ Stmt.leave 1 :: (k ++ Stmt.goto (cs + k'.length + 1) ::
      (k' ++ [Stmt.rethrow (V := V)])))).length = cs + k'.length + 1 := by
    simp only [List.length_append, List.length_cons, List.length_nil]
    omega
  have hrest : CodeAt code (pc + 1 + b.length + 1)
      (k ++ .goto (cs + k'.length + 1) :: (k' ++ [.rethrow])) := hcode.tail.right.tail
  have hexc : CodeAt code cs (k' ++ [.rethrow]) := by
    rw [← hcs]
    exact hrest.right.tail
  rw [hlen]
  refine (realizes_finalizing hB hcode hrest.right.head hexc.right.head hc hip (by omega)
    (fun c₁ env₁ hc₁ hip₁ => ?_) (fun c₁ env₁ hc₁ hip₁ => ?_)).noValue
  · refine (hN c₁ env₁ hc₁ hip₁ hrest.left).mono ?_ ?_
    · omega
    · omega
  · refine (hE c₁ env₁ hc₁ hip₁ hexc.left).mono ?_ ?_
    · omega
    · omega

/-- A struct definition leaves no code. -/
theorem implements_structDef {mutabl : Bool} {fields : List (String × Option String)} :
    Implements P G code names structs fuel pc
      (compileStmt names structs pc (.structDef name mutabl fields))
      (evalStmt P structs fuel (.structDef name mutabl fields)) (OptValue P G names) := by
  rintro c env hc rfl -
  exact realizes_pure hc trivial

variable (hP : Closed P G)
include hP

mutual

/-- The code of a statement does what the statement does. -/
theorem implements_stmt (fuel : Nat) : ∀ (s : SrcStmt) (pc : Nat), s.closed names structs = true →
    Implements P G code names structs fuel pc (compileStmt names structs pc s)
      (evalStmt P structs fuel s) (OptValue P G names)
  | .assign _ _, _, hcl => implements_assign hP hcl
  | .fieldAssign _ _ _, _, hcl => implements_fieldAssign hP hcl
  | .expr _, _, hcl => implements_expr hP hcl
  | .indexAssign _ _ _, _, hcl => implements_indexAssign hP hcl
  | .ite cond then_ else_, _, hcl => by
    rw [SrcStmt.closed, Bool.and_eq_true, Bool.and_eq_true] at hcl
    exact implements_ite hP hcl.1 (fun pc => implements_block fuel then_ pc hcl.2.1)
      fun pc => implements_block fuel else_ pc hcl.2.2
  | .while cond body, _, hcl => by
    rw [SrcStmt.closed, Bool.and_eq_true] at hcl
    exact implements_while hP hcl.1 fun pc => implements_block fuel body pc hcl.2
  | .tryCatch body var handler, _, hcl => by
    rw [SrcStmt.closed, Bool.and_eq_true, Bool.and_eq_true] at hcl
    exact implements_tryCatch hP hcl.2.1 (fun pc => implements_block fuel body pc hcl.1)
      fun pc => implements_block fuel handler pc hcl.2.2
  | .tryFinally body cleanup, _, hcl => by
    rw [SrcStmt.closed, Bool.and_eq_true] at hcl
    exact implements_tryFinally (fun pc => implements_block fuel body pc hcl.1)
      (fun pc => implements_block fuel cleanup pc hcl.2)
      fun pc => implements_block fuel cleanup pc hcl.2
  | .structDef _ _ _, _, _ => implements_structDef

/-- The code of a block does what the block does. -/
theorem implements_block (fuel : Nat) : ∀ (stmts : List SrcStmt) (pc : Nat),
    SrcStmt.allClosed names structs stmts = true →
    Implements P G code names structs fuel pc
      (compileBlock names structs pc stmts) (evalBlock P structs fuel stmts)
      (OptValue P G names)
  | [], _, _ => by
    rintro c env hc rfl -
    exact realizes_pure hc trivial
  | [s], pc, hcl => by
    rw [SrcStmt.allClosed, Bool.and_eq_true] at hcl
    exact implements_stmt fuel s pc hcl.1
  | s :: t :: stmts, pc, hcl => by
    rw [SrcStmt.allClosed, Bool.and_eq_true] at hcl
    have hcompile : compileBlock (V := V) names structs pc (s :: t :: stmts) =
        ((compileStmt names structs pc s).1 ++ (compileBlock names structs
          (pc + (compileStmt (V := V) names structs pc s).1.length) (t :: stmts)).1,
          (compileBlock names structs
            (pc + (compileStmt (V := V) names structs pc s).1.length) (t :: stmts)).2) := by
      rw [compileBlock]
      exact List.cons_ne_nil t stmts
    intro c env hc hip hcode
    rw [hcompile] at hcode ⊢
    rw [evalBlock_cons]
    have hS := implements_stmt fuel s pc hcl.1 c env hc hip hcode.left
    generalize compileStmt names structs pc s = a at *
    have hT := implements_block fuel (t :: stmts) (pc + a.1.length) hcl.2
    generalize compileBlock names structs (pc + a.1.length) (t :: stmts) = b at *
    have hlen : pc + (a.1 ++ b.1).length = pc + a.1.length + b.1.length := by
      rw [List.length_append, Nat.add_assoc]
    rw [hlen]
    refine (hS.mono (Nat.le_refl pc) (Nat.le_add_right _ _)).bind
      fun _ env₁ c₁ hfalls _ => ?_
    exact (hT c₁ env₁ hfalls.holds hfalls.ip hcode.right).mono (Nat.le_add_right _ _)
      (Nat.le_refl _)

end

end Statements

end Ruju.Frontend
