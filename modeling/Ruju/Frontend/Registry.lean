import Ruju.Frontend.Compile

/-!
# The registry of structs

A struct definition is carried out by the lowering.  When struct definitions stand at top
level only, the registry is the same while one statement is lowered, and what a
statement means does not depend on structs that are defined behind it.  The meaning of
such a program is therefore that of its statements with the registry at the end.
-/

namespace Ruju.Frontend

open Interp

/-! ### Statements without struct definitions -/

mutual

/-- No struct is defined in the statement. -/
def SrcStmt.flat : SrcStmt → Bool
  | .assign _ _ | .fieldAssign _ _ _ | .expr _ | .indexAssign _ _ _ => true
  | .ite _ then_ else_ => SrcStmt.allFlat then_ && SrcStmt.allFlat else_
  | .while _ body => SrcStmt.allFlat body
  | .tryCatch body _ handler => SrcStmt.allFlat body && SrcStmt.allFlat handler
  | .tryFinally body cleanup => SrcStmt.allFlat body && SrcStmt.allFlat cleanup
  | .structDef _ _ _ => false

def SrcStmt.allFlat : List SrcStmt → Bool
  | [] => true
  | s :: stmts => s.flat && SrcStmt.allFlat stmts

end

/-- Structs are defined at top level only. -/
def structsOnTop : List SrcStmt → Bool
  | [] => true
  | .structDef _ _ _ :: stmts => structsOnTop stmts
  | s :: stmts => s.flat && structsOnTop stmts

/-! ### The registry while a statement is lowered -/

section Steady

variable {V α β : Type}

/-- The step leaves the registry alone. -/
def Steady (m : LowerM V α) : Prop := ∀ L, (m L).2.structs = L.structs

namespace Steady

theorem pure (a : α) : Steady (Pure.pure a : LowerM V α) := fun _ => rfl

theorem bind {m : LowerM V α} {f : α → LowerM V β} (hm : Steady m) (hf : ∀ a, Steady (f a)) :
    Steady (m >>= f) := by
  intro L
  have hL := hm L
  show (ExceptT.bindCont f (m L).1 (m L).2).2.structs = L.structs
  cases hr : m L with
  | mk r L₁ =>
    rw [hr] at hL
    cases r with
    | error e => exact hL
    | ok a => exact (hf a L₁).trans hL

theorem emit (s : Stmt V) : Steady (Frontend.emit s) := fun _ => rfl

theorem here : Steady (Frontend.here : LowerM V Nat) := fun _ => rfl

theorem patch (idx target : Nat) : Steady (Frontend.patch idx target : LowerM V Unit) :=
  fun _ => rfl

theorem slot (name : String) : Steady (Frontend.slot name : LowerM V Nat) := by
  intro L
  unfold Frontend.slot
  split <;> rfl

theorem lookup (f : List StructDef → Except String α) :
    Steady (Frontend.lookup f : LowerM V α) := fun _ => rfl

end Steady

mutual

/-- Expressions declare no structs. -/
theorem steady_expr : ∀ e : Expr, Steady (lowerExpr e : LowerM V (Op V))
  | .int _ | .float _ => .pure _
  | .var name => (Steady.slot name).bind fun _ => .pure _
  | .bin _ lhs rhs => (steady_expr lhs).bind fun _ => (steady_expr rhs).bind fun _ =>
    (Steady.emit _).bind fun _ => .pure _
  | .call _ args => (Steady.lookup _).bind fun _ => (steady_exprs args).bind fun _ =>
    (Steady.emit _).bind fun _ => .pure _
  | .field base _ => (steady_expr base).bind fun _ => (Steady.emit _).bind fun _ => .pure _
  | .arrayLit elems => (steady_exprs elems).bind fun _ => (Steady.emit _).bind fun _ => .pure _
  | .index base idx => (steady_expr base).bind fun _ => (steady_expr idx).bind fun _ =>
    (Steady.emit _).bind fun _ => .pure _

theorem steady_exprs : ∀ es : List Expr, Steady (lowerExprs es : LowerM V (List (Op V)))
  | [] => .pure _
  | e :: es => (steady_expr e).bind fun _ => (steady_exprs es).bind fun _ => .pure _

end

theorem steady_catch : ∀ var : Option String, Steady (lowerCatch var : LowerM V Unit)
  | none => .pure _
  | some name => (Steady.emit _).bind fun _ => (Steady.slot name).bind fun _ =>
    (Steady.emit _).bind fun _ => .pure _

mutual

theorem steady_stmt : ∀ s : SrcStmt, s.flat = true → Steady (lowerStmt s : LowerM V (Option (Op V)))
  | .assign name e, _ => (steady_expr e).bind fun _ => (Steady.slot name).bind fun _ =>
    (Steady.emit _).bind fun _ => .pure _
  | .fieldAssign var _ e, _ => (steady_expr e).bind fun _ => (Steady.slot var).bind fun _ =>
    (Steady.emit _).bind fun _ => .pure _
  | .expr e, _ => (steady_expr e).bind fun _ => .pure _
  | .indexAssign var idx e, _ => (steady_expr idx).bind fun _ => (steady_expr e).bind fun _ =>
    (Steady.slot var).bind fun _ => (Steady.emit _).bind fun _ => .pure _
  | .ite cond then_ else_, h => by
    rw [SrcStmt.flat, Bool.and_eq_true] at h
    exact (steady_expr cond).bind fun _ => (Steady.emit _).bind fun _ =>
      (steady_block then_ h.1).bind fun _ => (Steady.emit _).bind fun _ =>
      Steady.here.bind fun _ => (steady_block else_ h.2).bind fun _ => Steady.here.bind fun _ =>
      (Steady.patch _ _).bind fun _ => (Steady.patch _ _).bind fun _ => .pure _
  | .while cond body, h => Steady.here.bind fun _ => (steady_expr cond).bind fun _ =>
    (Steady.emit _).bind fun _ => (steady_block body h).bind fun _ =>
    (Steady.emit _).bind fun _ => Steady.here.bind fun _ => (Steady.patch _ _).bind fun _ =>
    .pure _
  | .tryCatch body var handler, h => by
    rw [SrcStmt.flat, Bool.and_eq_true] at h
    exact (Steady.emit _).bind fun _ => (steady_block body h.1).bind fun _ =>
      (Steady.emit _).bind fun _ => (Steady.emit _).bind fun _ => Steady.here.bind fun _ =>
      (Steady.patch _ _).bind fun _ => (steady_catch var).bind fun _ =>
      (steady_block handler h.2).bind fun _ => (Steady.emit _).bind fun _ =>
      Steady.here.bind fun _ => (Steady.patch _ _).bind fun _ => .pure _
  | .tryFinally body cleanup, h => by
    rw [SrcStmt.flat, Bool.and_eq_true] at h
    exact (Steady.emit _).bind fun _ => (steady_block body h.1).bind fun _ =>
      (Steady.emit _).bind fun _ => (steady_block cleanup h.2).bind fun _ =>
      (Steady.emit _).bind fun _ => Steady.here.bind fun _ => (Steady.patch _ _).bind fun _ =>
      (steady_block cleanup h.2).bind fun _ => (Steady.emit _).bind fun _ =>
      Steady.here.bind fun _ => (Steady.patch _ _).bind fun _ => .pure _

theorem steady_block : ∀ stmts : List SrcStmt, SrcStmt.allFlat stmts = true →
    Steady (lowerBlock stmts : LowerM V (Option (Op V)))
  | [], _ => .pure _
  | [s], h => by
    rw [SrcStmt.allFlat, Bool.and_eq_true] at h
    exact steady_stmt s h.1
  | s :: t :: stmts, h => by
    rw [SrcStmt.allFlat, Bool.and_eq_true] at h
    exact (steady_stmt s h.1).bind fun _ => steady_block (t :: stmts) h.2

end

end Steady

/-! ### A larger registry changes nothing -/

section Extends

variable {V H : Type} [DecidableEq V] {P : Prims V H} {names : List String}
  {structs structs' : List StructDef}

omit [DecidableEq V] in
theorem Extends.structDef (h : Extends structs structs') {name : String} {t : TypeRef}
    (ht : Frontend.resolveType structs name = .ok t) :
    Interp.structDef structs' t = Interp.structDef structs t := by
  unfold Frontend.resolveType at ht
  cases hb : builtinType name with
  | some id =>
    rw [hb] at ht
    cases ht
    rfl
  | none =>
    rw [hb] at ht
    cases hf : findStruct structs name with
    | none =>
      rw [hf] at ht
      cases ht
    | some d =>
      rw [hf] at ht
      cases ht
      exact (h name d hf).trans hf.symm

theorem Extends.apply (h : Extends structs structs') {name : String} {nargs : Nat} {f : Callee}
    (hf : Frontend.callee structs name nargs = .ok f) (vals : List (Bool × V)) :
    f.apply P structs' vals = f.apply P structs vals := by
  cases f with
  | throw => rcases vals with _ | ⟨a, _ | ⟨b, vals⟩⟩ <;> rfl
  | push => rcases vals with _ | ⟨a, _ | ⟨b, _ | ⟨d, vals⟩⟩⟩ <;> rfl
  | length => rcases vals with _ | ⟨a, _ | ⟨b, vals⟩⟩ <;> rfl
  | new ty =>
    have hdef : Interp.structDef structs' ty = Interp.structDef structs ty := by
      unfold Frontend.callee at hf
      split_ifs at hf
      · cases hf
      · cases hf
      · cases hf
      · obtain ⟨t, ht, heq⟩ := map_eq_ok.mp hf
        cases heq
        exact h.structDef ht
    rw [Callee.apply, hdef, Callee.apply]

variable (hext : Extends structs structs')
include hext

mutual

/-- A closed expression means the same under a larger registry. -/
theorem evalExpr_extends (vars : String → V) : ∀ e : Expr, e.closed names structs = true →
    evalExpr P structs' vars e = evalExpr P structs vars e
  | .int _, _ | .float _, _ | .var _, _ => rfl
  | .bin _ lhs rhs, h => by
    rw [Expr.closed, Bool.and_eq_true] at h
    rw [evalExpr, evalExpr, evalExpr_extends vars lhs h.1, evalExpr_extends vars rhs h.2]
  | .call name args, h => by
    rw [Expr.closed, Bool.and_eq_true] at h
    cases hf : callee structs name args.length with
    | error msg =>
      rw [hf] at h
      cases h.1
    | ok f =>
      rw [evalExpr, evalExpr, hf, hext.callee hf, evalExprs_extends vars args h.2]
      simp only [hext.apply hf]
  | .field base _, h => by rw [evalExpr, evalExpr, evalExpr_extends vars base h]
  | .arrayLit elems, h => by rw [evalExpr, evalExpr, evalExprs_extends vars elems h]
  | .index base idx, h => by
    rw [Expr.closed, Bool.and_eq_true] at h
    rw [evalExpr, evalExpr, evalExpr_extends vars base h.1, evalExpr_extends vars idx h.2]

theorem evalExprs_extends (vars : String → V) : ∀ es : List Expr,
    Expr.allClosed names structs es = true →
    evalExprs P structs' vars es = evalExprs P structs vars es
  | [], _ => rfl
  | e :: es, h => by
    rw [Expr.allClosed, Bool.and_eq_true] at h
    rw [evalExprs, evalExprs, evalExpr_extends vars e h.1, evalExprs_extends vars es h.2]

end

theorem expr_extends {e : Expr} (h : e.closed names structs = true) :
    (expr P structs' e : SrcM V H V) = expr P structs e := by
  funext env
  rw [expr, expr, evalExpr_extends hext env.vars e h]

mutual

/-- A closed statement means the same under a larger registry. -/
theorem evalStmt_extends (fuel : Nat) : ∀ s : SrcStmt, s.closed names structs = true →
    evalStmt P structs' fuel s = evalStmt P structs fuel s
  | .assign _ e, h => by
    rw [SrcStmt.closed, Bool.and_eq_true] at h
    rw [evalStmt, evalStmt, expr_extends hext h.1]
  | .fieldAssign var _ e, h => by
    rw [SrcStmt.closed, Bool.and_eq_true] at h
    have hvar : (Expr.var var).closed names structs = true := h.2
    rw [evalStmt, evalStmt, expr_extends hext h.1, expr_extends hext hvar]
  | .expr e, h => by rw [evalStmt, evalStmt, expr_extends hext h]
  | .indexAssign var idx e, h => by
    rw [SrcStmt.closed, Bool.and_eq_true, Bool.and_eq_true] at h
    have hvar : (Expr.var var).closed names structs = true := h.2.2
    rw [evalStmt, evalStmt, expr_extends hext h.1, expr_extends hext h.2.1,
      expr_extends hext hvar]
  | .ite cond then_ else_, h => by
    rw [SrcStmt.closed, Bool.and_eq_true, Bool.and_eq_true] at h
    rw [evalStmt, evalStmt, expr_extends hext h.1, evalBlock_extends fuel then_ h.2.1,
      evalBlock_extends fuel else_ h.2.2]
  | .while cond body, h => by
    rw [SrcStmt.closed, Bool.and_eq_true] at h
    rw [evalStmt, evalStmt, expr_extends hext h.1, evalBlock_extends fuel body h.2]
  | .tryCatch body var handler, h => by
    rw [SrcStmt.closed, Bool.and_eq_true, Bool.and_eq_true] at h
    rw [evalStmt, evalStmt, evalBlock_extends fuel body h.1,
      evalBlock_extends fuel handler h.2.2]
  | .tryFinally body cleanup, h => by
    rw [SrcStmt.closed, Bool.and_eq_true] at h
    rw [evalStmt, evalStmt, evalBlock_extends fuel body h.1, evalBlock_extends fuel cleanup h.2]
  | .structDef _ _ _, _ => rfl

theorem evalBlock_extends (fuel : Nat) : ∀ stmts : List SrcStmt,
    SrcStmt.allClosed names structs stmts = true →
    evalBlock P structs' fuel stmts = evalBlock P structs fuel stmts
  | [], _ => rfl
  | [s], h => by
    rw [SrcStmt.allClosed, Bool.and_eq_true] at h
    exact evalStmt_extends fuel s h.1
  | s :: t :: stmts, h => by
    rw [SrcStmt.allClosed, Bool.and_eq_true] at h
    rw [evalBlock_cons, evalBlock_cons, evalStmt_extends fuel s h.1,
      evalBlock_extends fuel (t :: stmts) h.2]

end

end Extends

/-! ### Programs -/

section Programs

variable {V H : Type} [DecidableEq V] {P : Prims V H}

theorem lowerBlock_cons (s t : SrcStmt) (stmts : List SrcStmt) :
    (lowerBlock (s :: t :: stmts) : LowerM V (Option (Op V))) = (do
      let _ ← lowerStmt s
      lowerBlock (t :: stmts)) := by
  rw [lowerBlock]
  exact List.cons_ne_nil t stmts

/-- A lowered statement is closed under the registry before it. -/
theorem closed_of_lowerStmt {s : SrcStmt} {L L' : Lower V} {o : Option (Op V)}
    (hs : s.flat = true) (h : lowerStmt s L = (.ok o, L')) :
    L'.structs = L.structs ∧ s.closed L'.names L.structs = true := by
  have hsteady := steady_stmt (V := V) s hs L
  rw [h] at hsteady
  have hchecked := (compiles_stmt s L o L' h).checked _ _ List.prefix_rfl (.refl _)
  rw [hsteady] at hchecked
  exact ⟨hsteady, hchecked⟩

theorem declare_of_lowerStmt {name : String} {mutabl : Bool}
    {fields : List (String × Option String)} {L L' : Lower V} {o : Option (Op V)}
    (h : lowerStmt (.structDef name mutabl fields) L = (.ok o, L')) :
    declare L.structs name mutabl fields = .ok L'.structs := by
  obtain ⟨_, L₁, h₁, h₂⟩ := LowerM.bind_ok.mp h
  cases h₂
  unfold lowerStruct at h₁
  cases hd : declare L.structs name mutabl fields with
  | error msg =>
    rw [hd] at h₁
    cases h₁
  | ok structs =>
    rw [hd] at h₁
    cases h₁
    rfl

theorem evalProgram_last (fuel : Nat) (structs : List StructDef) {s : SrcStmt}
    (hs : s.flat = true) : evalProgram P fuel structs [s] = evalStmt P structs fuel s := by
  cases s with
  | structDef name mutabl fields => cases hs
  | _ => rfl

theorem evalProgram_cons (fuel : Nat) (structs : List StructDef) {s : SrcStmt} (t : SrcStmt)
    (stmts : List SrcStmt) (hs : s.flat = true) :
    evalProgram P fuel structs (s :: t :: stmts) = (do
      let _ ← evalStmt P structs fuel s
      evalProgram P fuel structs (t :: stmts)) := by
  cases s with
  | structDef name mutabl fields => cases hs
  | _ => rfl

/-- A struct definition, or a statement without any. -/
theorem structsOnTop_cons {s : SrcStmt} {stmts : List SrcStmt}
    (h : structsOnTop (s :: stmts) = true) :
    ((∃ name mutabl fields, s = .structDef name mutabl fields) ∨ s.flat = true) ∧
      structsOnTop stmts = true := by
  cases s with
  | structDef name mutabl fields => exact ⟨.inl ⟨name, mutabl, fields, rfl⟩, h⟩
  | _ =>
    rw [structsOnTop, Bool.and_eq_true] at h
    · exact ⟨.inr h.1, h.2⟩
    · intro _ _ _ h'
      cases h'

/-- The meaning of a program with structs at top level is that of its statements, under
the registry that the lowering ends with. -/
theorem evalProgram_eq_evalBlock (fuel : Nat) {structs' : List StructDef} :
    ∀ (prog : List SrcStmt) (L : Lower V) (o : Option (Op V)) (L' : Lower V),
      structsOnTop prog = true → lowerBlock prog L = (.ok o, L') → Extends L'.structs structs' →
      evalProgram P fuel L.structs prog = evalBlock P structs' fuel prog
  | [], L, o, L', _, _, _ => rfl
  | [s], L, o, L', htop, hlow, hext => by
    rcases (structsOnTop_cons htop).1 with ⟨name, mutabl, fields, rfl⟩ | hs
    · rw [evalProgram, declare_of_lowerStmt hlow]
      rfl
    · obtain ⟨hst, hcl⟩ := closed_of_lowerStmt hs hlow
      rw [hst] at hext
      rw [evalProgram_last fuel L.structs hs]
      exact (evalStmt_extends hext fuel s hcl).symm
  | s :: t :: stmts, L, o, L', htop, hlow, hext => by
    obtain ⟨hs, htop'⟩ := structsOnTop_cons htop
    rw [lowerBlock_cons] at hlow
    obtain ⟨_, L₁, h₁, h₂⟩ := LowerM.bind_ok.mp hlow
    have ih := evalProgram_eq_evalBlock fuel (t :: stmts) L₁ o L' htop' h₂ hext
    rw [evalBlock_cons]
    rcases hs with ⟨name, mutabl, fields, rfl⟩ | hs
    · rw [evalProgram, declare_of_lowerStmt h₁]
      exact ih
    · obtain ⟨hst, hcl⟩ := closed_of_lowerStmt hs h₁
      have hext₁ := ((compiles_block (t :: stmts) L₁ o L' h₂).structs).trans hext
      rw [hst] at hext₁ ih
      rw [evalProgram_cons fuel L.structs t stmts hs, ih, evalStmt_extends hext₁ fuel s hcl]

end Programs

end Ruju.Frontend
