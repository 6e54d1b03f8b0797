import Ruju.Interp.Arith
import Ruju.Frontend.Toplevel

/-!
# Expressions on floats

Texts made of float literals, `+ - * / %`, minus signs and parentheses.  The parser reads a
minus sign in front of an operand as the difference of the integer 0 and the operand, and
`apply` decides by the tag of its first operand.  So such an expression is computed on floats
only iff it has no minus sign of this kind.
-/

namespace Ruju.Frontend

open Interp

/-! ### What the parser makes of them -/

/-- The tokens of such a text. -/
def Tok.isFloatArith : Tok → Bool
  | .float _ | .plus | .minus | .star | .slash | .percent | .lparen | .rparen | .eof => true
  | _ => false

/-- Float literals, arithmetic, and the difference of 0 and an operand. -/
inductive FloatExpr : Expr → Prop
  | lit (bits : UInt64) : FloatExpr (.float bits)
  | neg {e : Expr} (he : FloatExpr e) : FloatExpr (.bin .sub (.int 0) e)
  | bin {op : BinOp} {l r : Expr} (hop : (binop op).1.isFloatArith = true) (hl : FloatExpr l)
      (hr : FloatExpr r) : FloatExpr (.bin op l r)

/-- There is no minus sign in front of an operand. -/
def Expr.minusFree : Expr → Bool
  | .int _ => false
  | .bin _ l r => l.minusFree && r.minusFree
  | _ => true

section Shapes

variable {α β : Type}

/-- On the tokens of such a text, every result has the property, and the rest is such a text. -/
def Shapes (Q : α → Prop) (p : Parser α) : Prop :=
  ∀ ts a rest, (∀ t ∈ ts, t.isFloatArith = true) → p ts = .ok (a, rest) →
    Q a ∧ ∀ t ∈ rest, t.isFloatArith = true

namespace Shapes

theorem pure {Q : α → Prop} {a : α} (ha : Q a) : Shapes Q (Pure.pure a : Parser α) := by
  intro ts a' rest hts h
  cases h
  exact ⟨ha, hts⟩

theorem throw {Q : α → Prop} (e : Fail) : Shapes Q (MonadExcept.throw e : Parser α) := by
  intro ts a rest _ h
  cases h

theorem bind {Q : α → Prop} {R : β → Prop} {p : Parser α} {f : α → Parser β} (hp : Shapes Q p)
    (hf : ∀ a, Q a → Shapes R (f a)) : Shapes R (p >>= f) := by
  intro ts b rest hts h
  cases hr : p ts with
  | error e =>
    have : (p >>= f) ts = .error e := by
      show Except.bind (p ts) _ = _
      rw [hr]
      rfl
    rw [this] at h
    cases h
  | ok r =>
    obtain ⟨a, ts'⟩ := r
    obtain ⟨hQ, hts'⟩ := hp ts a ts' hts hr
    refine hf a hQ ts' b rest hts' ?_
    rw [← h]
    show _ = Except.bind (p ts) _
    rw [hr]
    rfl

theorem peek : Shapes (fun t => t.isFloatArith = true) Frontend.peek := by
  intro ts t rest hts h
  cases ts with
  | nil => cases h
  | cons u us =>
    cases h
    exact ⟨hts _ List.mem_cons_self, hts⟩

theorem next : Shapes (fun t => t.isFloatArith = true) Frontend.next := by
  intro ts t rest hts h
  cases ts with
  | nil => cases h
  | cons u us =>
    cases h
    exact ⟨hts _ List.mem_cons_self, fun t ht => hts t (List.mem_cons_of_mem _ ht)⟩

theorem expect (floats : Floats) (t : Tok) : Shapes (fun _ => True) (Frontend.expect floats t) := by
  refine peek.bind fun found _ => ?_
  split
  · exact next.bind fun _ _ => .pure trivial
  · exact .throw _

end Shapes

variable (floats : Floats)

/-- The operators of one level. -/
theorem shapes_level {op? : Tok → Option BinOp} {sub : Parser Expr} (hsub : Shapes FloatExpr sub)
    (hop : ∀ t op, t.isFloatArith = true → op? t = some op → (binop op).1.isFloatArith = true)
    (fuel : Nat) : Shapes FloatExpr (level op? sub fuel) := by
  have hloop : ∀ fuel lhs, FloatExpr lhs → Shapes FloatExpr (levelLoop op? sub fuel lhs) := by
    intro fuel
    induction fuel with
    | zero => exact fun _ _ => .throw _
    | succ fuel ih =>
      intro lhs hlhs
      refine Shapes.peek.bind fun t ht => ?_
      split
      · exact .pure hlhs
      case h_2 op ho =>
        exact Shapes.next.bind fun _ _ => hsub.bind fun rhs hrhs =>
          ih _ (.bin (hop t op ht ho) hlhs hrhs)
  exact hsub.bind fun lhs hlhs => hloop fuel lhs hlhs

theorem shapes_parseCmp {atom : Parser Expr} (hatom : Shapes FloatExpr atom) (fuel : Nat) :
    Shapes FloatExpr (parseCmp atom fuel) := by
  have hshift : Shapes FloatExpr (parseShift atom fuel) := by
    refine shapes_level hatom (fun t op ht ho => ?_) fuel
    cases t <;> cases ho <;> cases ht
  have hmul : Shapes FloatExpr (parseMul atom fuel) := by
    refine shapes_level hshift (fun t op ht ho => ?_) fuel
    cases t <;> cases ho <;> first | rfl | cases ht
  have hadd : Shapes FloatExpr (parseAdd atom fuel) := by
    refine shapes_level hmul (fun t op ht ho => ?_) fuel
    cases t <;> cases ho <;> first | rfl | cases ht
  refine shapes_level hadd (fun t op ht ho => ?_) fuel
  cases t <;> cases ho <;> cases ht

theorem shapes_parsePrimary {expr atom : Parser Expr} (hexpr : Shapes FloatExpr expr)
    (hatom : Shapes FloatExpr atom) (fuel : Nat) :
    Shapes FloatExpr (parsePrimary floats expr atom fuel) := by
  refine Shapes.next.bind fun t ht => ?_
  cases t with
  | float bits => exact .pure (.lit bits)
  | lparen => exact hexpr.bind fun e he => (Shapes.expect floats .rparen).bind fun _ _ => .pure he
  | minus => exact hatom.bind fun e he => .pure (.neg he)
  | int n => cases ht
  | ident s => cases ht
  | lbracket => cases ht
  | _ => exact .throw _

theorem shapes_postfixLoop {expr : Parser Expr} (fuel : Nat) {e : Expr} (he : FloatExpr e) :
    Shapes FloatExpr (postfixLoop floats expr fuel e) := by
  cases fuel with
  | zero => exact .throw _
  | succ fuel =>
    refine Shapes.peek.bind fun t ht => ?_
    cases t with
    | dot => cases ht
    | lbracket => cases ht
    | _ => exact .pure he

theorem shapes_parseExpr (fuel : Nat) :
    Shapes FloatExpr (parseExpr floats fuel) ∧ Shapes FloatExpr (parseAtom floats fuel) := by
  induction fuel with
  | zero => exact ⟨.throw _, .throw _⟩
  | succ fuel ih =>
    refine ⟨shapes_parseCmp ih.2 fuel, ?_⟩
    rw [parseAtom]
    exact (shapes_parsePrimary floats ih.1 ih.2 fuel).bind fun e he =>
      shapes_postfixLoop floats fuel he

/-- A statement that is such an expression. -/
def FloatStmt (s : SrcStmt) : Prop := ∃ e, s = .expr e ∧ FloatExpr e

theorem shapes_parseStmt (fuel : Nat) : Shapes FloatStmt (parseStmt floats fuel) := by
  cases fuel with
  | zero => exact .throw _
  | succ fuel =>
    rw [parseStmt]
    refine Shapes.peek.bind fun t ht => ?_
    have hexpr : Shapes FloatStmt (exprStmt (parseExpr floats fuel)) :=
      (shapes_parseExpr floats fuel).1.bind fun e he => .pure ⟨e, rfl, he⟩
    cases t <;> first | exact hexpr | cases ht

theorem shapes_skipSeps (fuel : Nat) : Shapes (fun _ => True) (skipSeps fuel) := by
  induction fuel with
  | zero => exact .throw _
  | succ fuel ih =>
    refine Shapes.peek.bind fun t _ => ?_
    split
    · exact Shapes.next.bind fun _ _ => ih
    · exact .pure trivial

theorem shapes_blockLoop {stmt : Parser SrcStmt} (hstmt : Shapes FloatStmt stmt) (fuel : Nat) :
    ∀ out, (∀ s ∈ out, FloatStmt s) →
      Shapes (fun block => ∀ s ∈ block, FloatStmt s) (blockLoop stmt fuel out) := by
  induction fuel with
  | zero => exact fun _ _ => .throw _
  | succ fuel ih =>
    intro out hout
    refine (shapes_skipSeps fuel).bind fun _ _ => Shapes.peek.bind fun t _ => ?_
    split
    · exact .pure hout
    · refine hstmt.bind fun s hs => ih _ fun s' hs' => ?_
      rcases List.mem_append.mp hs' with h | h
      · exact hout s' h
      · obtain rfl := List.mem_singleton.mp h
        exact hs

/-- The parser reads such a text as expressions of this kind. -/
theorem floatStmt_of_parseSource {src : List Char} {toks : List Tok} {prog : List SrcStmt}
    (hlex : lex floats src = .ok toks) (htoks : ∀ t ∈ toks, t.isFloatArith = true)
    (h : parseSource floats src = .ok prog) : ∀ s ∈ prog, FloatStmt s := by
  rw [parseSource, hlex] at h
  obtain ⟨⟨block, rest⟩, hparse, rfl⟩ := map_eq_ok.mp h
  have hblock : Shapes (fun block => ∀ s ∈ block, FloatStmt s)
      (parseProgram floats (2 * toks.length + 3)) := by
    refine (shapes_blockLoop (shapes_parseStmt floats _) _ [] fun _ hs => ?_).bind
      fun block hblock => Shapes.peek.bind fun t _ => ?_
    · cases hs
    · split
      · exact .pure hblock
      · exact .throw _
  exact (hblock toks block rest htoks hparse).1

end Shapes

/-! ### How they are evaluated -/

section Evaluate

variable (ops : FloatOps) (structs : List StructDef) (vars : String → Box)

theorem apply_numbers {op : BinOp} (hop : (binop op).1.isFloatArith = true) (x y : Box) :
    (numbers ops).apply (binop op).1 (binArgs op x y) = applyBuiltin ops (binop op).1 x y := by
  cases op <;> first | rfl | cases hop

/-- Evaluation only adds to the log of unboxings. -/
theorem appends_evalExpr {e : Expr} (h : FloatExpr e) :
    Appends (evalExpr (numbers ops) structs vars e) := by
  induction h with
  | lit bits => exact .of_keeps fun _ => rfl
  | neg he ih =>
    rw [evalExpr]
    refine Appends.bind (.of_keeps fun _ => rfl) fun a => ih.bind fun b => ?_
    rw [apply_numbers ops rfl]
    exact appends_applyBuiltin ops _ a b
  | bin hop hl hr ihl ihr =>
    rw [evalExpr]
    refine ihl.bind fun a => ihr.bind fun b => ?_
    rw [apply_numbers ops hop]
    exact appends_applyBuiltin ops _ a b

/-- Without a minus sign in front of an operand, the value is a float, and all operands are
unboxed as what they are. -/
theorem evalExpr_minusFree {e : Expr} (h : FloatExpr e) (hfree : e.minusFree = true)
    (log : List Unboxing) : ∃ bits ext, evalExpr (numbers ops) structs vars e log =
      (.ok (.float bits), log ++ ext) ∧ ∀ u ∈ ext, u.fits := by
  induction h generalizing log with
  | lit bits =>
    exact ⟨bits, [], by rw [List.append_nil]; rfl, fun u hu => absurd hu List.not_mem_nil⟩
  | neg he ih => cases hfree
  | bin hop hl hr ihl ihr =>
    rw [Expr.minusFree, Bool.and_eq_true] at hfree
    obtain ⟨x, ext₁, hx, hfits₁⟩ := ihl hfree.1 log
    obtain ⟨y, ext₂, hy, hfits₂⟩ := ihr hfree.2 (log ++ ext₁)
    obtain ⟨z, hz⟩ := applyBuiltin_floats ops hop x y (log ++ ext₁ ++ ext₂)
    refine ⟨z, ext₁ ++ ext₂ ++ [⟨.float64, .float x⟩, ⟨.float64, .float y⟩], ?_, fun u hu => ?_⟩
    · rw [evalExpr, heapOp_bind, hx]
      dsimp only
      rw [heapOp_bind, hy]
      dsimp only
      rw [apply_numbers ops hop, hz]
      simp only [List.append_assoc]
    · rcases List.mem_append.mp hu with hu | hu
      · rcases List.mem_append.mp hu with hu | hu
        · exact hfits₁ u hu
        · exact hfits₂ u hu
      · rcases List.mem_cons.mp hu with rfl | hu
        · rfl
        · obtain rfl := List.mem_singleton.mp hu
          rfl

/-- With one, a float is unboxed as an integer. -/
theorem evalExpr_minus {e : Expr} (h : FloatExpr e) (hminus : e.minusFree = false)
    (log : List Unboxing) : ∃ u ∈ (evalExpr (numbers ops) structs vars e log).2, ¬ u.fits := by
  have happly : ∀ {op : BinOp}, (binop op).1.isFloatArith = true → ∀ a b,
      Appends ((numbers ops).apply (binop op).1 (binArgs op a b)) := by
    intro op hop a b
    rw [apply_numbers ops hop]
    exact appends_applyBuiltin ops _ a b
  induction h generalizing log with
  | lit bits => cases hminus
  | @neg e he ih =>
    rw [evalExpr, heapOp_bind]
    show ∃ u ∈ ((evalExpr (numbers ops) structs vars e >>= fun b =>
      (numbers ops).apply (binop .sub).1 (binArgs .sub (.int 0) b)) log).2, ¬ u.fits
    cases hfree : e.minusFree with
    | true =>
      obtain ⟨bits, ext, hval, -⟩ := evalExpr_minusFree ops structs vars he hfree log
      rw [heapOp_bind, hval]
      exact ⟨_, applyBuiltin_sub_int ops 0 bits _, Tag.noConfusion⟩
    | false =>
      obtain ⟨u, hu, hbad⟩ := ih hfree log
      exact ⟨u, Appends.mem_bind (fun b => happly rfl _ b) hu, hbad⟩
  | @bin op l r hop hl hr ihl ihr =>
    rw [Expr.minusFree, Bool.and_eq_false_iff] at hminus
    rw [evalExpr]
    cases hfree : l.minusFree with
    | false =>
      obtain ⟨u, hu, hbad⟩ := ihl hfree log
      exact ⟨u, Appends.mem_bind (fun a => (appends_evalExpr ops structs vars hr).bind
        fun b => happly hop a b) hu, hbad⟩
    | true =>
      obtain ⟨x, ext, hx, -⟩ := evalExpr_minusFree ops structs vars hl hfree log
      rw [heapOp_bind, hx]
      have hr' : r.minusFree = false := hminus.resolve_left (by rw [hfree]; exact Bool.noConfusion)
      obtain ⟨u, hu, hbad⟩ := ihr hr' (log ++ ext)
      exact ⟨u, Appends.mem_bind (fun b => happly hop _ b) hu, hbad⟩

/-! ### Whole texts -/

/-- Such an expression is lowered under every registry. -/
theorem lowerExpr_ok {V : Type} {e : Expr} (h : FloatExpr e) (L : Lower V) :
    ∃ o L', lowerExpr e L = (.ok o, L') := by
  induction h generalizing L with
  | lit bits => exact ⟨_, _, rfl⟩
  | neg he ih =>
    obtain ⟨o, L', ho⟩ := ih L
    refine ⟨_, _, LowerM.bind_ok.mpr ⟨_, L, rfl, LowerM.bind_ok.mpr ⟨o, L', ho, rfl⟩⟩⟩
  | bin hop hl hr ihl ihr =>
    obtain ⟨o₁, L₁, h₁⟩ := ihl L
    obtain ⟨o₂, L₂, h₂⟩ := ihr L₁
    exact ⟨_, _, LowerM.bind_ok.mpr ⟨o₁, L₁, h₁, LowerM.bind_ok.mpr ⟨o₂, L₂, h₂, rfl⟩⟩⟩

theorem lowerProgram_ok {V : Type} {e : Expr} (h : FloatExpr e) (structs : List StructDef) :
    ∃ (body : Body V) (names : List String) (structs' : List StructDef),
      lowerProgram structs [.expr e] = (.ok (body, names), structs') := by
  obtain ⟨o, L, ho⟩ := lowerExpr_ok h (⟨[], [], structs⟩ : Lower V)
  have hblock : lowerBlock [.expr e] (⟨[], [], structs⟩ : Lower V) = (.ok (some o), L) :=
    LowerM.bind_ok.mpr ⟨o, L, ho, rfl⟩
  have hall : (do
      let last ← lowerBlock [.expr e]
      let _ ← emit (.return (last.getD (.int 0)))
      pure () : LowerM V Unit) ⟨[], [], structs⟩ =
        (.ok (), { L with code := L.code ++ [.return o] }) :=
    LowerM.bind_ok.mpr ⟨some o, L, hblock, rfl⟩
  refine ⟨⟨L.names.length, L.code ++ [.return o]⟩, L.names, L.structs, ?_⟩
  rw [lowerProgram, hall]
  rfl

/-- A program that is one expression. -/
theorem evalBlock_expr {V H : Type} [DecidableEq V] (P : Prims V H) (structs : List StructDef)
    (fuel : Nat) (e : Expr) (env : Env V H) :
    evalBlock P structs fuel [.expr e] env =
      some (match (evalExpr P structs env.vars e env.heap).1 with
        | .ok v => .ok (some v)
        | .error x => .error ⟨x, false⟩,
        { env with heap := (evalExpr P structs env.vars e env.heap).2 }) := by
  show (do let v ← expr P structs e; pure (some v) : SrcM V H (Option V)) env = _
  rw [SrcM.bind_apply, expr, liftHeap]
  cases evalExpr P structs env.vars e env.heap with
  | mk r h => cases r <;> rfl

end Evaluate

/-- The text is evaluated to a float or an uncaught exception, and nothing is unboxed at a
type other than its own. -/
def StaysFloat (ops : FloatOps) (floats : Floats) (src : List Char)
    (st : State Box (List Unboxing)) : Prop :=
  ∃ N r st', SrcEnds (numbers ops) floats src st N r st' ∧
    (match r with
    | .ok v => v.tag = .float64
    | .error (.uncaught _) => True
    | .error (.message _) => False) ∧
    ∀ u ∈ st'.heap, u.fits

/-- **When float expressions stay float.**  A text of float literals, `+ - * / %`, minus signs and
parentheses that is one expression stays float iff it has no minus sign in front of an
operand. -/
theorem staysFloat_iff (ops : FloatOps) (floats : Floats) {src : List Char} {toks : List Tok}
    {e : Expr} {st : State Box (List Unboxing)} (hlex : lex floats src = .ok toks)
    (htoks : ∀ t ∈ toks, t.isFloatArith = true) (hparse : parseSource floats src = .ok [.expr e])
    (hst : st.heap = []) : StaysFloat ops floats src st ↔ e.minusFree = true := by
  obtain ⟨e', heq, hfloat⟩ := floatStmt_of_parseSource floats hlex htoks hparse (.expr e)
    List.mem_cons_self
  obtain rfl := SrcStmt.expr.inj heq
  obtain ⟨body, names, structs, hlower⟩ := lowerProgram_ok (V := Box) hfloat st.structs
  have hreads : Reads floats src st [.expr e] body names structs := ⟨hparse, hlower⟩
  have hends := hreads.ends (numbers ops) 0
  rw [evalBlock_expr] at hends
  obtain ⟨N, st', hN, hended⟩ := hends
  have hheap : st'.heap =
      (evalExpr (numbers ops) structs (mainEnv (numbers ops) st).vars e []).2 := by
    rw [hended.heap, ← hst]
    rfl
  constructor
  · rintro ⟨N', r, st'', hN', -, hfits⟩
    obtain ⟨-, rfl⟩ := hN.unique hN'
    by_contra hminus
    obtain ⟨u, hu, hbad⟩ := evalExpr_minus ops structs (mainEnv (numbers ops) st).vars hfloat
      (Bool.eq_false_iff.mpr hminus) []
    exact hbad (hfits u (hheap ▸ hu))
  · intro hfree
    obtain ⟨bits, ext, hval, hfits⟩ := evalExpr_minusFree ops structs
      (mainEnv (numbers ops) st).vars hfloat hfree []
    have hrun : evalExpr (numbers ops) structs (mainEnv (numbers ops) st).vars e
        (mainEnv (numbers ops) st).heap = (.ok (.float bits), [] ++ ext) := by
      rw [← hval, ← hst]
      rfl
    refine ⟨N, .ok (.float bits), st', ?_, rfl, fun u hu => ?_⟩
    · rw [hrun] at hN
      exact hN
    · rw [hheap, hval] at hu
      exact hfits u hu

/-- Operations that give 0. -/
def zeroOps : FloatOps where
  add _ _ := 0
  sub _ _ := 0
  mul _ _ := 0
  div _ _ := 0
  rem _ _ := 0
  lt _ _ := false
  le _ _ := false
  eq _ _ := false
  sitofp _ := 0
  egal _ _ := false
  data _ := 0

/-- A runtime in which nothing has been unboxed. -/
def noneUnboxed : State Box (List Unboxing) where
  heap := []
  main := []
  exc := []
  methods := []
  structs := []

/-- The value of `-1.5` is an integer, and the float was unboxed as one. -/
theorem evalSource_minus :
    ∃ n st', evalSource (numbers zeroOps) noFloats 20 "-1.5".toList noneUnboxed =
        .ok (.ok (.int n), st') ∧
      (⟨.int64, .float 0⟩ : Unboxing) ∈ st'.heap := by
  have hlex : lex noFloats "-1.5".toList = .ok [.minus, .float 0, .eof] := by decide +kernel
  refine ⟨0, { noneUnboxed with heap := [⟨.int64, .int 0⟩, ⟨.int64, .float 0⟩] }, ?_, ?_⟩
  · rw [evalSource, parseSource, hlex]
    rfl
  · exact List.mem_cons_of_mem _ List.mem_cons_self

/-- `1.5 * (2.5 + 0.5)` stays float. -/
theorem staysFloat_iff_product :
    StaysFloat zeroOps noFloats "1.5 * (2.5 + 0.5)".toList noneUnboxed := by
  have hlex : lex noFloats "1.5 * (2.5 + 0.5)".toList = .ok
      [.float 0, .star, .lparen, .float 0, .plus, .float 0, .rparen, .eof] := by decide +kernel
  have hparse : parseSource noFloats "1.5 * (2.5 + 0.5)".toList =
      .ok [.expr (.bin .mul (.float 0) (.bin .add (.float 0) (.float 0)))] := by
    rw [parseSource, hlex]
    rfl
  exact (staysFloat_iff zeroOps noFloats hlex (by decide) hparse rfl).mpr rfl

end Ruju.Frontend
