import Ruju.Frontend.Parser
import Ruju.Frontend.Printed

/-!
# Parsing fully parenthesized text

Every expression with all its parentheses is a primary: it starts with its own first token
and ends with its own last one.  So the loops of the precedence levels and of the postfix
forms stop right behind it, unless the token behind it is theirs.  Inside a pair of
parentheses there is one operator, field or index, and the loop of its level takes it.

The induction is on the expression.  The fuel is bounded by the number of tokens: the
parentheses around a subexpression pay for the two calls that lead to it.
-/

namespace Ruju.Frontend

section Runs

variable {floats : Floats} {ts rest : List Tok} {t u : Tok} {fuel : Nat}

/-- The run of a sequence whose first part is known. -/
theorem run_bind {α β : Type} {p : Parser α} {f : α → Parser β} {a : α}
    (h : p ts = .ok (a, rest)) : (p >>= f) ts = f a rest := by
  show (do
    let (a, s) ← p ts
    f a s) = f a rest
  rw [h]
  rfl

theorem expect_self : expect floats t (t :: rest) = .ok ((), rest) := by
  show (if t = t then next >>= fun _ => pure () else _ : Parser Unit) (t :: rest) = _
  rw [if_pos rfl]
  rfl

/-! ### Levels -/

section Levels

variable {op? : Tok → Option BinOp} {sub : Parser Expr} {l r : Expr} {op : BinOp} {us : List Tok}

/-- The level stops at a token of another level. -/
theorem level_stop (hsub : sub ts = .ok (l, t :: rest)) (ht : op? t = none) :
    level op? sub (fuel + 1) ts = .ok (l, t :: rest) := by
  rw [level, run_bind hsub, levelLoop, peek_bind, ht]
  rfl

/-- The level takes its operator. -/
theorem level_take (hsub : sub ts = .ok (l, t :: us)) (ht : op? t = some op)
    (hsub' : sub us = .ok (r, u :: rest)) (hu : op? u = none) :
    level op? sub (fuel + 2) ts = .ok (.bin op l r, u :: rest) := by
  rw [level, run_bind hsub, levelLoop, peek_bind, ht]
  dsimp only
  rw [next_bind, run_bind hsub', levelLoop,
    peek_bind, hu]
  rfl

end Levels

/-- The tokens at which a whole expression ends. -/
def Closes (t : Tok) : Prop := t = .rparen ∨ t = .rbracket ∨ t = .comma ∨ t = .eof

theorem Closes.not_op (h : Closes t) :
    shiftOp t = none ∧ mulOp t = none ∧ addOp t = none ∧ cmpOp t = none := by
  rcases h with rfl | rfl | rfl | rfl <;> exact ⟨rfl, rfl, rfl, rfl⟩

variable {atom : Parser Expr} {l r : Expr} {us : List Tok}

/-- An atom alone passes through all levels. -/
theorem parseCmp_atom (hatom : atom ts = .ok (l, t :: rest)) (ht : Closes t) :
    parseCmp atom (fuel + 1) ts = .ok (l, t :: rest) := by
  obtain ⟨hshift, hmul, hadd, hcmp⟩ := ht.not_op
  exact level_stop (level_stop (level_stop (level_stop hatom hshift) hmul) hadd) hcmp

/-- Two atoms with an operator between them: the level of the operator takes it. -/
theorem parseCmp_bin (op : BinOp) (hl : atom ts = .ok (l, op.tok :: us))
    (hr : atom us = .ok (r, t :: rest)) (ht : Closes t) :
    parseCmp atom (fuel + 2) ts = .ok (.bin op l r, t :: rest) := by
  obtain ⟨hshift, hmul, hadd, hcmp⟩ := ht.not_op
  have hr₁ : parseShift atom (fuel + 2) us = .ok (r, t :: rest) := level_stop hr hshift
  have hr₂ : parseMul atom (fuel + 2) us = .ok (r, t :: rest) := level_stop hr₁ hmul
  have hr₃ : parseAdd atom (fuel + 2) us = .ok (r, t :: rest) := level_stop hr₂ hadd
  -- the levels above the one that takes the operator stop at the closing token
  have habove₁ : parseShift atom (fuel + 2) ts = .ok (.bin op l r, t :: rest) →
      parseMul atom (fuel + 2) ts = .ok (.bin op l r, t :: rest) := fun h => level_stop h hmul
  have habove₂ : parseMul atom (fuel + 2) ts = .ok (.bin op l r, t :: rest) →
      parseAdd atom (fuel + 2) ts = .ok (.bin op l r, t :: rest) := fun h => level_stop h hadd
  have habove₃ : parseAdd atom (fuel + 2) ts = .ok (.bin op l r, t :: rest) →
      parseCmp atom (fuel + 2) ts = .ok (.bin op l r, t :: rest) := fun h => level_stop h hcmp
  cases op with
  | shl | shr | ushr =>
    exact habove₃ (habove₂ (habove₁ (level_take hl rfl hr hshift)))
  | mul | div | idiv | rem | and =>
    have hl₁ : parseShift atom (fuel + 2) ts = .ok (l, _ :: us) := level_stop hl rfl
    exact habove₃ (habove₂ (level_take hl₁ rfl hr₁ hmul))
  | add | sub | or | xor =>
    have hl₁ : parseShift atom (fuel + 2) ts = .ok (l, _ :: us) := level_stop hl rfl
    have hl₂ : parseMul atom (fuel + 2) ts = .ok (l, _ :: us) := level_stop hl₁ rfl
    exact habove₃ (level_take hl₂ rfl hr₂ hadd)
  | lt | le | gt | ge | eq | egal =>
    have hl₁ : parseShift atom (fuel + 2) ts = .ok (l, _ :: us) := level_stop hl rfl
    have hl₂ : parseMul atom (fuel + 2) ts = .ok (l, _ :: us) := level_stop hl₁ rfl
    have hl₃ : parseAdd atom (fuel + 2) ts = .ok (l, _ :: us) := level_stop hl₂ rfl
    exact level_take hl₃ rfl hr₃ hcmp

end Runs

/-! ### Expressions -/

section Expressions

variable {floats : Floats} {fuel : Nat} {t : Tok} {rest : List Tok}

/-- The tokens of an expression start with a token that closes nothing. -/
theorem tokens_head (e : Expr) : ∃ u us, e.tokens = u :: us ∧ ¬ Closes u := by
  have hclosed : ∀ u : Tok, u ≠ .rparen → u ≠ .rbracket → u ≠ .comma → u ≠ .eof → ¬ Closes u := by
    rintro u h₁ h₂ h₃ h₄ (h | h | h | h)
    · exact h₁ h
    · exact h₂ h
    · exact h₃ h
    · exact h₄ h
  cases e <;> exact ⟨_, _, rfl, hclosed _ Tok.noConfusion Tok.noConfusion Tok.noConfusion
    Tok.noConfusion⟩

/-- A primary that no postfix form follows is an atom. -/
theorem parseAtom_of_primary {ts : List Tok} {e : Expr}
    (h : parsePrimary floats (parseExpr floats (fuel + 1)) (parseAtom floats (fuel + 1))
      (fuel + 1) ts = .ok (e, t :: rest)) (hdot : t ≠ .dot) (hbracket : t ≠ .lbracket) :
    parseAtom floats (fuel + 2) ts = .ok (e, t :: rest) := by
  rw [parseAtom, run_bind h, postfixLoop, peek_bind]
  split
  · exact absurd rfl hdot
  · exact absurd rfl hbracket
  · rfl

/-- The items of a list, up to the closing token. -/
theorem parseItems_tokens {close : Tok} {text : String} (hclose : Closes close)
    (hcomma : close ≠ .comma) {expr : Parser Expr} {n : Nat} :
    ∀ (es : List Expr), es ≠ [] →
      (∀ e ∈ es, ∀ u us, Closes u → expr (e.tokens ++ u :: us) = .ok (e, u :: us)) →
      es.length ≤ n → ∀ acc,
      parseItems floats close text expr n acc (itemTokens es ++ close :: rest) =
        .ok (acc ++ es, rest)
  | [], hne, _, _, _ => absurd rfl hne
  | [e], _, hexpr, hn, acc => by
    obtain ⟨n, rfl⟩ : ∃ k, n = k + 1 := ⟨n - 1, by simp at hn; omega⟩
    have he := hexpr e (List.mem_singleton_self e) close rest hclose
    rw [parseItems, itemTokens, run_bind he, next_bind, if_neg hcomma, if_pos rfl]
    rfl
  | e :: e' :: es, _, hexpr, hn, acc => by
    obtain ⟨n, rfl⟩ : ∃ k, n = k + 1 := ⟨n - 1, by simp at hn; omega⟩
    have he := hexpr e List.mem_cons_self .comma (itemTokens (e' :: es) ++ close :: rest)
      (Or.inr (Or.inr (Or.inl rfl)))
    have hrest : parseItems floats close text expr n (acc ++ [e])
        (itemTokens (e' :: es) ++ close :: rest) = .ok (acc ++ [e] ++ e' :: es, rest) :=
      parseItems_tokens hclose hcomma (e' :: es) (List.cons_ne_nil _ _)
        (fun x hx => hexpr x (List.mem_cons_of_mem e hx)) (by simpa using hn) (acc ++ [e])
    have hsplit : itemTokens (e :: e' :: es) ++ close :: rest =
        e.tokens ++ .comma :: (itemTokens (e' :: es) ++ close :: rest) := by
      rw [itemTokens, List.append_assoc]
      · rfl
      · exact List.cons_ne_nil _ _
    rw [parseItems, hsplit, run_bind he, next_bind, if_pos rfl, hrest, List.append_assoc]
    rfl

theorem parseList_tokens {close : Tok} {text : String} (hclose : Closes close)
    (hcomma : close ≠ .comma) {expr : Parser Expr} {n : Nat} {es : List Expr}
    (hexpr : ∀ e ∈ es, ∀ u us, Closes u → expr (e.tokens ++ u :: us) = .ok (e, u :: us))
    (hn : es.length ≤ n) :
    parseList floats close text expr n (itemTokens es ++ close :: rest) = .ok (es, rest) := by
  cases es with
  | nil =>
    rw [parseList, itemTokens, List.nil_append, peek_bind, if_pos rfl]
    rfl
  | cons e es =>
    have hitems : parseItems floats close text expr n [] (itemTokens (e :: es) ++ close :: rest) =
        .ok (e :: es, rest) :=
      parseItems_tokens hclose hcomma (e :: es) (List.cons_ne_nil e es) hexpr hn []
    obtain ⟨u, us, hu, hnot⟩ := tokens_head e
    obtain ⟨vs, hvs⟩ : ∃ vs, itemTokens (e :: es) ++ close :: rest = u :: vs := by
      cases es with
      | nil =>
        rw [itemTokens, hu]
        exact ⟨_, rfl⟩
      | cons e' es =>
        rw [itemTokens, hu]
        · exact ⟨_, rfl⟩
        · exact List.cons_ne_nil _ _
    rw [hvs] at hitems ⊢
    have hne : u ≠ close := fun h => hnot (h ▸ hclose)
    rw [parseList, peek_bind, if_neg hne]
    exact hitems

/-- The expression is read as a primary. -/
def ReadsPrimary (floats : Floats) (e : Expr) : Prop :=
  ∀ fuel t rest, t ≠ .lparen → 2 * e.tokens.length ≤ fuel →
    parsePrimary floats (parseExpr floats fuel) (parseAtom floats fuel) fuel
      (e.tokens ++ t :: rest) = .ok (e, t :: rest)

namespace ReadsPrimary

variable {e l r b i : Expr}

theorem length_pos (e : Expr) : 0 < e.tokens.length := by
  obtain ⟨u, us, hu, -⟩ := tokens_head e
  rw [hu]
  exact Nat.succ_pos _

theorem atom (h : ReadsPrimary floats e) (hparen : t ≠ .lparen) (hdot : t ≠ .dot)
    (hbracket : t ≠ .lbracket) (hfuel : 2 * e.tokens.length < fuel) :
    parseAtom floats fuel (e.tokens ++ t :: rest) = .ok (e, t :: rest) := by
  have hpos := length_pos e
  obtain ⟨k, rfl⟩ : ∃ k, fuel = k + 2 := ⟨fuel - 2, by omega⟩
  exact parseAtom_of_primary (h (k + 1) t rest hparen (by omega)) hdot hbracket

theorem expr (h : ReadsPrimary floats e) (ht : Closes t) (hfuel : 2 * e.tokens.length + 1 < fuel) :
    parseExpr floats fuel (e.tokens ++ t :: rest) = .ok (e, t :: rest) := by
  obtain ⟨k, rfl⟩ : ∃ k, fuel = k + 2 := ⟨fuel - 2, by omega⟩
  rw [parseExpr]
  refine parseCmp_atom (h.atom ?_ ?_ ?_ (by omega)) ht <;>
    rcases ht with rfl | rfl | rfl | rfl <;> exact Tok.noConfusion

/-- An operator between its operands. -/
theorem bin (hl : ReadsPrimary floats l) (hr : ReadsPrimary floats r) (op : BinOp) :
    ReadsPrimary floats (.bin op l r) := by
  intro fuel t rest _ hfuel
  have hlength : (Expr.bin op l r).tokens.length = l.tokens.length + r.tokens.length + 3 := by
    simp [Expr.tokens]
    omega
  have hposl := length_pos l
  obtain ⟨k, rfl⟩ : ∃ k, fuel = k + 3 := ⟨fuel - 3, by omega⟩
  have hsplit : (Expr.bin op l r).tokens ++ t :: rest =
      .lparen :: (l.tokens ++ op.tok :: (r.tokens ++ .rparen :: t :: rest)) := by
    simp [Expr.tokens]
  have hop : op.tok ≠ .lparen ∧ op.tok ≠ .dot ∧ op.tok ≠ .lbracket := by
    cases op <;> exact ⟨Tok.noConfusion, Tok.noConfusion, Tok.noConfusion⟩
  have hleft : parseAtom floats (k + 2) (l.tokens ++ op.tok :: (r.tokens ++ .rparen :: t :: rest)) =
      .ok (l, op.tok :: (r.tokens ++ .rparen :: t :: rest)) :=
    hl.atom hop.1 hop.2.1 hop.2.2 (by omega)
  have hright : parseAtom floats (k + 2) (r.tokens ++ .rparen :: t :: rest) =
      .ok (r, .rparen :: t :: rest) :=
    hr.atom Tok.noConfusion Tok.noConfusion Tok.noConfusion (by omega)
  have hinner : parseExpr floats (k + 3)
      (l.tokens ++ op.tok :: (r.tokens ++ .rparen :: t :: rest)) =
      .ok (.bin op l r, .rparen :: t :: rest) := by
    rw [parseExpr]
    exact parseCmp_bin op hleft hright (Or.inl rfl)
  rw [hsplit, parsePrimary, next_bind]
  dsimp only
  rw [run_bind hinner, run_bind expect_self]
  rfl

/-- What is in parentheses is an atom with one postfix form. -/
theorem parens {ts : List Tok} {e : Expr} {k : Nat}
    (h : parseAtom floats (k + 1) (ts ++ .rparen :: t :: rest) = .ok (e, .rparen :: t :: rest)) :
    parsePrimary floats (parseExpr floats (k + 2)) (parseAtom floats (k + 2)) (k + 2)
      (.lparen :: (ts ++ .rparen :: t :: rest)) = .ok (e, t :: rest) := by
  have hinner : parseExpr floats (k + 2) (ts ++ .rparen :: t :: rest) =
      .ok (e, .rparen :: t :: rest) := by
    rw [parseExpr]
    exact parseCmp_atom h (Or.inl rfl)
  rw [parsePrimary, next_bind]
  dsimp only
  rw [run_bind hinner, run_bind expect_self]
  rfl

theorem field (hb : ReadsPrimary floats b) (s : String) :
    ReadsPrimary floats (.field b s) := by
  intro fuel t rest _ hfuel
  have hlength : (Expr.field b s).tokens.length = b.tokens.length + 4 := by
    simp [Expr.tokens]
  obtain ⟨k, rfl⟩ : ∃ k, fuel = k + 4 := ⟨fuel - 4, by omega⟩
  have hsplit : (Expr.field b s).tokens ++ t :: rest =
      .lparen :: (b.tokens ++ [.dot, .ident s] ++ .rparen :: t :: rest) := by
    simp [Expr.tokens]
  rw [hsplit]
  refine parens (k := k + 2) ?_
  have hbase := hb (k + 2) .dot (.ident s :: .rparen :: t :: rest) Tok.noConfusion (by omega)
  rw [List.append_assoc, parseAtom]
  exact (run_bind hbase).trans rfl

theorem index (hb : ReadsPrimary floats b) (hi : ReadsPrimary floats i) :
    ReadsPrimary floats (.index b i) := by
  intro fuel t rest _ hfuel
  have hlength : (Expr.index b i).tokens.length = b.tokens.length + i.tokens.length + 4 := by
    simp [Expr.tokens]
    omega
  obtain ⟨k, rfl⟩ : ∃ k, fuel = k + 4 := ⟨fuel - 4, by omega⟩
  have hsplit : (Expr.index b i).tokens ++ t :: rest =
      .lparen :: (b.tokens ++ .lbracket :: (i.tokens ++ [.rbracket]) ++ .rparen :: t :: rest) := by
    simp [Expr.tokens]
  rw [hsplit]
  refine parens (k := k + 2) ?_
  have hbase := hb (k + 2) .lbracket (i.tokens ++ .rbracket :: .rparen :: t :: rest)
    Tok.noConfusion (by omega)
  have hidx : parseExpr floats (k + 2) (i.tokens ++ .rbracket :: .rparen :: t :: rest) =
      .ok (i, .rbracket :: .rparen :: t :: rest) := hi.expr (Or.inr (Or.inl rfl)) (by omega)
  have hsplit' : b.tokens ++ .lbracket :: (i.tokens ++ [.rbracket]) ++ .rparen :: t :: rest =
      b.tokens ++ .lbracket :: (i.tokens ++ .rbracket :: .rparen :: t :: rest) := by
    simp
  rw [hsplit', parseAtom, run_bind hbase, postfixLoop, peek_bind]
  dsimp only
  rw [next_bind, run_bind hidx, run_bind expect_self]
  rfl

/-- The items of a list and their number are bounded by its tokens. -/
theorem length_le_items : ∀ es : List Expr,
    (∀ e ∈ es, e.tokens.length ≤ (itemTokens es).length) ∧ es.length ≤ (itemTokens es).length
  | [] => ⟨fun e he => absurd he List.not_mem_nil, le_rfl⟩
  | [e] => by
    rw [itemTokens]
    exact ⟨List.forall_mem_singleton.mpr le_rfl, length_pos e⟩
  | e :: e' :: es => by
    obtain ⟨hmem, hlength⟩ := length_le_items (e' :: es)
    have hpos := length_pos e
    have htokens : (itemTokens (e :: e' :: es)).length =
        e.tokens.length + (itemTokens (e' :: es)).length + 1 := by
      rw [itemTokens]
      · simp only [List.length_append, List.length_cons]
        omega
      · exact List.cons_ne_nil _ _
    rw [htokens]
    refine ⟨List.forall_mem_cons.mpr ⟨by omega, fun x hx => ?_⟩, ?_⟩
    · have hx' := hmem x hx
      omega
    · rw [List.length_cons]
      omega

/-- A list of arguments or elements. -/
theorem list {es : List Expr} (hes : ∀ e ∈ es, ReadsPrimary floats e) {close : Tok} {text : String}
    (hclose : close = .rparen ∨ close = .rbracket) (hfuel : 2 * (itemTokens es).length + 2 ≤ fuel) :
    parseList floats close text (parseExpr floats fuel) fuel (itemTokens es ++ close :: rest) =
      .ok (es, rest) := by
  obtain ⟨hmem, hlength⟩ := length_le_items es
  have hcloses : Closes close := hclose.imp_right Or.inl
  have hcomma : close ≠ .comma := by
    rcases hclose with rfl | rfl <;> exact Tok.noConfusion
  refine parseList_tokens hcloses hcomma (fun e he u us hu => ?_) (by omega)
  have hle := hmem e he
  exact (hes e he).expr hu (by omega)

theorem call {args : List Expr} (hargs : ∀ e ∈ args, ReadsPrimary floats e) (s : String) :
    ReadsPrimary floats (.call s args) := by
  intro fuel t rest _ hfuel
  have hlength : (Expr.call s args).tokens.length = (itemTokens args).length + 3 := by
    simp [Expr.tokens]
  have hsplit : (Expr.call s args).tokens ++ t :: rest =
      .ident s :: .lparen :: (itemTokens args ++ .rparen :: t :: rest) := by
    simp [Expr.tokens]
  have hlist : parseList floats .rparen ")" (parseExpr floats fuel) fuel
      (itemTokens args ++ .rparen :: t :: rest) = .ok (args, t :: rest) :=
    list hargs (Or.inl rfl) (by omega)
  rw [hsplit, parsePrimary, next_bind]
  dsimp only
  rw [peek_bind, if_pos rfl, next_bind, run_bind hlist]
  rfl

theorem arrayLit {elems : List Expr} (helems : ∀ e ∈ elems, ReadsPrimary floats e) :
    ReadsPrimary floats (.arrayLit elems) := by
  intro fuel t rest _ hfuel
  have hlength : (Expr.arrayLit elems).tokens.length = (itemTokens elems).length + 2 := by
    simp [Expr.tokens]
  have hsplit : (Expr.arrayLit elems).tokens ++ t :: rest =
      .lbracket :: (itemTokens elems ++ .rbracket :: t :: rest) := by
    simp [Expr.tokens]
  have hlist : parseList floats .rbracket "]" (parseExpr floats fuel) fuel
      (itemTokens elems ++ .rbracket :: t :: rest) = .ok (elems, t :: rest) :=
    list helems (Or.inr rfl) (by omega)
  rw [hsplit, parsePrimary, next_bind]
  dsimp only
  rw [run_bind hlist]
  rfl

theorem var (s : String) : ReadsPrimary floats (.var s) := by
  intro fuel t rest ht _
  have hsplit : (Expr.var s).tokens ++ t :: rest = .ident s :: t :: rest := rfl
  rw [hsplit, parsePrimary, next_bind]
  dsimp only
  rw [peek_bind, if_neg ht]
  rfl

end ReadsPrimary

mutual

theorem readsPrimary (floats : Floats) : ∀ e : Expr, ReadsPrimary floats e
  | .int _ => fun _ _ _ _ _ => rfl
  | .float _ => fun _ _ _ _ _ => rfl
  | .var s => ReadsPrimary.var s
  | .bin op l r => (readsPrimary floats l).bin (readsPrimary floats r) op
  | .call s args => ReadsPrimary.call (readsPrimary_items floats args) s
  | .field b s => (readsPrimary floats b).field s
  | .arrayLit elems => ReadsPrimary.arrayLit (readsPrimary_items floats elems)
  | .index b i => (readsPrimary floats b).index (readsPrimary floats i)

theorem readsPrimary_items (floats : Floats) : ∀ es : List Expr, ∀ e ∈ es, ReadsPrimary floats e
  | [] => fun _ he => absurd he List.not_mem_nil
  | e :: es => List.forall_mem_cons.mpr ⟨readsPrimary floats e, readsPrimary_items floats es⟩

end

end Expressions

/-! ### The round trip -/

/-- **The parser reads back what is printed.**  The fully parenthesized text of an expression
lexes, and `parse_expr` gives the expression and consumes all tokens but `eof`. -/
theorem parseExpr_text (floats : Floats) (e : Expr) (he : e.Printable) :
    ∃ toks, lex floats e.text = .ok toks ∧
      ∃ enough, ∀ fuel, enough ≤ fuel → parseExpr floats fuel toks = .ok (e, [.eof]) := by
  refine ⟨e.tokens ++ [.eof], lex_text floats he, 2 * e.tokens.length + 2, fun fuel hfuel => ?_⟩
  exact (readsPrimary floats e).expr (Or.inr (Or.inr (Or.inr rfl))) hfuel

/-- `push!(a.b, x[1 << 2])` has a text. -/
def pushShifted : Expr :=
  .call "push!" [.field (.var "a") "b", .index (.var "x") (.bin .shl (.int 1) (.int 2))]

theorem printable_pushShifted : pushShifted.Printable := by
  have hpush : IsName "push!" :=
    ⟨⟨'p', ['u', 's', 'h'], ['!'], rfl, rfl, List.all_eq_true.mp rfl, by simp⟩, by decide⟩
  have ha : IsName "a" := ⟨⟨'a', [], [], rfl, rfl, List.all_eq_true.mp rfl, by simp⟩, by decide⟩
  have hb : IsName "b" := ⟨⟨'b', [], [], rfl, rfl, List.all_eq_true.mp rfl, by simp⟩, by decide⟩
  have hx : IsName "x" := ⟨⟨'x', [], [], rfl, rfl, List.all_eq_true.mp rfl, by simp⟩, by decide⟩
  exact ⟨hpush, ⟨ha, hb⟩, ⟨hx, ⟨by decide, by decide⟩, ⟨by decide, by decide⟩⟩, trivial⟩

theorem parseExpr_text_pushShifted :
    pushShifted.Printable ∧ pushShifted.text = "push!((a.b),(x[(1<<2)]))".toList ∧
      ∃ toks, lex ⟨fun _ => 0, fun _ => ""⟩ pushShifted.text = .ok toks ∧
        ∃ enough, ∀ fuel, enough ≤ fuel →
          parseExpr ⟨fun _ => 0, fun _ => ""⟩ fuel toks = .ok (pushShifted, [.eof]) :=
  ⟨printable_pushShifted, by decide, parseExpr_text _ pushShifted printable_pushShifted⟩

end Ruju.Frontend
