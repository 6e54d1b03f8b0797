import Ruju.Frontend.Lexer

/-!
# Fully parenthesized text

`Expr.tokens` are the tokens of an expression with parentheses around every operator, field
access and index, and `Expr.text` is their text, without blanks.

Without blanks the lexer has to find the ends of the tokens by itself.  A number ends where
no digit follows, and no point with a digit behind it; a word ends where no letter, digit or
exclamation mark follows (`Ends`).  An operator ends where nothing follows that would make
it a longer one (`starts_text`).  Both are true of everything that can follow in the text of an
expression, so that the text lexes to the tokens (`lex_text`).
-/

namespace Ruju.Frontend

/-! ### Names -/

/-- The words that are not identifiers. -/
def keywords : List String :=
  ["if", "else", "elseif", "end", "while", "try", "catch", "finally", "struct", "mutable"]

/-- An identifier: a letter or `_`, letters, digits and `_`, then any number of `!`. -/
structure IsName (s : String) : Prop where
  shape : ∃ c w bangs, s.toList = c :: w ++ bangs ∧ isWordStart c = true ∧
    (∀ x ∈ w, isWordChar x = true) ∧ ∀ x ∈ bangs, x = '!'
  notKeyword : s ∉ keywords

/-! ### Tokens and text -/

/-- The token of an operator. -/
def BinOp.tok : BinOp → Tok
  | .add => .plus
  | .sub => .minus
  | .mul => .star
  | .div => .slash
  | .idiv => .idiv
  | .rem => .percent
  | .and => .amp
  | .or => .pipe
  | .xor => .veebar
  | .shl => .shl
  | .shr => .shr
  | .ushr => .ushr
  | .lt => .lt
  | .le => .le
  | .gt => .gt
  | .ge => .ge
  | .eq => .eqEq
  | .egal => .eqEqEq

mutual

/-- The tokens of an expression, with all parentheses. -/
def Expr.tokens : Expr → List Tok
  | .int n => [.int n]
  | .float bits => [.float bits]
  | .var s => [.ident s]
  | .bin op l r => .lparen :: l.tokens ++ op.tok :: r.tokens ++ [.rparen]
  | .call s args => .ident s :: .lparen :: itemTokens args ++ [.rparen]
  | .field b s => .lparen :: b.tokens ++ [.dot, .ident s, .rparen]
  | .arrayLit elems => .lbracket :: itemTokens elems ++ [.rbracket]
  | .index b i => .lparen :: b.tokens ++ .lbracket :: i.tokens ++ [.rbracket, .rparen]

/-- The tokens of a list, with commas between the items. -/
def itemTokens : List Expr → List Tok
  | [] => []
  | [e] => e.tokens
  | e :: es => e.tokens ++ .comma :: itemTokens es

end

/-- The text of a token of an expression. -/
def Tok.text : Tok → List Char
  | .int n => Nat.toDigits 10 n.toNat
  | .ident s => s.toList
  | .plus => ['+']
  | .minus => ['-']
  | .star => ['*']
  | .slash => ['/']
  | .idiv => ['÷']
  | .percent => ['%']
  | .amp => ['&']
  | .pipe => ['|']
  | .veebar => ['⊻']
  | .shl => ['<', '<']
  | .shr => ['>', '>']
  | .ushr => ['>', '>', '>']
  | .lt => ['<']
  | .le => ['<', '=']
  | .gt => ['>']
  | .ge => ['>', '=']
  | .eqEq => ['=', '=']
  | .eqEqEq => ['=', '=', '=']
  | .lparen => ['(']
  | .rparen => [')']
  | .lbracket => ['[']
  | .rbracket => [']']
  | .dot => ['.']
  | .comma => [',']
  -- no other token is in the text of an expression
  | _ => []

/-- The text of tokens. -/
def textOf (ts : List Tok) : List Char := ts.flatMap Tok.text

/-- The fully parenthesized text. -/
def Expr.text (e : Expr) : List Char := textOf e.tokens

mutual

/-- The expressions that have a text: integers that fit, and names that are identifiers. -/
def Expr.Printable : Expr → Prop
  | .int n => 0 ≤ n ∧ n < 2 ^ 63
  | .float _ => False
  | .var s => IsName s
  | .bin _ l r => l.Printable ∧ r.Printable
  | .call s args => IsName s ∧ AllPrintable args
  | .field b s => b.Printable ∧ IsName s
  | .arrayLit elems => AllPrintable elems
  | .index b i => b.Printable ∧ i.Printable

def AllPrintable : List Expr → Prop
  | [] => True
  | e :: es => e.Printable ∧ AllPrintable es

end

theorem textOf_cons (t : Tok) (ts : List Tok) : textOf (t :: ts) = t.text ++ textOf ts := rfl

theorem textOf_append (ts us : List Tok) : textOf (ts ++ us) = textOf ts ++ textOf us :=
  List.flatMap_append

/-! ### Where tokens end -/

/-- A number or a word in front of this text ends there. -/
def Ends (cs : List Char) : Prop :=
  ∀ c rest, cs = c :: rest →
    isWordChar c = false ∧ c ≠ '!' ∧ (c = '.' → ∀ d ∈ rest.head?, d.isDigit = false)

/-- An operator in front of this text ends there. -/
def Starts (cs : List Char) : Prop := ∀ c ∈ cs.head?, c ≠ '<' ∧ c ≠ '>' ∧ c ≠ '='

/-- What the token needs of the text behind it, and of itself. -/
def Fits (cs : List Char) : Tok → Prop
  | .int n => 0 ≤ n ∧ n < 2 ^ 63 ∧ Ends cs
  | .ident s => IsName s ∧ Ends cs
  | .lt | .gt | .shr | .eqEq => Starts cs
  | .float _ | .assign | .colonColon | .sep | .kIf | .kStruct | .kMutable | .kElse | .kElseif
  | .kEnd | .kWhile | .kTry | .kCatch | .kFinally | .eof => False
  | _ => True

variable {c : Char} {rest : List Char} {s : String} {t : Tok}

section Lex

variable {floats : Floats} {cs : List Char}

theorem lex_step {t : Option Tok}
    (h : lexStep floats c cs = .ok (t, rest)) :
    lex floats (c :: cs) = (lex floats rest).map fun ts => t.toList ++ ts := by
  rw [lex]
  split
  case h_1 e he =>
    rw [h] at he
    cases he
  case h_2 t' rest' he =>
    rw [h] at he
    cases he
    rfl

/-- A part of the text up to a character that does not belong to it. -/
theorem span_append {p : Char → Bool} {w : List Char} (hw : ∀ x ∈ w, p x = true)
    (hcs : ∀ x ∈ cs.head?, p x = false) :
    (w ++ cs).takeWhile p = w ∧ (w ++ cs).dropWhile p = cs := by
  have hhead : cs.takeWhile p = [] ∧ cs.dropWhile p = cs := by
    cases cs with
    | nil => exact ⟨rfl, rfl⟩
    | cons c rest =>
      have hc : ¬ p c = true := by
        rw [hcs c rfl]
        exact Bool.false_ne_true
      exact ⟨List.takeWhile_cons_of_neg hc, List.dropWhile_cons_of_neg hc⟩
  rw [List.takeWhile_append_of_pos hw, List.dropWhile_append_of_pos hw, hhead.1, hhead.2,
    List.append_nil]
  exact ⟨rfl, rfl⟩

theorem Ends.head (h : Ends cs) (hc : c ∈ cs.head?) :
    isWordChar c = false ∧ c ≠ '!' := by
  obtain ⟨rest, rfl⟩ : ∃ rest, cs = c :: rest := List.head?_eq_some_iff.mp hc
  obtain ⟨hword, hbang, -⟩ := h c rest rfl
  exact ⟨hword, hbang⟩

/-! ### One token -/

/-- A letter, `_` or a digit is no blank, no comment and no operator. -/
theorem lexStep_plain (hc : (isWordStart c || c.isDigit) = true) :
    lexStep floats c cs =
      if c.isDigit then (lexNumber floats (c :: cs)).map fun r => (some r.1, r.2)
      else .ok (some (lexWord (c :: cs)).1, (lexWord (c :: cs)).2) := by
  have hblank : ¬ (c = ' ' ∨ c = '\t' ∨ c = '\r') := by
    rintro (rfl | rfl | rfl) <;> exact absurd hc (by decide)
  have hcomment : c ≠ '#' := by
    rintro rfl
    exact absurd hc (by decide)
  have hsingle : single c = none := by
    unfold single
    split <;> first | rfl | exact absurd hc (by decide)
  have hoperator : operator c cs = none := by
    unfold operator
    split <;> first | rfl | exact absurd hc (by decide)
  rw [lexStep, if_neg hblank, if_neg hcomment, hsingle, hoperator]
  dsimp only
  cases hdigit : c.isDigit with
  | true => rfl
  | false =>
    have hword : isWordStart c = true := by
      rw [hdigit, Bool.or_false] at hc
      exact hc
    simp only [hword, Bool.false_eq_true, if_false, if_true]

theorem keyword_of_isName (h : IsName s) : keyword s.toList = .ident s := by
  have hne : ∀ k ∈ keywords, s.toList ≠ k.toList := by
    intro k hk heq
    rw [String.toList_inj] at heq
    exact h.notKeyword (heq ▸ hk)
  have hkey : keyword s.toList = .ident (String.ofList s.toList) := by
    unfold keyword
    simp only [keywords, List.forall_mem_cons] at hne
    simp only [hne, if_false]
  rw [hkey, String.ofList_toList]

theorem not_isDigit_of_isWordStart (h : isWordStart c = true) : c.isDigit = false := by
  rcases Bool.or_eq_true_iff.mp h with h | h
  · unfold Char.isAlpha Char.isUpper Char.isLower at h
    simp only [Char.isDigit, Bool.or_eq_true, Bool.and_eq_true, decide_eq_true_eq,
      Bool.and_eq_false_iff, decide_eq_false_iff_not] at h ⊢
    grind
  · rw [beq_iff_eq.mp h]
    rfl

theorem lex_ident (h : IsName s) (hcs : Ends cs) :
    lex floats (s.toList ++ cs) = (lex floats cs).map (Tok.ident s :: ·) := by
  obtain ⟨c, w, bangs, hs, hc, hw, hbangs⟩ := h.shape
  have hcw : isWordChar c = true := by
    unfold isWordStart at hc
    unfold isWordChar Char.isAlphanum
    rcases Bool.or_eq_true_iff.mp hc with h | h <;> simp [h]
  have hword : lexWord (c :: (w ++ bangs ++ cs)) = (.ident s, cs) := by
    have hletters : ∀ x ∈ c :: w, isWordChar x = true := List.forall_mem_cons.mpr ⟨hcw, hw⟩
    have hstop : ∀ x ∈ (bangs ++ cs).head?, isWordChar x = false := by
      intro x hx
      cases bangs with
      | nil => exact (hcs.head hx).1
      | cons b bangs =>
        rw [← Option.some.inj hx, hbangs b List.mem_cons_self]
        rfl
    have hmarks : ∀ x ∈ bangs, (x == '!') = true := fun x hx => beq_iff_eq.mpr (hbangs x hx)
    have hend : ∀ x ∈ cs.head?, (x == '!') = false := fun x hx => beq_eq_false_iff_ne.mpr
      (hcs.head hx).2
    obtain ⟨htake, hdrop⟩ := span_append hletters hstop
    obtain ⟨htake', hdrop'⟩ := span_append hmarks hend
    have hsplit : c :: (w ++ bangs ++ cs) = c :: w ++ (bangs ++ cs) := by simp
    rw [hsplit, lexWord, htake, hdrop, htake', hdrop', ← hs, keyword_of_isName h]
  have hstep : lexStep floats c (w ++ bangs ++ cs) = .ok (some (.ident s), cs) := by
    rw [lexStep_plain (by rw [hc, Bool.true_or]), not_isDigit_of_isWordStart hc, hword]
    rfl
  rw [hs]
  exact lex_step hstep

theorem lex_int {n : Int} (h0 : 0 ≤ n) (hn : n < 2 ^ 63) (hcs : Ends cs) :
    lex floats (Nat.toDigits 10 n.toNat ++ cs) = (lex floats cs).map (Tok.int n :: ·) := by
  have hdigits : ∀ x ∈ Nat.toDigits 10 n.toNat, x.isDigit = true := fun x hx =>
    Nat.isDigit_of_mem_toDigits (by decide) (by decide) hx
  have hstop : ∀ x ∈ cs.head?, x.isDigit = false := by
    intro x hx
    have hword := (hcs.head hx).1
    unfold isWordChar Char.isAlphanum at hword
    simp only [Bool.or_eq_false_iff] at hword
    exact hword.1.2
  obtain ⟨htake, hdrop⟩ := span_append hdigits hstop
  have hint : ∀ cs', lexInt (Nat.toDigits 10 n.toNat) cs' = .ok (.int n, cs') := by
    intro cs'
    have hlt : n.toNat < 2 ^ 63 := by omega
    rw [lexInt, Text.readUnsigned_toDigits (by decide) (by decide) hlt]
    simp only [Int.toNat_of_nonneg h0]
  have hnumber : lexNumber floats (Nat.toDigits 10 n.toNat ++ cs) = .ok (.int n, cs) := by
    rw [lexNumber, htake, hdrop]
    dsimp only
    split
    case h_1 d rest =>
      -- a point is followed by a name
      have hd := (hcs '.' (d :: rest) rfl).2.2 rfl d rfl
      rw [hd]
      exact hint _
    case h_2 => exact hint _
  obtain ⟨c, w, hcons⟩ := List.exists_cons_of_ne_nil
    (Text.toDigits_ne_nil (show 1 < 10 by decide) n.toNat)
  rw [hcons, List.cons_append] at hnumber ⊢
  have hc : c.isDigit = true := hdigits c (hcons ▸ List.mem_cons_self)
  refine lex_step (t := some (.int n)) ?_
  rw [lexStep_plain (by rw [hc, Bool.or_true]), if_pos hc, hnumber]
  rfl

/-- The longest operator is found. -/
theorem operator_of_starts (h : Starts cs) :
    operator '<' cs = some (.lt, cs) ∧ operator '>' cs = some (.gt, cs) ∧
      operator '>' ('>' :: cs) = some (.shr, cs) ∧ operator '=' ('=' :: cs) = some (.eqEq, cs) := by
  cases cs with
  | nil => exact ⟨rfl, rfl, rfl, rfl⟩
  | cons d rest =>
    obtain ⟨h1, h2, h3⟩ := h d rfl
    simp [operator, h1, h2, h3]

theorem lexStep_operator
    (hc : c = '<' ∨ c = '>' ∨ c = '=') (h : operator c cs = some (t, rest)) :
    lexStep floats c cs = .ok (some t, rest) := by
  rcases hc with rfl | rfl | rfl <;> simp [lexStep, single, h]

theorem lexStep_single (hblank : c ≠ ' ') (hcomment : c ≠ '#')
    (htab : c ≠ '\t') (hreturn : c ≠ '\r') (h : single c = some t) :
    lexStep floats c cs = .ok (some t, cs) := by
  simp [lexStep, hblank, hcomment, htab, hreturn, h]

/-- **A token is read back from its text**, if it fits in front of what follows. -/
theorem lex_token (h : Fits cs t) :
    lex floats (t.text ++ cs) = (lex floats cs).map (t :: ·) := by
  cases t with
  | int n => exact lex_int h.1 h.2.1 h.2.2
  | ident s => exact lex_ident h.1 h.2
  | lt => exact lex_step (lexStep_operator (by simp) (operator_of_starts h).1)
  | gt => exact lex_step (lexStep_operator (by simp) (operator_of_starts h).2.1)
  | shr => exact lex_step (lexStep_operator (by simp) (operator_of_starts h).2.2.1)
  | eqEq => exact lex_step (lexStep_operator (by simp) (operator_of_starts h).2.2.2)
  | shl | le | ushr | ge | eqEqEq => exact lex_step (lexStep_operator (by simp) rfl)
  | plus | minus | star | slash | idiv | percent | amp | pipe | veebar | lparen | rparen
  | lbracket | rbracket | dot | comma =>
    exact lex_step (lexStep_single (by decide) (by decide) (by decide) (by decide) rfl)
  | float | assign | colonColon | sep | kIf | kStruct | kMutable | kElse | kElseif | kEnd
  | kWhile | kTry | kCatch | kFinally | eof => exact h.elim

end Lex

/-! ### Expressions -/

/-- The text of the tokens, followed by `cs`, is read as these tokens first. -/
def Lexes (floats : Floats) (ts : List Tok) (cs : List Char) : Prop :=
  lex floats (textOf ts ++ cs) = (lex floats cs).map (ts ++ ·)

section Expressions

variable {floats : Floats} {cs : List Char}

theorem Lexes.nil : Lexes floats [] cs := by
  show lex floats cs = (lex floats cs).map (List.append [])
  cases lex floats cs <;> rfl

variable {ts : List Tok}

theorem Lexes.append {us : List Tok} (hts : Lexes floats ts (textOf us ++ cs))
    (hus : Lexes floats us cs) : Lexes floats (ts ++ us) cs := by
  unfold Lexes at hts hus ⊢
  rw [textOf_append, List.append_assoc, hts, hus]
  cases lex floats cs with
  | error e => rfl
  | ok vs => exact congrArg Except.ok (List.append_assoc ts us vs).symm

theorem Lexes.cons (ht : Fits (textOf ts ++ cs) t)
    (hts : Lexes floats ts cs) : Lexes floats (t :: ts) cs := by
  unfold Lexes at hts ⊢
  rw [textOf_cons, List.append_assoc, lex_token ht, hts]
  cases lex floats cs <;> rfl

/-- What may follow an operand: an operator, a closing token, a comma or an opening one. -/
theorem ends_text
    (ht : (∃ op : BinOp, t = op.tok) ∨
      t ∈ [Tok.lparen, .rparen, .lbracket, .rbracket, .comma]) :
    Ends (textOf (t :: ts) ++ cs) := by
  rw [textOf_cons, List.append_assoc]
  have hplain : ∀ (c : Char) (w : List Char), t.text = c :: w → isWordChar c = false →
      c ≠ '!' → c ≠ '.' → Ends (t.text ++ (textOf ts ++ cs)) := by
    intro c w htext hword hbang hdot c' rest heq
    rw [htext, List.cons_append] at heq
    obtain ⟨rfl, -⟩ := List.cons.inj heq
    exact ⟨hword, hbang, fun h => absurd h hdot⟩
  rcases ht with ⟨op, rfl⟩ | ht
  · cases op <;> exact hplain _ _ rfl (by decide) (by decide) (by decide)
  · simp only [List.mem_cons, List.not_mem_nil, or_false] at ht
    rcases ht with rfl | rfl | rfl | rfl | rfl <;>
      exact hplain _ _ rfl (by decide) (by decide) (by decide)

/-- A point may follow if a name comes behind it. -/
theorem ends_dot (h : IsName s) :
    Ends (textOf (.dot :: .ident s :: ts) ++ cs) := by
  obtain ⟨c, w, bangs, hs, hc, -⟩ := h.shape
  intro c' rest heq
  rw [textOf_cons, textOf_cons, Tok.text, Tok.text, hs] at heq
  obtain ⟨rfl, rfl⟩ := List.cons.inj heq
  refine ⟨rfl, by decide, fun _ d hd => ?_⟩
  rw [← Option.some.inj hd]
  exact not_isDigit_of_isWordStart hc

theorem starts_of_plain
    (hc : (isWordStart c || c.isDigit) = true ∨ c = '(' ∨ c = '[') : Starts (c :: rest) := by
  intro d hd
  obtain rfl : c = d := Option.some.inj hd
  refine ⟨?_, ?_, ?_⟩ <;> rintro rfl <;> exact absurd hc (by decide)

/-- The text of an expression starts with a digit, a letter or an opening token. -/
theorem starts_text {e : Expr} (he : e.Printable) : Starts (textOf e.tokens ++ cs) := by
  have hname : ∀ (s : String) (ts : List Tok), IsName s →
      Starts (textOf (.ident s :: ts) ++ cs) := by
    intro s ts hs
    obtain ⟨c, w, bangs, htext, hc, -⟩ := hs.shape
    rw [textOf_cons, Tok.text, htext]
    exact starts_of_plain (Or.inl (by rw [hc, Bool.true_or]))
  cases e with
  | int n =>
    obtain ⟨c, w, hcons⟩ := List.exists_cons_of_ne_nil
      (Text.toDigits_ne_nil (show 1 < 10 by decide) n.toNat)
    have hc : c.isDigit = true :=
      Nat.isDigit_of_mem_toDigits (by decide) (by decide) (hcons ▸ List.mem_cons_self)
    rw [Expr.tokens, textOf_cons, Tok.text, hcons]
    exact starts_of_plain (Or.inl (by rw [hc, Bool.or_true]))
  | float bits => exact he.elim
  | var s => exact hname s [] he
  | call s args => exact hname s _ he.1
  | bin op l r => exact starts_of_plain (Or.inr (Or.inl rfl))
  | field b s => exact starts_of_plain (Or.inr (Or.inl rfl))
  | arrayLit elems => exact starts_of_plain (Or.inr (Or.inr rfl))
  | index b i => exact starts_of_plain (Or.inr (Or.inl rfl))

theorem fits_op {op : BinOp} {cs : List Char} (h : Starts cs) : Fits cs op.tok := by
  cases op <;> first | exact h | exact trivial

mutual

/-- **The text of an expression lexes to its tokens.** -/
theorem lexes_expr (floats : Floats) :
    ∀ (e : Expr) (cs : List Char), e.Printable → Ends cs → Lexes floats e.tokens cs
  | .int n, cs, he, hcs => Lexes.cons ⟨he.1, he.2, hcs⟩ Lexes.nil
  | .float _, _, he, _ => he.elim
  | .var s, cs, he, hcs => Lexes.cons ⟨he, hcs⟩ Lexes.nil
  | .bin op l r, cs, he, hcs => by
    have hclose : Lexes floats [.rparen] cs := Lexes.cons trivial Lexes.nil
    have hr := lexes_expr floats r (textOf [.rparen] ++ cs) he.2 (ends_text (by simp))
    have hop : Lexes floats (op.tok :: (r.tokens ++ [.rparen])) cs := by
      refine Lexes.cons (fits_op ?_) (hr.append hclose)
      rw [textOf_append, List.append_assoc]
      exact starts_text he.2
    have hl := lexes_expr floats l (textOf (op.tok :: (r.tokens ++ [.rparen])) ++ cs) he.1
      (ends_text (Or.inl ⟨op, rfl⟩))
    have hall : Lexes floats (.lparen :: (l.tokens ++ op.tok :: (r.tokens ++ [.rparen]))) cs :=
      Lexes.cons trivial (hl.append hop)
    simpa [Expr.tokens] using hall
  | .call s args, cs, he, hcs => by
    have hclose : Lexes floats [.rparen] cs := Lexes.cons trivial Lexes.nil
    have hargs := lexes_items floats args (textOf [.rparen] ++ cs) he.2 (ends_text (by simp))
    have hopen : Lexes floats (.lparen :: (itemTokens args ++ [.rparen])) cs :=
      Lexes.cons trivial (hargs.append hclose)
    have hall : Lexes floats (.ident s :: .lparen :: (itemTokens args ++ [.rparen])) cs :=
      Lexes.cons ⟨he.1, ends_text (by simp)⟩ hopen
    simpa [Expr.tokens] using hall
  | .field b s, cs, he, hcs => by
    have hclose : Lexes floats [.rparen] cs := Lexes.cons trivial Lexes.nil
    have hname : Lexes floats [.ident s, .rparen] cs :=
      Lexes.cons ⟨he.2, ends_text (by simp)⟩ hclose
    have hdot : Lexes floats [.dot, .ident s, .rparen] cs := Lexes.cons trivial hname
    have hb := lexes_expr floats b (textOf [.dot, .ident s, .rparen] ++ cs) he.1
      (ends_dot he.2)
    have hall : Lexes floats (.lparen :: (b.tokens ++ [.dot, .ident s, .rparen])) cs :=
      Lexes.cons trivial (hb.append hdot)
    simpa [Expr.tokens] using hall
  | .arrayLit elems, cs, he, hcs => by
    have hclose : Lexes floats [.rbracket] cs := Lexes.cons trivial Lexes.nil
    have helems := lexes_items floats elems (textOf [.rbracket] ++ cs) he (ends_text (by simp))
    have hall : Lexes floats (.lbracket :: (itemTokens elems ++ [.rbracket])) cs :=
      Lexes.cons trivial (helems.append hclose)
    simpa [Expr.tokens] using hall
  | .index b i, cs, he, hcs => by
    have hclose : Lexes floats [.rbracket, .rparen] cs :=
      Lexes.cons trivial (Lexes.cons trivial Lexes.nil)
    have hi := lexes_expr floats i (textOf [.rbracket, .rparen] ++ cs) he.2
      (ends_text (by simp))
    have hopen : Lexes floats (.lbracket :: (i.tokens ++ [.rbracket, .rparen])) cs :=
      Lexes.cons trivial (hi.append hclose)
    have hb := lexes_expr floats b (textOf (.lbracket :: (i.tokens ++ [.rbracket, .rparen])) ++ cs)
      he.1 (ends_text (by simp))
    have hall : Lexes floats
        (.lparen :: (b.tokens ++ .lbracket :: (i.tokens ++ [.rbracket, .rparen]))) cs :=
      Lexes.cons trivial (hb.append hopen)
    simpa [Expr.tokens] using hall

theorem lexes_items (floats : Floats) :
    ∀ (es : List Expr) (cs : List Char), AllPrintable es → Ends cs →
      Lexes floats (itemTokens es) cs
  | [], _, _, _ => Lexes.nil
  | [e], cs, he, hcs => lexes_expr floats e cs he.1 hcs
  | e :: e' :: es, cs, he, hcs => by
    have hrest := lexes_items floats (e' :: es) cs he.2 hcs
    have hcomma : Lexes floats (.comma :: itemTokens (e' :: es)) cs :=
      Lexes.cons trivial hrest
    have hfirst := lexes_expr floats e (textOf (.comma :: itemTokens (e' :: es)) ++ cs) he.1
      (ends_text (by simp))
    exact hfirst.append hcomma

end

theorem lex_text (floats : Floats) {e : Expr} (he : e.Printable) :
    lex floats e.text = .ok (e.tokens ++ [.eof]) := by
  have hends : Ends [] := by
    intro c rest h
    cases h
  have hlex := lexes_expr floats e [] he hends
  unfold Lexes at hlex
  rw [List.append_nil, lex] at hlex
  exact hlex

end Expressions

end Ruju.Frontend
