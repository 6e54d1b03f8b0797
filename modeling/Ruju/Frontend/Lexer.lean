import Ruju.Frontend.Syntax
import Ruju.Library.Text

/-!
# The lexer

`lex` of `frontend.rs`.  The source is a list of characters.  The code walks over the UTF-8
bytes; all the bytes it looks for are ASCII characters, or all bytes of one character
(`÷`, `⊻`), so the two agree on text.  Only the message about an unexpected character
shows the difference: it has the first byte of the character.

How a decimal text becomes a float, and how a float is shown in a message, is left open
(`Floats`).
-/

namespace Ruju.Frontend

/-- `Tok` -/
inductive Tok
  | int (n : Int)
  | float (bits : UInt64)
  | ident (name : String)
  | plus | minus | star | slash
  /-- `÷` -/
  | idiv
  | percent | amp | pipe
  /-- `⊻` -/
  | veebar
  | shl | shr | ushr
  | lt | le | gt | ge | eqEq | eqEqEq | assign
  | lparen | rparen | lbracket | rbracket
  | dot | comma | colonColon
  /-- A line break or `;`. -/
  | sep
  | kIf | kStruct | kMutable | kElse | kElseif | kEnd | kWhile | kTry | kCatch | kFinally
  | eof
deriving DecidableEq, Repr

/-- Conversions between floats and text. -/
structure Floats where
  /-- `str::parse` of digits with a point between them. -/
  parse : List Char → UInt64
  /-- `{:?}` -/
  debug : UInt64 → String

/-- `{:?}` of a token.  The names the lexer makes have no characters that are escaped. -/
def Tok.debug (floats : Floats) : Tok → String
  | int n => "Int(" ++ toString n ++ ")"
  | float bits => "Float(" ++ floats.debug bits ++ ")"
  | ident name => "Ident(\"" ++ name ++ "\")"
  | plus => "Plus"
  | minus => "Minus"
  | star => "Star"
  | slash => "Slash"
  | idiv => "IDiv"
  | percent => "Percent"
  | amp => "Amp"
  | pipe => "Pipe"
  | veebar => "Veebar"
  | shl => "Shl"
  | shr => "Shr"
  | ushr => "Ushr"
  | lt => "Lt"
  | le => "Le"
  | gt => "Gt"
  | ge => "Ge"
  | eqEq => "EqEq"
  | eqEqEq => "EqEqEq"
  | assign => "Assign"
  | lparen => "LParen"
  | rparen => "RParen"
  | lbracket => "LBracket"
  | rbracket => "RBracket"
  | dot => "Dot"
  | comma => "Comma"
  | colonColon => "ColonColon"
  | sep => "Sep"
  | kIf => "If"
  | kStruct => "Struct"
  | kMutable => "Mutable"
  | kElse => "Else"
  | kElseif => "Elseif"
  | kEnd => "End"
  | kWhile => "While"
  | kTry => "Try"
  | kCatch => "Catch"
  | kFinally => "Finally"
  | eof => "Eof"

/-! ### Characters -/

/-- `c.is_ascii_alphabetic() || c == b'_'` -/
def isWordStart (c : Char) : Bool := c.isAlpha || c == '_'

/-- `b[i].is_ascii_alphanumeric() || b[i] == b'_'` -/
def isWordChar (c : Char) : Bool := c.isAlphanum || c == '_'

/-- The first UTF-8 byte of a character, as a character. -/
def leadByte (c : Char) : Char :=
  let n := c.toNat
  if n < 0x80 then c
  else if n < 0x800 then Char.ofNat (0xC0 + n / 2 ^ 6)
  else if n < 0x10000 then Char.ofNat (0xE0 + n / 2 ^ 12)
  else Char.ofNat (0xF0 + n / 2 ^ 18)

/-- The tokens of one character that need no look at the next one. -/
def single : Char → Option Tok
  | '\n' => some .sep
  | ';' => some .sep
  | '+' => some .plus
  | '-' => some .minus
  | '*' => some .star
  | '/' => some .slash
  | '%' => some .percent
  | '&' => some .amp
  | '|' => some .pipe
  | '÷' => some .idiv
  | '⊻' => some .veebar
  | '(' => some .lparen
  | '.' => some .dot
  | ',' => some .comma
  | ')' => some .rparen
  | '[' => some .lbracket
  | ']' => some .rbracket
  | _ => none

/-- The tokens that start with `<`, `>`, `=` or `::`: the longest one is taken. -/
def operator : Char → List Char → Option (Tok × List Char)
  | '<', '<' :: rest => some (.shl, rest)
  | '<', '=' :: rest => some (.le, rest)
  | '<', rest => some (.lt, rest)
  | '>', '>' :: '>' :: rest => some (.ushr, rest)
  | '>', '>' :: rest => some (.shr, rest)
  | '>', '=' :: rest => some (.ge, rest)
  | '>', rest => some (.gt, rest)
  | '=', '=' :: '=' :: rest => some (.eqEqEq, rest)
  | '=', '=' :: rest => some (.eqEq, rest)
  | '=', rest => some (.assign, rest)
  | ':', ':' :: rest => some (.colonColon, rest)
  | _, _ => none

/-- A word is a keyword or an identifier. -/
def keyword (w : List Char) : Tok :=
  if w = "if".toList then .kIf
  else if w = "else".toList then .kElse
  else if w = "elseif".toList then .kElseif
  else if w = "end".toList then .kEnd
  else if w = "while".toList then .kWhile
  else if w = "try".toList then .kTry
  else if w = "catch".toList then .kCatch
  else if w = "finally".toList then .kFinally
  else if w = "struct".toList then .kStruct
  else if w = "mutable".toList then .kMutable
  else .ident (String.ofList w)

/-- A word: letters and digits, then exclamation marks. -/
def lexWord (cs : List Char) : Tok × List Char :=
  let w := cs.takeWhile isWordChar
  let rest := cs.dropWhile isWordChar
  (keyword (w ++ rest.takeWhile (· == '!')), rest.dropWhile (· == '!'))

/-- An integer that does not fit is an error. -/
def lexInt (digits rest : List Char) : Except String (Tok × List Char) :=
  match Text.readUnsigned 10 (2 ^ 63) digits with
  | some n => .ok (.int n, rest)
  | none => .error "invalid integer"

/-- A number; a point followed by a digit makes it a float. -/
def lexNumber (floats : Floats) (cs : List Char) : Except String (Tok × List Char) :=
  let digits := cs.takeWhile Char.isDigit
  match cs.dropWhile Char.isDigit with
  | '.' :: d :: rest =>
    if d.isDigit then
      let fraction := (d :: rest).takeWhile Char.isDigit
      .ok (.float (floats.parse (digits ++ '.' :: fraction)), (d :: rest).dropWhile Char.isDigit)
    else lexInt digits ('.' :: d :: rest)
  | rest => lexInt digits rest

/-- One round of the loop: a token or a gap, and the rest of the source. -/
def lexStep (floats : Floats) (c : Char) (rest : List Char) :
    Except String (Option Tok × List Char) :=
  if c = ' ' ∨ c = '\t' ∨ c = '\r' then .ok (none, rest)
  else if c = '#' then .ok (none, rest.dropWhile (· ≠ '\n'))
  else
    match single c, operator c rest with
    | some t, _ => .ok (some t, rest)
    | none, some (t, rest) => .ok (some t, rest)
    | none, none =>
      if c.isDigit then (lexNumber floats (c :: rest)).map fun r => (some r.1, r.2)
      else if isWordStart c then .ok ((some (lexWord (c :: rest)).1), (lexWord (c :: rest)).2)
      else .error ("unexpected character '" ++ String.singleton (leadByte c) ++ "'")

/-! ### Every round consumes something -/

theorem length_dropWhile_cons_lt {p : Char → Bool} {c : Char} (hc : p c = true)
    (rest : List Char) : ((c :: rest).dropWhile p).length < (c :: rest).length := by
  rw [List.dropWhile_cons_of_pos hc, List.length_cons]
  exact Nat.lt_succ_of_le (List.dropWhile_suffix p).length_le

theorem operator_length {c : Char} {cs rest : List Char} {t : Tok}
    (h : operator c cs = some (t, rest)) : rest.length < (c :: cs).length := by
  unfold operator at h
  split at h <;> cases h <;> simp only [List.length_cons] <;> omega

theorem lexNumber_length {floats : Floats} {c : Char} {cs rest : List Char} {t : Tok}
    (hc : c.isDigit = true) (h : lexNumber floats (c :: cs) = .ok (t, rest)) :
    rest.length < (c :: cs).length := by
  have hlt := length_dropWhile_cons_lt hc cs
  have hint : ∀ digits rest', lexInt digits rest' = .ok (t, rest) → rest = rest' := by
    intro digits rest' hok
    unfold lexInt at hok
    split at hok
    · cases hok
      rfl
    · cases hok
  unfold lexNumber at h
  dsimp only at h
  split at h
  case h_1 d tail heq =>
    rw [heq] at hlt
    split at h
    · cases h
      have hle := (List.dropWhile_suffix (l := d :: tail) Char.isDigit).length_le
      simp only [List.length_cons] at hlt hle ⊢
      omega
    · rw [hint _ _ h]
      exact hlt
  case h_2 =>
    rw [hint _ _ h]
    exact hlt

theorem lexStep_length {floats : Floats} {c : Char} {cs rest : List Char} {t : Option Tok}
    (h : lexStep floats c cs = .ok (t, rest)) : rest.length < (c :: cs).length := by
  unfold lexStep at h
  split at h
  · cases h
    exact Nat.lt_succ_self _
  split at h
  · cases h
    exact Nat.lt_succ_of_le (List.dropWhile_suffix _).length_le
  split at h
  · cases h
    exact Nat.lt_succ_self _
  case h_2 t' rest' _ hop =>
    cases h
    exact operator_length hop
  case h_3 =>
    split at h
    case isTrue hdigit =>
      cases hnum : lexNumber floats (c :: cs) with
      | error e =>
        rw [hnum] at h
        cases h
      | ok r =>
        rw [hnum] at h
        cases h
        exact lexNumber_length hdigit hnum
    split at h
    case isTrue hword =>
      cases h
      have hc : isWordChar c = true := by
        unfold isWordStart at hword
        unfold isWordChar Char.isAlphanum
        rcases Bool.or_eq_true_iff.mp hword with h | h <;> simp [h]
      have hlt := length_dropWhile_cons_lt hc cs
      refine lt_of_le_of_lt (List.dropWhile_suffix _).length_le hlt
    · cases h

/-- `lex` -/
def lex (floats : Floats) : List Char → Except String (List Tok)
  | [] => .ok [.eof]
  | c :: cs =>
    match h : lexStep floats c cs with
    | .error e => .error e
    | .ok (t, rest) => (lex floats rest).map fun ts => t.toList ++ ts
termination_by cs => cs.length
decreasing_by exact lexStep_length h

end Ruju.Frontend
