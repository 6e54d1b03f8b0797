import Ruju.Frontend.Parser

/-!
# The parser comes to an end

On tokens with one `eof`, at the end, the parser ends with a program or with an error of its
own: it does not read behind the end, and it does not run forever.

`Outcome k ts r` is what a run `r` from `ts` may be: an error, or a result after at least
`k` tokens were consumed, with `eof` still ahead.  Since all loops and all recursive calls
consume tokens, the fuel that is needed is bounded by the number of tokens.  Going back after
an attempt at an index assignment is harmless: the second attempt starts where the
first one did, and is made once.
-/

namespace Ruju.Frontend

/-- The only `eof` is the last token. -/
def Terminated (ts : List Tok) : Prop := ∃ front, ts = front ++ [.eof] ∧ .eof ∉ front

theorem Terminated.cases {ts : List Tok} (h : Terminated ts) :
    ∃ t rest, ts = t :: rest ∧ (t ≠ .eof → Terminated rest) := by
  obtain ⟨front, rfl, hnot⟩ := h
  cases front with
  | nil => exact ⟨.eof, [], rfl, fun h => absurd rfl h⟩
  | cons t front =>
    exact ⟨t, front ++ [.eof], rfl, fun _ => ⟨front, rfl, fun hmem => hnot
      (List.mem_cons_of_mem t hmem)⟩⟩

/-- What a run may be. -/
def Outcome {α : Type} (k : Nat) (ts : List Tok) : Except Fail (α × List Tok) → Prop
  | .ok (_, rest) => Terminated rest ∧ rest.length + k ≤ ts.length
  | .error (.err _) => True
  | .error _ => False

/-- The parser is safe on at most `n` tokens, and consumes `k` of them. -/
def Safe {α : Type} (k n : Nat) (p : Parser α) : Prop :=
  ∀ ts, Terminated ts → ts.length ≤ n → Outcome k ts (p ts)

section Rules

variable {α β : Type} {k j n : Nat} {t : Tok} {ts rest : List Tok}

/-- A run that is allowed has a result or a message. -/
theorem Outcome.cases {r : Except Fail (α × List Tok)} (h : Outcome k ts r) :
    (∃ a rest, r = .ok (a, rest)) ∨ ∃ msg, r = .error (.err msg) := by
  cases r with
  | ok r => exact Or.inl ⟨r.1, r.2, rfl⟩
  | error e =>
    cases e with
    | err msg => exact Or.inr ⟨msg, rfl⟩
    | panic => exact h.elim
    | fuel => exact h.elim

theorem outcome_fail (msg : String) : Outcome k ts ((fail msg : Parser α) rest) := trivial

theorem outcome_pure (a : α) (h : Terminated rest) (hle : rest.length + k ≤ ts.length) :
    Outcome k ts ((pure a : Parser α) rest) := ⟨h, hle⟩

theorem Outcome.weaken {r : Except Fail (α × List Tok)} (h : Outcome j rest r)
    (hle : rest.length + k ≤ ts.length + j) : Outcome k ts r := by
  cases r with
  | ok r =>
    obtain ⟨hterm, hlen⟩ := h
    exact ⟨hterm, by omega⟩
  | error e =>
    cases e with
    | err msg => exact trivial
    | panic => exact h
    | fuel => exact h

/-- A sequence of two computations. -/
theorem Outcome.bind {p : Parser α} {f : α → Parser β} (hp : Outcome j rest (p rest))
    (hf : ∀ a rest', Terminated rest' → rest'.length + j ≤ rest.length →
      Outcome k ts (f a rest')) : Outcome k ts ((p >>= f) rest) := by
  show Outcome k ts (do
    let (a, s) ← p rest
    f a s)
  cases hr : p rest with
  | ok r =>
    rw [hr] at hp
    exact hf r.1 r.2 hp.1 hp.2
  | error e =>
    rw [hr] at hp
    cases e with
    | err msg => exact trivial
    | panic => exact hp
    | fuel => exact hp

/-- Safe steps compose, and what the first one has read is gone. -/
theorem Safe.bind {p : Parser α} {f : α → Parser β} (hp : Safe j n p)
    (hterm : Terminated rest) (hle : rest.length ≤ n)
    (hf : ∀ a rest', Terminated rest' → rest'.length + j ≤ rest.length →
      Outcome k ts (f a rest')) : Outcome k ts ((p >>= f) rest) :=
  Outcome.bind (hp rest hterm hle) hf

end Rules

variable {fuel : Nat} {expr : Parser Expr}

section Expressions

variable {floats : Floats} {n : Nat}

theorem safe_expect (floats : Floats) {t : Tok} (ht : t ≠ .eof) (n : Nat) :
    Safe 1 n (expect floats t) := by
  intro ts hts _
  obtain ⟨found, rest, rfl, hrest⟩ := hts.cases
  rw [expect, peek_bind]
  by_cases hfound : found = t
  · rw [if_pos hfound]
    exact ⟨hrest (hfound ▸ ht), le_rfl⟩
  · rw [if_neg hfound]
    exact outcome_fail _

theorem safe_levelLoop {op? : Tok → Option BinOp} (heof : op? .eof = none) {sub : Parser Expr}
    (hsub : Safe 1 n sub) {lhs : Expr} {ts : List Tok} (hts : Terminated ts)
    (hn : ts.length ≤ n) (hfuel : ts.length < fuel) :
    Outcome 0 ts (levelLoop op? sub fuel lhs ts) := by
  induction fuel generalizing lhs ts with
  | zero => omega
  | succ fuel ih =>
    obtain ⟨t, rest, rfl, hrest⟩ := hts.cases
    rw [levelLoop, peek_bind]
    cases hop : op? t with
    | none => exact outcome_pure lhs hts le_rfl
    | some op =>
      have ht : t ≠ .eof := by
        rintro rfl
        rw [heof] at hop
        cases hop
      rw [List.length_cons] at hn hfuel
      dsimp only
      rw [next_bind]
      refine hsub.bind (hrest ht) (by omega) fun rhs rest' hterm hlen => ?_
      refine (ih hterm (by omega) (by omega)).weaken ?_
      rw [List.length_cons]
      omega

theorem safe_level {op? : Tok → Option BinOp} (heof : op? .eof = none) {sub : Parser Expr}
    (hsub : Safe 1 n sub) (hfuel : n ≤ fuel) : Safe 1 n (level op? sub fuel) := by
  intro ts hts hn
  refine hsub.bind hts hn fun lhs rest hterm hlen => ?_
  exact (safe_levelLoop heof hsub hterm (by omega) (by omega)).weaken (by omega)

theorem safe_parseCmp {atom : Parser Expr} (hatom : Safe 1 n atom)
    (hfuel : n ≤ fuel) : Safe 1 n (parseCmp atom fuel) := by
  have hshift : Safe 1 n (parseShift atom fuel) := safe_level rfl hatom hfuel
  have hmul : Safe 1 n (parseMul atom fuel) := safe_level rfl hshift hfuel
  have hadd : Safe 1 n (parseAdd atom fuel) := safe_level rfl hmul hfuel
  exact safe_level rfl hadd hfuel

theorem safe_parseItems {close : Tok} (hclose : close ≠ .eof) {text : String}
    (hexpr : Safe 1 n expr) {items : List Expr}
    {ts : List Tok} (hts : Terminated ts) (hn : ts.length ≤ n) (hfuel : ts.length < fuel) :
    Outcome 1 ts (parseItems floats close text expr fuel items ts) := by
  induction fuel generalizing items ts with
  | zero => omega
  | succ fuel ih =>
    rw [parseItems]
    refine hexpr.bind hts hn fun item rest hterm hlen => ?_
    obtain ⟨t, rest, rfl, hrest⟩ := hterm.cases
    rw [List.length_cons] at hlen
    rw [next_bind]
    by_cases hcomma : t = .comma
    · rw [if_pos hcomma]
      have ht : t ≠ .eof := by
        rw [hcomma]
        exact Tok.noConfusion
      exact (ih (hrest ht) (by omega) (by omega)).weaken (by omega)
    · rw [if_neg hcomma]
      by_cases hend : t = close
      · rw [if_pos hend]
        exact outcome_pure _ (hrest (hend ▸ hclose)) (by omega)
      · rw [if_neg hend]
        exact outcome_fail _

theorem safe_parseList {close : Tok} (hclose : close ≠ .eof) {text : String} (hexpr : Safe 1 n expr)
    (hfuel : n < fuel) :
    Safe 1 n (parseList floats close text expr fuel) := by
  intro ts hts hn
  obtain ⟨t, rest, rfl, hrest⟩ := hts.cases
  rw [parseList, peek_bind]
  by_cases hend : t = close
  · rw [if_pos hend, next_bind]
    exact outcome_pure _ (hrest (hend ▸ hclose)) le_rfl
  · rw [if_neg hend]
    exact safe_parseItems hclose hexpr hts hn (by omega)

/-- A primary may call `parse_expr` and `parse_atom` on what is behind its first token. -/
theorem safe_parsePrimary {atom : Parser Expr} (hexpr : Safe 1 n expr)
    (hatom : Safe 1 n atom) (hfuel : n < fuel) :
    Safe 1 (n + 1) (parsePrimary floats expr atom fuel) := by
  intro ts hts hn
  obtain ⟨t, rest, rfl, hrest⟩ := hts.cases
  rw [List.length_cons] at hn
  rw [parsePrimary, next_bind]
  cases t with
  | int m => exact outcome_pure _ (hrest Tok.noConfusion) le_rfl
  | float bits => exact outcome_pure _ (hrest Tok.noConfusion) le_rfl
  | ident s =>
    have hterm := hrest Tok.noConfusion
    obtain ⟨u, rest', rfl, hrest'⟩ := hterm.cases
    dsimp only
    rw [peek_bind]
    by_cases hparen : u = .lparen
    · rw [if_pos hparen, next_bind]
      have hu : u ≠ .eof := by
        rw [hparen]
        exact Tok.noConfusion
      rw [List.length_cons] at hn
      refine (safe_parseList Tok.noConfusion hexpr hfuel).bind (hrest' hu) (by omega)
        fun args rest'' hterm' hlen => ?_
      refine outcome_pure _ hterm' ?_
      simp only [List.length_cons]
      omega
    · rw [if_neg hparen]
      exact outcome_pure _ hterm le_rfl
  | lparen =>
    refine hexpr.bind (hrest Tok.noConfusion) (by omega) fun e rest' hterm hlen => ?_
    refine (safe_expect floats Tok.noConfusion n).bind hterm (by omega)
      fun _ rest'' hterm' hlen' => ?_
    refine outcome_pure _ hterm' ?_
    rw [List.length_cons]
    omega
  | lbracket =>
    refine (safe_parseList Tok.noConfusion hexpr hfuel).bind (hrest Tok.noConfusion) (by omega)
      fun elems rest' hterm hlen => ?_
    refine outcome_pure _ hterm ?_
    rw [List.length_cons]
    omega
  | minus =>
    refine hatom.bind (hrest Tok.noConfusion) (by omega) fun e rest' hterm hlen => ?_
    refine outcome_pure _ hterm ?_
    rw [List.length_cons]
    omega
  | _ => exact outcome_fail _

theorem safe_postfixLoop (hexpr : Safe 1 n expr) {e : Expr}
    {ts : List Tok} (hts : Terminated ts) (hn : ts.length ≤ n + 1) (hfuel : ts.length < fuel) :
    Outcome 0 ts (postfixLoop floats expr fuel e ts) := by
  induction fuel generalizing e ts with
  | zero => omega
  | succ fuel ih =>
    obtain ⟨t, rest, rfl, hrest⟩ := hts.cases
    rw [List.length_cons] at hn hfuel
    rw [postfixLoop, peek_bind]
    split
    · rw [next_bind]
      have hterm := hrest Tok.noConfusion
      obtain ⟨u, rest', rfl, hrest'⟩ := hterm.cases
      rw [List.length_cons] at hn hfuel
      rw [next_bind]
      split
      · refine (ih (hrest' Tok.noConfusion) (by omega) (by omega)).weaken ?_
        simp only [List.length_cons]
        omega
      · exact outcome_fail _
    · rw [next_bind]
      refine hexpr.bind (hrest Tok.noConfusion) (by omega) fun idx rest' hterm hlen => ?_
      refine (safe_expect floats Tok.noConfusion n).bind hterm (by omega)
        fun _ rest'' hterm' hlen' => ?_
      refine (ih hterm' (by omega) (by omega)).weaken ?_
      rw [List.length_cons]
      omega
    · exact outcome_pure e hts le_rfl

/-- Expressions and atoms: induction on the number of tokens. -/
theorem safe_parseExpr_parseAtom (floats : Floats) (n : Nat) :
    (∀ fuel, 2 * n + 1 ≤ fuel → Safe 1 n (parseAtom floats fuel)) ∧
      ∀ fuel, 2 * n + 2 ≤ fuel → Safe 1 n (parseExpr floats fuel) := by
  induction n with
  | zero =>
    have hempty : ∀ {α : Type} (p : Parser α), Safe 1 0 p := by
      intro α p ts hts hn
      obtain ⟨t, rest, rfl, -⟩ := hts.cases
      rw [List.length_cons] at hn
      omega
    exact ⟨fun _ _ => hempty _, fun _ _ => hempty _⟩
  | succ n ih =>
    obtain ⟨ihatom, ihexpr⟩ := ih
    have hatom : ∀ fuel, 2 * (n + 1) + 1 ≤ fuel → Safe 1 (n + 1) (parseAtom floats fuel) := by
      intro fuel hfuel
      obtain ⟨fuel, rfl⟩ : ∃ k, fuel = k + 1 := ⟨fuel - 1, by omega⟩
      have hexpr := ihexpr fuel (by omega)
      rw [parseAtom]
      intro ts hts hn
      refine (safe_parsePrimary hexpr (ihatom fuel (by omega)) (by omega)).bind hts hn
        fun e rest hterm hlen => ?_
      have hloop : Outcome 0 rest (postfixLoop floats (parseExpr floats fuel) fuel e rest) :=
        safe_postfixLoop hexpr hterm (by omega) (by omega)
      exact hloop.weaken (by omega)
    refine ⟨hatom, fun fuel hfuel => ?_⟩
    obtain ⟨fuel, rfl⟩ : ∃ k, fuel = k + 1 := ⟨fuel - 1, by omega⟩
    rw [parseExpr]
    exact safe_parseCmp (hatom fuel (by omega)) (by omega)

/-- An expression takes at least one token, and none past the end. -/
theorem safe_parseExpr (floats : Floats) {n : Nat} (hfuel : 2 * n + 2 ≤ fuel) :
    Safe 1 n (parseExpr floats fuel) :=
  (safe_parseExpr_parseAtom floats n).2 fuel hfuel

end Expressions

/-! ### Statements -/

section Statements

variable {floats : Floats} {n : Nat}

theorem safe_skipSeps {ts : List Tok} (hts : Terminated ts)
    (hfuel : ts.length < fuel) : Outcome 0 ts (skipSeps fuel ts) := by
  induction fuel generalizing ts with
  | zero => omega
  | succ fuel ih =>
    obtain ⟨t, rest, rfl, hrest⟩ := hts.cases
    rw [List.length_cons] at hfuel
    rw [skipSeps, peek_bind]
    by_cases hsep : t = .sep
    · have ht : t ≠ .eof := by
        rw [hsep]
        exact Tok.noConfusion
      rw [if_pos hsep, next_bind]
      refine (ih (hrest ht) (by omega)).weaken ?_
      rw [List.length_cons]
      omega
    · rw [if_neg hsep]
      exact outcome_pure _ hts le_rfl

theorem safe_parseFields {fields : List (String × Option String)} {ts : List Tok}
    (hts : Terminated ts) (hfuel : ts.length + 1 < fuel) :
    Outcome 0 ts (parseFields floats fuel fields ts) := by
  induction fuel generalizing fields ts with
  | zero => omega
  | succ fuel ih =>
    rw [parseFields]
    refine Outcome.bind (safe_skipSeps hts (by omega)) fun _ rest hterm hlen => ?_
    obtain ⟨t, rest, rfl, hrest⟩ := hterm.cases
    rw [List.length_cons] at hlen
    rw [peek_bind]
    split
    · rw [next_bind]
      exact outcome_pure _ (hrest Tok.noConfusion) (by omega)
    · rw [next_bind]
      have hterm' := hrest Tok.noConfusion
      obtain ⟨u, rest', rfl, hrest'⟩ := hterm'.cases
      rw [List.length_cons] at hlen
      rw [peek_bind]
      by_cases hcolon : u = .colonColon
      · have hu : u ≠ .eof := by
          rw [hcolon]
          exact Tok.noConfusion
        rw [if_pos hcolon, next_bind]
        have hterm'' := hrest' hu
        obtain ⟨w, rest'', rfl, hrest''⟩ := hterm''.cases
        rw [List.length_cons] at hlen
        rw [next_bind]
        split
        · exact (ih (hrest'' Tok.noConfusion) (by omega)).weaken (by omega)
        · exact outcome_fail _
      · rw [if_neg hcolon]
        refine Outcome.weaken (ih hterm' ?_) ?_
        · rw [List.length_cons]
          omega
        · rw [List.length_cons]
          omega
    · exact outcome_fail _

theorem safe_parseStruct {mutabl : Bool} (hfuel : n + 1 < fuel) :
    Safe 1 n (parseStruct floats mutabl fuel) := by
  intro ts hts hn
  obtain ⟨t, rest, rfl, hrest⟩ := hts.cases
  rw [List.length_cons] at hn
  rw [parseStruct, next_bind]
  split
  · refine Outcome.bind (safe_parseFields (hrest Tok.noConfusion) (by omega))
      fun fields rest' hterm hlen => ?_
    refine outcome_pure _ hterm ?_
    rw [List.length_cons]
    omega
  · exact outcome_fail _

variable {stmt : Parser SrcStmt}

theorem safe_blockLoop (hstmt : Safe 1 n stmt)
    {out : List SrcStmt} {ts : List Tok} (hts : Terminated ts) (hn : ts.length ≤ n)
    (hfuel : ts.length + 1 < fuel) : Outcome 0 ts (blockLoop stmt fuel out ts) := by
  induction fuel generalizing out ts with
  | zero => omega
  | succ fuel ih =>
    rw [blockLoop]
    refine Outcome.bind (safe_skipSeps hts (by omega)) fun _ rest hterm hlen => ?_
    obtain ⟨t, rest, rfl, hrest⟩ := hterm.cases
    rw [peek_bind]
    cases hends : endsBlock t with
    | true => exact outcome_pure _ hterm (by omega)
    | false =>
      refine hstmt.bind hterm (by omega) fun s rest' hterm' hlen' => ?_
      exact (ih hterm' (by omega) (by omega)).weaken (by omega)

/-- A block of safe statements is safe. -/
theorem safe_parseBlock (hstmt : Safe 1 n stmt)
    (hfuel : n + 1 < fuel) : Safe 0 n (parseBlock stmt fuel) :=
  fun _ hts hn => safe_blockLoop hstmt hts hn (by omega)

variable {walk : Nat}

theorem safe_parseIf (hstmt : Safe 1 n stmt)
    (hexpr : Safe 1 n expr) (hwalk : n + 1 < walk) {ts : List Tok}
    (hts : Terminated ts) (hn : ts.length ≤ n) (hfuel : ts.length < fuel) :
    Outcome 1 ts (parseIf floats stmt expr walk fuel ts) := by
  induction fuel generalizing ts with
  | zero => omega
  | succ fuel ih =>
    have hblock := safe_parseBlock hstmt hwalk
    rw [parseIf]
    refine hexpr.bind hts hn fun cond rest hterm hlen => ?_
    refine hblock.bind hterm (by omega) fun then_ rest' hterm' hlen' => ?_
    obtain ⟨t, rest', rfl, hrest⟩ := hterm'.cases
    rw [List.length_cons] at hlen'
    rw [peek_bind]
    split
    · rw [next_bind]
      exact outcome_pure _ (hrest Tok.noConfusion) (by omega)
    · rw [next_bind]
      refine hblock.bind (hrest Tok.noConfusion) (by omega) fun e rest'' hterm'' hlen'' => ?_
      refine (safe_expect floats Tok.noConfusion n).bind hterm'' (by omega)
        fun _ rest₃ hterm₃ hlen₃ => ?_
      exact outcome_pure _ hterm₃ (by omega)
    · rw [next_bind]
      refine Outcome.bind (ih (hrest Tok.noConfusion) (by omega) (by omega))
        fun nested rest'' hterm'' hlen'' => ?_
      exact outcome_pure _ hterm'' (by omega)
    · exact outcome_fail _

theorem safe_parseCleanup (hstmt : Safe 1 n stmt)
    (hwalk : n + 1 < walk) {rest : List Tok} (hterm : Terminated rest)
    (hle : rest.length ≤ n) : Outcome 1 (.kFinally :: rest)
      (parseCleanup floats stmt walk (.kFinally :: rest)) := by
  rw [parseCleanup, next_bind]
  refine (safe_parseBlock hstmt hwalk).bind hterm hle fun cleanup rest' hterm' hlen => ?_
  refine (safe_expect floats Tok.noConfusion n).bind hterm' (by omega)
    fun _ rest'' hterm'' hlen' => ?_
  refine outcome_pure _ hterm'' ?_
  rw [List.length_cons]
  omega

theorem safe_catchName (n : Nat) : Safe 0 n catchName := by
  intro ts hts _
  obtain ⟨t, rest, rfl, hrest⟩ := hts.cases
  rw [catchName, peek_bind]
  split
  · rw [next_bind]
    exact outcome_pure _ (hrest Tok.noConfusion) (Nat.le_succ _)
  · exact outcome_pure _ hts le_rfl

theorem safe_parseTry (hstmt : Safe 1 n stmt)
    (hwalk : n + 1 < walk) : Safe 1 n (parseTry floats stmt walk) := by
  have hblock := safe_parseBlock hstmt hwalk
  -- the end of both forms: a cleanup, or something else
  have hfinally : ∀ {ts rest : List Tok} {t : Tok} (a : List SrcStmt → SrcStmt), t = .kFinally →
      Terminated rest → rest.length + 1 ≤ ts.length → rest.length ≤ n →
      Outcome 1 ts ((parseCleanup floats stmt walk >>= fun cleanup => pure (a cleanup) :
        Parser SrcStmt) (t :: rest)) := by
    rintro ts rest t a rfl hterm hlen hn
    refine Outcome.bind (safe_parseCleanup hstmt hwalk hterm hn)
      fun cleanup rest' hterm' hlen' => ?_
    rw [List.length_cons] at hlen'
    exact outcome_pure _ hterm' (by omega)
  intro ts hts hn
  rw [parseTry]
  refine hblock.bind hts hn fun body rest hterm hlen => ?_
  obtain ⟨t, rest', rfl, hrest⟩ := hterm.cases
  rw [List.length_cons] at hlen
  rw [peek_bind]
  by_cases hfin : t = .kFinally
  · have ht : t ≠ .eof := by
      rw [hfin]
      exact Tok.noConfusion
    rw [if_pos hfin]
    exact hfinally _ hfin (hrest ht) (by omega) (by omega)
  · rw [if_neg hfin]
    refine (safe_expect floats Tok.noConfusion n).bind hterm (by
      rw [List.length_cons]
      omega) fun _ rest₁ hterm₁ hlen₁ => ?_
    rw [List.length_cons] at hlen₁
    refine (safe_catchName n).bind hterm₁ (by omega) fun var rest₂ hterm₂ hlen₂ => ?_
    refine hblock.bind hterm₂ (by omega) fun handler rest₃ hterm₃ hlen₃ => ?_
    obtain ⟨u, rest₃, rfl, hrest₃⟩ := hterm₃.cases
    rw [List.length_cons] at hlen₃
    rw [peek_bind]
    by_cases hfin' : u = .kFinally
    · have hu : u ≠ .eof := by
        rw [hfin']
        exact Tok.noConfusion
      rw [if_pos hfin']
      exact hfinally _ hfin' (hrest₃ hu) (by omega) (by omega)
    · rw [if_neg hfin']
      refine (safe_expect floats Tok.noConfusion n).bind hterm₃ (by
        rw [List.length_cons]
        omega) fun _ rest₄ hterm₄ hlen₄ => ?_
      rw [List.length_cons] at hlen₄
      exact outcome_pure _ hterm₄ (by omega)

theorem safe_exprStmt (hexpr : Safe 1 n expr) : Safe 1 n (exprStmt expr) := by
  intro ts hts hn
  refine hexpr.bind hts hn fun e rest hterm hlen => ?_
  exact outcome_pure _ hterm (by omega)

theorem Terminated.tail {t : Tok} {rest : List Tok} (h : Terminated (t :: rest))
    (ht : t ≠ .eof) : Terminated rest := by
  obtain ⟨_, _, heq, hrest⟩ := h.cases
  obtain ⟨rfl, rfl⟩ := List.cons.inj heq
  exact hrest ht

/-- The attempt at an index assignment: whatever follows the index, nothing is lost. -/
theorem safe_indexStmt (hexpr : Safe 1 n expr) {name : String}
    {rest : List Tok} (hts : Terminated (.ident name :: .lbracket :: rest))
    (hn : (Tok.ident name :: .lbracket :: rest).length ≤ n) :
    Outcome 1 (.ident name :: .lbracket :: rest)
      (indexStmt expr name (.ident name :: .lbracket :: rest)) := by
  have hrest : Terminated rest := (hts.tail Tok.noConfusion).tail Tok.noConfusion
  have hlength : (Tok.ident name :: .lbracket :: rest).length = rest.length + 2 := rfl
  rw [indexStmt, get_bind, next_bind, next_bind]
  refine hexpr.bind hrest (by omega) fun idx rest₁ hterm₁ hlen₁ => ?_
  obtain ⟨u, rest₁, rfl, hrest₁⟩ := hterm₁.cases
  rw [List.length_cons] at hlen₁
  rw [peek_bind, ahead_bind]
  by_cases hassign : u = .rbracket ∧ (u :: rest₁)[1]? = some .assign
  · obtain ⟨rfl, hget⟩ := hassign
    rw [if_pos ⟨rfl, hget⟩, next_bind]
    obtain ⟨w, rest₂, rfl, hrest₂⟩ := (hrest₁ Tok.noConfusion).cases
    obtain rfl : w = .assign := Option.some.inj hget
    rw [List.length_cons] at hlen₁
    rw [next_bind]
    refine hexpr.bind (hrest₂ Tok.noConfusion) (by omega) fun e rest₃ hterm₃ hlen₃ => ?_
    exact outcome_pure _ hterm₃ (by omega)
  · rw [if_neg hassign]
    exact safe_exprStmt hexpr _ hts hn

theorem safe_identStmt (hexpr : Safe 1 n expr) {name : String}
    {rest : List Tok} (hts : Terminated (.ident name :: rest))
    (hn : (Tok.ident name :: rest).length ≤ n) :
    Outcome 1 (.ident name :: rest) (identStmt expr name (.ident name :: rest)) := by
  have hrest : Terminated rest := hts.tail Tok.noConfusion
  rw [List.length_cons] at hn
  rw [identStmt, ahead_bind, ahead_bind, ahead_bind]
  generalize h1 : (Tok.ident name :: rest)[1]? = o₁
  generalize h2 : (Tok.ident name :: rest)[2]? = o₂
  generalize h3 : (Tok.ident name :: rest)[3]? = o₃
  split
  case h_1 field =>
    -- the four tokens that were looked at
    obtain ⟨t₁, rest₁, rfl, hrest₁⟩ := hrest.cases
    obtain rfl : t₁ = .dot := Option.some.inj h1
    obtain ⟨t₂, rest₂, rfl, hrest₂⟩ := (hrest₁ Tok.noConfusion).cases
    obtain rfl : t₂ = .ident field := Option.some.inj h2
    obtain ⟨t₃, rest₃, rfl, hrest₃⟩ := (hrest₂ Tok.noConfusion).cases
    obtain rfl : t₃ = .assign := Option.some.inj h3
    simp only [List.length_cons] at hn
    rw [fieldStmt, next_bind, next_bind, next_bind, next_bind]
    refine hexpr.bind (hrest₃ Tok.noConfusion) (by omega) fun e rest₄ hterm hlen => ?_
    refine outcome_pure _ hterm ?_
    simp only [List.length_cons]
    omega
  case h_2 =>
    obtain ⟨t₁, rest₁, rfl, hrest₁⟩ := hrest.cases
    obtain rfl : t₁ = .assign := Option.some.inj h1
    simp only [List.length_cons] at hn
    rw [next_bind, next_bind]
    refine hexpr.bind (hrest₁ Tok.noConfusion) (by omega) fun e rest₂ hterm hlen => ?_
    refine outcome_pure _ hterm ?_
    simp only [List.length_cons]
    omega
  case h_3 =>
    obtain ⟨t₁, rest₁, rfl, hrest₁⟩ := hrest.cases
    obtain rfl : t₁ = .lbracket := Option.some.inj h1
    exact safe_indexStmt hexpr hts hn
  case h_4 => exact safe_exprStmt hexpr _ hts hn

/-- **Statements are safe**: induction on the number of tokens. -/
theorem safe_parseStmt (floats : Floats) (n : Nat) (hfuel : 2 * n + 3 ≤ fuel) :
    Safe 1 n (parseStmt floats fuel) := by
  induction n generalizing fuel with
  | zero =>
    intro ts hts hn
    obtain ⟨t, rest, rfl, -⟩ := hts.cases
    rw [List.length_cons] at hn
    omega
  | succ n ih =>
    obtain ⟨fuel, rfl⟩ : ∃ k, fuel = k + 1 := ⟨fuel - 1, by omega⟩
    have hexpr : Safe 1 (n + 1) (parseExpr floats fuel) := safe_parseExpr floats (by omega)
    have hexpr' : Safe 1 n (parseExpr floats fuel) := safe_parseExpr floats (by omega)
    have hstmt : Safe 1 n (parseStmt floats fuel) := ih (by omega)
    intro ts hts hn
    obtain ⟨t, rest, rfl, hrest⟩ := hts.cases
    have hlength : (t :: rest).length = rest.length + 1 := rfl
    rw [parseStmt, peek_bind]
    split
    · rw [next_bind]
      exact (safe_parseStruct (n := n) (by omega) rest (hrest Tok.noConfusion)
        (by omega)).weaken (by omega)
    · rw [next_bind]
      refine (safe_expect floats Tok.noConfusion n).bind (hrest Tok.noConfusion) (by omega)
        fun _ rest' hterm hlen => ?_
      exact (safe_parseStruct (n := n) (by omega) rest' hterm (by omega)).weaken (by omega)
    · rw [next_bind]
      refine hexpr'.bind (hrest Tok.noConfusion) (by omega) fun cond rest' hterm hlen => ?_
      refine (safe_parseBlock hstmt (by omega)).bind hterm (by omega)
        fun body rest'' hterm' hlen' => ?_
      refine (safe_expect floats Tok.noConfusion n).bind hterm' (by omega)
        fun _ rest₃ hterm₃ hlen₃ => ?_
      exact outcome_pure _ hterm₃ (by omega)
    · rw [next_bind]
      exact (safe_parseIf hstmt hexpr' (by omega) (hrest Tok.noConfusion) (by omega)
        (by omega)).weaken (by omega)
    · rw [next_bind]
      exact (safe_parseTry hstmt (by omega) rest (hrest Tok.noConfusion)
        (by omega)).weaken (by omega)
    · exact safe_identStmt hexpr hts hn
    · exact safe_exprStmt hexpr _ hts hn

theorem outcome_parseProgram (floats : Floats) (toks : List Tok) (h : Terminated toks)
    (hfuel : 2 * toks.length + 3 ≤ fuel) : Outcome 0 toks (parseProgram floats fuel toks) := by
  have hstmt : Safe 1 toks.length (parseStmt floats fuel) := safe_parseStmt floats _ hfuel
  rw [parseProgram]
  refine (safe_parseBlock hstmt (by omega)).bind h le_rfl fun block rest hterm hlen => ?_
  obtain ⟨t, rest, rfl, hrest⟩ := hterm.cases
  rw [peek_bind]
  by_cases ht : t = .eof
  · rw [if_pos ht]
    exact outcome_pure _ hterm hlen
  · rw [if_neg ht]
    exact outcome_fail _

/-- **The parser is safe.**  On tokens whose only `eof` is the last one, `parse_program` comes
to an end with a program or with an error: it never reads behind the end of the tokens. -/
theorem parseProgram_safe (floats : Floats) (toks : List Tok) (h : Terminated toks) :
    ∀ fuel, 2 * toks.length + 3 ≤ fuel →
      (∃ program rest, parseProgram floats fuel toks = .ok (program, rest)) ∨
        ∃ msg, parseProgram floats fuel toks = .error (.err msg) := by
  exact fun fuel hfuel => (outcome_parseProgram floats toks h hfuel).cases

/-- The tokens of `x[1].b`: the attempt at an index assignment is given up at the dot. -/
def indexThenField : List Tok :=
  [.ident "x", .lbracket, .int 1, .rbracket, .dot, .ident "b", .eof]

theorem parseProgram_safe_indexThenField :
    Terminated indexThenField ∧
      ((∃ program rest, parseProgram ⟨fun _ => 0, fun _ => ""⟩ 17 indexThenField =
          .ok (program, rest)) ∨
        ∃ msg, parseProgram ⟨fun _ => 0, fun _ => ""⟩ 17 indexThenField = .error (.err msg)) := by
  have hterm : Terminated indexThenField :=
    ⟨[.ident "x", .lbracket, .int 1, .rbracket, .dot, .ident "b"], rfl, by decide⟩
  exact ⟨hterm, parseProgram_safe _ indexThenField hterm 17 (by decide)⟩

end Statements

end Ruju.Frontend
