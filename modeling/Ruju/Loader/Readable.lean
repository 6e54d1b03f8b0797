import Ruju.Library.Keeps
import Ruju.Loader.Parse

/-!
# What the loader can return

A statement that `parse` returns comes from words: its symbols have no white space in
them, its numbers are machine integers, and the code of a method has as many statements
as a machine integer counts.  This is so for every text.
-/

namespace Ruju.Loader

open Interp Text

variable {V : Type} (K : Consts V)

/-- The operand can come from a word. -/
def OpReadable : Op V → Prop
  | .ssa i | .slot i => i < 2 ^ 32
  | .const v => ∀ s, v = K.sym s → noWhite s.toList = true
  | .global s => noWhite s.toList = true
  | _ => True

mutual

/-- The statement can come from a line, and those of a method from lines. -/
def StmtReadable : Stmt V → Prop
  | .value op | .return op | .popException op => OpReadable K op
  | .callValue args => ∀ a ∈ args, OpReadable K a
  | .assign slot op => slot < 2 ^ 32 ∧ OpReadable K op
  | .assignCall slot args => slot < 2 ^ 32 ∧ ∀ a ∈ args, OpReadable K a
  | .goto n | .enter n | .leave n | .assignCaught n => n < 2 ^ 32
  | .gotoIfNot cond target => OpReadable K cond ∧ target < 2 ^ 32
  | .methodFunc name => Solid name.toList
  | .methodDef f sig nslots code =>
    OpReadable K f ∧ OpReadable K sig ∧ nslots < 2 ^ 32 ∧ code.length < 2 ^ 32 ∧ CodeReadable code
  | _ => True

/-- All statements can. -/
def CodeReadable : List (Stmt V) → Prop
  | [] => True
  | s :: code => StmtReadable s ∧ CodeReadable code

end

/-- The body can come from lines. -/
structure BodyReadable (body : Body V) : Prop where
  nslots : body.nslots < 2 ^ 32
  length : body.code.length < 2 ^ 32
  code : CodeReadable K body.code

/-! ### Operands -/

theorem orErr_eq_ok {α : Type} {o : Option α} {lineNo : Nat} {msg : String} {a : α}
    (h : orErr o lineNo msg = .ok a) : o = some a := by
  cases o with
  | none => cases h
  | some b =>
    cases h
    rfl

theorem lt_of_parseUsize {cs : List Char} {lineNo : Nat} {msg : String} {n : Nat}
    (h : orErr (parseUsize cs) lineNo msg = .ok n) : n < 2 ^ 32 :=
  lt_of_readUnsigned (orErr_eq_ok h)

theorem noWhite_opRest {tok : List Char} (h : Solid tok) : noWhite (opRest tok) = true := by
  rw [noWhite_iff]
  intro c hc
  have hmem : c ∈ tok := (List.dropWhile_sublist _).mem (List.mem_of_mem_drop hc)
  exact noWhite_iff.mp h.noWhite c hmem

/-- The kind of an operand, by its parse. -/
theorem readable_op {tok : List Char} {lineNo : Nat} {o : Op V}
    (hparse : parseOp K tok lineNo = .ok o)
    (htok : Solid tok) : OpReadable K o := by
  have hrest := noWhite_opRest htok
  unfold parseOp at hparse
  split at hparse
  · obtain ⟨n, hn, rfl⟩ := map_eq_ok.mp hparse
    exact lt_of_parseUsize hn
  · obtain ⟨n, hn, rfl⟩ := map_eq_ok.mp hparse
    exact lt_of_parseUsize hn
  · obtain ⟨n, hn, rfl⟩ := map_eq_ok.mp hparse
    trivial
  · obtain ⟨n, hn, rfl⟩ := map_eq_ok.mp hparse
    trivial
  · cases hparse
    exact fun s hs => absurd hs.symm (K.sym_ne_bool s _)
  · cases hparse
    exact fun s hs => absurd hs.symm (K.sym_ne_nothing s)
  · cases hparse
    intro s hs
    rw [← K.sym_injective _ _ hs, String.toList_ofList]
    exact hrest
  · cases hparse
    rw [OpReadable, String.toList_ofList]
    exact hrest
  · cases hparse
    exact fun s hs => absurd hs.symm (K.sym_ne_main s)
  · cases hparse

theorem readable_ops {toks : List (List Char)} {lineNo : Nat} {ops : List (Op V)}
    (hparse : parseOps K lineNo toks = .ok ops) (htoks : ∀ t ∈ toks, Solid t) :
    ∀ o ∈ ops, OpReadable K o := by
  induction toks generalizing ops with
  | nil =>
    cases hparse
    exact fun o ho => absurd ho List.not_mem_nil
  | cons tok toks ih =>
    obtain ⟨op, hop, h⟩ := bind_eq_ok.mp hparse
    obtain ⟨ops', hops, h⟩ := bind_eq_ok.mp h
    cases h
    intro o ho
    rcases List.mem_cons.mp ho with rfl | ho
    · exact readable_op K hop (htoks tok List.mem_cons_self)
    · exact ih hops (fun t ht => htoks t (List.mem_cons_of_mem _ ht)) o ho

/-! ### Lines -/

section Args

variable {lineNo : Nat} {args : List (List Char)} {s : Stmt V} {msg : String}

/-- A line with one operand. -/
theorem readable_op_line {f : Op V → Stmt V}
    (h : (match args with
      | [a] => (parseOp K a lineNo).map f
      | _ => wrongCount lineNo) = .ok s)
    (hargs : ∀ a ∈ args, Solid a) : ∃ o, OpReadable K o ∧ s = f o := by
  split at h
  · obtain ⟨o, ho, rfl⟩ := map_eq_ok.mp h
    exact ⟨o, readable_op K ho (hargs _ List.mem_cons_self), rfl⟩
  · cases h

omit K in
/-- A line with one number. -/
theorem readable_number_line {f : Nat → Stmt V}
    (h : (match args with
      | [a] => (orErr (parseUsize a) lineNo msg).map f
      | _ => wrongCount lineNo) = .ok s) : ∃ n, n < 2 ^ 32 ∧ s = f n := by
  split at h
  · obtain ⟨n, hn, rfl⟩ := map_eq_ok.mp h
    exact ⟨n, lt_of_parseUsize hn, rfl⟩
  · cases h

end Args

/-- **A line is read as something printable.** -/
theorem readable_line {lineNo : Nat} {head : List Char} {args : List (List Char)} {s : Stmt V}
    (hparse : parseLine K lineNo head args = .ok s) (hargs : ∀ a ∈ args, Solid a) :
    StmtReadable K s := by
  unfold parseLine at hparse
  split at hparse
  · obtain ⟨o, ho, rfl⟩ := readable_op_line K hparse hargs
    rwa [StmtReadable]
  · obtain ⟨ops, hops, rfl⟩ := map_eq_ok.mp hparse
    rw [StmtReadable]
    exact readable_ops K hops hargs
  · split at hparse
    · obtain ⟨slot, hslot, h⟩ := bind_eq_ok.mp hparse
      obtain ⟨o, ho, h⟩ := bind_eq_ok.mp h
      cases h
      rw [StmtReadable]
      exact ⟨lt_of_parseUsize hslot, readable_op K ho (hargs _ (by simp))⟩
    · cases hparse
  · split at hparse
    · cases hparse
    · obtain ⟨slot, hslot, h⟩ := bind_eq_ok.mp hparse
      obtain ⟨ops, hops, h⟩ := bind_eq_ok.mp h
      cases h
      rw [StmtReadable]
      exact ⟨lt_of_parseUsize hslot, readable_ops K hops
        fun t ht => hargs t (List.mem_cons_of_mem _ ht)⟩
  · obtain ⟨n, hn, rfl⟩ := readable_number_line hparse
    rwa [StmtReadable]
  · split at hparse
    · obtain ⟨o, ho, h⟩ := bind_eq_ok.mp hparse
      obtain ⟨target, htarget, h⟩ := bind_eq_ok.mp h
      cases h
      rw [StmtReadable]
      exact ⟨readable_op K ho (hargs _ (by simp)), lt_of_parseUsize htarget⟩
    · cases hparse
  · obtain ⟨o, ho, rfl⟩ := readable_op_line K hparse hargs
    rwa [StmtReadable]
  · obtain ⟨n, hn, rfl⟩ := readable_number_line hparse
    rwa [StmtReadable]
  · obtain ⟨n, hn, rfl⟩ := readable_number_line hparse
    rwa [StmtReadable]
  · obtain ⟨o, ho, rfl⟩ := readable_op_line K hparse hargs
    rwa [StmtReadable]
  · cases hparse
    simp [StmtReadable]
  · obtain ⟨n, hn, rfl⟩ := readable_number_line hparse
    rwa [StmtReadable]
  · cases hparse
    simp [StmtReadable]
  · split at hparse
    · cases hparse
      rw [StmtReadable, String.toList_ofList]
      exact hargs _ List.mem_cons_self
    · cases hparse
  · cases hparse

theorem readable_methodHead {lineNo : Nat} {args : List (List Char)} {m : MethodHead V}
    (hparse : parseMethodHead K lineNo args = .ok m) (hargs : ∀ a ∈ args, Solid a) :
    OpReadable K m.f ∧ OpReadable K m.sig ∧ m.nslots < 2 ^ 32 ∧ m.nstmts < 2 ^ 32 := by
  unfold parseMethodHead at hparse
  split at hparse
  · obtain ⟨f, hf, h⟩ := bind_eq_ok.mp hparse
    obtain ⟨sig, hsig, h⟩ := bind_eq_ok.mp h
    obtain ⟨nslots, hnslots, h⟩ := bind_eq_ok.mp h
    obtain ⟨nstmts, hnstmts, h⟩ := bind_eq_ok.mp h
    cases h
    exact ⟨readable_op K hf (hargs _ (by simp)), readable_op K hsig (hargs _ (by simp)),
      lt_of_parseUsize hnslots, lt_of_parseUsize hnstmts⟩
  · cases hparse

/-! ### Levels -/

/-- **A level is read as something printable**, with as many statements as it was asked
for. -/
theorem readable_stmts {lines : List (List Char)} : ∀ {fuel pos n : Nat} {r : List (Stmt V) × Nat},
    parseStmts K lines fuel pos n = .ok r → CodeReadable K r.1 ∧ r.1.length = n := by
  intro fuel
  induction fuel with
  | zero =>
    intro pos n r h
    cases n with
    | zero =>
      cases h
      exact ⟨by rw [CodeReadable]; trivial, rfl⟩
    | succ n => cases h
  | succ fuel ih =>
    intro pos n r h
    cases n with
    | zero =>
      cases h
      exact ⟨by rw [CodeReadable]; trivial, rfl⟩
    | succ n =>
      rw [parseStmts] at h
      split at h
      · cases h
      · cases h
      · rename_i head args hline
        have hargs : ∀ a ∈ args, Solid a := by
          obtain ⟨line, -, hwords⟩ := Option.map_eq_some_iff.mp hline
          exact fun a ha => solid_of_mem_words (hwords ▸ List.mem_cons_of_mem _ ha)
        split at h
        · obtain ⟨m, hm, h⟩ := bind_eq_ok.mp h
          obtain ⟨inner, hinner, h⟩ := bind_eq_ok.mp h
          obtain ⟨rest, hrest, h⟩ := bind_eq_ok.mp h
          cases h
          obtain ⟨hf, hsig, hslots, hstmts⟩ := readable_methodHead K hm hargs
          obtain ⟨hcode, hlen⟩ := ih hinner
          obtain ⟨hcode', hlen'⟩ := ih hrest
          refine ⟨?_, by simp [hlen']⟩
          rw [CodeReadable, StmtReadable]
          exact ⟨⟨hf, hsig, hslots, hlen ▸ hstmts, hcode⟩, hcode'⟩
        · obtain ⟨s, hs, h⟩ := bind_eq_ok.mp h
          obtain ⟨rest, hrest, h⟩ := bind_eq_ok.mp h
          cases h
          obtain ⟨hcode, hlen⟩ := ih hrest
          refine ⟨?_, by simp [hlen]⟩
          rw [CodeReadable]
          exact ⟨readable_line K hs hargs, hcode⟩

theorem readable_thunkHead {lineNo : Nat} {toks : List (List Char)} {r : Nat × Nat}
    (h : parseThunkHead lineNo toks = .ok r) : r.1 < 2 ^ 32 ∧ r.2 < 2 ^ 32 := by
  unfold parseThunkHead at h
  split at h
  · split at h
    · obtain ⟨nslots, hnslots, h⟩ := bind_eq_ok.mp h
      obtain ⟨nstmts, hnstmts, h⟩ := bind_eq_ok.mp h
      cases h
      exact ⟨lt_of_parseUsize hnslots, lt_of_parseUsize hnstmts⟩
    · cases h
  · cases h

theorem readable_thunks {lines : List (List Char)} : ∀ {fuel pos : Nat} {bodies : List (Body V)},
    parseThunks K lines fuel pos = .ok bodies → ∀ b ∈ bodies, BodyReadable K b := by
  intro fuel
  induction fuel with
  | zero =>
    intro pos bodies h
    cases h
    exact fun b hb => absurd hb List.not_mem_nil
  | succ fuel ih =>
    intro pos bodies h
    rw [parseThunks] at h
    split at h
    · cases h
      exact fun b hb => absurd hb List.not_mem_nil
    · obtain ⟨head, hhead, h⟩ := bind_eq_ok.mp h
      obtain ⟨code, hcode, h⟩ := bind_eq_ok.mp h
      obtain ⟨thunks, hthunks, h⟩ := bind_eq_ok.mp h
      cases h
      obtain ⟨hslots, hstmts⟩ := readable_thunkHead hhead
      obtain ⟨hread, hlen⟩ := readable_stmts K hcode
      intro b hb
      rcases List.mem_cons.mp hb with rfl | hb
      · exact ⟨hslots, hlen ▸ hstmts, hread⟩
      · exact ih hthunks b hb

/-- **Everything that `parse` returns can be printed**, for every text. -/
theorem readable_parse {src : String} {bodies : List (Body V)} (h : parse K src = .ok bodies) :
    ∀ b ∈ bodies, BodyReadable K b := by
  unfold parse at h
  split at h
  · cases h
  · split at h
    · exact readable_thunks K h
    · cases h

end Ruju.Loader
