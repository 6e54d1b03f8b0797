import Ruju.Loader.Printed
import Ruju.Loader.Readable
import Ruju.Loader.Validation

/-!
# The round trip

What `parse` gives on the text that the producer prints.  Going forward, every level is
read in step with the lines that were printed for it, as long as the counts agree
(`parseStmts_of_emits`).  Going back, what the loader returns can always be printed
(`Readable`), whatever the text was; so if it returns the code that was printed, this
code is printable, its lines are intact, and reading them in step shows that the counts
agree.
-/

namespace Ruju.Prelower

open Interp Text Loader

/-! ### The lines of a body -/

/-- The lines that a body is printed as. -/
inductive Emits : Nat → List Node → List Line → Prop
  | nil {shift : Nat} : Emits shift [] []
  | line {shift : Nat} {node : Node} {l : Line} {code : List Node} {ls : List Line} :
      emitLine shift node = .ok l → Emits shift code ls → Emits shift (node :: code) (l :: ls)
  | method {shift : Nat} {f sig : Arg} {slotnames : List String} {inner code : List Node}
      {head : Line} {ils ls : List Line} :
      Emits 2 inner ils → emitMethodHead shift f sig slotnames ils.length = .ok head →
      Emits shift code ls →
      Emits shift (.method3 f sig slotnames inner :: code) (head :: (ils ++ ls))

mutual

/-- The lines of a node stand in front of those of the nodes behind it. -/
theorem emits_stmt (shift : Nat) (node : Node) (first : List Line)
    (h : emitStmt shift node = .ok first) {code : List Node} {ls : List Line}
    (hcode : Emits shift code ls) : Emits shift (node :: code) (first ++ ls) := by
  cases node with
  | method3 f sig slotnames inner =>
    rw [emitStmt] at h
    obtain ⟨ils, hils, h⟩ := bind_eq_ok.mp h
    obtain ⟨head, hhead, h⟩ := bind_eq_ok.mp h
    cases h
    exact .method (emits_body 2 inner ils hils) hhead hcode
  | _ =>
    rw [emitStmt] at h
    · obtain ⟨l, hl, rfl⟩ := map_eq_ok.mp h
      exact .line hl hcode
    · intros
      contradiction

theorem emits_body (shift : Nat) (code : List Node) (ls : List Line)
    (h : emitBody shift code = .ok ls) : Emits shift code ls := by
  cases code with
  | nil =>
    rw [emitBody] at h
    cases h
    exact .nil
  | cons node code =>
    rw [emitBody] at h
    obtain ⟨first, hfirst, h⟩ := bind_eq_ok.mp h
    obtain ⟨rest, hrest, h⟩ := bind_eq_ok.mp h
    cases h
    exact emits_stmt shift node first hfirst (emits_body shift code rest hrest)

end

/-- Every statement takes a line. -/
theorem Emits.length_le {shift : Nat} {code : List Node} {ls : List Line}
    (h : Emits shift code ls) :
    code.length ≤ ls.length := by
  induction h with
  | nil => exact Nat.le_refl 0
  | line _ _ ih => simpa using ih
  | method _ _ _ _ ih =>
    simp only [List.length_cons, List.length_append]
    omega

/-- There are as many lines as statements iff each statement takes one. -/
theorem Emits.length_eq_iff {shift : Nat} {code : List Node} {ls : List Line}
    (h : Emits shift code ls) : ls.length = code.length ↔ code.all Node.oneLine = true := by
  induction h with
  | nil => exact ⟨fun _ => rfl, fun _ => rfl⟩
  | @line shift node l code ls hl _ ih =>
    have hone : node.oneLine = true := by
      cases node with
      | method3 f sig slotnames inner => cases hl
      | _ => rfl
    simp [hone, ih]
  | @method shift f sig slotnames inner code head ils ls hinner _ hcode _ ih =>
    have hle := hinner.length_le
    have hle' := hcode.length_le
    have hnil : ils.length = 0 ↔ inner = [] := by
      constructor
      · intro h
        exact List.length_eq_zero_iff.mp (by omega)
      · rintro rfl
        cases hinner
        rfl
    simp only [List.length_cons, List.length_append, List.all_cons, Bool.and_eq_true, ← ih,
      Node.oneLine, List.isEmpty_iff, ← hnil]
    omega

/-! ### Reading in step -/

/-- From the position on, the lines of the file have the words of the given ones. -/
def Reads (lines : List Line) : Nat → List Line → Prop
  | _, [] => True
  | pos, l :: ls => lines[pos]?.map words = some (words l) ∧ Reads lines (pos + 1) ls

theorem Reads.append {lines : List Line} {ys : List Line} : ∀ {xs : List Line} {pos : Nat},
    Reads lines pos (xs ++ ys) → Reads lines pos xs ∧ Reads lines (pos + xs.length) ys := by
  intro xs
  induction xs with
  | nil => exact fun h => ⟨trivial, h⟩
  | cons l xs ih =>
    intro pos h
    obtain ⟨hxs, hys⟩ := ih h.2
    refine ⟨⟨h.1, hxs⟩, ?_⟩
    rwa [List.length_cons, Nat.add_comm xs.length 1, ← Nat.add_assoc]

section Parse

variable {V : Type} (K : Consts V) {lines : List Line} {pos : Nat}

theorem parseStmts_line {fuel n : Nat} {head : List Char} {args : List (List Char)}
    (hline : lines[pos]?.map words = some (head :: args)) (hne : String.ofList head ≠ "method3") :
    parseStmts K lines (fuel + 1) pos (n + 1) =
      (parseLine K pos head args >>= fun s => parseStmts K lines fuel (pos + 1) n >>= fun rest =>
        .ok (s :: rest.1, rest.2)) := by
  rw [parseStmts, hline]
  exact if_neg hne

/-- A method is read with as many statements as it announces. -/
theorem parseStmts_method {fuel n : Nat} {args : List (List Char)}
    (hline : lines[pos]?.map words = some ("method3".toList :: args)) :
    parseStmts K lines (fuel + 1) pos (n + 1) =
      (parseMethodHead K pos args >>= fun m =>
        parseStmts K lines fuel (pos + 1) m.nstmts >>= fun inner =>
          parseStmts K lines fuel inner.2 n >>= fun rest =>
            .ok (.methodDef m.f m.sig m.nslots inner.1 :: rest.1, rest.2)) := by
  rw [parseStmts, hline]
  exact if_pos rfl

/-- The parts of a printable method definition. -/
theorem printable_method {shift : Nat} {f sig : Arg} {slotnames : List String} {inner : List Node}
    (h : (Node.method3 f sig slotnames inner).printable shift = true) :
    f.printable shift = true ∧ sig.printable shift = true ∧ small (slotnames.length - 1) = true ∧
      small inner.length = true ∧ printableAll 2 inner = true := by
  simpa only [Node.printable, Bool.and_eq_true, and_assoc] using h

/-- **A body is read back** if the count of every method's lines is that of its
statements. -/
theorem parseStmts_of_emits {shift : Nat} {code : List Node} {ls : List Line}
    (h : Emits shift code ls) (hprint : printableAll shift code = true)
    (hflat : code.all Node.flat = true) :
    ∃ stmts, toStmts K shift code = some stmts ∧
      ∀ (pos fuel : Nat), Reads lines pos ls → ls.length ≤ fuel →
        parseStmts K lines fuel pos code.length = .ok (stmts, pos + ls.length) := by
  induction h with
  | nil =>
    refine ⟨[], by rw [toStmts], ?_⟩
    intro pos fuel _ _
    cases fuel <;> rfl
  | @line shift node l code ls hl _ ih =>
    rw [printableAll, Bool.and_eq_true] at hprint
    rw [List.all_cons, Bool.and_eq_true] at hflat
    obtain ⟨s, hs, head, args, hspell, hne, hparse⟩ := reads_line K hl hprint.1
    obtain ⟨rest, hrest, ih⟩ := ih hprint.2 hflat.2
    refine ⟨s :: rest, (toStmts_cons K).mpr ⟨s, rest, hs, hrest, rfl⟩, ?_⟩
    intro pos fuel hreads hfuel
    obtain ⟨fuel, rfl⟩ := Nat.exists_eq_add_one_of_ne_zero (Nat.ne_zero_of_lt hfuel)
    have hreadRest := ih _ _ hreads.2 (Nat.le_of_succ_le_succ hfuel)
    rw [List.length_cons, parseStmts_line K (hreads.1.trans (congrArg some hspell.words)) hne,
      hparse, hreadRest, List.length_cons, Nat.add_comm ls.length 1, ← Nat.add_assoc]
    rfl
  | @method shift f sig slotnames inner code head ils ls hinner hhead _ ihinner ih =>
    rw [printableAll, Bool.and_eq_true] at hprint
    rw [List.all_cons, Bool.and_eq_true] at hflat
    obtain ⟨hf, hsig, hslots, hsmall, hall⟩ := printable_method hprint.1
    obtain ⟨fo, so, hfo, hso, args, hspell, hparse⟩ := reads_methodHead K hhead hf hsig hslots
    -- the printed count is that of the statements
    have hcount : ils.length = inner.length := hinner.length_eq_iff.mpr hflat.1
    have hflatInner : inner.all Node.flat = true := by
      rw [List.all_eq_true]
      intro node hnode
      exact Node.flat_of_oneLine (List.all_eq_true.mp hflat.1 node hnode)
    obtain ⟨body, hbody, ihinner⟩ := ihinner hall hflatInner
    obtain ⟨rest, hrest, ih⟩ := ih hprint.2 hflat.2
    have hmethod : (Node.method3 f sig slotnames inner).toStmt K shift =
        some (.methodDef fo so (slotnames.length - 1) body) :=
      (toStmt_method K).mpr ⟨fo, so, body, hfo, hso, hbody, rfl⟩
    refine ⟨_, (toStmts_cons K).mpr ⟨_, rest, hmethod, hrest, rfl⟩, ?_⟩
    intro pos fuel hreads hfuel
    obtain ⟨fuel, rfl⟩ := Nat.exists_eq_add_one_of_ne_zero (Nat.ne_zero_of_lt hfuel)
    obtain ⟨hreadsInner, hreadsRest⟩ := Reads.append hreads.2
    simp only [List.length_cons, List.length_append] at hfuel
    have hreadInner := ihinner _ fuel hreadsInner (by omega)
    have hreadRest := ih _ fuel hreadsRest (by omega)
    have hpos : pos + 1 + ils.length + ls.length = pos + (head :: (ils ++ ls)).length := by
      simp only [List.length_cons, List.length_append]
      omega
    rw [List.length_cons, parseStmts_method K (hreads.1.trans (congrArg some hspell.words)),
      hparse, hcount, parseUsize_num hsmall]
    show (parseStmts K lines fuel (pos + 1) inner.length >>= fun i =>
      parseStmts K lines fuel i.2 code.length >>= fun rest => .ok (_ :: rest.1, rest.2)) = _
    rw [hreadInner]
    show (parseStmts K lines fuel (pos + 1 + ils.length) code.length >>= fun rest =>
      .ok (_ :: rest.1, rest.2)) = _
    rw [hreadRest, ← hpos]
    rfl

/-- **If a printable body is read back, its counts agree.** -/
theorem flat_of_parseStmts {shift : Nat} {code : List Node} {ls : List Line}
    (h : Emits shift code ls) (hprint : printableAll shift code = true) :
    ∀ (stmts : List (Stmt V)) (pos fuel pos' : Nat), toStmts K shift code = some stmts →
      Reads lines pos ls → ls.length ≤ fuel →
      parseStmts K lines fuel pos code.length = .ok (stmts, pos') →
      code.all Node.flat = true := by
  induction h with
  | nil => exact fun _ _ _ _ _ _ _ _ => rfl
  | @line shift node l code ls hl _ ih =>
    intro stmts pos fuel pos' hstmts hreads hfuel hread
    obtain ⟨fuel, rfl⟩ := Nat.exists_eq_add_one_of_ne_zero (Nat.ne_zero_of_lt hfuel)
    rw [printableAll, Bool.and_eq_true] at hprint
    obtain ⟨_, -, head, args, hspell, hne, hparse⟩ := reads_line K hl hprint.1
    obtain ⟨_, tail, -, htail, rfl⟩ := (toStmts_cons K).mp hstmts
    rw [List.length_cons, parseStmts_line K (hreads.1.trans (congrArg some hspell.words)) hne,
      hparse] at hread
    obtain ⟨s, -, hread⟩ := bind_eq_ok.mp hread
    obtain ⟨rest, hrest, hread⟩ := bind_eq_ok.mp hread
    obtain ⟨-, hcode⟩ := List.cons.inj (Prod.ext_iff.mp (Except.ok.inj hread)).1
    have hflat := ih hprint.2 _ _ _ rest.2 htail hreads.2 (Nat.le_of_succ_le_succ hfuel)
      (hrest.trans (congrArg Except.ok (Prod.ext hcode rfl)))
    have hnode : node.flat = true := by
      cases node with
      | method3 f sig slotnames inner => cases hl
      | _ => rfl
    rw [List.all_cons, hnode, hflat]
    rfl
  | @method shift f sig slotnames inner code head ils ls hinner hhead _ _ ih =>
    intro stmts pos fuel pos' hstmts hreads hfuel hread
    obtain ⟨fuel, rfl⟩ := Nat.exists_eq_add_one_of_ne_zero (Nat.ne_zero_of_lt hfuel)
    rw [printableAll, Bool.and_eq_true] at hprint
    obtain ⟨hf, hsig, hslots, -, hall⟩ := printable_method hprint.1
    obtain ⟨fo, so, hfo, hso, args, hspell, hparse⟩ := reads_methodHead K hhead hf hsig hslots
    obtain ⟨_, tail, hmethod, htail, rfl⟩ := (toStmts_cons K).mp hstmts
    obtain ⟨_, _, body, -, -, hbodyStmts, rfl⟩ := (toStmt_method K).mp hmethod
    obtain ⟨hreadsInner, hreadsRest⟩ := Reads.append hreads.2
    simp only [List.length_cons, List.length_append] at hfuel
    rw [List.length_cons, parseStmts_method K (hreads.1.trans (congrArg some hspell.words)),
      hparse] at hread
    obtain ⟨m, hm, hread⟩ := bind_eq_ok.mp hread
    obtain ⟨n, hn, rfl⟩ := map_eq_ok.mp hm
    obtain ⟨i, hi, hread⟩ := bind_eq_ok.mp hread
    obtain ⟨rest, hrest, hread⟩ := bind_eq_ok.mp hread
    obtain ⟨hdef, hcode⟩ := List.cons.inj (Prod.ext_iff.mp (Except.ok.inj hread)).1
    have hbody : i.1 = body := (Stmt.methodDef.inj hdef).2.2.2
    -- the loader has read as many statements as there were lines
    have hnum : n = ils.length := by
      cases hp : parseUsize (num ils.length) with
      | none =>
        rw [hp] at hn
        cases hn
      | some k =>
        rw [hp] at hn
        cases hn
        exact eq_of_parseUsize_num hp
    have hlen : ils.length = inner.length := by
      have := (readable_stmts K hi).2
      rw [hbody, length_toStmts K hbodyStmts] at this
      exact hnum.symm.trans this.symm
    have hone := hinner.length_eq_iff.mp hlen
    have hflatInner : inner.all Node.flat = true := by
      rw [List.all_eq_true]
      intro node hnode
      exact Node.flat_of_oneLine (List.all_eq_true.mp hone node hnode)
    -- so it stands behind them
    obtain ⟨_, -, hparseInner⟩ := parseStmts_of_emits K hinner hall hflatInner
    have hi' := hparseInner _ fuel hreadsInner (by omega)
    rw [← hlen, ← hnum] at hi'
    obtain rfl := Except.ok.inj (hi.symm.trans hi')
    rw [← hnum] at hreadsRest
    have hflat := ih hprint.2 _ _ fuel rest.2 htail hreadsRest (by omega)
      (hrest.trans (congrArg Except.ok (Prod.ext hcode rfl)))
    rw [List.all_cons, hflat, Node.flat, hone]
    rfl

/-! ### What is returned was printable -/

theorem small_of_lt {n : Nat} (h : n < 2 ^ 32) : small n = true := decide_eq_true h

theorem printable_lit {v : Lit} {o : Op V} (ho : v.toOp K = some o) (h : OpReadable K o) :
    v.printable = true := by
  cases v with
  | symbol s =>
    cases ho
    exact h s rfl
  | function name =>
    cases ho
    exact h
  | type name params =>
    rw [Lit.toOp] at ho
    split at ho
    case isTrue hparams =>
      cases ho
      rw [Lit.printable, Bool.and_eq_true, List.isEmpty_iff]
      exact ⟨hparams, h⟩
    case isFalse => cases ho
  | module name =>
    rw [Lit.toOp] at ho
    split at ho
    case isTrue hname => exact beq_iff_eq.mpr hname
    case isFalse => cases ho
  | _ => rfl

theorem printable_arg {shift : Nat} {a : Arg} {o : Op V} (ho : a.toOp K shift = some o)
    (h : OpReadable K o) : a.printable shift = true := by
  cases a with
  | ssaValue id =>
    cases ho
    exact small_of_lt h
  | slotNumber id =>
    rw [Arg.toOp] at ho
    split at ho
    case isTrue => cases ho
    case isFalse =>
      cases ho
      exact small_of_lt h
  | globalRef name =>
    cases ho
    exact h
  | quoteNode value => exact printable_lit K ho h
  | lit value => exact printable_lit K ho h

theorem printable_args {shift : Nat} {args : List Arg} : ∀ {os : List (Op V)},
    toOps K shift args = some os → (∀ o ∈ os, OpReadable K o) →
      args.all (Arg.printable shift) = true := by
  induction args with
  | nil => exact fun _ _ => rfl
  | cons a args ih =>
    intro os hos h
    rw [toOps] at hos
    obtain ⟨o, ho, hos⟩ := Option.bind_eq_some_iff.mp hos
    obtain ⟨os', hos', hos⟩ := Option.bind_eq_some_iff.mp hos
    cases hos
    rw [List.all_cons, Bool.and_eq_true]
    exact ⟨printable_arg K ho (h o List.mem_cons_self),
      ih hos' fun o' ho' => h o' (List.mem_cons_of_mem o ho')⟩

theorem printable_assign {shift : Nat} {lhs : Lhs} {rhs : Rhs} {s : Stmt V}
    (hs : assignStmt K shift lhs rhs = some s) (h : StmtReadable K s) :
    (lhs.printable shift && rhs.printable shift) = true := by
  cases lhs with
  | other repr => cases hs
  | slotNumber id =>
    unfold assignStmt at hs
    dsimp only at hs
    split at hs
    case isTrue => cases hs
    case isFalse =>
      rw [Bool.and_eq_true]
      cases rhs with
      | call args =>
        obtain ⟨os, hos, rfl⟩ := Option.map_eq_some_iff.mp hs
        rw [StmtReadable] at h
        exact ⟨small_of_lt h.1, printable_args K hos h.2⟩
      | theException =>
        cases hs
        rw [StmtReadable] at h
        exact ⟨small_of_lt h, rfl⟩
      | expr head => cases hs
      | arg a =>
        obtain ⟨o, ho, rfl⟩ := Option.map_eq_some_iff.mp hs
        rw [StmtReadable] at h
        exact ⟨small_of_lt h.1, printable_arg K ho h.2⟩

theorem printable_name {name : String} (h : Solid name.toList) :
    (!name.toList.isEmpty && noWhite name.toList) = true := by
  rw [Bool.and_eq_true]
  exact ⟨by simpa using h.ne_nil, h.noWhite⟩

/-- A statement that holds one operand. -/
theorem printable_ofOp {shift : Nat} {a : Arg} {mk : Op V → Stmt V} {s : Stmt V}
    (hs : (a.toOp K shift).map mk = some s) (hmk : ∀ o, StmtReadable K (mk o) → OpReadable K o)
    (h : StmtReadable K s) : a.printable shift = true := by
  obtain ⟨o, ho, rfl⟩ := Option.map_eq_some_iff.mp hs
  exact printable_arg K ho (hmk o h)

theorem printable_line {shift : Nat} {node : Node} {l : Line} {s : Stmt V}
    (hl : emitLine shift node = .ok l) (hs : node.toStmt K shift = some s)
    (h : StmtReadable K s) : node.printable shift = true := by
  cases node with
  | goto label =>
    rw [Node.toStmt] at hs
    cases hs
    rw [StmtReadable] at h
    rw [Node.printable]
    exact small_of_lt h
  | gotoIfNot cond dest =>
    rw [Node.toStmt] at hs
    obtain ⟨o, ho, rfl⟩ := Option.map_eq_some_iff.mp hs
    rw [StmtReadable] at h
    rw [Node.printable, Bool.and_eq_true]
    exact ⟨printable_arg K ho h.1, small_of_lt h.2⟩
  | «return» val =>
    cases val with
    | none => cases hl
    | some a =>
      rw [Node.toStmt] at hs
      rw [Node.printable]
      exact printable_ofOp K hs (fun o ho => by rwa [StmtReadable] at ho) h
  | enter catchDest hasScope =>
    rw [Node.toStmt] at hs
    split at hs
    case isTrue => cases hs
    case isFalse =>
      cases hs
      rw [StmtReadable] at h
      rw [Node.printable]
      exact small_of_lt h
  | call args =>
    rw [Node.toStmt] at hs
    obtain ⟨os, hos, rfl⟩ := Option.map_eq_some_iff.mp hs
    rw [StmtReadable] at h
    rw [Node.printable]
    exact printable_args K hos h
  | assign lhs rhs =>
    rw [Node.toStmt] at hs
    rw [Node.printable]
    exact printable_assign K hs h
  | leave args =>
    rw [Node.toStmt] at hs
    cases hs
    rw [StmtReadable] at h
    rw [Node.printable]
    exact small_of_lt h
  | popException a =>
    rw [Node.toStmt] at hs
    rw [Node.printable]
    exact printable_ofOp K hs (fun o ho => by rwa [StmtReadable] at ho) h
  | method1 name =>
    rw [Node.printable]
    cases name with
    | other repr => cases hl
    | globalRef name | symbol name =>
      rw [Node.toStmt] at hs
      cases hs
      rw [StmtReadable] at h
      exact printable_name h
  | method3 f sig slotnames code => cases hl
  | value a =>
    rw [Node.toStmt] at hs
    rw [Node.printable]
    exact printable_ofOp K hs (fun o ho => by rwa [StmtReadable] at ho) h
  | theException => rw [Node.printable]
  | latestWorld => rw [Node.printable]
  | methodExternal => cases hl
  | expr head => cases hl

/-- **Code that the loader has returned is printable.** -/
theorem Emits.printable {shift : Nat} {code : List Node} {ls : List Line}
    (h : Emits shift code ls) : ∀ {stmts : List (Stmt V)}, toStmts K shift code = some stmts →
      CodeReadable K stmts → printableAll shift code = true := by
  induction h with
  | nil =>
    intro _ _ _
    rw [printableAll]
  | line hl _ ih =>
    intro stmts hstmts hread
    obtain ⟨s, rest, hs, hrest, rfl⟩ := (toStmts_cons K).mp hstmts
    rw [CodeReadable] at hread
    rw [printableAll, Bool.and_eq_true]
    exact ⟨printable_line K hl hs hread.1, ih hrest hread.2⟩
  | method _ _ _ ihinner ih =>
    intro stmts hstmts hread
    obtain ⟨s, rest, hs, hrest, rfl⟩ := (toStmts_cons K).mp hstmts
    obtain ⟨fo, so, body, hfo, hso, hbody, rfl⟩ := (toStmt_method K).mp hs
    rw [CodeReadable, StmtReadable, length_toStmts K hbody] at hread
    obtain ⟨⟨hf, hsig, hslots, hlen, hinner⟩, hcode⟩ := hread
    simp only [printableAll, Node.printable, Bool.and_eq_true]
    exact ⟨⟨⟨⟨⟨printable_arg K hfo hf, printable_arg K hso hsig⟩, small_of_lt hslots⟩,
      small_of_lt hlen⟩, ihinner hbody hinner⟩, ih hrest hcode⟩

/-! ### Files -/

/-- The line has a head. -/
def Spelled (l : Line) : Prop := ∃ head args, Spells l head args

/-- The lines of printable code are intact. -/
theorem Emits.spelled {shift : Nat} {code : List Node} {ls : List Line} (h : Emits shift code ls)
    (hprint : printableAll shift code = true) : ∀ l ∈ ls, Spelled l := by
  induction h with
  | nil => exact fun l hl => absurd hl List.not_mem_nil
  | line hl _ ih =>
    rw [printableAll, Bool.and_eq_true] at hprint
    intro l' hl'
    rcases List.mem_cons.mp hl' with rfl | hl'
    · obtain ⟨-, -, head, args, hspell, -⟩ := reads_line boxConsts hl hprint.1
      exact ⟨head, args, hspell⟩
    · exact ih hprint.2 l' hl'
  | method _ hhead _ ihinner ih =>
    rw [printableAll, Bool.and_eq_true] at hprint
    obtain ⟨hf, hsig, hslots, -, hall⟩ := printable_method hprint.1
    intro l' hl'
    rcases List.mem_cons.mp hl' with rfl | hl'
    · obtain ⟨-, -, -, -, args, hspell, -⟩ := reads_methodHead boxConsts hhead hf hsig hslots
      exact ⟨_, args, hspell⟩
    · rcases List.mem_append.mp hl' with hl' | hl'
      · exact ihinner hall l' hl'
      · exact ih hprint.2 l' hl'

/-- A symbol or a constant is printed as a thunk with two statements. -/
def Lowered.thunkOf : Lowered → List String × List Node
  | .thunk slotnames code => (slotnames, code)
  | .symbol s => ([], [.value (.globalRef s), .return (some (.ssaValue 1))])
  | .lit value => ([], [.value (.lit value), .return (some (.ssaValue 1))])
  | .error _ => ([], [])

/-- The lines of an expression are a thunk's head and a body. -/
theorem emits_lowered {e : Lowered} {ls : List Line} (h : emitLowered e = .ok ls) :
    ∃ body, ls = thunkHead e.thunkOf.1.length e.thunkOf.2.length :: body ∧
      Emits 1 e.thunkOf.2 body := by
  cases e with
  | thunk slotnames code =>
    obtain ⟨body, hbody, h⟩ := bind_eq_ok.mp h
    cases h
    exact ⟨body, rfl, emits_body 1 code body hbody⟩
  | error msg => cases h
  | symbol s =>
    cases h
    refine ⟨["value global:".toList ++ s.toList, "return ssa:0".toList], ?_, ?_⟩
    · exact congrArg (· :: _) (rfl : _ = thunkHead 0 2)
    · exact .line rfl (.line rfl .nil)
  | lit value =>
    obtain ⟨w, hw, h⟩ := bind_eq_ok.mp h
    cases h
    refine ⟨["value ".toList ++ w, "return ssa:0".toList], ?_, .line ?_ (.line rfl .nil)⟩
    · exact congrArg (· :: _) (rfl : _ = thunkHead 0 2)
    · show (constop value >>= fun w => .ok ("value ".toList ++ w)) = _
      rw [hw]
      rfl

variable {K}

theorem Lowered.toBody_eq {e : Lowered} {ls : List Line} (h : emitLowered e = .ok ls) :
    e.toBody K = (toStmts K 1 e.thunkOf.2).map (.mk e.thunkOf.1.length) := by
  cases e with
  | thunk slotnames code => rfl
  | error msg => cases h
  | symbol s =>
    simp [Lowered.toBody, Lowered.thunkOf, toStmts, Node.toStmt, Arg.toOp, PNat.one_coe]
  | lit value =>
    cases hv : value.toOp K <;>
      simp [Lowered.toBody, Lowered.thunkOf, toStmts, Node.toStmt, Arg.toOp, PNat.one_coe, hv]

theorem toBodies_cons {e : Lowered} {es : List Lowered} {bodies : List (Body V)} :
    toBodies K (e :: es) = some bodies ↔
      ∃ body rest, e.toBody K = some body ∧ toBodies K es = some rest ∧ body :: rest = bodies := by
  rw [toBodies]
  simp only [Option.bind_eq_bind, Option.bind_eq_some_iff, Option.some.injEq]
  exact ⟨fun ⟨body, hb, rest, hrest, h⟩ => ⟨body, rest, hb, hrest, h⟩,
    fun ⟨body, rest, hb, hrest, h⟩ => ⟨body, hb, rest, hrest, h⟩⟩

theorem toBody_of_mem {es : List Lowered} : ∀ {bodies : List (Body V)},
    toBodies K es = some bodies → ∀ e ∈ es, ∃ body ∈ bodies, e.toBody K = some body := by
  induction es with
  | nil => exact fun _ e he => absurd he List.not_mem_nil
  | cons e' es ih =>
    intro bodies h e he
    obtain ⟨body, rest, hbody, hrest, rfl⟩ := toBodies_cons.mp h
    rcases List.mem_cons.mp he with rfl | he
    · exact ⟨body, List.mem_cons_self, hbody⟩
    · obtain ⟨b, hb, h⟩ := ih hrest e he
      exact ⟨b, List.mem_cons_of_mem body hb, h⟩

theorem Lowered.printable_eq (e : Lowered) : e.printable =
    (small e.thunkOf.1.length && small e.thunkOf.2.length && printableAll 1 e.thunkOf.2) := by
  cases e with
  | thunk slotnames code => rfl
  | _ =>
    simp [Lowered.printable, Lowered.thunkOf, printableAll, Node.printable, Arg.printable, small,
      PNat.one_coe]

theorem Lowered.flat_eq (e : Lowered) : e.flat = e.thunkOf.2.all Node.flat := by
  cases e <;> rfl

theorem spells_thunkHead (a b : Nat) : Spells (thunkHead a b) "thunk".toList [num a, num b] :=
  .two "thunk".toList (by decide) (by decide) (solid_num a) (solid_num b)

theorem parseThunkHead_printed {a b lineNo : Nat} (ha : small a = true) (hb : small b = true) :
    parseThunkHead lineNo (words (thunkHead a b)) = .ok (a, b) := by
  rw [(spells_thunkHead a b).words, parseThunkHead, parseUsize_num ha, parseUsize_num hb]
  rfl

/-- One round of the loop of `parse`. -/
theorem parseThunks_succ {fuel a b : Nat} {body : List Line}
    (hreads : Reads lines pos (thunkHead a b :: body)) (ha : small a = true) (hb : small b = true) :
    parseThunks K lines (fuel + 1) pos =
      (parseStmts K lines lines.length (pos + 1) b >>= fun code =>
        parseThunks K lines fuel code.2 >>= fun thunks => .ok (⟨a, code.1⟩ :: thunks)) := by
  obtain ⟨line, hline, hwords⟩ := Option.map_eq_some_iff.mp hreads.1
  rw [parseThunks, hline]
  show (parseThunkHead pos (words line) >>= fun head => _) = _
  rw [hwords, parseThunkHead_printed ha hb]
  rfl

/-- The conditions on one expression, with its lines. -/
theorem emitAll_cons {e : Lowered} {es : List Lowered} {chunks : List Line}
    (h : emitAll (e :: es) = .ok chunks) :
    ∃ body rest, chunks = thunkHead e.thunkOf.1.length e.thunkOf.2.length :: (body ++ rest) ∧
      (∃ ls, emitLowered e = .ok ls) ∧ Emits 1 e.thunkOf.2 body ∧ emitAll es = .ok rest := by
  obtain ⟨first, hfirst, h⟩ := bind_eq_ok.mp h
  obtain ⟨rest, hrest, h⟩ := bind_eq_ok.mp h
  cases h
  obtain ⟨body, hlines, hbody⟩ := emits_lowered hfirst
  refine ⟨body, rest, ?_, ⟨first, hfirst⟩, hbody, hrest⟩
  rw [hlines, List.cons_append]

theorem emitLowered_of_mem {es : List Lowered} : ∀ {chunks : List Line}, emitAll es = .ok chunks →
    ∀ e ∈ es, ∃ ls, emitLowered e = .ok ls := by
  induction es with
  | nil => exact fun _ e he => absurd he List.not_mem_nil
  | cons e' es ih =>
    intro chunks h
    obtain ⟨first, hfirst, h⟩ := bind_eq_ok.mp h
    obtain ⟨rest, hrest, -⟩ := bind_eq_ok.mp h
    intro e he
    rcases List.mem_cons.mp he with rfl | he
    · exact ⟨first, hfirst⟩
    · exact ih hrest e he

/-- **A printable file is read back** if its counts agree. -/
theorem parseThunks_of_flat {es : List Lowered} : ∀ {chunks : List Line},
    emitAll es = .ok chunks → (∀ e ∈ es, e.printable = true) → (∀ e ∈ es, e.flat = true) →
    ∃ bodies, toBodies K es = some bodies ∧ ∀ pos fuel : Nat, Reads lines pos chunks →
      lines.length = pos + chunks.length → chunks.length ≤ fuel →
      parseThunks K lines fuel pos = .ok bodies := by
  induction es with
  | nil =>
    intro chunks hchunks _ _
    cases hchunks
    refine ⟨[], rfl, fun pos fuel _ hlen _ => ?_⟩
    cases fuel with
    | zero => rfl
    | succ fuel => rw [parseThunks, List.getElem?_eq_none (by simp [hlen])]
  | cons e es ih =>
    intro chunks hchunks hprint hflat
    obtain ⟨body, rest, rfl, ⟨_, he⟩, hbody, hrest⟩ := emitAll_cons hchunks
    rw [List.forall_mem_cons, Lowered.printable_eq, Bool.and_eq_true, Bool.and_eq_true] at hprint
    rw [List.forall_mem_cons, e.flat_eq] at hflat
    obtain ⟨⟨⟨hslots, hstmts⟩, hcode⟩, hprint⟩ := hprint
    obtain ⟨stmts, hto, hread⟩ := parseStmts_of_emits K hbody hcode hflat.1
    obtain ⟨bodies, hbodies, ih⟩ := ih hrest hprint hflat.2
    have hfirst : e.toBody K = some ⟨e.thunkOf.1.length, stmts⟩ := by
      rw [Lowered.toBody_eq he, hto]
      rfl
    refine ⟨_, toBodies_cons.mpr ⟨_, bodies, hfirst, hbodies, rfl⟩, ?_⟩
    intro pos fuel hreads hlen hfuel
    simp only [List.length_cons, List.length_append] at hlen hfuel
    obtain ⟨fuel, rfl⟩ := Nat.exists_eq_add_one_of_ne_zero (Nat.ne_zero_of_lt hfuel)
    obtain ⟨hreadsBody, hreadsRest⟩ := Reads.append hreads.2
    rw [parseThunks_succ hreads hslots hstmts, hread _ lines.length hreadsBody (by omega)]
    show (parseThunks K lines fuel (pos + 1 + body.length) >>= fun thunks => _) = _
    rw [ih _ fuel hreadsRest (by omega) (by omega)]
    rfl

/-- **If a printable file is read back, its counts agree.** -/
theorem flat_of_parseThunks {es : List Lowered} : ∀ {chunks : List Line} {bodies : List (Body V)}
    (pos fuel : Nat), emitAll es = .ok chunks → (∀ e ∈ es, e.printable = true) →
    toBodies K es = some bodies → Reads lines pos chunks → lines.length = pos + chunks.length →
    chunks.length ≤ fuel → parseThunks K lines fuel pos = .ok bodies →
    ∀ e ∈ es, e.flat = true := by
  induction es with
  | nil => exact fun _ _ _ _ _ _ _ _ _ e he => absurd he List.not_mem_nil
  | cons e es ih =>
    intro chunks bodies pos fuel hchunks hprint hbodies hreads hlen hfuel hparse
    obtain ⟨body, rest, rfl, ⟨_, he⟩, hbody, hrest⟩ := emitAll_cons hchunks
    simp only [List.length_cons, List.length_append] at hlen hfuel
    obtain ⟨fuel, rfl⟩ := Nat.exists_eq_add_one_of_ne_zero (Nat.ne_zero_of_lt hfuel)
    rw [List.forall_mem_cons, Lowered.printable_eq, Bool.and_eq_true, Bool.and_eq_true] at hprint
    obtain ⟨⟨⟨hslots, hstmts⟩, hcode⟩, hprint⟩ := hprint
    obtain ⟨hreadsBody, hreadsRest⟩ := Reads.append hreads.2
    obtain ⟨b, bs, hb, hbs, rfl⟩ := toBodies_cons.mp hbodies
    rw [Lowered.toBody_eq he] at hb
    obtain ⟨stmts, hto, rfl⟩ := Option.map_eq_some_iff.mp hb
    rw [parseThunks_succ hreads hslots hstmts] at hparse
    obtain ⟨code, hread, hparse⟩ := bind_eq_ok.mp hparse
    obtain ⟨thunks, hthunks, hparse⟩ := bind_eq_ok.mp hparse
    obtain ⟨hhead, htail⟩ := List.cons.inj (Except.ok.inj hparse)
    have hsame : code = (stmts, code.2) := Prod.ext (Body.mk.inj hhead).2 rfl
    rw [hsame] at hread
    have hflat := flat_of_parseStmts K hbody hcode _ _ _ _ hto hreadsBody (by omega) hread
    obtain ⟨_, -, hread'⟩ := parseStmts_of_emits K hbody hcode hflat
    -- the loader stands behind the lines of this thunk
    have hpos : code.2 = pos + 1 + body.length :=
      (Prod.ext_iff.mp (Except.ok.inj
        (hread.symm.trans (hread' _ lines.length hreadsBody (by omega))))).2
    rw [hpos, htail] at hthunks
    rw [List.forall_mem_cons, e.flat_eq]
    exact ⟨hflat, ih _ fuel hrest hprint hbs hreadsRest (by omega) (by omega) hthunks⟩

theorem spelled_emitAll {es : List Lowered} : ∀ {chunks : List Line}, emitAll es = .ok chunks →
    (∀ e ∈ es, e.printable = true) → ∀ l ∈ chunks, Spelled l := by
  induction es with
  | nil =>
    intro chunks hchunks _
    cases hchunks
    exact fun l hl => absurd hl List.not_mem_nil
  | cons e es ih =>
    intro chunks hchunks hprint
    obtain ⟨body, rest, rfl, -, hbody, hrest⟩ := emitAll_cons hchunks
    have he := hprint e List.mem_cons_self
    rw [Lowered.printable_eq, Bool.and_eq_true] at he
    intro l hl
    rcases List.mem_cons.mp hl with rfl | hl
    · exact ⟨_, _, spells_thunkHead _ _⟩
    · rcases List.mem_append.mp hl with hl | hl
      · exact hbody.spelled he.2 l hl
      · exact ih hrest (fun e' h => hprint e' (List.mem_cons_of_mem _ h)) l hl

/-- Lines with a head are read back with their words. -/
theorem reads_map_trim {ls : List Line} : ∀ (before : List Line),
    Reads (before ++ ls.map trim) before.length ls := by
  induction ls with
  | nil => exact fun _ => trivial
  | cons l ls ih =>
    intro before
    refine ⟨?_, ?_⟩
    · simp [words_trim]
    · have := ih (before ++ [trim l])
      simpa using this

theorem sourceLines_printed {ls : List Line} (h : ∀ l ∈ ls, Spelled l) :
    sourceLines (String.ofList (unlines ls)) = ls.map trim := by
  rw [sourceLines, String.toList_ofList]
  refine fileLines_unlines (fun l hl => ?_) (fun l hl => ?_)
  · obtain ⟨_, _, hspell⟩ := h l hl
    exact hspell.noBreak
  · obtain ⟨_, _, hspell⟩ := h l hl
    obtain ⟨c, t, rfl, hc, hne⟩ := hspell.first
    obtain ⟨t', ht'⟩ := trim_cons hc t
    rw [ht']
    exact ⟨List.cons_ne_nil _ _, by simpa using hne⟩

/-- The digits of the commit are a word of their own, or nothing. -/
theorem spells_headerLine (commit : List (Fin 16)) :
    ∃ args, Spells (headerLine commit) "RUJU_LOWERED".toList (['1'] :: args) := by
  have hbase := Spells.one "RUJU_LOWERED".toList (by decide) (by decide) (solid_num 1)
  have hdigits : noWhite (commit.map fun d => d.val.digitChar) = true := by
    rw [noWhite_iff]
    intro c hc
    obtain ⟨d, -, rfl⟩ := List.mem_map.mp hc
    exact (digitChar_plain d.isLt).1
  cases commit with
  | nil =>
    refine ⟨[], ?_⟩
    exact hbase.append fun w (hw : w ∈ []) => absurd hw List.not_mem_nil
  | cons d ds =>
    refine ⟨[(d :: ds).map fun d => d.val.digitChar], ?_⟩
    exact hbase.snoc ⟨by simp, hdigits⟩

/-- The loop of `parse` runs on the printed lines. -/
theorem parse_printed (commit : List (Fin 16)) {es : List Lowered} {chunks : List Line}
    (hchunks : emitAll es = .ok chunks) (hprint : ∀ e ∈ es, e.printable = true) :
    ∃ lines : List Line, Reads lines 1 chunks ∧ lines.length = 1 + chunks.length ∧
      parse K (String.ofList (unlines (headerLine commit :: chunks))) =
        parseThunks K lines lines.length 1 := by
  obtain ⟨args, hheader⟩ := spells_headerLine commit
  have hspelled : ∀ l ∈ headerLine commit :: chunks, Spelled l := by
    intro l hl
    rcases List.mem_cons.mp hl with rfl | hl
    · exact ⟨_, _, hheader⟩
    · exact spelled_emitAll hchunks hprint l hl
  have hgood : goodHeader (trim (headerLine commit)) = true := by
    rw [goodHeader, words_trim, hheader.words]
    rfl
  refine ⟨trim (headerLine commit) :: chunks.map trim,
    reads_map_trim [trim (headerLine commit)], by simp [Nat.add_comm], ?_⟩
  rw [parse, sourceLines_printed hspelled, List.map_cons]
  dsimp only
  rw [if_pos hgood]

/-- What the loader has returned was printable. -/
theorem printable_of_parse {es : List Lowered} {chunks : List Line} {text : String}
    {bodies : List (Body V)} (hchunks : emitAll es = .ok chunks)
    (hbodies : toBodies K es = some bodies) (hparse : parse K text = .ok bodies) :
    ∀ e ∈ es, e.printable = true := by
  intro e he
  obtain ⟨body, hmem, hbody⟩ := toBody_of_mem hbodies e he
  have hread := readable_parse K hparse body hmem
  obtain ⟨ls, hls⟩ := emitLowered_of_mem hchunks e he
  obtain ⟨lines, -, hlines⟩ := emits_lowered hls
  rw [Lowered.toBody_eq hls] at hbody
  obtain ⟨stmts, hto, rfl⟩ := Option.map_eq_some_iff.mp hbody
  have hlen : stmts.length < 2 ^ 32 := hread.length
  rw [length_toStmts K hto] at hlen
  rw [Lowered.printable_eq, Bool.and_eq_true, Bool.and_eq_true]
  exact ⟨⟨small_of_lt hread.nslots, small_of_lt hlen⟩, hlines.printable K hto hread.code⟩

end Parse

/-! ### Some files -/

-- the texts are compared character by character
set_option maxRecDepth 4000

/-- A definition of a method without arguments. -/
def defineMethod (code : List Node) : Node :=
  .method3 (.globalRef "f") (.ssaValue 1) ["#self#"] code

/-- `nothing`, returned. -/
def returnNothing : Node := .return (some (.lit .nothing))

/-- A thunk that defines a method. -/
def methodThunk : Lowered :=
  .thunk ["x"] [.value (.lit (.type "Int64" [])), defineMethod [returnNothing], returnNothing]

/-- A thunk whose method defines a method. -/
def nestedThunk : Lowered :=
  .thunk [] [defineMethod [defineMethod [returnNothing], returnNothing], returnNothing]

/-- The text of the nested definition: the outer body has two statements and three
lines. -/
def nestedText : String :=
  "RUJU_LOWERED 1 5b\nthunk 0 2\nmethod3 global:f ssa:0 0 3\nmethod3 global:f ssa:0 0 1\n" ++
    "return nothing\nreturn nothing\nreturn nothing\n"

/-- A symbol with a blank, and its text. -/
def blankText : String := "RUJU_LOWERED 1 5b\nthunk 0 2\nvalue global:a b\nreturn ssa:0\n"

/-- The text of the constant `Vector{Int64}`, which is `Array{Int64, 1}`. -/
def vectorText : String := "RUJU_LOWERED 1 5b\nthunk 0 2\nvalue global:Array\nreturn ssa:0\n"

end Ruju.Prelower
