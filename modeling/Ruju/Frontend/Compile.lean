import Mathlib.Data.List.Infix
import Mathlib.Tactic.Common
import Ruju.Frontend.Semantics
import Ruju.Library.Keeps

/-!
# The code of a program, without patches

`compileStmt` says what code the lowering of a statement leaves at a position: all
targets are known, the slot of a variable is its place in the list of all names, and
the registry is the one that the lowering of the whole program ends with.  The lowering
emits this code: it appends it to what is there (`Compiles`), since it patches only
statements that it has emitted itself, names keep their slots and structs their
definitions.
-/

namespace Ruju.Frontend

open Interp

/-! ### The code -/

section Code

variable {V : Type} (names : List String) (structs : List StructDef)

/-- What a call is, by the registry. -/
def calleeOf (name : String) (nargs : Nat) : Callee :=
  match callee structs name nargs with
  | .ok f => f
  -- the lowering has failed
  | .error _ => .throw

mutual

/-- The code of an expression at `pc`, and the operand that holds its value. -/
def compileExpr (pc : Nat) : Expr → List (Stmt V) × Op V
  | .int n => ([], .int n)
  | .float bits => ([], .float bits)
  | .var name => ([], .slot (names.idxOf name))
  | .bin op lhs rhs =>
    let a := compileExpr pc lhs
    let b := compileExpr (pc + a.1.length) rhs
    (a.1 ++ (b.1 ++ [.call (binop op).1 (binArgs op a.2 b.2)]),
      .ssa (pc + a.1.length + b.1.length))
  | .call name args =>
    let a := compileExprs pc args
    (a.1 ++ [(calleeOf structs name args.length).stmt a.2], .ssa (pc + a.1.length))
  | .field base name =>
    let a := compileExpr pc base
    (a.1 ++ [.getField a.2 name], .ssa (pc + a.1.length))
  | .arrayLit elems =>
    let a := compileExprs pc elems
    (a.1 ++ [.arrayLit a.2], .ssa (pc + a.1.length))
  | .index base idx =>
    let a := compileExpr pc base
    let b := compileExpr (pc + a.1.length) idx
    (a.1 ++ (b.1 ++ [.arrayRef a.2 b.2]), .ssa (pc + a.1.length + b.1.length))

/-- The code of arguments. -/
def compileExprs (pc : Nat) : List Expr → List (Stmt V) × List (Op V)
  | [] => ([], [])
  | e :: es =>
    let a := compileExpr pc e
    let b := compileExprs (pc + a.1.length) es
    (a.1 ++ b.1, a.2 :: b.2)

end

/-- The code that binds the exception. -/
def compileCatch (pc : Nat) : Option String → List (Stmt V)
  | none => []
  | some name => [.caught, .assign (names.idxOf name) (.ssa pc)]

mutual

/-- The code of a statement at `pc`, and the operand that holds its value. -/
def compileStmt (pc : Nat) : SrcStmt → List (Stmt V) × Option (Op V)
  | .assign name e =>
    let a := compileExpr names structs pc e
    (a.1 ++ [.assign (names.idxOf name) a.2], some (.slot (names.idxOf name)))
  | .fieldAssign var field e =>
    let a := compileExpr names structs pc e
    (a.1 ++ [.setField (.slot (names.idxOf var)) field a.2], some a.2)
  | .expr e =>
    let a := compileExpr names structs pc e
    (a.1, some a.2)
  | .indexAssign var idx e =>
    let a := compileExpr names structs pc idx
    let b := compileExpr names structs (pc + a.1.length) e
    (a.1 ++ (b.1 ++ [.arraySet (.slot (names.idxOf var)) a.2 b.2]), some b.2)
  | .ite cond then_ else_ =>
    let a := compileExpr names structs pc cond
    let t := (compileBlock (pc + a.1.length + 1) then_).1
    let elseStart := pc + a.1.length + 1 + t.length + 1
    let e := (compileBlock elseStart else_).1
    (a.1 ++ .gotoIfNot a.2 elseStart :: (t ++ .goto (elseStart + e.length) :: e), none)
  | .while cond body =>
    let a := compileExpr names structs pc cond
    let b := (compileBlock (pc + a.1.length + 1) body).1
    (a.1 ++ .gotoIfNot a.2 (pc + a.1.length + 1 + b.length + 1) :: (b ++ [.goto pc]), none)
  | .tryCatch body var handler =>
    let b := (compileBlock (pc + 1) body).1
    let catchStart := pc + 1 + b.length + 2
    let c := compileCatch names catchStart var
    let h := (compileBlock (catchStart + c.length) handler).1
    (.enter catchStart :: (b ++ .leave 1 :: .goto (catchStart + c.length + h.length + 1) ::
      (c ++ (h ++ [.popException (.ssa pc)]))), none)
  | .tryFinally body cleanup =>
    let b := (compileBlock (pc + 1) body).1
    let c := (compileBlock (pc + 1 + b.length + 1) cleanup).1
    let catchStart := pc + 1 + b.length + 1 + c.length + 1
    let c' := (compileBlock catchStart cleanup).1
    (.enter catchStart :: (b ++ .leave 1 :: (c ++ .goto (catchStart + c'.length + 1) ::
      (c' ++ [.rethrow]))), none)
  | .structDef _ _ _ => ([], none)

/-- The code of a block. -/
def compileBlock (pc : Nat) : List SrcStmt → List (Stmt V) × Option (Op V)
  | [] => ([], none)
  | [s] => compileStmt pc s
  | s :: stmts =>
    let a := compileStmt pc s
    let b := compileBlock (pc + a.1.length) stmts
    (a.1 ++ b.1, b.2)

end

end Code

/-! ### Names and calls

What a successful lowering has checked: every variable has a slot, and every call is
one of the known forms or names a type. -/

section Closed

variable (names : List String) (structs : List StructDef)

mutual

/-- The variables of the expression have slots, and its calls have a callee. -/
def Expr.closed : Expr → Bool
  | .int _ | .float _ => true
  | .var name => decide (name ∈ names)
  | .bin _ lhs rhs => lhs.closed && rhs.closed
  | .call name args => (callee structs name args.length).isOk && Expr.allClosed args
  | .field base _ => base.closed
  | .arrayLit elems => Expr.allClosed elems
  | .index base idx => base.closed && idx.closed

/-- The same for all expressions of a list. -/
def Expr.allClosed : List Expr → Bool
  | [] => true
  | e :: es => e.closed && Expr.allClosed es

end

mutual

/-- The variables of the statement have slots, and its calls have a callee. -/
def SrcStmt.closed : SrcStmt → Bool
  | .assign name e => e.closed names structs && decide (name ∈ names)
  | .fieldAssign var _ e => e.closed names structs && decide (var ∈ names)
  | .expr e => e.closed names structs
  | .indexAssign var idx e =>
    idx.closed names structs && (e.closed names structs && decide (var ∈ names))
  | .ite cond then_ else_ =>
    cond.closed names structs && (SrcStmt.allClosed then_ && SrcStmt.allClosed else_)
  | .while cond body => cond.closed names structs && SrcStmt.allClosed body
  | .tryCatch body var handler =>
    SrcStmt.allClosed body &&
      ((var.all fun name => decide (name ∈ names)) && SrcStmt.allClosed handler)
  | .tryFinally body cleanup => SrcStmt.allClosed body && SrcStmt.allClosed cleanup
  | .structDef _ _ _ => true

/-- The same for all statements of a block. -/
def SrcStmt.allClosed : List SrcStmt → Bool
  | [] => true
  | s :: stmts => s.closed && SrcStmt.allClosed stmts

end

end Closed

/-! ### Growing registries -/

/-- The definitions of the first registry are those of the second one. -/
def Extends (structs structs' : List StructDef) : Prop :=
  ∀ name d, findStruct structs name = some d → findStruct structs' name = some d

theorem Extends.refl (structs : List StructDef) : Extends structs structs := fun _ _ h => h

theorem Extends.trans {a b c : List StructDef} (hab : Extends a b) (hbc : Extends b c) :
    Extends a c := fun name d h => hbc name d (hab name d h)

theorem extends_append (structs more : List StructDef) : Extends structs (structs ++ more) := by
  intro name d h
  unfold findStruct at h ⊢
  rw [List.find?_append, h, Option.some_or]

theorem extends_defineStruct {structs structs' : List StructDef} {d : StructDef}
    (h : defineStruct structs d = .ok structs') : Extends structs structs' := by
  unfold defineStruct at h
  split at h
  · split at h
    · cases h
      exact .refl _
    · cases h
  · cases h
    exact extends_append _ _

theorem extends_declare {structs structs' : List StructDef} {name : String} {mutabl : Bool}
    {fields : List (String × Option String)}
    (h : declare structs name mutabl fields = .ok structs') :
    Extends structs structs' := by
  obtain ⟨resolved, -, h⟩ := bind_eq_ok.mp h
  exact extends_defineStruct h

theorem Extends.resolveType {structs structs' : List StructDef} (hext : Extends structs structs')
    {name : String} {t : TypeRef} (h : resolveType structs name = .ok t) :
    resolveType structs' name = .ok t := by
  unfold Frontend.resolveType at h ⊢
  cases hb : builtinType name with
  | some id =>
    rw [hb] at h
    exact h
  | none =>
    rw [hb] at h
    cases hf : findStruct structs name with
    | none =>
      rw [hf] at h
      cases h
    | some d =>
      rw [hf] at h
      dsimp only
      rw [hext name d hf]
      exact h

/-- A call has as many arguments as its callee takes. -/
theorem callee_takes {structs : List StructDef} {name : String} {nargs : Nat} {f : Callee}
    (h : callee structs name nargs = .ok f) : f.Takes nargs := by
  unfold callee at h
  split_ifs at h with h₁ h₂ h₃
  · cases h
    exact h₁.2
  · cases h
    exact h₂.2
  · cases h
    exact h₃.2
  · obtain ⟨t, -, rfl⟩ := map_eq_ok.mp h
    trivial

theorem Extends.callee {structs structs' : List StructDef} (hext : Extends structs structs')
    {name : String} {nargs : Nat} {f : Callee} (h : callee structs name nargs = .ok f) :
    callee structs' name nargs = .ok f := by
  unfold Frontend.callee at h ⊢
  split_ifs at h ⊢
  · exact h
  · exact h
  · exact h
  · obtain ⟨t, ht, rfl⟩ := map_eq_ok.mp h
    rw [hext.resolveType ht]
    rfl

/-! ### Lowering steps -/

section Lowering

variable {V α β : Type}

theorem LowerM.bind_ok {m : LowerM V α} {f : α → LowerM V β} {L L' : Lower V} {b : β} :
    (m >>= f) L = (.ok b, L') ↔ ∃ a L₁, m L = (.ok a, L₁) ∧ f a L₁ = (.ok b, L') := by
  have hbind : (m >>= f) L =
      match m L with
      | (.ok a, L₁) => f a L₁
      | (.error e, L₁) => (.error e, L₁) := by
    show (ExceptT.bindCont f (m L).1) (m L).2 = _
    cases hm : m L with
    | mk r L₁ => cases r <;> rfl
  rw [hbind]
  cases hm : m L with
  | mk r L₁ =>
    cases r with
    | error e =>
      constructor
      · intro h
        cases h
      · rintro ⟨a, L₁', heq, -⟩
        cases heq
    | ok a =>
      constructor
      · exact fun h => ⟨a, L₁, rfl, h⟩
      · rintro ⟨a', L₁', heq, h⟩
        cases heq
        exact h

/-- A piece of code and a result, for all names, a registry and a position. -/
abbrev Segment (V α : Type) := List String → List StructDef → Nat → List (Stmt V) × α

/-- What a step has appended, returned and checked.  Names and structs that are met
later change nothing in it. -/
structure Appended (seg : Segment V α) (ok : List String → List StructDef → Prop) (L : Lower V)
    (a : α) (L' : Lower V) : Prop where
  names : L.names <+: L'.names
  structs : Extends L.structs L'.structs
  code : ∀ names structs, L'.names <+: names → Extends L'.structs structs →
    L'.code = L.code ++ (seg names structs L.code.length).1
  result : ∀ names structs, L'.names <+: names → Extends L'.structs structs →
    a = (seg names structs L.code.length).2
  checked : ∀ names structs, L'.names <+: names → Extends L'.structs structs → ok names structs

/-- The step appends the segment. -/
def Compiles (m : LowerM V α) (seg : Segment V α) (ok : List String → List StructDef → Prop) :
    Prop :=
  ∀ L a L', m L = (.ok a, L') → Appended seg ok L a L'

namespace Compiles

variable {m : LowerM V α} {f : α → LowerM V β} {seg : Segment V α} {seg' : α → Segment V β}
  {ok ok' : List String → List StructDef → Prop}

theorem pure (a : α) :
    Compiles (Pure.pure a : LowerM V α) (fun _ _ _ => ([], a)) fun _ _ => True := by
  intro L a' L' h
  cases h
  exact ⟨List.prefix_rfl, .refl _, fun _ _ _ _ => (List.append_nil _).symm, fun _ _ _ _ => rfl,
    fun _ _ _ _ => trivial⟩

/-- One step after the other. -/
theorem bind (hm : Compiles m seg ok) (hf : ∀ a, Compiles (f a) (seg' a) ok') :
    Compiles (m >>= f) (fun names structs pc =>
      ((seg names structs pc).1 ++
        (seg' (seg names structs pc).2 names structs (pc + (seg names structs pc).1.length)).1,
       (seg' (seg names structs pc).2 names structs (pc + (seg names structs pc).1.length)).2))
      fun names structs => ok names structs ∧ ok' names structs := by
  intro L b L' h
  obtain ⟨a, L₁, h₁, h₂⟩ := LowerM.bind_ok.mp h
  have hA := hm L a L₁ h₁
  have hB := hf a L₁ b L' h₂
  have hlen : ∀ names structs, L'.names <+: names → Extends L'.structs structs →
      L₁.code = L.code ++ (seg names structs L.code.length).1 ∧
        a = (seg names structs L.code.length).2 := by
    intro names structs hn hs
    exact ⟨hA.code names structs (hB.names.trans hn) (hB.structs.trans hs),
      hA.result names structs (hB.names.trans hn) (hB.structs.trans hs)⟩
  refine ⟨hA.names.trans hB.names, hA.structs.trans hB.structs, ?_, ?_, ?_⟩
  · intro names structs hn hs
    obtain ⟨hcode, hres⟩ := hlen names structs hn hs
    have := hB.code names structs hn hs
    rw [hcode, List.length_append, List.append_assoc] at this
    rw [this, ← hres]
  · intro names structs hn hs
    obtain ⟨hcode, hres⟩ := hlen names structs hn hs
    have := hB.result names structs hn hs
    rw [hcode, List.length_append] at this
    rw [this, ← hres]
  · intro names structs hn hs
    exact ⟨hA.checked names structs (hB.names.trans hn) (hB.structs.trans hs),
      hB.checked names structs hn hs⟩

theorem congr {seg₂ : Segment V α} (h : Compiles m seg ok)
    (heq : ∀ names structs pc, seg names structs pc = seg₂ names structs pc)
    (hok : ∀ names structs, ok names structs → ok' names structs) : Compiles m seg₂ ok' := by
  obtain rfl : seg = seg₂ := by
    funext names structs pc
    exact heq names structs pc
  intro L a L' hm
  have hA := h L a L' hm
  exact ⟨hA.names, hA.structs, hA.code, hA.result,
    fun names structs hn hs => hok names structs (hA.checked names structs hn hs)⟩

theorem of_eq {m' : LowerM V α} (h : Compiles m seg ok) (heq : m' = m) : Compiles m' seg ok := by
  rwa [heq]

theorem emit (s : Stmt V) :
    Compiles (Frontend.emit s) (fun _ _ pc => ([s], pc)) fun _ _ => True := by
  intro L a L' h
  cases h
  exact ⟨List.prefix_rfl, .refl _, fun _ _ _ _ => rfl, fun _ _ _ _ => rfl, fun _ _ _ _ => trivial⟩

theorem here : Compiles (Frontend.here : LowerM V Nat)
    (fun _ _ pc => ([], pc)) fun _ _ => True := by
  intro L a L' h
  cases h
  exact ⟨List.prefix_rfl, .refl _, fun _ _ _ _ => (List.append_nil _).symm, fun _ _ _ _ => rfl,
    fun _ _ _ _ => trivial⟩

/-- A name keeps its slot. -/
theorem idxOf_extend {l l' : List String} (h : l <+: l') {x : String} (hx : x ∈ l) :
    l'.idxOf x = l.idxOf x := by
  obtain ⟨t, rfl⟩ := h
  exact List.idxOf_append_of_mem hx

theorem slot (name : String) :
    Compiles (Frontend.slot name : LowerM V Nat) (fun names _ _ => ([], names.idxOf name))
      fun names _ => name ∈ names := by
  intro L a L' h
  unfold Frontend.slot at h
  split at h
  · rename_i hmem
    cases h
    exact ⟨List.prefix_rfl, .refl _, fun _ _ _ _ => (List.append_nil _).symm,
      fun _ _ hn _ => (idxOf_extend hn hmem).symm, fun _ _ hn _ => hn.subset hmem⟩
  · rename_i hmem
    cases h
    have hnew : name ∈ L.names ++ [name] := List.mem_append_right _ List.mem_cons_self
    refine ⟨List.prefix_append _ _, .refl _, fun _ _ _ _ => (List.append_nil _).symm, ?_,
      fun _ _ hn _ => hn.subset hnew⟩
    intro names structs hn _
    rw [idxOf_extend hn hnew, List.idxOf_append_of_notMem hmem, List.idxOf_cons_self,
      Nat.add_zero]

theorem lookupCallee (name : String) (nargs : Nat) :
    Compiles (Frontend.lookup (fun structs => callee structs name nargs) : LowerM V Callee)
      (fun _ structs _ => ([], calleeOf structs name nargs))
      fun _ structs => (callee structs name nargs).isOk = true := by
  intro L a L' h
  have hf : callee L.structs name nargs = .ok a := (Prod.ext_iff.mp h).1
  obtain rfl : L = L' := (Prod.ext_iff.mp h).2
  refine ⟨List.prefix_rfl, .refl _, fun _ _ _ _ => (List.append_nil _).symm, ?_, ?_⟩
  · intro _ structs _ hs
    rw [calleeOf, hs.callee hf]
  · intro _ structs _ hs
    rw [hs.callee hf]
    rfl

theorem lowerStruct (name : String) (mutabl : Bool) (fields : List (String × Option String)) :
    Compiles (Frontend.lowerStruct name mutabl fields : LowerM V Unit) (fun _ _ _ => ([], ()))
      fun _ _ => True := by
  intro L a L' h
  unfold Frontend.lowerStruct at h
  cases hd : declare L.structs name mutabl fields with
  | error msg =>
    rw [hd] at h
    cases h
  | ok structs =>
    rw [hd] at h
    cases h
    exact ⟨List.prefix_rfl, extends_declare hd, fun _ _ _ _ => (List.append_nil _).symm,
      fun _ _ _ _ => rfl, fun _ _ _ _ => trivial⟩

/-- A modification behind a list leaves the list. -/
theorem modify_append_right {γ : Type} {l l' : List γ} {g : γ → γ} {i : Nat} (h : l.length ≤ i) :
    (l ++ l').modify i g = l ++ l'.modify (i - l.length) g := by
  induction l generalizing i with
  | nil => simp
  | cons x l ih =>
    obtain ⟨j, rfl⟩ := Nat.exists_eq_add_of_le' (Nat.lt_of_lt_of_le (Nat.succ_pos _) h)
    have hj : l.length ≤ j := by
      rw [List.length_cons] at h
      omega
    rw [List.cons_append, List.cons_append, List.modify_succ_cons, ih hj, List.length_cons,
      Nat.add_sub_add_right]

/-- A modification of the statement behind a piece of code. -/
theorem modify_length {γ : Type} (g : γ → γ) (l₁ l₂ : List γ) (x : γ) :
    (l₁ ++ x :: l₂).modify l₁.length g = l₁ ++ g x :: l₂ := by
  rw [modify_append_right (Nat.le_refl _), Nat.sub_self]
  rfl

/-- A modification of a later statement. -/
theorem modify_behind {γ : Type} (g : γ → γ) (l₁ l₂ : List γ) {i : Nat}
    (hi : i = l₁.length + l₂.length + 1) (x y : γ) (l₃ : List γ) :
    (l₁ ++ x :: (l₂ ++ y :: l₃)).modify i g = l₁ ++ x :: (l₂ ++ g y :: l₃) := by
  have hat := modify_length g (l₁ ++ x :: l₂) l₃ y
  have hlen : (l₁ ++ x :: l₂).length = i := by
    simp [hi, Nat.add_assoc]
  rw [hlen] at hat
  simpa using hat

/-- A patch of a statement that the step has emitted itself. -/
theorem patch {m : LowerM V α} (idx target : α → Nat) (hm : Compiles m seg ok)
    (hle : ∀ names structs pc, pc ≤ idx (seg names structs pc).2) :
    Compiles (do let a ← m; Frontend.patch (idx a) (target a); Pure.pure a)
      (fun names structs pc =>
        ((seg names structs pc).1.modify (idx (seg names structs pc).2 - pc)
          (retarget (target (seg names structs pc).2)), (seg names structs pc).2)) ok := by
  intro L b L' h
  obtain ⟨a, L₁, h₁, h₂⟩ := LowerM.bind_ok.mp h
  obtain ⟨_, L₂, h₂, h₃⟩ := LowerM.bind_ok.mp h₂
  cases h₂
  cases h₃
  have hA := hm L b L₁ h₁
  refine ⟨hA.names, hA.structs, ?_, hA.result, hA.checked⟩
  intro names structs hn hs
  have hcode := hA.code names structs hn hs
  have hres := hA.result names structs hn hs
  have hidx : L.code.length ≤ idx b := by
    rw [hres]
    exact hle names structs L.code.length
  show L₁.code.modify (idx b) (retarget (target b)) = _
  rw [hcode, modify_append_right hidx, ← hres]

end Compiles

mutual

/-- The lowering of an expression. -/
theorem compiles_expr : ∀ e : Expr, Compiles (lowerExpr e : LowerM V (Op V))
    (fun names structs pc => compileExpr names structs pc e)
    fun names structs => e.closed names structs = true
  | .int n => (Compiles.pure _).congr (fun _ _ _ => rfl) fun _ _ _ => rfl
  | .float bits => (Compiles.pure _).congr (fun _ _ _ => rfl) fun _ _ _ => rfl
  | .var name => by
    refine ((Compiles.slot name).bind fun s => Compiles.pure _).congr ?_ ?_
    · intro names structs pc
      rfl
    · intro names structs h
      exact decide_eq_true h.1
  | .bin op lhs rhs => by
    refine ((compiles_expr lhs).bind fun lo => (compiles_expr rhs).bind fun ro =>
      (Compiles.emit (.call (binop op).1 (binArgs op lo ro))).bind fun i =>
        Compiles.pure (Op.ssa i)).congr ?_ ?_
    · intro names structs pc
      simp [compileExpr]
    · intro names structs h
      simp [Expr.closed, h.1, h.2.1]
  | .call name args => by
    refine ((Compiles.lookupCallee name args.length).bind fun f =>
      (compiles_exprs args).bind fun ops => (Compiles.emit (f.stmt ops)).bind fun i =>
        Compiles.pure (Op.ssa i)).congr ?_ ?_
    · intro names structs pc
      simp [compileExpr]
    · intro names structs h
      simp [Expr.closed, h.1, h.2.1]
  | .field base name => by
    refine ((compiles_expr base).bind fun b => (Compiles.emit (.getField b name)).bind fun i =>
      Compiles.pure (Op.ssa i)).congr ?_ ?_
    · intro names structs pc
      simp [compileExpr]
    · intro names structs h
      simp [Expr.closed, h.1]
  | .arrayLit elems => by
    refine ((compiles_exprs elems).bind fun ops => (Compiles.emit (.arrayLit ops)).bind fun i =>
      Compiles.pure (Op.ssa i)).congr ?_ ?_
    · intro names structs pc
      simp [compileExpr]
    · intro names structs h
      simp [Expr.closed, h.1]
  | .index base idx => by
    refine ((compiles_expr base).bind fun b => (compiles_expr idx).bind fun j =>
      (Compiles.emit (.arrayRef b j)).bind fun i => Compiles.pure (Op.ssa i)).congr ?_ ?_
    · intro names structs pc
      simp [compileExpr]
    · intro names structs h
      simp [Expr.closed, h.1, h.2.1]

/-- The lowering of arguments. -/
theorem compiles_exprs : ∀ es : List Expr, Compiles (lowerExprs es : LowerM V (List (Op V)))
    (fun names structs pc => compileExprs names structs pc es)
    fun names structs => Expr.allClosed names structs es = true
  | [] => (Compiles.pure _).congr (fun _ _ _ => rfl) fun _ _ _ => rfl
  | e :: es => by
    refine ((compiles_expr e).bind fun o => (compiles_exprs es).bind fun os =>
      Compiles.pure (o :: os)).congr ?_ ?_
    · intro names structs pc
      simp [compileExprs]
    · intro names structs h
      simp [Expr.allClosed, h.1, h.2.1]

end

/-- The lowering of `catch name`. -/
theorem compiles_catch : ∀ var : Option String, Compiles (lowerCatch var : LowerM V Unit)
    (fun names _ pc => (compileCatch names pc var, ()))
    fun names _ => ∀ name, var = some name → name ∈ names
  | none => (Compiles.pure _).congr (fun _ _ _ => rfl) fun _ _ _ _ h => by cases h
  | some name => by
    refine ((Compiles.emit .caught).bind fun c => (Compiles.slot name).bind fun s =>
      (Compiles.emit (.assign s (.ssa c))).bind fun _ => Compiles.pure ()).congr ?_ ?_
    · intro names structs pc
      simp [compileCatch]
    · intro names structs h name' hname
      cases hname
      exact h.2.1

mutual

/-- The lowering of a statement. -/
theorem compiles_stmt : ∀ s : SrcStmt, Compiles (lowerStmt s : LowerM V (Option (Op V)))
    (fun names structs pc => compileStmt names structs pc s)
    fun names structs => s.closed names structs = true
  | .assign name e => by
    refine ((compiles_expr e).bind fun op => (Compiles.slot name).bind fun s =>
      (Compiles.emit (.assign s op)).bind fun _ => Compiles.pure (some (Op.slot s))).congr ?_ ?_
    · intro names structs pc
      simp [compileStmt]
    · intro names structs h
      simp [SrcStmt.closed, h.1, h.2.1]
  | .fieldAssign var field e => by
    refine ((compiles_expr e).bind fun rhs => (Compiles.slot var).bind fun s =>
      (Compiles.emit (.setField (.slot s) field rhs)).bind fun _ =>
        Compiles.pure (some rhs)).congr ?_ ?_
    · intro names structs pc
      simp [compileStmt]
    · intro names structs h
      simp [SrcStmt.closed, h.1, h.2.1]
  | .expr e => by
    refine ((compiles_expr e).bind fun op => Compiles.pure (some op)).congr ?_ ?_
    · intro names structs pc
      simp [compileStmt]
    · intro names structs h
      simp [SrcStmt.closed, h.1]
  | .indexAssign var idx e => by
    refine ((compiles_expr idx).bind fun i => (compiles_expr e).bind fun rhs =>
      (Compiles.slot var).bind fun s => (Compiles.emit (.arraySet (.slot s) i rhs)).bind fun _ =>
        Compiles.pure (some rhs)).congr ?_ ?_
    · intro names structs pc
      simp [compileStmt]
    · intro names structs h
      simp [SrcStmt.closed, h.1, h.2.1, h.2.2.1]
  | .ite cond then_ else_ => by
    refine (((((compiles_expr cond).bind fun c => (Compiles.emit (.gotoIfNot c 0)).bind fun gif =>
      (compiles_block then_).bind fun _ => (Compiles.emit (.goto 0)).bind fun gend =>
      Compiles.here.bind fun elseStart => (compiles_block else_).bind fun _ =>
      Compiles.here.bind fun stop => Compiles.pure (gif, elseStart, gend, stop)).patch
        (·.1) (·.2.1) (by simp)).patch (·.2.2.1) (·.2.2.2) (by simp; omega)).bind fun _ =>
      Compiles.pure none).congr ?_ ?_ |>.of_eq (by simp [lowerStmt])
    · intro names structs pc
      simp [compileStmt, retarget, Compiles.modify_length]
      exact Compiles.modify_behind _ _ _ (by omega) _ _ _
    · intro names structs h
      simp [SrcStmt.closed, h.1.1, h.1.2.2.1, h.1.2.2.2.2.2.1]
  | .while cond body => by
    refine (((Compiles.here.bind fun start => (compiles_expr cond).bind fun c =>
      (Compiles.emit (.gotoIfNot c 0)).bind fun gif => (compiles_block body).bind fun _ =>
      (Compiles.emit (.goto start)).bind fun _ => Compiles.here.bind fun stop =>
      Compiles.pure (gif, stop)).patch (·.1) (·.2) (by simp)).bind fun _ =>
      Compiles.pure none).congr ?_ ?_ |>.of_eq (by simp [lowerStmt])
    · intro names structs pc
      simp [compileStmt, retarget, Compiles.modify_length]
    · intro names structs h
      simp [SrcStmt.closed, h.1.2.1, h.1.2.2.2.1]
  | .tryCatch body var handler => by
    refine ((((((Compiles.emit (.enter 0)).bind fun enter => (compiles_block body).bind fun _ =>
      (Compiles.emit (.leave 1)).bind fun _ => (Compiles.emit (.goto 0)).bind fun gend =>
      Compiles.here.bind fun catchStart => Compiles.pure (enter, gend, catchStart)).patch
        (·.1) (·.2.2) (by simp)).bind fun x =>
      (compiles_catch var).bind fun _ => (compiles_block handler).bind fun _ =>
      (Compiles.emit (.popException (.ssa x.1))).bind fun _ => Compiles.here.bind fun stop =>
      Compiles.pure (x.2.1, stop)).patch (·.1) (·.2) (by simp; omega)).bind fun _ =>
      Compiles.pure none).congr ?_ ?_ |>.of_eq (by simp [lowerStmt])
    · intro names structs pc
      simp [compileStmt, retarget]
      generalize (compileBlock names structs (pc + 1) body).1 = b
      have hstart : pc + (b.length + 2 + 1) = pc + 1 + b.length + 2 := by omega
      rw [hstart]
      refine Compiles.modify_behind _ (_ :: b) [] ?_ _ _ _
      simp
      omega
    · intro names structs h
      have hvar : (var.all fun name => decide (name ∈ names)) = true := by
        cases var with
        | none => rfl
        | some name => exact decide_eq_true (h.1.2.1 name rfl)
      simp [SrcStmt.closed, h.1.1.2.1, h.1.2.2.1, hvar]
  | .tryFinally body cleanup => by
    refine ((((((Compiles.emit (.enter 0)).bind fun enter => (compiles_block body).bind fun _ =>
      (Compiles.emit (.leave 1)).bind fun _ => (compiles_block cleanup).bind fun _ =>
      (Compiles.emit (.goto 0)).bind fun gend => Compiles.here.bind fun catchStart =>
      Compiles.pure (enter, gend, catchStart)).patch (·.1) (·.2.2) (by simp)).bind fun x =>
      (compiles_block cleanup).bind fun _ => (Compiles.emit .rethrow).bind fun _ =>
      Compiles.here.bind fun stop => Compiles.pure (x.2.1, stop)).patch
        (·.1) (·.2) (by simp; omega)).bind fun _ => Compiles.pure none).congr ?_ ?_ |>.of_eq
      (by simp [lowerStmt])
    · intro names structs pc
      simp [compileStmt, retarget]
      generalize (compileBlock names structs (pc + 1) body).1 = b
      generalize (compileBlock names structs (pc + 1 + b.length + 1) cleanup).1 = c
      have hstart : pc + (b.length + (c.length + 1 + 1) + 1) =
          pc + 1 + b.length + 1 + c.length + 1 := by omega
      rw [hstart]
      refine Compiles.modify_behind _ (_ :: b) c ?_ _ _ _
      simp
      omega
    · intro names structs h
      simp [SrcStmt.closed, h.1.1.2.1, h.1.1.2.2.2.1]
  | .structDef name mutabl fields => by
    refine ((Compiles.lowerStruct name mutabl fields).bind fun _ => Compiles.pure none).congr ?_ ?_
    · intro names structs pc
      rfl
    · intro names structs _
      rfl

/-- The lowering of a block. -/
theorem compiles_block : ∀ stmts : List SrcStmt,
    Compiles (lowerBlock stmts : LowerM V (Option (Op V)))
    (fun names structs pc => compileBlock names structs pc stmts)
    fun names structs => SrcStmt.allClosed names structs stmts = true
  | [] => (Compiles.pure _).congr (fun _ _ _ => rfl) fun _ _ _ => rfl
  | [s] => by
    refine (compiles_stmt s).congr ?_ ?_
    · intro names structs pc
      simp [compileBlock]
    · intro names structs h
      simp [SrcStmt.allClosed, h]
  | s :: t :: stmts => by
    refine ((compiles_stmt s).bind fun _ => compiles_block (t :: stmts)).congr ?_ ?_
    · intro names structs pc
      simp [compileBlock]
    · intro names structs h
      rw [SrcStmt.allClosed, h.1, h.2]
      rfl

end

/-- The code of a program returns the value of the last statement, or 0. -/
theorem lowerProgram_code {structs structs' : List StructDef} {prog : List SrcStmt} {body : Body V}
    {names : List String} (h : lowerProgram structs prog = (.ok (body, names), structs')) :
    body = ⟨names.length, (compileBlock names structs' 0 prog).1 ++
        [.return ((compileBlock names structs' 0 prog).2.getD (.int 0))]⟩ ∧
      SrcStmt.allClosed names structs' prog = true ∧ Extends structs structs' := by
  have hcode := (compiles_block (V := V) prog).bind fun last =>
    (Compiles.emit (.return (last.getD (.int 0)))).bind fun _ => Compiles.pure ()
  obtain ⟨hlow, rfl⟩ := Prod.ext_iff.mp h
  obtain ⟨_, hok, heq⟩ := map_eq_ok.mp hlow
  have hA := hcode _ _ _ (Prod.ext hok rfl)
  obtain ⟨rfl, rfl⟩ := Prod.ext_iff.mp heq
  have hbody := hA.code _ _ List.prefix_rfl (.refl _)
  rw [List.nil_append] at hbody
  refine ⟨?_, (hA.checked _ _ List.prefix_rfl (.refl _)).1, hA.structs⟩
  rw [Body.mk.injEq]
  exact ⟨rfl, hbody⟩

/-- The statements of a program have been lowered, and the registry is what they left. -/
theorem lowerProgram_block {structs structs' : List StructDef} {prog : List SrcStmt} {body : Body V}
    {names : List String} (h : lowerProgram structs prog = (.ok (body, names), structs')) :
    ∃ (o : Option (Op V)) (L' : Lower V),
      lowerBlock prog ⟨[], [], structs⟩ = (.ok o, L') ∧ L'.structs = structs' := by
  obtain ⟨hlow, rfl⟩ := Prod.ext_iff.mp h
  obtain ⟨_, hok, -⟩ := map_eq_ok.mp hlow
  obtain ⟨o, L', hblock, hrest⟩ := LowerM.bind_ok.mp (Prod.ext hok rfl)
  exact ⟨o, L', hblock, congrArg (fun r => r.2.structs) hrest⟩

end Lowering

end Ruju.Frontend
