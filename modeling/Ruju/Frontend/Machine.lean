import Ruju.Frontend.Compile
import Ruju.Library.Stepping

/-!
# Rounds of the interpreter

What the loop of `eval_core` does in one round at a statement of lowered code, when the
values of its operands are known.  Lowered code makes no calls, so a round is the same
whatever the calls of the activation are.

A `Guard` is a property of values and one of heaps that the primitives keep.  A round is
guarded when every operand that it reads has the property; the guard is carried along, so
that a result about the code's behaviour is also one about all values that it reads.

The interpreter reads all operands of a statement before it uses the first.  Where the first
is the box of a literal and in no root, the statement works on what `Prims.keep` finds there;
the source expression does the same, so that rounds and expressions stay in step.
-/

namespace Ruju.Frontend

open Interp

variable {V H : Type} (P : Prims V H)

/-! ### Operands -/

/-- The operands that a statement reads. -/
def operands : Stmt V → List (Op V)
  | .value op | .return op | .throw op | .popException op | .len op => [op]
  | .call _ args | .callGeneric _ args | .callValue args | .new _ args | .arrayLit args => args
  | .assign _ op | .assignGlobal _ op | .getField op _ | .gotoIfNot op _ => [op]
  | .assignCall _ args => args
  | .setField a _ b | .arrayRef a b | .push a b => [a, b]
  | .methodDef f sig _ _ => [f, sig]
  | .arraySet a b c => [a, b, c]
  | .goto _ | .enter _ | .leave _ | .isDefined _ | .methodFunc _ | .caught | .assignCaught _
  | .rethrow | .latestWorld => []

/-- A call reads its arguments. -/
theorem operands_callee (f : Callee) (ops : List (Op V)) : operands (f.stmt ops) = ops := by
  unfold Callee.stmt
  split <;> rfl

theorem mem_binArgs {α : Type} {op : BinOp} {a b x : α} :
    x ∈ binArgs op a b ↔ x = a ∨ x = b := by
  unfold binArgs
  split
  · simp [or_comm]
  · simp

theorem forall₂_binArgs {α β : Type} {R : α → β → Prop} {op : BinOp} {a b : α} {x y : β}
    (hx : R a x) (hy : R b y) : List.Forall₂ R (binArgs op a b) (binArgs op x y) := by
  unfold binArgs
  split
  · exact .cons hy (.cons hx .nil)
  · exact .cons hx (.cons hy .nil)

/-- What `read_op` finds. -/
def operandValue [DecidableEq V] (nslots : Nat) (c : Config V H) : Op V → Option V
  | .ssa i => c.frame[nslots + i]?
  | .slot k => c.frame[k]?
  | .int n => some (P.boxInt n)
  | .float bits => some (P.boxFloat bits)
  | .const v => some v
  | .global sym => getGlobal P.null c.state.main sym

/-- Every operand of the next statement has the property. -/
def Guarded [DecidableEq V] (Good : V → Prop) (body : Body V) (c : Config V H) : Prop :=
  ∀ s, body.code[c.ip]? = some s → ∀ op ∈ operands s, ∀ v,
    operandValue P body.nslots c op = some v → Good v

section Rounds

variable {P} {nslots : Nat} {c c' : Config V H} {α β : Type}

theorem bind_of_ok {m : EvalM V H α} {f : α → EvalM V H β} {a : α} (h : m c = .ok (.ok a, c')) :
    (m >>= f) c = f a c' := by
  rw [Keeps.bind_apply, h]

theorem bind_of_error {m : EvalM V H α} {f : α → EvalM V H β} {e : V}
    (h : m c = .ok (.error e, c')) : (m >>= f) c = .ok (.error e, c') := by
  rw [Keeps.bind_apply, h]

theorem setFrame_eq {i : Nat} (v : V) (h : i < c.frame.length) :
    setFrame i v c = .ok (.ok (), { c with frame := c.frame.set i v }) := by
  rw [setFrame, if_pos h]

/-- What one operation on the heap after another does. -/
theorem heapOp_bind (f : HeapOp V H α) (g : α → HeapOp V H β) (h : H) :
    (f >>= g) h =
      match f h with
      | (.ok a, h') => g a h'
      | (.error e, h') => (.error e, h') := by
  show (ExceptT.bindCont g (f h).1) (f h).2 = _
  cases f h with
  | mk r h' => cases r <;> rfl

theorem onHeap_bind (f : HeapOp V H α) (g : α → HeapOp V H β) :
    onHeap (f >>= g) c = (onHeap f >>= fun a => onHeap (g a) : EvalM V H β) c := by
  rw [Keeps.bind_apply, onHeap, onHeap, heapOp_bind]
  cases f c.state.heap with
  | mk r h => cases r <;> rfl

/-- Two operations on the heap with one result are one operation. -/
theorem onHeap_seq (f : HeapOp V H α) (g : α → HeapOp V H β) {γ : Type} (k : β → EvalM V H γ) :
    (onHeap f >>= fun a => onHeap (g a) >>= k) = onHeap (f >>= g) >>= k := by
  funext c
  rw [Keeps.bind_apply, Keeps.bind_apply, onHeap_bind, Keeps.bind_apply]
  cases onHeap f c with
  | error x => rfl
  | ok r =>
    obtain ⟨r, c'⟩ := r
    cases r with
    | error e => rfl
    | ok a => exact Keeps.bind_apply k c'

/-- An operation without a result of its own, whose statement has the value `w`. -/
theorem onHeap_then (f : HeapOp V H Unit) (w : V) :
    (do onHeap f; setResult nslots w; pure .next : EvalM V H (Flow V)) =
      (do let v ← onHeap (do f; pure w); setResult nslots v; pure .next : EvalM V H (Flow V)) :=
  onHeap_seq f (fun _ => pure w) fun v => do setResult nslots v; pure (.next : Flow V)

variable [DecidableEq V]

/-- `read_op` finds the value and changes nothing. -/
theorem readOp_eq {op : Op V} {v : V} (h : operandValue P nslots c op = some v) :
    readOp P nslots op c = .ok (.ok v, c) := by
  cases op with
  | ssa i =>
    show getFrame (nslots + i) c = _
    rw [getFrame, show c.frame[nslots + i]? = some v from h]
  | slot k =>
    show getFrame k c = _
    rw [getFrame, show c.frame[k]? = some v from h]
  | int n =>
    obtain rfl := Option.some.inj h
    rfl
  | float bits =>
    obtain rfl := Option.some.inj h
    rfl
  | const w =>
    obtain rfl := Option.some.inj h
    rfl
  | global sym =>
    have hget : (get : EvalM V H (Config V H)) c = .ok (.ok c, c) := rfl
    rw [readOp, bind_of_ok hget, show getGlobal P.null c.state.main sym = some v from h]
    rfl

/-- Arguments are read from left to right. -/
theorem readArgs_eq {ops : List (Op V)} {vals : List V}
    (h : List.Forall₂ (fun op v => operandValue P nslots c op = some v) ops vals) :
    readArgs P nslots ops c = .ok (.ok vals, c) := by
  induction h with
  | nil => rfl
  | cons hv _ ih =>
    rw [readArgs, bind_of_ok (readOp_eq hv), bind_of_ok ih]
    rfl

/-- The statement carries out an operation on the heap and stores its result. -/
def Performs (P : Prims V H) (nslots : Nat) (c : Config V H) (s : Stmt V) (g : HeapOp V H V) :
    Prop :=
  ∀ calls, exec P calls nslots s c =
    (do let v ← onHeap g; setResult nslots v; pure .next : EvalM V H (Flow V)) c

variable {op op₁ op₂ op₃ : Op V} {v v₁ v₂ v₃ : V} {ops : List (Op V)} {vals : List V}

theorem performs_call (b : Builtin)
    (h : List.Forall₂ (fun op v => operandValue P nslots c op = some v) ops vals) :
    Performs P nslots c (.call b ops) (P.apply b vals) := by
  intro calls
  rw [exec, bind_of_ok (readArgs_eq h)]

theorem performs_getField (name : String) (h : operandValue P nslots c op = some v) :
    Performs P nslots c (.getField op name) (P.getField v name) := by
  intro calls
  rw [exec, bind_of_ok (readOp_eq h)]

theorem performs_arrayLit
    (h : List.Forall₂ (fun op v => operandValue P nslots c op = some v) ops vals) :
    Performs P nslots c (.arrayLit ops) (P.arrayLit vals) := by
  intro calls
  rw [exec, bind_of_ok (readArgs_eq h)]

theorem performs_arrayRef (h₁ : operandValue P nslots c op₁ = some v₁)
    (h₂ : operandValue P nslots c op₂ = some v₂) :
    Performs P nslots c (.arrayRef op₁ op₂)
      (do let a ← P.keep op₁.isLiteral op₂.isLiteral v₁; P.arrayRef a v₂) := by
  intro calls
  rw [exec, bind_of_ok (readOp_eq h₁), bind_of_ok (readOp_eq h₂), onHeap_seq]

theorem performs_setField (name : String) (h₁ : operandValue P nslots c op₁ = some v₁)
    (h₂ : operandValue P nslots c op₂ = some v₂) :
    Performs P nslots c (.setField op₁ name op₂)
      (do let a ← P.keep op₁.isLiteral op₂.isLiteral v₁; P.setField a name v₂; pure v₂) := by
  intro calls
  rw [exec, bind_of_ok (readOp_eq h₁), bind_of_ok (readOp_eq h₂)]
  simp only [onHeap_then, onHeap_seq]

theorem performs_arraySet (h₁ : operandValue P nslots c op₁ = some v₁)
    (h₂ : operandValue P nslots c op₂ = some v₂) (h₃ : operandValue P nslots c op₃ = some v₃) :
    Performs P nslots c (.arraySet op₁ op₂ op₃)
      (do
        let a ← P.keep op₁.isLiteral (op₂.isLiteral || op₃.isLiteral) v₁
        let i ← P.keep op₂.isLiteral op₃.isLiteral v₂
        P.arraySet a i v₃
        pure v₃) := by
  intro calls
  rw [exec, bind_of_ok (readOp_eq h₁), bind_of_ok (readOp_eq h₂), bind_of_ok (readOp_eq h₃)]
  simp only [onHeap_then, onHeap_seq]

/-- A call of the source language, with its arguments evaluated. -/
theorem performs_callee {f : Callee} (hf : f.Takes ops.length) (structs : List StructDef)
    (hstructs : c.state.structs = structs)
    (h : List.Forall₂ (fun op v => operandValue P nslots c op = some v) ops vals) :
    Performs P nslots c (f.stmt ops) (f.apply P structs ((ops.map Op.isLiteral).zip vals)) := by
  subst hstructs
  have hget : (get : EvalM V H (Config V H)) c = .ok (.ok c, c) := rfl
  have hvals : ((ops.map Op.isLiteral).zip vals).map (·.2) = vals := by
    clear hf
    induction h with
    | nil => rfl
    | cons _ _ ih => exact congrArg _ ih
  match f, h, hf with
  | .throw, .cons hv .nil, _ =>
    intro calls
    rw [Callee.stmt, exec, bind_of_ok (readOp_eq hv)]
    rfl
  | .push, .cons ha (.cons hv .nil), _ =>
    intro calls
    rw [Callee.stmt, exec, bind_of_ok (readOp_eq ha), bind_of_ok (readOp_eq hv)]
    simp only [onHeap_then, onHeap_seq]
    rfl
  | .length, .cons ha .nil, _ =>
    intro calls
    rw [Callee.stmt, exec, bind_of_ok (readOp_eq ha)]
    rfl
  | .new ty, h, _ =>
    intro calls
    rw [Callee.stmt, exec, bind_of_ok (readArgs_eq h), bind_of_ok hget, Callee.apply, hvals]
  -- no other number of arguments is taken
  | .throw, .nil, hf | .throw, .cons _ (.cons _ _), hf | .length, .nil, hf
  | .length, .cons _ (.cons _ _), hf | .push, .nil, hf | .push, .cons _ .nil, hf
  | .push, .cons _ (.cons _ (.cons _ _)), hf => simp [Callee.Takes] at hf

end Rounds

/-! ### Properties that the primitives keep -/

/-- A property of values, and one of heaps. -/
structure Guard (V H : Type) where
  good : V → Prop
  inv : H → Prop

section Yields

variable {α β : Type} {G : Guard V H}

/-- Every result satisfies `Q`, every exception has the property, and so has the heap. -/
def Yields (G : Guard V H) (Q : α → Prop) (g : HeapOp V H α) : Prop :=
  ∀ h, G.inv h →
    (match (g h).1 with
      | .ok a => Q a
      | .error e => G.good e) ∧
    G.inv (g h).2

/-- Every result satisfies `Q`, and the heap keeps the property; what goes wrong is a text. -/
def Reports (G : Guard V H) (Q : α → Prop) (f : H → Except String α × H) : Prop :=
  ∀ h, G.inv h → (∀ a, (f h).1 = .ok a → Q a) ∧ G.inv (f h).2

theorem Yields.pure {Q : α → Prop} {a : α} (ha : Q a) :
    Yields G Q (Pure.pure a : HeapOp V H α) := fun _ hh => ⟨ha, hh⟩

theorem Yields.bind {Q : α → Prop} {R : β → Prop} {g : HeapOp V H α} {f : α → HeapOp V H β}
    (hg : Yields G Q g) (hf : ∀ a, Q a → Yields G R (f a)) : Yields G R (g >>= f) := by
  intro h hh
  have hgh := hg h hh
  rw [heapOp_bind]
  cases hr : g h with
  | mk r h' =>
    rw [hr] at hgh
    cases r with
    | error e => exact hgh
    | ok a => exact hf a hgh.1 h' hgh.2

/-- The primitives keep the property. -/
structure Closed (P : Prims V H) (G : Guard V H) : Prop where
  boxInt : ∀ n, G.good (P.boxInt n)
  boxFloat : ∀ bits, G.good (P.boxFloat bits)
  unrooted : ∀ v h, G.inv h → G.good v → G.good (P.unrooted v h)
  errorException : ∀ msg h, G.inv h →
    G.good (P.errorException msg h).1 ∧ G.inv (P.errorException msg h).2
  boundsError : ∀ a n h, G.inv h → G.good a →
    G.good (P.boundsError a n h).1 ∧ G.inv (P.boundsError a n h).2
  apply : ∀ b vals, (∀ v ∈ vals, G.good v) → Yields G G.good (P.apply b vals)
  newStruct : ∀ ty d vals, (∀ v ∈ vals, G.good v) → Reports G G.good (P.newStruct ty d vals)
  getNthField : ∀ v i, G.good v → Reports G G.good (P.getNthField v i)
  setNthField : ∀ v i w, G.good v → G.good w → Reports G (fun _ => True) (P.setNthField v i w)
  alloc1d : ∀ t n, Yields G G.good (P.alloc1d t n)
  aref : ∀ a i, G.good a → Yields G G.good (P.aref a i)
  aset : ∀ a i v, G.good a → G.good v → Yields G (fun _ => True) (P.aset a i v)
  arrayPush : ∀ a v, G.good a → G.good v → Yields G (fun _ => True) (P.arrayPush a v)

namespace Closed

variable {P} (hP : Closed P G)
include hP

theorem error {Q : α → Prop} (msg : String) : Yields G Q (P.error msg : HeapOp V H α) :=
  hP.errorException msg

theorem wrapMsg {Q : α → Prop} {f : H → Except String α × H} (hf : Reports G Q f) :
    Yields G Q (P.wrapMsg f) := by
  intro h hh
  obtain ⟨hQ, hh'⟩ := hf h hh
  unfold Prims.wrapMsg
  cases hr : (f h).1 with
  | ok a => exact ⟨hQ a hr, hh'⟩
  | error msg => exact hP.error (Q := Q) msg (f h).2 hh'

theorem keep (literal boxes : Bool) {v : V} (hv : G.good v) :
    Yields G G.good (P.keep literal boxes v) := by
  intro h hh
  refine ⟨?_, hh⟩
  show G.good (if literal && boxes then P.unrooted v h else v)
  split
  · exact hP.unrooted v h hh hv
  · exact hv

theorem fieldOf (v : V) (name : String) : Yields G (fun _ => True) (P.fieldOf v name) := by
  intro h hh
  unfold Prims.fieldOf
  cases P.fieldIndex (P.typeOf v h) name h with
  | some i => exact ⟨trivial, hh⟩
  | none => exact hP.error (Q := fun _ : Nat => True) _ h hh

theorem getField {v : V} (name : String) (hv : G.good v) : Yields G G.good (P.getField v name) :=
  (hP.fieldOf v name).bind fun i _ => hP.wrapMsg (hP.getNthField v i hv)

theorem setField {v rhs : V} (name : String) (hv : G.good v) (hrhs : G.good rhs) :
    Yields G (fun _ => True) (P.setField v name rhs) :=
  (hP.fieldOf v name).bind fun i _ => hP.wrapMsg (hP.setNthField v i rhs hv hrhs)

theorem expectArray (v : V) : Yields G (fun _ => True) (P.expectArray v) := by
  intro h hh
  unfold Prims.expectArray
  by_cases harr : P.isArray (P.typeOf v h) h
  · rw [if_pos harr]
    exact ⟨trivial, hh⟩
  · rw [if_neg harr]
    exact hP.error (Q := fun _ : Unit => True) _ h hh

theorem checkIndex {a : V} (i : V) (ha : G.good a) :
    Yields G (fun _ => True) (P.checkIndex a i) := by
  intro h hh
  unfold Prims.checkIndex
  by_cases hout : P.unboxInt i h < 1 ∨ P.unboxInt i h > P.arrayLen a h
  · rw [if_pos hout]
    exact hP.boundsError _ _ h hh ha
  · rw [if_neg hout]
    exact ⟨trivial, hh⟩

theorem indexChecked {a : V} (i : V) (ha : G.good a) :
    Yields G (fun _ => True) (P.indexChecked a i) :=
  (hP.expectArray a).bind fun _ _ => hP.checkIndex i ha

theorem arrayRef {a : V} (i : V) (ha : G.good a) : Yields G G.good (P.arrayRef a i) :=
  (hP.indexChecked i ha).bind fun i₀ _ => hP.aref a i₀ ha

theorem arraySet {a rhs : V} (i : V) (ha : G.good a) (hrhs : G.good rhs) :
    Yields G (fun _ => True) (P.arraySet a i rhs) :=
  (hP.indexChecked i ha).bind fun i₀ _ => hP.aset a i₀ rhs ha hrhs

theorem push {a v : V} (ha : G.good a) (hv : G.good v) :
    Yields G (fun _ => True) (P.push a v) :=
  (hP.expectArray a).bind fun _ _ => hP.arrayPush a v ha hv

theorem arrayLenOp (a : V) : Yields G G.good (P.arrayLenOp a) :=
  (hP.expectArray a).bind fun _ _ _ hh => ⟨hP.boxInt _, hh⟩

theorem storeAll {a : V} (ha : G.good a) {vals : List V} (hvals : ∀ v ∈ vals, G.good v) :
    ∀ j, Yields G (fun _ => True) (P.storeAll a j vals) := by
  induction vals with
  | nil => exact fun j => Yields.pure trivial
  | cons v vals ih =>
    intro j
    exact (hP.aset a j v ha (hvals v List.mem_cons_self)).bind fun _ _ =>
      ih (fun w hw => hvals w (List.mem_cons_of_mem v hw)) (j + 1)

theorem arrayLit [DecidableEq V] {vals : List V} (hvals : ∀ v ∈ vals, G.good v) :
    Yields G G.good (P.arrayLit vals) := fun h =>
  ((hP.alloc1d _ vals.length).bind fun _ ha =>
    (hP.storeAll ha hvals 0).bind fun _ _ => Yields.pure ha) h

theorem callee [DecidableEq V] (f : Callee) (structs : List StructDef) {vals : List (Bool × V)}
    (hvals : ∀ v ∈ vals, G.good v.2) : Yields G G.good (f.apply P structs vals) := by
  have hsnd : ∀ v ∈ vals.map (·.2), G.good v := by
    intro v hv
    obtain ⟨p, hp, rfl⟩ := List.mem_map.mp hv
    exact hvals p hp
  unfold Callee.apply
  split
  · exact fun _ hh => ⟨hvals _ List.mem_cons_self, hh⟩
  · rename_i a v
    have hv := hvals v (List.mem_cons_of_mem a List.mem_cons_self)
    exact (hP.keep a.1 v.1 (hvals a List.mem_cons_self)).bind fun _ ha =>
      (hP.push ha hv).bind fun _ _ => Yields.pure ha
  · exact hP.arrayLenOp _
  · exact hP.wrapMsg (hP.newStruct _ _ _ hsnd)
  · exact hP.arrayLit hsnd

end Closed

end Yields

end Ruju.Frontend
