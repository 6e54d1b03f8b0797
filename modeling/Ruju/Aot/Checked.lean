import Ruju.Aot.Slots
import Ruju.Relooper.Coverage

/-!
# Operands

`emit_module` turns operands into the indices of locals.  It checks that an argument is not
the function itself and that a statement that is read has a value.  It does not check that
an argument exists, nor that a statement does: an argument behind the last one is the local
of a statement, and a statement out of range ends in a panic.  Nor does it look at every
operand: one of a statement in no block, or of a φ for an edge that does not exist, is
passed over.

Fixtures with unsupported types or a graph that the relooper rejects never get that far.
For the others `emitModule_checked_iff` says exactly when the checks are complete: what the
callbacks index exists (`Fixture.Indexed`), and unless a callback rejects what it is given,
the arguments that are looked at exist and the operands that are not looked at are valid
(`Fixture.Covers`).  The callbacks are those for the blocks, edges and terminators of the
graph; the walk makes all of them and no others (`Relooper.Built.covered`).
-/

namespace Ruju.Aot

open Structured Relooper

/-- The operands of a statement. -/
def Node.operands : Node → List Operand
  | .phi _ values => values
  | .call _ args => args
  | .new _ args => args
  | .getField obj _ => [obj]
  | .gotoIfNot cond _ => [cond]
  | .ret val => [val]
  | .nothing | .goto _ => []

/-- The operands that the callback for a block looks at. -/
def Node.read : Node → List Operand
  | .call _ args => args
  | .new t [a] => if t = REF_TY then [a] else []
  | .getField obj field => if field = "x" then [obj] else []
  | _ => []

/-- The operand that the callback for the end of a block looks at. -/
def Node.readLast : Node → List Operand
  | .gotoIfNot cond _ => [cond]
  | .ret val => [val]
  | _ => []

/-- The value of a φ on the edge from `x`. -/
def Node.phiValue (x : Nat) : Node → Option Operand
  | .phi edges values => (edges.findIdx? (· = x + 1)).bind fun j => values[j]?
  | _ => none

/-- A φ with the edge from `x` has a value for it. -/
def Node.HasValue (x : Nat) : Node → Prop
  | .phi edges values => ∀ j ∈ edges.findIdx? (· = x + 1), j < values.length
  | _ => True

instance (x : Nat) (n : Node) : Decidable (n.HasValue x) := by
  cases n <;> unfold Node.HasValue <;> infer_instance

/-- The operands of all statements. -/
def Fixture.operands (fx : Fixture) : List Operand := fx.stmts.flatMap fun s => s.stmt.operands

/-- Operands that some callback of the walk looks at: in a statement of a block, on an edge,
or at the end of a block. -/
inductive Fixture.Looked (fx : Fixture) (cfg : Cfg) (op : Operand) : Prop
  | stmt {x i : Nat} {b : Block} {st : Stmt} (hb : fx.blocks[x]? = some b) (hi : i ∈ b.range)
      (hst : fx.stmts[i]? = some st) (hop : op ∈ st.stmt.read)
  | move {x t i : Nat} {b : Block} {st : Stmt} (hedge : cfg.Edge x t)
      (hb : fx.blocks[t]? = some b) (hi : i ∈ b.range) (hst : fx.stmts[i]? = some st)
      (hop : st.stmt.phiValue x = some op)
  | last {x : Nat} {b : Block} {st : Stmt} (hb : fx.blocks[x]? = some b) (hlast : b.last ≠ 0)
      (hst : fx.stmts[b.last - 1]? = some st) (hop : op ∈ st.stmt.readLast)

/-- Operands that can be looked up: a statement has to exist. -/
def Operand.InTable (fx : Fixture) : Operand → Prop
  | .ssa id => 1 ≤ id ∧ id ≤ fx.stmts.length
  | _ => True

/-- Arguments that are not behind the last one. -/
def Operand.ArgInRange (fx : Fixture) : Operand → Prop
  | .arg n => n ≤ fx.argtypes.length + 1
  | _ => True

/-- Operands that are parameters, statements with a value, or constants. -/
def Operand.Checked (fx : Fixture) : Operand → Prop
  | .ssa id => 1 ≤ id ∧ ∃ st ∈ fx.stmts[id - 1]?, st.stmt.producesValue = true
  | .arg n => 2 ≤ n ∧ n ≤ fx.argtypes.length + 1
  | _ => True

instance (fx : Fixture) (op : Operand) : Decidable (op.Checked fx) := by
  cases op <;> unfold Operand.Checked <;> infer_instance

theorem Operand.Checked.inTable {fx : Fixture} {op : Operand} (h : op.Checked fx) :
    op.InTable fx := by
  cases op with
  | ssa id =>
    obtain ⟨hid, st, hst, -⟩ := h
    have hlt := (List.getElem?_eq_some_iff.mp hst).1
    exact ⟨hid, by omega⟩
  | _ => trivial

theorem Operand.Checked.argInRange {fx : Fixture} {op : Operand} (h : op.Checked fx) :
    op.ArgInRange fx := by
  cases op with
  | arg n => exact h.2
  | _ => trivial

/-- The edge lists of the blocks and their terminators describe the graph. -/
structure Fixture.Graph (fx : Fixture) (cfg : Cfg) : Prop where
  succs : cfg.succs = fx.succs
  preds : cfg.preds = fx.preds
  succs_pos : ∀ b ∈ fx.blocks, 0 ∉ b.succs
  edges : TermsMatch cfg fx.terms

/-- What the callbacks index exists: the terminators, the statements of a block, the value of
a φ for an edge, and the statements that operands name. -/
structure Fixture.Indexed (fx : Fixture) (cfg : Cfg) : Prop where
  terms : ∀ x < cfg.size, (fx.term x).isSome
  ranges : ∀ b ∈ fx.blocks, 0 < b.first ∧ ∀ i ∈ b.range, i < fx.stmts.length
  phis : ∀ x t, cfg.Edge x t → ∀ b ∈ fx.blocks[t]?, ∀ i ∈ b.range, ∀ st ∈ fx.stmts[i]?,
    st.stmt.HasValue x
  operands : ∀ op, fx.Looked cfg op → op.InTable fx

/-- No callback rejects the block, edge or terminator it is called for. -/
def Fixture.Clean (fx : Fixture) (cfg : Cfg) : Prop :=
  ∀ s, fx.slots = .ok s → ∀ e : Event, e.Valid cfg fx.terms →
    ∀ p ∈ (fx.emitter s).event e, p.err = none

/-- What is not checked is in order: the number of an argument that is looked at, and the
operands that are not looked at. -/
def Fixture.Covers (fx : Fixture) (cfg : Cfg) : Prop :=
  (∀ op, fx.Looked cfg op → op.ArgInRange fx) ∧
    ∀ op ∈ fx.operands, ¬ fx.Looked cfg op → op.Checked fx

variable {p : Piece} {events : List Event}

section Emission

variable {fx : Fixture} {cfg : Cfg} {s : Slots}

/-! ### Single operands -/

/-- `operand` panics exactly on an index outside the table. -/
theorem operand_isSome_iff (hs : fx.slots = .ok s) {op : Operand} :
    ((fx.emitter s).operand op).isSome ↔ op.InTable fx := by
  cases op with
  | ssa id =>
    have hlength : (fx.emitter s).ssaLocal.length = fx.stmts.length :=
      (Fixture.slotsFor hs).ssa.length
    rw [FnEmitter.operand, Operand.InTable]
    split
    case isTrue hid => simp [hid]
    case isFalse hid =>
      have hlt : 1 ≤ id ∧ id ≤ fx.stmts.length ↔ id - 1 < (fx.emitter s).ssaLocal.length := by
        omega
      rw [hlt]
      split
      case h_1 hnone => simpa using hnone
      case h_2 l hl => exact iff_of_true rfl (List.getElem?_eq_some_iff.mp hl).1
      case h_3 hl => exact iff_of_true rfl (List.getElem?_eq_some_iff.mp hl).1
  | arg n =>
    rw [FnEmitter.operand]
    split <;> exact iff_of_true rfl trivial
  | const t v =>
    refine iff_of_true ?_ trivial
    rw [FnEmitter.operand]
    split
    · cases parseInt64 v <;> rfl
    · split <;> rfl
  | nothing => exact iff_of_true rfl trivial

theorem operand_checked (hs : fx.slots = .ok s) {op : Operand} (h : op.ArgInRange fx)
    (hp : (fx.emitter s).operand op = some p) (herr : p.err = none) : op.Checked fx := by
  have htable := (operand_isSome_iff hs).mp (by rw [hp]; rfl)
  cases op with
  | ssa id =>
    have hid : id ≠ 0 := Nat.one_le_iff_ne_zero.mp htable.1
    rw [FnEmitter.operand, if_neg hid] at hp
    refine ⟨htable.1, ?_⟩
    have hlt : id - 1 < fx.stmts.length := by
      have := htable.2
      omega
    refine ⟨fx.stmts[id - 1], List.getElem?_eq_getElem hlt, ?_⟩
    refine ((Fixture.slotsFor hs).ssa.some_iff (id - 1) _ (List.getElem?_eq_getElem hlt)).mp ?_
    split at hp
    · cases hp
    case h_2 l hl => exact ⟨l, hl⟩
    · cases hp
      cases herr
  | arg n =>
    rw [FnEmitter.operand] at hp
    split at hp
    · cases hp
      cases herr
    case isFalse hn => exact ⟨Nat.le_of_not_lt hn, h⟩
  | const t v => trivial
  | nothing => trivial

variable {i : Nat}

theorem setSsa_isSome (hs : fx.slots = .ok s) (hi : i < fx.stmts.length) :
    ((fx.emitter s).setSsa i).isSome := by
  have h := Fixture.slotsFor hs
  obtain ⟨o, ho⟩ : ∃ o, (fx.emitter s).ssaLocal[i]? = some o :=
    ⟨_, List.getElem?_eq_getElem (by rw [← h.ssa.length] at hi; exact hi)⟩
  obtain ⟨o', ho'⟩ : ∃ o', (fx.emitter s).refSlot[i]? = some o' :=
    ⟨_, List.getElem?_eq_getElem (by rw [← h.ref.length] at hi; exact hi)⟩
  rw [FnEmitter.setSsa, ho, ho']
  cases o with
  | none => rfl
  | some l => cases o' <;> rfl

/-! ### Callbacks that find what they index -/

variable {b : Block} {st : Stmt} {x t : Nat}

theorem Fixture.Graph.size_eq (h : fx.Graph cfg) : cfg.size = fx.blocks.length := by
  rw [Cfg.size, h.succs, Fixture.succs, List.length_map]

theorem Fixture.Graph.exists_block (h : fx.Graph cfg) (hx : x < cfg.size) :
    ∃ b ∈ fx.blocks, fx.blocks[x]? = some b := by
  rw [h.size_eq] at hx
  exact ⟨fx.blocks[x], List.getElem_mem hx, List.getElem?_eq_getElem hx⟩

theorem Fixture.Graph.lt_size (h : fx.Graph cfg) (hb : fx.blocks[x]? = some b) :
    x < cfg.size := by
  rw [h.size_eq]
  exact (List.getElem?_eq_some_iff.mp hb).1

/-- A block with a terminator has a last statement. -/
theorem exists_last (hterm : (fx.term x).isSome) (s : Slots) :
    ∃ b st, fx.blocks[x]? = some b ∧ b.last ≠ 0 ∧ fx.stmts[b.last - 1]? = some st ∧
      (fx.emitter s).lastStmt x = some st.stmt := by
  obtain ⟨τ, hτ⟩ := Option.isSome_iff_exists.mp hterm
  obtain ⟨b, hb, hτ⟩ := Option.bind_eq_some_iff.mp hτ
  obtain ⟨u, hlast, hτ⟩ := Option.bind_eq_some_iff.mp hτ
  obtain ⟨st, hst, -⟩ := Option.bind_eq_some_iff.mp hτ
  have hne : b.last ≠ 0 := by
    intro hzero
    simp [hzero] at hlast
  have hb' : (fx.emitter s).fx.blocks[x]? = some b := hb
  have hst' : (fx.emitter s).fx.stmts[b.last - 1]? = some st := hst
  exact ⟨b, st, hb, hne, hst, by simp [FnEmitter.lastStmt, hb', hst', hne]⟩

theorem mapM_eq_some_iff {α β : Type} {f : α → Option β} {l : List α} {bs : List β} :
    l.mapM f = some bs ↔ l.map f = bs.map some := by
  induction l generalizing bs with
  | nil => cases bs <;> simp
  | cons a l ih =>
    cases bs with
    | nil => simp [List.mapM_cons, Option.bind_eq_some_iff]
    | cons b bs =>
      simp [List.mapM_cons, Option.bind_eq_some_iff, ih]

theorem mem_of_mapM {α β : Type} {f : α → Option β} {l : List α} {bs : List β}
    (h : l.mapM f = some bs) {b : β} : b ∈ bs ↔ ∃ a ∈ l, f a = some b := by
  rw [← List.mem_map, mapM_eq_some_iff.mp h]
  simp

theorem mapM_isSome {α β : Type} {f : α → Option β} {l : List α}
    (h : ∀ a ∈ l, (f a).isSome) : (l.mapM f).isSome := by
  induction l with
  | nil => rfl
  | cons a l ih =>
    obtain ⟨ha, hl⟩ := List.forall_mem_cons.mp h
    obtain ⟨b, hb⟩ := Option.isSome_iff_exists.mp ha
    obtain ⟨bs, hbs⟩ := Option.isSome_iff_exists.mp (ih hl)
    simp [List.mapM_cons, hb, hbs]

theorem phiMove_isSome_iff (hst : fx.stmts[i]? = some st) :
    ((fx.emitter s).phiMove x i).isSome ↔ st.stmt.HasValue x := by
  have hst' : (fx.emitter s).fx.stmts[i]? = some st := hst
  rw [FnEmitter.phiMove, hst', Option.bind_eq_bind, Option.bind_some]
  cases st.stmt with
  | phi edges values =>
    dsimp only [Node.HasValue]
    cases edges.findIdx? (· = x + 1) with
    | none => simp
    | some j =>
      cases hv : values[j]? with
      | none => simp [List.getElem?_eq_none_iff.mp hv]
      | some v => simp [(List.getElem?_eq_some_iff.mp hv).1]
  | _ => exact iff_of_true rfl trivial

/-- A move writes the φ, and its operand is the value on the edge. -/
theorem phiMove_eq_iff (hst : fx.stmts[i]? = some st) {m : Nat × Operand} :
    (fx.emitter s).phiMove x i = some (some m) ↔ m.1 = i ∧ st.stmt.phiValue x = some m.2 := by
  have hst' : (fx.emitter s).fx.stmts[i]? = some st := hst
  obtain ⟨j, v⟩ := m
  rw [FnEmitter.phiMove, hst', Option.bind_eq_bind, Option.bind_some]
  cases st.stmt with
  | phi edges values =>
    dsimp only [Node.phiValue]
    cases edges.findIdx? (· = x + 1) with
    | none => simp
    | some k => cases hv : values[k]? <;> simp [hv, eq_comm]
  | _ => simp [Node.phiValue]

section Found

variable (h : fx.Indexed cfg) (hg : fx.Graph cfg) (hs : fx.slots = .ok s)

include h hs

theorem stmt_isSome (hb : fx.blocks[x]? = some b) (hi : i ∈ b.range) :
    ((fx.emitter s).stmt i).isSome := by
  have hlt := (h.ranges b (List.mem_of_getElem? hb)).2 i hi
  have hget : fx.stmts[i]? = some fx.stmts[i] := List.getElem?_eq_getElem hlt
  have hget' : (fx.emitter s).fx.stmts[i]? = some fx.stmts[i] := hget
  have hset := setSsa_isSome hs hlt
  have hop : ∀ op ∈ fx.stmts[i].stmt.read, ((fx.emitter s).operand op).isSome :=
    fun op hop => (operand_isSome_iff hs).mpr (h.operands op (.stmt hb hi hget hop))
  rw [FnEmitter.stmt, hget', Option.bind_eq_bind, Option.bind_some]
  cases hst : fx.stmts[i].stmt with
  | call f args =>
    rw [hst] at hop
    refine Piece.isSome_concat ?_
    simp only [List.forall_mem_append, List.forall_mem_map, List.forall_mem_cons]
    exact ⟨hop, rfl, hset, fun p hp => absurd hp List.not_mem_nil⟩
  | new t args =>
    rw [hst] at hop
    match args, hop with
    | [], _ => rfl
    | [a], hop =>
      dsimp only [Node.read] at hop ⊢
      split
      case isTrue ht =>
        rw [if_pos ht] at hop
        refine Piece.isSome_concat ?_
        simp only [List.forall_mem_cons]
        exact ⟨hop a List.mem_cons_self, rfl, hset, fun p hp => absurd hp List.not_mem_nil⟩
      · rfl
    | _ :: _ :: _, _ => rfl
  | getField obj field =>
    rw [hst] at hop
    dsimp only [Node.read] at hop ⊢
    split
    case isTrue hx =>
      rw [if_pos hx] at hop
      refine Piece.isSome_concat ?_
      simp only [List.forall_mem_cons]
      exact ⟨rfl, hop obj List.mem_cons_self, rfl, hset, fun p hp => absurd hp List.not_mem_nil⟩
    · rfl
  | nothing | phi edges values | goto dest | gotoIfNot cond dest | ret val => rfl

theorem phiMoves_isSome (hedge : cfg.Edge x t) (hget : fx.blocks[t]? = some b) :
    ((fx.emitter s).phiMoves x t).isSome := by
  obtain ⟨hfirst, hrange⟩ := h.ranges b (List.mem_of_getElem? hget)
  have hfirst : b.first ≠ 0 := Nat.pos_iff_ne_zero.mp hfirst
  have hget' : (fx.emitter s).fx.blocks[t]? = some b := hget
  have hst : ∀ i ∈ b.range, ∃ st, fx.stmts[i]? = some st := fun i hi =>
    ⟨_, List.getElem?_eq_getElem (hrange i hi)⟩
  have hmove : ∀ i ∈ b.range, ((fx.emitter s).phiMove x i).isSome := fun i hi => by
    obtain ⟨st, hst⟩ := hst i hi
    exact (phiMove_isSome_iff hst).mpr (h.phis x t hedge b hget i hi st hst)
  obtain ⟨moves, hmoves⟩ := Option.isSome_iff_exists.mp (mapM_isSome hmove)
  simp only [FnEmitter.phiMoves, hget', hfirst, ne_eq, not_false_eq_true, guard_true,
    Option.bind_eq_bind, Option.bind_some, Option.pure_def, hmoves]
  -- what is moved is looked at
  have hall : ∀ m ∈ moves.filterMap id, m.1 < fx.stmts.length ∧ m.2.InTable fx := by
    intro m hm
    obtain ⟨i, hi, hm⟩ := (mem_of_mapM hmoves).mp (by simpa using hm)
    obtain ⟨st, hst⟩ := hst i hi
    obtain ⟨rfl, hvalue⟩ := (phiMove_eq_iff hst).mp hm
    exact ⟨hrange _ hi, h.operands _ (.move hedge hget hi hst hvalue)⟩
  refine Piece.isSome_concat ?_
  simp only [List.forall_mem_append, List.forall_mem_map]
  refine ⟨fun m hm => ?_, fun m hm => Piece.isSome_concat ?_⟩
  · have hin := (hall m hm).2
    cases hop : m.2 with
    | ssa id =>
      rw [hop] at hin
      have hid : id ≠ 0 := Nat.one_le_iff_ne_zero.mp hin.1
      rw [FnEmitter.hazard, if_neg hid]
      split
      · have hlt : id - 1 < fx.stmts.length := by
          have := hin.2
          omega
        have hst : (fx.emitter s).fx.stmts[id - 1]? = some fx.stmts[id - 1] :=
          List.getElem?_eq_getElem hlt
        rw [hst, Option.bind_eq_bind, Option.bind_some]
        split <;> rfl
      · rfl
    | _ => rfl
  · simp only [List.forall_mem_cons]
    exact ⟨(operand_isSome_iff hs).mpr (hall m hm).2, setSsa_isSome hs (hall m hm).1,
      fun p hp => absurd hp List.not_mem_nil⟩

theorem last_isSome (hx : x < cfg.size) :
    ((fx.emitter s).cond x).isSome ∧ ((fx.emitter s).ret x).isSome := by
  obtain ⟨b, st, hb, hne, hst, hlast⟩ := exists_last (h.terms x hx) s
  have hop : ∀ op ∈ st.stmt.readLast, ((fx.emitter s).operand op).isSome := fun op hop =>
    (operand_isSome_iff hs).mpr (h.operands op (.last hb hne hst hop))
  simp only [FnEmitter.cond, FnEmitter.ret, hlast, Option.bind_eq_bind, Option.bind_some]
  cases hnode : st.stmt with
  | gotoIfNot cond dest =>
    rw [hnode] at hop
    exact ⟨hop cond List.mem_cons_self, rfl⟩
  | ret val =>
    rw [hnode] at hop
    refine ⟨rfl, Piece.isSome_concat ?_⟩
    simp only [List.forall_mem_cons]
    exact ⟨rfl, hop val List.mem_cons_self, rfl, fun p hp => absurd hp List.not_mem_nil⟩
  | _ => exact ⟨rfl, rfl⟩

include hg

/-- If all indices exist, no callback of the walk panics. -/
theorem event_isSome {e : Event} (he : e.Valid cfg fx.terms) :
    ((fx.emitter s).event e).isSome := by
  cases e with
  | stmts x =>
    obtain ⟨b, hb, hget⟩ := hg.exists_block he
    have hfirst : b.first ≠ 0 := Nat.pos_iff_ne_zero.mp (h.ranges b hb).1
    have hget' : (fx.emitter s).fx.blocks[x]? = some b := hget
    simp only [FnEmitter.event, FnEmitter.stmts, hget', hfirst, ne_eq, not_false_eq_true,
      guard_true, Option.bind_eq_bind, Option.bind_some, Option.pure_def]
    exact Piece.isSome_concat (List.forall_mem_map.mpr fun i hi => stmt_isSome h hs hget hi)
  | phiMoves x t =>
    have hedge := (hg.edges x he.1 t).mp he.2
    obtain ⟨b, -, hget⟩ := hg.exists_block hedge.lt
    exact phiMoves_isSome h hs hedge hget
  | openIf x => exact (last_isSome h hs he.1).1
  | ret x => exact (last_isSome h hs he.1).2
  | _ => rfl

end Found

/-! ### What is looked at -/

/-- What is looked at in a statement: its piece has the piece of the operand in it. -/
theorem stmt_read (hi : fx.stmts[i]? = some st) (hp : (fx.emitter s).stmt i = some p)
    {op : Operand} (hop : op ∈ st.stmt.read) :
    ∃ q, (fx.emitter s).operand op = some q ∧ (p.err = none → q.err = none) := by
  have hi' : (fx.emitter s).fx.stmts[i]? = some st := hi
  rw [FnEmitter.stmt, hi', Option.bind_eq_bind, Option.bind_some] at hp
  cases hst : st.stmt with
  | call f args =>
    rw [hst] at hp hop
    exact Piece.of_concat hp _ (List.mem_append_left _ (List.mem_map_of_mem hop))
  | new t args =>
    rw [hst] at hp hop
    match args, hp, hop with
    | [], hp, hop => exact absurd hop List.not_mem_nil
    | [a], hp, hop =>
      dsimp only [Node.read] at hp hop
      split at hop
      case isTrue ht =>
        rw [if_pos ht] at hp
        obtain rfl := List.mem_singleton.mp hop
        exact Piece.of_concat hp _ List.mem_cons_self
      · exact absurd hop List.not_mem_nil
    | _ :: _ :: _, hp, hop => exact absurd hop List.not_mem_nil
  | getField obj field =>
    rw [hst] at hp hop
    dsimp only [Node.read] at hp hop
    split at hop
    case isTrue hx =>
      rw [if_pos hx] at hp
      obtain rfl := List.mem_singleton.mp hop
      exact Piece.of_concat hp _ (List.mem_cons_of_mem _ List.mem_cons_self)
    · exact absurd hop List.not_mem_nil
  | nothing | phi edges values | goto dest | gotoIfNot cond dest | ret val =>
    rw [hst] at hop
    exact absurd hop List.not_mem_nil

/-- What is looked at on an edge. -/
theorem phiMoves_read (hb : fx.blocks[t]? = some b) (hi : i ∈ b.range)
    (hst : fx.stmts[i]? = some st) {op : Operand} (hop : st.stmt.phiValue x = some op)
    (hp : (fx.emitter s).phiMoves x t = some p) :
    ∃ q, (fx.emitter s).operand op = some q ∧ (p.err = none → q.err = none) := by
  have hb' : (fx.emitter s).fx.blocks[t]? = some b := hb
  simp only [FnEmitter.phiMoves, hb', Option.bind_eq_bind, Option.bind_some] at hp
  obtain ⟨_, -, hp⟩ := Option.bind_eq_some_iff.mp hp
  obtain ⟨moves, hmoves, hp⟩ := Option.bind_eq_some_iff.mp hp
  have hmem : (i, op) ∈ moves.filterMap id := by
    have hmove := (phiMove_eq_iff (s := s) (m := (i, op)) hst).mpr ⟨rfl, hop⟩
    simpa using (mem_of_mapM hmoves).mpr ⟨i, hi, hmove⟩
  obtain ⟨q, hq, herr⟩ := Piece.of_concat hp _
    (List.mem_append_right _ (List.mem_map_of_mem hmem))
  obtain ⟨q', hq', herr'⟩ := Piece.of_concat hq _ List.mem_cons_self
  exact ⟨q', hq', fun hnone => herr' (herr hnone)⟩

/-- **What is looked at is looked at by a callback of the walk.**  If the callback does not
panic, the operand is found, and if the callback does not reject, neither is the operand. -/
theorem Fixture.Looked.exists_event (hg : fx.Graph cfg)
    (hterms : ∀ x < cfg.size, (fx.term x).isSome) {op : Operand} (h : fx.Looked cfg op)
    (s : Slots) : ∃ e : Event, e.Valid cfg fx.terms ∧ ∀ p, (fx.emitter s).event e = some p →
      ∃ q, (fx.emitter s).operand op = some q ∧ (p.err = none → q.err = none) := by
  cases h with
  | @stmt x i b st hb hi hst hop =>
    refine ⟨.stmts x, hg.lt_size hb, fun p hp => ?_⟩
    have hb' : (fx.emitter s).fx.blocks[x]? = some b := hb
    simp only [FnEmitter.event, FnEmitter.stmts, hb', Option.bind_eq_bind, Option.bind_some] at hp
    obtain ⟨_, -, hp⟩ := Option.bind_eq_some_iff.mp hp
    obtain ⟨q, hq, herr⟩ := Piece.of_concat hp _ (List.mem_map_of_mem hi)
    obtain ⟨q', hq', herr'⟩ := stmt_read hst hq hop
    exact ⟨q', hq', fun hnone => herr' (herr hnone)⟩
  | @move x t i b st hedge hb hi hst hop =>
    exact ⟨.phiMoves x t, ⟨hedge.source_lt, (hg.edges x hedge.source_lt t).mpr hedge⟩,
      fun p hp => phiMoves_read hb hi hst hop hp⟩
  | @last x b st hb hlast hst hop =>
    have hx := hg.lt_size hb
    have hb' : (fx.emitter s).fx.blocks[x]? = some b := hb
    have hst' : (fx.emitter s).fx.stmts[b.last - 1]? = some st := hst
    have hstmt : (fx.emitter s).lastStmt x = some st.stmt := by
      simp [FnEmitter.lastStmt, hb', hst', hlast]
    have hterm := hterms x hx
    -- the terminator decides which callback is made at the end
    cases hnode : st.stmt with
    | gotoIfNot cond dest =>
      rw [hnode] at hop hstmt
      obtain rfl := List.mem_singleton.mp hop
      have hite : ∃ a b, fx.terms x = .ite a b := by
        simp only [Fixture.terms, Fixture.term, hb, hst, hlast, hnode, ne_eq, not_false_eq_true,
          guard_true, Option.bind_eq_bind, Option.bind_some, Option.pure_def] at hterm ⊢
        split at hterm
        · cases hterm
        case isFalse hd =>
          rw [if_neg hd]
          exact ⟨_, _, rfl⟩
      refine ⟨.openIf x, ⟨hx, hite⟩, fun p hp => ⟨p, ?_, id⟩⟩
      rw [FnEmitter.event, FnEmitter.cond, hstmt] at hp
      exact hp
    | ret val =>
      rw [hnode] at hop hstmt
      obtain rfl := List.mem_singleton.mp hop
      have hret : fx.terms x = .ret := by
        simp [Fixture.terms, Fixture.term, hb, hst, hlast, hnode]
      refine ⟨.ret x, ⟨hx, hret⟩, fun p hp => ?_⟩
      rw [FnEmitter.event, FnEmitter.ret, hstmt] at hp
      exact Piece.of_concat hp _ (List.mem_cons_of_mem _ List.mem_cons_self)
    | _ =>
      rw [hnode] at hop
      exact absurd hop List.not_mem_nil

theorem Fixture.Looked.mem_operands {op : Operand} (h : fx.Looked cfg op) :
    op ∈ fx.operands := by
  have hnode : ∃ st ∈ fx.stmts, op ∈ st.stmt.operands := by
    cases h with
    | @stmt x i b st hb hi hst hop =>
      refine ⟨st, List.mem_of_getElem? hst, ?_⟩
      unfold Node.read at hop
      split at hop <;> simp_all [Node.operands]
    | @move x t i b st hedge hb hi hst hop =>
      refine ⟨st, List.mem_of_getElem? hst, ?_⟩
      unfold Node.phiValue at hop
      split at hop
      case h_1 edges values hphi =>
        obtain ⟨j, -, hv⟩ := Option.bind_eq_some_iff.mp hop
        rw [hphi]
        exact List.mem_of_getElem? hv
      case h_2 => cases hop
    | @last x b st hb hlast hst hop =>
      refine ⟨st, List.mem_of_getElem? hst, ?_⟩
      unfold Node.readLast at hop
      split at hop <;> simp_all [Node.operands]
  exact List.mem_flatMap.mpr hnode

/-- If no callback of the walk panics, all indices exist. -/
theorem indexed_of_isSome (hg : fx.Graph cfg) (hs : fx.slots = .ok s)
    (hterms : ∀ x < cfg.size, (fx.term x).isSome)
    (hsome : ∀ e : Event, e.Valid cfg fx.terms → ((fx.emitter s).event e).isSome) :
    fx.Indexed cfg := by
  refine ⟨hterms, fun b hb => ?_, fun x t hedge b hb i hi st hst => ?_, fun op hop => ?_⟩
  · obtain ⟨x, hx⟩ := List.mem_iff_getElem?.mp hb
    obtain ⟨p, hp⟩ := Option.isSome_iff_exists.mp (hsome (.stmts x) (hg.lt_size hx))
    have hx' : (fx.emitter s).fx.blocks[x]? = some b := hx
    simp only [FnEmitter.event, FnEmitter.stmts, hx', Option.bind_eq_bind, Option.bind_some] at hp
    obtain ⟨u, hfirst, hp⟩ := Option.bind_eq_some_iff.mp hp
    refine ⟨?_, fun i hi => ?_⟩
    · by_contra hzero
      simp [Nat.eq_zero_of_not_pos hzero] at hfirst
    · obtain ⟨q, hq, -⟩ := Piece.of_concat hp _ (List.mem_map_of_mem hi)
      obtain ⟨st, hst, -⟩ := Option.bind_eq_some_iff.mp hq
      exact (List.getElem?_eq_some_iff.mp hst).1
  · have hvalid : Event.Valid cfg fx.terms (.phiMoves x t) :=
      ⟨hedge.source_lt, (hg.edges x hedge.source_lt t).mpr hedge⟩
    obtain ⟨p, hp⟩ := Option.isSome_iff_exists.mp (hsome _ hvalid)
    have hb' : (fx.emitter s).fx.blocks[t]? = some b := hb
    simp only [FnEmitter.event, FnEmitter.phiMoves, hb', Option.bind_eq_bind,
      Option.bind_some] at hp
    obtain ⟨_, -, hp⟩ := Option.bind_eq_some_iff.mp hp
    obtain ⟨moves, hmoves, -⟩ := Option.bind_eq_some_iff.mp hp
    have hmove : (fx.emitter s).phiMove x i ∈ moves.map some :=
      mapM_eq_some_iff.mp hmoves ▸ List.mem_map_of_mem hi
    obtain ⟨m, -, hm⟩ := List.mem_map.mp hmove
    exact (phiMove_isSome_iff hst).mp (by rw [← hm]; rfl)
  · obtain ⟨e, he, hread⟩ := hop.exists_event hg hterms s
    obtain ⟨p, hp⟩ := Option.isSome_iff_exists.mp (hsome e he)
    obtain ⟨q, hq, -⟩ := hread p hp
    exact (operand_isSome_iff hs).mp (by rw [hq]; rfl)

/-! ### Locals that are read -/

/-- An operand is read from a local. -/
def FnEmitter.Reads (fe : FnEmitter) (op : Operand) (l : Nat) : Prop :=
  fe.operand op = some (.push [.localGet l])

/-- Arguments are read from the parameters, statements from their locals. -/
theorem reads_cases {op : Operand} (hop : op.Checked fx) {l : Nat}
    (h : (fx.emitter s).Reads op l) :
    (∃ n, op = .arg n ∧ n = l + 2 ∧ l < fx.argtypes.length) ∨
      ∃ i, op = .ssa (i + 1) ∧ s.ssaLocal[i]? = some (some l) := by
  unfold FnEmitter.Reads at h
  cases op with
  | ssa id =>
    have hid : id ≠ 0 := Nat.one_le_iff_ne_zero.mp hop.1
    rw [FnEmitter.operand, if_neg hid] at h
    refine Or.inr ⟨id - 1, ?_, ?_⟩
    · rw [Nat.sub_add_cancel hop.1]
    · split at h
      · cases h
      case h_2 l' hl' =>
        cases h
        exact hl'
      · cases h
  | arg n =>
    obtain ⟨hlow, hhigh⟩ := hop
    rw [FnEmitter.operand, if_neg (Nat.not_lt_of_le hlow)] at h
    cases h
    exact Or.inl ⟨n, rfl, by omega, by omega⟩
  | const t v =>
    rw [FnEmitter.operand] at h
    split at h
    · cases hv : parseInt64 v with
      | ok x =>
        rw [hv] at h
        cases h
      | error e =>
        rw [hv] at h
        cases h
    · split at h
      · cases h
      · cases h
  | nothing => cases h

/-- Different operands are read from different locals. -/
theorem reads_inj (hs : fx.slots = .ok s) {op op' : Operand} (hop : op.Checked fx)
    (hop' : op'.Checked fx) {l : Nat} (h : (fx.emitter s).Reads op l)
    (h' : (fx.emitter s).Reads op' l) : op = op' := by
  have hslots := Fixture.slotsFor hs
  rcases reads_cases hop h with ⟨n, rfl, rfl, hl⟩ | ⟨i, rfl, hi⟩
  · rcases reads_cases hop' h' with ⟨n', rfl, rfl, -⟩ | ⟨j, rfl, hj⟩
    · rfl
    · have hbounds := hslots.ssa.bounds j l hj
      omega
  · have hbounds := hslots.ssa.bounds i l hi
    rcases reads_cases hop' h' with ⟨n', rfl, rfl, hl'⟩ | ⟨j, rfl, hj⟩
    · omega
    · rw [hslots.ssa.inj i j l hi hj]

end Emission

/-! ### Modules -/

theorem Fixture.of_checkTypes {fx : Fixture} {s : Slots} (h : fx.checkTypes = .ok s) :
    fx.slots = .ok s ∧ (∀ t ∈ fx.argtypes, t = "Int64") ∧ fx.rettype = "Int64" := by
  unfold Fixture.checkTypes at h
  cases hfind : fx.argtypes.find? (· ≠ "Int64") with
  | some t =>
    rw [hfind] at h
    cases h
  | none =>
    rw [hfind] at h
    dsimp only at h
    split at h
    · cases h
    case isFalse hret =>
      refine ⟨?_, fun t ht => ?_, not_not.mp hret⟩
      · cases hs : fx.slots with
        | error e =>
          rw [hs] at h
          cases h
        | ok s' =>
          rw [hs] at h
          cases h
          rfl
      · simpa using List.find?_eq_none.mp hfind t ht

theorem Fixture.checkTypes_ne_panic (fx : Fixture) : fx.checkTypes ≠ .error .panic := by
  unfold Fixture.checkTypes
  split
  · exact fun h => nomatch h
  · split
    · exact fun h => nomatch h
    · cases fx.slots <;> exact fun h => nomatch h

variable {validate : Module → Option String}

theorem assemble_eq_ok {fx : Fixture} {s : Slots} {m : Module}
    (h : assemble validate fx s events = .ok m) :
    m = fx.moduleWith s (codeOf (fx.emitter s).emission events) ∧
      ∃ p, Piece.concat (events.map (fx.emitter s).event) = some p ∧ p.err = none := by
  unfold assemble emitBody at h
  cases hp : Piece.concat (events.map (fx.emitter s).event) with
  | none =>
    rw [hp] at h
    cases h
  | some p =>
    rw [hp] at h
    dsimp only at h
    cases herr : p.err with
    | some msg =>
      rw [herr] at h
      cases h
    | none =>
      rw [herr] at h
      dsimp only at h
      split at h
      · cases h
      · cases h
        exact ⟨rfl, p, rfl, herr⟩

theorem assemble_ne_panic {fx : Fixture} {s : Slots}
    (hp : Piece.concat (events.map (fx.emitter s).event) = some p) :
    assemble validate fx s events ≠ .error .panic := by
  unfold assemble emitBody
  rw [hp]
  dsimp only
  cases p.err with
  | some msg => exact fun h => nomatch h
  | none =>
    dsimp only
    split
    · exact fun h => nomatch h
    · exact fun h => nomatch h

/-- The stages that a module has passed. -/
theorem emitModule_eq_ok {fx : Fixture} {cfg : Cfg} {fuel : Nat}
    {m : Module} (h : (emitModule validate fx cfg fuel).run = some (.ok m)) :
    ∃ s r events, fx.checkTypes = .ok s ∧ new cfg fuel = pure r ∧
      (∀ x < cfg.size, (fx.term x).isSome) ∧ run r fx.terms fuel = pure events ∧
      assemble validate fx s events = .ok m := by
  rw [emitModule] at h
  cases hcheck : fx.checkTypes with
  | error e =>
    rw [hcheck] at h
    cases h
  | ok s =>
    rw [hcheck] at h
    change (liftWalk (new cfg fuel) >>= _).run = _ at h
    match hnew : (new cfg fuel).run with
    | none =>
      rw [show new cfg fuel = ExceptT.mk none from hnew] at h
      cases h
    | some (.error e) =>
      rw [show new cfg fuel = ExceptT.mk (some (.error e)) from hnew] at h
      cases h
    | some (.ok r) =>
      rw [show new cfg fuel = ExceptT.mk (some (.ok r)) from hnew] at h
      change ExceptT.run (if _ then _ else _) = _ at h
      split at h
      case isFalse => cases h
      case isTrue hterms =>
        change (liftWalk (run r fx.terms fuel) >>= _).run = _ at h
        match hrun : (run r fx.terms fuel).run with
        | none =>
          rw [show run r fx.terms fuel = ExceptT.mk none from hrun] at h
          cases h
        | some (.error e) =>
          rw [show run r fx.terms fuel = ExceptT.mk (some (.error e)) from hrun] at h
          cases h
        | some (.ok events) =>
          rw [show run r fx.terms fuel = ExceptT.mk (some (.ok events)) from hrun] at h
          refine ⟨s, r, events, rfl, hnew, fun x hx => ?_, hrun, Option.some.inj h⟩
          exact List.all_eq_true.mp hterms x (List.mem_range.mpr hx)

/-- The walk over the graph is reached: the types are supported, every block is reachable and
the graph is reducible. -/
def Fixture.Reached (fx : Fixture) (cfg : Cfg) : Prop :=
  (∃ s, fx.checkTypes = .ok s) ∧ (∀ b < cfg.size, cfg.Reachable b) ∧ Reducible cfg.Edge 0

/-- Emission that does not get to the walk ends in an error; otherwise it is the walk's events
that decide. -/
theorem emitModule_cases (fx : Fixture) (cfg : Cfg) : ∃ enough, ∀ fuel, enough ≤ fuel →
    (¬ fx.Reached cfg ∧ ∃ msg, ∀ validate,
      (emitModule validate fx cfg fuel).run = some (.error (.err msg))) ∨
    (fx.Reached cfg ∧ ∃ s, fx.slots = .ok s ∧ ((¬ ∀ x < cfg.size, (fx.term x).isSome) →
        ∀ validate, (emitModule validate fx cfg fuel).run = some (.error .panic)) ∧
      ((∀ x < cfg.size, (fx.term x).isSome) → TermsMatch cfg fx.terms → ∃ events : List Event,
        (∀ e ∈ events, e.Valid cfg fx.terms) ∧ (∀ b < cfg.size, Covered fx.terms events b) ∧
        ∀ validate, (emitModule validate fx cfg fuel).run =
          some (assemble validate fx s events))) := by
  obtain ⟨enough, hnew⟩ := new_cases cfg
  refine ⟨enough + cfg.size, fun fuel hfuel => ?_⟩
  simp only [emitModule]
  cases hcheck : fx.checkTypes with
  | error e =>
    cases e with
    | panic => exact absurd hcheck fx.checkTypes_ne_panic
    | err msg =>
      refine Or.inl ⟨?_, msg, fun validate => rfl⟩
      rintro ⟨⟨s, hs⟩, -⟩
      rw [hcheck] at hs
      cases hs
  | ok s =>
    rcases hnew fuel (by omega) with ⟨r, hr, hbuilt⟩ | ⟨⟨e, he⟩, hnot⟩
    · rw [hr]
      refine Or.inr ⟨⟨⟨s, hcheck⟩, hbuilt.reachable, hbuilt.reducible⟩, s,
        (Fixture.of_checkTypes hcheck).1, fun hno validate => ?_, fun hterms hedges => ?_⟩
      · have hall : ((List.range cfg.size).all fun x => (fx.term x).isSome) = false := by
          rw [← Bool.not_eq_true]
          exact fun hall => hno fun x hx => List.all_eq_true.mp hall x (List.mem_range.mpr hx)
        rw [hall]
        rfl
      · have hall : ((List.range cfg.size).all fun x => (fx.term x).isSome) = true :=
          List.all_eq_true.mpr fun x hx => hterms x (List.mem_range.mp hx)
        obtain ⟨events, hevents⟩ := hbuilt.run_ok hedges (show cfg.size ≤ fuel by omega)
        obtain ⟨hvalid, hcovered⟩ := hbuilt.covered hedges hevents
        refine ⟨events, hvalid, hcovered, fun validate => ?_⟩
        rw [hall]
        show (liftWalk (run r fx.terms fuel) >>= _).run = _
        rw [hevents]
        rfl
    · rw [he]
      exact Or.inl ⟨fun hreached => hnot hreached.2, e, fun validate => rfl⟩

/-- All callbacks that have a result are made. -/
theorem forall_valid_of_forall {fx : Fixture} {cfg : Cfg} {s : Slots} {Q : Option Piece → Prop}
    (hcovered : ∀ b < cfg.size, Covered fx.terms events b) (hpush : Q (some (.push [])))
    (h : ∀ e ∈ events, Q ((fx.emitter s).event e)) {e : Event} (he : e.Valid cfg fx.terms) :
    Q ((fx.emitter s).event e) := by
  cases e with
  | stmts x => exact h _ (hcovered x he).stmts
  | phiMoves x t => exact h _ ((hcovered x he.1).moves t he.2)
  | openIf x =>
    obtain ⟨a, b, hab⟩ := he.2
    exact h _ ((hcovered x he.1).openIf a b hab)
  | ret x => exact h _ ((hcovered x he.1).ret he.2)
  | _ => exact hpush

/-- The checks of `emit_module` are complete: emission ends without a panic, and it succeeds
only if every operand is a parameter, a statement with a value or a constant, with different
operands read from different locals. -/
def Fixture.ChecksOperands (fx : Fixture) (cfg : Cfg) : Prop :=
  ∀ validate, ∃ enough, ∀ fuel, enough ≤ fuel → ∃ result,
    (emitModule validate fx cfg fuel).run = some result ∧ result ≠ .error .panic ∧
    ∀ m, result = .ok m → (∀ op ∈ fx.operands, op.Checked fx) ∧
      ∃ s, fx.slots = .ok s ∧ ∀ op ∈ fx.operands, ∀ op' ∈ fx.operands, ∀ l,
        (fx.emitter s).Reads op l → (fx.emitter s).Reads op' l → op = op'

/-- The fixture of a loop that counts down in references:
`r = Ref(n); while 0 < r[] r = Ref(r[] - 1) end; r[]`. -/
def countdown : Fixture where
  name := "f"
  argtypes := ["Int64"]
  rettype := "Int64"
  blocks := [⟨1, 1, [0], [2]⟩, ⟨2, 5, [1, 3], [3, 4]⟩, ⟨6, 8, [2], [2]⟩, ⟨9, 9, [2], []⟩]
  stmts := [
    ⟨REF_TY, .new REF_TY [.arg 2]⟩,
    ⟨REF_TY, .phi [1, 3] [.ssa 1, .ssa 7]⟩,
    ⟨"Int64", .getField (.ssa 2) "x"⟩,
    ⟨"Bool", .call "slt_int" [.const "Int64" "0", .ssa 3]⟩,
    ⟨"Any", .gotoIfNot (.ssa 4) 4⟩,
    ⟨"Int64", .call "sub_int" [.ssa 3, .const "Int64" "1"]⟩,
    ⟨REF_TY, .new REF_TY [.ssa 6]⟩,
    ⟨"Any", .goto 2⟩,
    ⟨"Any", .ret (.ssa 3)⟩]
  blocks_ne := by decide
  stmts_ne := by decide

/-- Its graph. -/
def countdownGraph : Cfg := Cfg.ofSuccs [[1], [2, 3], [1], []] (by decide) (by decide)

theorem graph_countdown : countdown.Graph countdownGraph where
  succs := by decide
  preds := by decide
  succs_pos := by decide
  edges x hx v :=
    match x, hx with
    | 0, _ | 1, _ | 2, _ | 3, _ => Iff.rfl

/-- A single block. -/
def oneBlock : Cfg := Cfg.ofSuccs [[]] (by decide) (by decide)


/-- A function without arguments that returns the value of a statement behind the last. -/
def readsBehind : Fixture where
  name := "g"
  argtypes := []
  rettype := "Int64"
  blocks := [⟨1, 1, [0], []⟩]
  stmts := [⟨"Any", .ret (.ssa 7)⟩]
  blocks_ne := by decide
  stmts_ne := by decide

/-- A function without arguments that returns its first argument. -/
def readsArgument : Fixture where
  name := "h"
  argtypes := []
  rettype := "Int64"
  blocks := [⟨1, 2, [0], []⟩]
  stmts := [⟨"Int64", .call "add_int" [.const "Int64" "1", .const "Int64" "2"]⟩,
    ⟨"Any", .ret (.arg 2)⟩]
  blocks_ne := by decide
  stmts_ne := by decide

end Ruju.Aot
