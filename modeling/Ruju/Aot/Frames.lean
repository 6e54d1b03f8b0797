import Ruju.Aot.Checked
import Ruju.Aot.Wasm

/-!
# Frames on the shadow stack

Emitted code keeps every local of reference type in a slot of the shadow stack as well, so
that an allocation finds all references.  Between the write to the local and the write to
the slot the two differ.  There is no allocation in between, and no control flow either, so
`Framed` is an invariant in the sense of `OnTrack`: it holds whenever a sequence of leaves
is at its end, and at every call of the allocator.
-/

namespace Ruju.Aot

open Structured Relooper

/-! ### Instructions that only use the stack -/

/-- Instructions that leave locals and memory alone. -/
def Instr.harmless : Instr → Bool
  | .localSet _ | .i32Store _ | .ret => false
  | .call f => f ≠ NEWREF
  | _ => true

theorem exec_harmless {rt : Runtime} {i : Instr} (hi : i.harmless = true) {s s' : WState}
    (h : execInstr rt i s = .next s') : s'.locals = s.locals ∧ s'.mem = s.mem := by
  cases i with
  | localSet l | i32Store offset | ret => cases hi
  | i64Const x | i32Const x =>
    cases h
    exact ⟨rfl, rfl⟩
  | call f =>
    have hf : f ≠ NEWREF := of_decide_eq_true hi
    simp only [execInstr, callRuntime, hf, if_false] at h
    repeat' split at h
    all_goals first | exact (Effect.next.inj h) ▸ ⟨rfl, rfl⟩ | cases h
  | _ =>
    simp only [execInstr] at h
    repeat' split at h
    all_goals first | exact (Effect.next.inj h) ▸ ⟨rfl, rfl⟩ | cases h

/-! ### The invariant -/

/-- What is left of the shadow stack has room for the frame. -/
def Fits (rt : Runtime) (fx : Fixture) (top : BitVec 32) : Prop :=
  rt.shadowBase ≤ top.toNat ∧ top.toNat + 4 * fx.stmts.countP Stmt.holdsRef ≤ rt.shadowEnd

/-- The frame starts at `top` and is published, and every local of reference type has its
value in its slot. -/
structure Framed (rt : Runtime) (fx : Fixture) (s : Slots) (top : BitVec 32) (st : WState) :
    Prop where
  locals : st.locals.length = fx.argtypes.length + s.allLocals.length
  size : st.mem.length < 2 ^ 32
  published : load32 st.mem rt.topAddr.toNat = some (top + BitVec.ofNat 32 (4 * s.nrefs))
  frame : 0 < s.nrefs → st.locals[(fx.emitter s).taLocal]? = some (.i32 rt.topAddr) ∧
    st.locals[(fx.emitter s).gcbaseLocal]? = some (.i32 top) ∧
    top.toNat + 4 * s.nrefs ≤ st.mem.length
  slots : ∀ i l k : Nat, s.ssaLocal[i]? = some (some l) → s.refSlot[i]? = some (some k) →
    ∃ v, st.locals[l]? = some (.i32 v) ∧ load32 st.mem (top.toNat + k * 4) = some v

/-- References are in their slots at every allocation. -/
def AtNewRef (rt : Runtime) (fx : Fixture) (s : Slots) (top : BitVec 32) (i : Instr)
    (st : WState) : Prop := i = .call NEWREF → Framed rt fx s top st

/-- The frame has been given back. -/
def Restored (rt : Runtime) (top : BitVec 32) (st : WState) : Prop :=
  load32 st.mem rt.topAddr.toNat = some top

section Emitter

variable (fx : Fixture) {s : Slots}

theorem taLocal_eq (h : 0 < s.nrefs) :
    (fx.emitter s).taLocal = fx.argtypes.length + s.locals.length := by
  simp [Fixture.emitter, h]

theorem gcbaseLocal_eq (h : 0 < s.nrefs) :
    (fx.emitter s).gcbaseLocal = fx.argtypes.length + s.locals.length + 1 := by
  simp [Fixture.emitter, h]

/-- The local of the region base lies behind the others. -/
theorem le_rbLocal (h : s.hasGetField = true) :
    fx.argtypes.length + s.locals.length ≤ (fx.emitter s).rbLocal ∧
      (0 < s.nrefs → (fx.emitter s).gcbaseLocal < (fx.emitter s).rbLocal) := by
  by_cases hrefs : 0 < s.nrefs
  · simp [Fixture.emitter, h, hrefs]
  · simp [Fixture.emitter, h, hrefs]

end Emitter

variable {i : Nat}

section Preserved

variable {rt : Runtime} {fx : Fixture} {s : Slots} {top : BitVec 32} {st st' : WState}

theorem Framed.of_eq (h : Framed rt fx s top st) (hlocals : st'.locals = st.locals)
    (hmem : st'.mem = st.mem) : Framed rt fx s top st' := by
  obtain ⟨locals, stack, mem⟩ := st'
  cases hlocals
  cases hmem
  exact ⟨h.locals, h.size, h.published, h.frame, h.slots⟩

variable (hs : fx.slots = .ok s)
include hs

variable {l : Nat}

/-- The helper locals are not those of statements. -/
theorem helper_ne (hl : s.ssaLocal[i]? = some (some l)) (hrefs : 0 < s.nrefs) :
    l ≠ (fx.emitter s).taLocal ∧ l ≠ (fx.emitter s).gcbaseLocal := by
  have hlt := ((Fixture.slotsFor hs).ssa.bounds i l hl).2
  rw [taLocal_eq fx hrefs, gcbaseLocal_eq fx hrefs]
  omega

/-- The slots of the frame are slots of the shadow stack. -/
theorem Fits.slot (hfits : Fits rt fx top) {k : Nat} (hk : k < s.nrefs) :
    rt.shadowBase ≤ top.toNat + k * 4 ∧ top.toNat + k * 4 + 4 ≤ rt.shadowEnd := by
  obtain ⟨hbase, hend⟩ := hfits
  have hrefs := (Fixture.slotsFor hs).ref.next_eq
  omega

theorem Fits.apart (hfits : Fits rt fx top) {k : Nat} (hk : k < s.nrefs) :
    rt.topAddr.toNat + 4 ≤ top.toNat + k * 4 ∨ top.toNat + k * 4 + 4 ≤ rt.topAddr.toNat := by
  obtain ⟨hbase, hend⟩ := hfits.slot hs hk
  rcases rt.top_apart with hlow | hhigh
  · exact Or.inl (hlow.trans hbase)
  · exact Or.inr (hend.trans hhigh)

/-- A local without a slot may change. -/
theorem Framed.set_local (h : Framed rt fx s top st)
    (hl : s.ssaLocal[i]? = some (some l)) (hno : s.refSlot[i]? = some none) (v : Val)
    (stack : List Val) : Framed rt fx s top ⟨st.locals.set l v, stack, st.mem⟩ := by
  refine ⟨by simp [h.locals], h.size, h.published, fun hrefs => ?_, fun j l' k hl' hk => ?_⟩
  · obtain ⟨hta, hgcbase, hroom⟩ := h.frame hrefs
    obtain ⟨hne, hne'⟩ := helper_ne hs hl hrefs
    rw [List.getElem?_set_ne hne, List.getElem?_set_ne hne']
    exact ⟨hta, hgcbase, hroom⟩
  · have hne : l ≠ l' := by
      rintro rfl
      obtain rfl := (Fixture.slotsFor hs).ssa.inj i j l hl hl'
      rw [hno] at hk
      cases hk
    rw [List.getElem?_set_ne hne]
    exact h.slots j l' k hl' hk

/-- A local changes together with its slot. -/
theorem Framed.set_slot (h : Framed rt fx s top st) (hfits : Fits rt fx top)
    {k : Nat} (hl : s.ssaLocal[i]? = some (some l)) (hk : s.refSlot[i]? = some (some k))
    {v : BitVec 32} {mem : List UInt8} (hstore : store32 st.mem (top.toNat + k * 4) v = some mem)
    (stack : List Val) : Framed rt fx s top ⟨st.locals.set l (.i32 v), stack, mem⟩ := by
  have hslots := Fixture.slotsFor hs
  have hlength := length_store32 hstore
  refine ⟨by simp [h.locals], hlength ▸ h.size, ?_, fun hrefs => ?_, fun j l' k' hl' hk' => ?_⟩
  · rw [load32_store32_of_disjoint hstore (hfits.apart hs (hslots.ref.bounds i k hk).2)]
    exact h.published
  · obtain ⟨hta, hgcbase, hroom⟩ := h.frame hrefs
    obtain ⟨hne, hne'⟩ := helper_ne hs hl hrefs
    rw [List.getElem?_set_ne hne, List.getElem?_set_ne hne']
    exact ⟨hta, hgcbase, hlength ▸ hroom⟩
  · by_cases hij : i = j
    · obtain rfl := hij
      rw [hl] at hl'
      rw [hk] at hk'
      cases hl'
      cases hk'
      obtain ⟨w, hw, -⟩ := h.slots i l k hl hk
      exact ⟨v, List.getElem?_set_self (List.getElem?_eq_some_iff.mp hw).1, load32_store32 hstore⟩
    · have hne : l ≠ l' := fun heq => hij (hslots.ssa.inj i j l hl (heq ▸ hl'))
      have hne' : k ≠ k' := fun heq => hij (hslots.ref.inj i j k hk (heq ▸ hk'))
      rw [List.getElem?_set_ne hne, load32_store32_of_disjoint hstore (by omega)]
      exact h.slots j l' k' hl' hk'

omit hs in
/-- The top of the shadow stack does not wrap around. -/
theorem Framed.top_toNat (h : Framed rt fx s top st) :
    (top + BitVec.ofNat 32 (4 * s.nrefs)).toNat = top.toNat + 4 * s.nrefs := by
  have hsize := h.size
  have htop := top.isLt
  rw [BitVec.toNat_add, BitVec.toNat_ofNat]
  by_cases hrefs : 0 < s.nrefs
  · have hroom := (h.frame hrefs).2.2
    omega
  · omega

/-- Allocation leaves the frame alone. -/
theorem Framed.newRef (h : Framed rt fx s top st) (hfits : Fits rt fx top)
    {v : BitVec 64} {r : BitVec 32} {mem : List UInt8} (hnew : rt.newRef v st.mem = some (r, mem))
    (stack : List Val) : Framed rt fx s top ⟨st.locals, stack, mem⟩ := by
  obtain ⟨hlength, hsize⟩ := rt.newRef_length hnew h.size
  refine ⟨h.locals, hsize, (rt.newRef_top hnew).trans h.published, fun hrefs => ?_,
    fun i l k hl hk => ?_⟩
  · obtain ⟨hta, hgcbase, hroom⟩ := h.frame hrefs
    exact ⟨hta, hgcbase, Nat.le_trans hroom hlength⟩
  · obtain ⟨w, hw, hload⟩ := h.slots i l k hl hk
    have hlt := ((Fixture.slotsFor hs).ref.bounds i k hk).2
    obtain ⟨hbase, hend⟩ := hfits.slot hs hlt
    have hbelow : top.toNat + k * 4 + 4 ≤ (top + BitVec.ofNat 32 (4 * s.nrefs)).toNat := by
      rw [h.top_toNat]
      omega
    exact ⟨w, hw, (rt.newRef_slots hnew h.published hbase hbelow hend).trans hload⟩

end Preserved

/-! ### Instructions between two events -/

/-- The frame is kept by a sequence of instructions. -/
def KeepsFrame (rt : Runtime) (fx : Fixture) (s : Slots) (top : BitVec 32) (l : List Instr) :
    Prop :=
  ∀ st, Framed rt fx s top st →
    OnTrack (wasm rt) (Framed rt fx s top) (AtNewRef rt fx s top) (Restored rt top) l st

section Sequences

variable {rt : Runtime} {fx : Fixture} {s : Slots} {top : BitVec 32} {J : WState → Prop}

variable {l : List Instr}

/-- An instruction that does not allocate and does not return. -/
theorem onTrack_instr {i : Instr} {st : WState} (hi : i ≠ .ret ∧ i ≠ .call NEWREF)
    (h : ∀ st', execInstr rt i st = .next st' →
      OnTrack (wasm rt) J (AtNewRef rt fx s top) (Restored rt top) l st') :
    OnTrack (wasm rt) J (AtNewRef rt fx s top) (Restored rt top) (i :: l) st :=
  onTrack_cons (fun hnew => absurd hnew hi.2) h fun _ he => absurd (eq_ret_of_exec he).1 hi.1

theorem onTrack_harmless (hl : ∀ i ∈ l, i.harmless = true) {st : WState}
    (h : ∀ st', st'.locals = st.locals → st'.mem = st.mem → J st') :
    OnTrack (wasm rt) J (AtNewRef rt fx s top) (Restored rt top) l st := by
  induction l generalizing st with
  | nil => exact h st rfl rfl
  | cons i l ih =>
    obtain ⟨hi, hl⟩ := List.forall_mem_cons.mp hl
    refine onTrack_instr ⟨?_, ?_⟩ fun st' he => ?_
    · rintro rfl
      cases hi
    · rintro rfl
      cases hi
    · obtain ⟨hlocals, hmem⟩ := exec_harmless hi he
      refine ih hl fun st'' hlocals' hmem' => ?_
      exact h st'' (hlocals'.trans hlocals) (hmem'.trans hmem)

theorem KeepsFrame.append {l' : List Instr} (h : KeepsFrame rt fx s top l)
    (h' : KeepsFrame rt fx s top l') : KeepsFrame rt fx s top (l ++ l') :=
  fun st hst => (h st hst).append h'

theorem keepsFrame_harmless (hl : ∀ i ∈ l, i.harmless = true) :
    KeepsFrame rt fx s top l :=
  fun _ hst => onTrack_harmless hl fun _ hlocals hmem => hst.of_eq hlocals hmem

theorem keepsFrame_concat {ps : List (Option Piece)} {q : Piece} (hq : Piece.concat ps = some q)
    (h : ∀ p, some p ∈ ps → KeepsFrame rt fx s top p.insns) : KeepsFrame rt fx s top q.insns := by
  induction ps generalizing q with
  | nil =>
    cases hq
    exact fun _ hst => hst
  | cons p ps ih =>
    obtain ⟨p', q', rfl, hps, rfl⟩ := Piece.concat_cons_eq_some.mp hq
    rw [Piece.insns_append]
    refine (h p' List.mem_cons_self).append (ih hps fun p hp => ?_)
    exact h p (List.mem_cons_of_mem _ hp)

variable {p : Piece}

/-- Operands are read from locals. -/
theorem operand_harmless {fe : FnEmitter} {op : Operand} (hp : fe.operand op = some p) :
    ∀ i ∈ p.insns, i.harmless = true := by
  unfold FnEmitter.operand at hp
  repeat' split at hp
  all_goals first
    | cases hp; done
    | cases hp; simp [Piece.push, Piece.fail, Instr.harmless]

theorem intrinsic_harmless {f : String} {insn : Instr} (h : intrinsic f = some insn) :
    ∀ i ∈ (Piece.push [insn]).insns, i.harmless = true := by
  unfold intrinsic at h
  split at h
  all_goals cases h
  all_goals simp [Piece.push, Instr.harmless]

variable (hs : fx.slots = .ok s) (hfits : Fits rt fx top)
include hs hfits

theorem setSsa_keepsFrame (hp : (fx.emitter s).setSsa i = some p) :
    KeepsFrame rt fx s top p.insns := by
  simp only [FnEmitter.setSsa, Option.bind_eq_bind, Option.bind_eq_some_iff] at hp
  obtain ⟨l, hl, hp⟩ := hp
  change s.ssaLocal[i]? = some l at hl
  cases l with
  | none =>
    cases hp
    exact fun _ hst => hst
  | some l =>
    simp only [Option.bind_eq_some_iff] at hp
    obtain ⟨k, hk, hp⟩ := hp
    change s.refSlot[i]? = some k at hk
    intro st hst
    cases k with
    | none =>
      cases hp
      refine onTrack_instr (by simp) fun st' he => ?_
      obtain ⟨v, stack, -, -, rfl⟩ := exec_localSet_iff.mp he
      exact hst.set_local hs hl hk v stack
    | some k =>
      cases hp
      have hrefs : 0 < s.nrefs :=
        Nat.lt_of_le_of_lt (Nat.zero_le _) ((Fixture.slotsFor hs).ref.bounds i k hk).2
      refine onTrack_instr (by simp) fun st₁ h₁ => ?_
      obtain ⟨v, stack, -, hlt, rfl⟩ := exec_localSet_iff.mp h₁
      refine onTrack_instr (by simp) fun st₂ h₂ => ?_
      obtain ⟨a, ha, rfl⟩ := exec_localGet_iff.mp h₂
      refine onTrack_instr (by simp) fun st₃ h₃ => ?_
      obtain ⟨w, hw, rfl⟩ := exec_localGet_iff.mp h₃
      refine onTrack_instr (by simp) fun st₄ h₄ => ?_
      obtain ⟨x, b, stack', mem, hstack, hstore, rfl⟩ := exec_i32Store_iff.mp h₄
      dsimp only at ha hw hstack hstore ⊢
      -- What is stored at the slot is what was written to the local.
      rw [List.getElem?_set_ne (helper_ne hs hl hrefs).2, (hst.frame hrefs).2.1] at ha
      rw [List.getElem?_set_self hlt] at hw
      cases ha
      cases hw
      cases hstack
      exact hst.set_slot hs hfits hl hk hstore _

/-- An allocation keeps the frame, and its result is written through. -/
theorem newRef_keepsFrame : KeepsFrame rt fx s top [.call NEWREF] := by
  intro st hst
  refine onTrack_cons (fun _ => hst) (fun st' he => ?_) fun st' he => ?_
  · obtain ⟨v, stack, r, mem, -, hnew, rfl⟩ := exec_newRef_iff.mp he
    exact hst.newRef hs hfits hnew _
  · change execInstr rt (.call NEWREF) st = .done st' at he
    cases (eq_ret_of_exec he).1

theorem stmt_keepsFrame (hp : (fx.emitter s).stmt i = some p) :
    KeepsFrame rt fx s top p.insns := by
  have hfail : ∀ msg, KeepsFrame rt fx s top (Piece.fail msg).insns := fun _ _ hst => hst
  have hset : ∀ p, some p = (fx.emitter s).setSsa i → KeepsFrame rt fx s top p.insns :=
    fun _ hp => setSsa_keepsFrame hs hfits hp.symm
  have hop : ∀ op p, some p = (fx.emitter s).operand op → KeepsFrame rt fx s top p.insns :=
    fun _ _ hp => keepsFrame_harmless (operand_harmless hp.symm)
  simp only [FnEmitter.stmt, Option.bind_eq_bind, Option.bind_eq_some_iff] at hp
  obtain ⟨⟨ty, node⟩, -, hp⟩ := hp
  cases node with
  | call f args =>
    refine keepsFrame_concat hp fun q hq => ?_
    rcases List.mem_append.mp hq with hq | hq
    · obtain ⟨a, -, ha⟩ := List.mem_map.mp hq
      exact hop a q ha.symm
    · rcases List.mem_cons.mp hq with hq | hq
      · cases hq
        split
        case h_1 insn hinsn => exact keepsFrame_harmless (intrinsic_harmless hinsn)
        case h_2 => exact hfail _
      · exact hset q (List.mem_singleton.mp hq)
  | new t args =>
    rcases args with - | ⟨a, - | _⟩
    · cases hp
      exact hfail _
    rotate_left
    · cases hp
      exact hfail _
    · dsimp only at hp
      split at hp
      case isFalse =>
        cases hp
        exact hfail _
      case isTrue =>
        refine keepsFrame_concat hp fun q hq => ?_
        rcases List.mem_cons.mp hq with hq | hq
        · exact hop a q hq
        · rcases List.mem_cons.mp hq with hq | hq
          · cases hq
            exact newRef_keepsFrame hs hfits
          · exact hset q (List.mem_singleton.mp hq)
  | getField obj field =>
    dsimp only at hp
    split at hp
    case isFalse =>
      cases hp
      exact hfail _
    case isTrue =>
      refine keepsFrame_concat hp fun q hq => ?_
      rcases List.mem_cons.mp hq with hq | hq
      · cases hq
        exact keepsFrame_harmless (by simp [Piece.push, Instr.harmless])
      · rcases List.mem_cons.mp hq with hq | hq
        · exact hop obj q hq
        · rcases List.mem_cons.mp hq with hq | hq
          · cases hq
            exact keepsFrame_harmless (by simp [Piece.push, Instr.harmless])
          · exact hset q (List.mem_singleton.mp hq)
  | _ =>
    cases hp
    exact fun _ hst => hst

/-- The statements of a block keep the frame. -/
theorem stmts_keepsFrame (x : Nat) : KeepsFrame rt fx s top ((fx.emitter s).emission.stmts x) := by
  simp only [FnEmitter.emission]
  cases hp : (fx.emitter s).stmts x with
  | none => exact fun _ hst => hst
  | some p =>
    simp only [FnEmitter.stmts, Option.bind_eq_bind, Option.bind_eq_some_iff] at hp
    obtain ⟨b, -, -, -, hp⟩ := hp
    refine keepsFrame_concat hp fun q hq => ?_
    obtain ⟨i, -, hi⟩ := List.mem_map.mp hq
    exact stmt_keepsFrame hs hfits hi

omit hs hfits in
theorem hazard_insns {fe : FnEmitter} {b : Block} {t : Nat} {op : Operand}
    (hp : fe.hazard b t op = some p) : p.insns = [] := by
  cases op with
  | ssa id =>
    simp only [FnEmitter.hazard] at hp
    split at hp
    · cases hp
    · split at hp
      · simp only [Option.bind_eq_bind, Option.bind_eq_some_iff] at hp
        obtain ⟨st, -, hp⟩ := hp
        split at hp <;> (cases hp; rfl)
      · cases hp
        rfl
  | _ =>
    cases hp
    rfl

/-- The moves on an edge keep the frame. -/
theorem phiMoves_keepsFrame (x t : Nat) :
    KeepsFrame rt fx s top ((fx.emitter s).emission.phiMoves x t) := by
  simp only [FnEmitter.emission]
  cases hp : (fx.emitter s).phiMoves x t with
  | none => exact fun _ hst => hst
  | some p =>
    simp only [FnEmitter.phiMoves, Option.bind_eq_bind, Option.bind_eq_some_iff] at hp
    obtain ⟨b, -, -, -, moves, -, hp⟩ := hp
    refine keepsFrame_concat hp fun q hq => ?_
    rcases List.mem_append.mp hq with hq | hq
    · obtain ⟨m, -, hm⟩ := List.mem_map.mp hq
      rw [hazard_insns hm]
      exact fun _ hst => hst
    · obtain ⟨m, -, hm⟩ := List.mem_map.mp hq
      refine keepsFrame_concat hm fun q' hq' => ?_
      rcases List.mem_cons.mp hq' with hq' | hq'
      · exact keepsFrame_harmless (operand_harmless hq'.symm)
      · exact setSsa_keepsFrame hs hfits (List.mem_singleton.mp hq').symm

omit hs hfits in
theorem cond_keepsFrame (x : Nat) : KeepsFrame rt fx s top ((fx.emitter s).emission.cond x) := by
  simp only [FnEmitter.emission]
  cases hp : (fx.emitter s).cond x with
  | none => exact fun _ hst => hst
  | some p =>
    simp only [FnEmitter.cond, Option.bind_eq_bind, Option.bind_eq_some_iff] at hp
    obtain ⟨node, -, hp⟩ := hp
    split at hp
    · exact keepsFrame_harmless (operand_harmless hp)
    · cases hp
      exact fun _ hst => hst

omit hs hfits in
/-- The frame is given back before a return. -/
theorem ret_keepsFrame (x : Nat) : KeepsFrame rt fx s top ((fx.emitter s).emission.ret x) := by
  simp only [FnEmitter.emission]
  cases hp : (fx.emitter s).ret x with
  | none => exact fun _ hst => hst
  | some p =>
    simp only [FnEmitter.ret, Option.bind_eq_bind, Option.bind_eq_some_iff] at hp
    obtain ⟨node, -, hp⟩ := hp
    split at hp
    case h_2 =>
      cases hp
      exact fun _ hst => hst
    case h_1 val =>
      obtain ⟨p₁, q₁, h₁, hq₁, rfl⟩ := Piece.concat_cons_eq_some.mp hp
      obtain ⟨p₂, q₂, h₂, hq₂, rfl⟩ := Piece.concat_cons_eq_some.mp hq₁
      obtain ⟨p₃, q₃, h₃, hq₃, rfl⟩ := Piece.concat_cons_eq_some.mp hq₂
      cases h₁
      cases h₃
      cases hq₃
      intro st hst
      refine OnTrack.append (J := Restored rt top) ?_ fun st₁ hst₁ => ?_
      · change OnTrack _ _ _ _ (if (fx.emitter s).hasFrame then _ else _) st
        by_cases hrefs : 0 < s.nrefs
        · have hframe : (fx.emitter s).hasFrame = true := decide_eq_true hrefs
          obtain ⟨hta, hgcbase, -⟩ := hst.frame hrefs
          rw [hframe, if_pos rfl]
          refine onTrack_instr (by simp) fun st₁ h₁ => ?_
          obtain ⟨a, ha, rfl⟩ := exec_localGet_iff.mp h₁
          refine onTrack_instr (by simp) fun st₂ h₂ => ?_
          obtain ⟨w, hw, rfl⟩ := exec_localGet_iff.mp h₂
          refine onTrack_instr (by simp) fun st₃ h₃ => ?_
          obtain ⟨v, b, stack, mem, hstack, hstore, rfl⟩ := exec_i32Store_iff.mp h₃
          dsimp only at hw hstack hstore
          rw [hta] at ha
          rw [hgcbase] at hw
          cases ha
          cases hw
          cases hstack
          exact load32_store32 hstore
        · have hframe : (fx.emitter s).hasFrame = false := decide_eq_false hrefs
          have hzero : s.nrefs = 0 := by omega
          have hpublished := hst.published
          rw [hframe, if_neg Bool.false_ne_true]
          rw [hzero, Nat.mul_zero, BitVec.add_zero] at hpublished
          exact hpublished
      · refine OnTrack.append (J := Restored rt top) (onTrack_harmless (operand_harmless h₂) ?_) ?_
        · intro st₂ _ hmem
          unfold Restored
          rw [hmem]
          exact hst₁
        · intro st₂ hst₂
          refine onTrack_cons (fun hno => by cases hno) (fun st₃ he => ?_) fun st₃ he => ?_
          · simp only [wasm, execInstr] at he
            split at he <;> cases he
          · change execInstr rt .ret st₂ = .done st₃ at he
            rw [(eq_ret_of_exec he).2.1]
            exact hst₂

/-- All leaves of the body keep the frame. -/
theorem segmented_codeOf (events : List Event) :
    Segmented (KeepsFrame rt fx s top) (codeOf (fx.emitter s).emission events) := by
  have hleaves : ∀ {l : List Instr}, KeepsFrame rt fx s top l →
      Segmented (KeepsFrame rt fx s top) (l.map .leaf) := by
    intro l hl
    rw [← List.append_nil (l.map _)]
    exact .leaves hl .nil
  induction events with
  | nil => exact .nil
  | cons e events ih =>
    rw [codeOf_cons]
    refine Segmented.append ?_ ih
    cases e with
    | stmts x => exact hleaves (stmts_keepsFrame hs hfits x)
    | phiMoves x t => exact hleaves (phiMoves_keepsFrame hs hfits x t)
    | ret x => exact hleaves (ret_keepsFrame x)
    | openIf x => exact (hleaves (cond_keepsFrame x)).append (.control nofun .nil)
    | _ => exact .control nofun .nil

end Sequences

/-! ### The prologue -/

/-- The state in which the function is entered, up to the operand stack. -/
structure Entered (rt : Runtime) (fx : Fixture) (s : Slots) (top : BitVec 32) (st : WState) :
    Prop where
  locals : st.locals.length = fx.argtypes.length + s.allLocals.length
  size : st.mem.length < 2 ^ 32
  unpublished : load32 st.mem rt.topAddr.toNat = some top
  zero : ∀ i l k : Nat, s.ssaLocal[i]? = some (some l) → s.refSlot[i]? = some (some k) →
    st.locals[l]? = some (.i32 0)

/-- The frame is not published yet, and its first `n` words are zero. -/
structure Claimed (rt : Runtime) (fx : Fixture) (s : Slots) (top : BitVec 32) (n : Nat)
    (st : WState) : Prop extends Entered rt fx s top st where
  ta : st.locals[(fx.emitter s).taLocal]? = some (.i32 rt.topAddr)
  gcbase : st.locals[(fx.emitter s).gcbaseLocal]? = some (.i32 top)
  zeroed : ∀ k < n, load32 st.mem (top.toNat + k * 4) = some 0
  room : 0 < n → top.toNat + 4 * n ≤ st.mem.length

section Prologue

variable {rt : Runtime} {fx : Fixture} {s : Slots} {top : BitVec 32} {st : WState}

theorem allLocals_length (hrefs : 0 < s.nrefs) : s.locals.length + 2 ≤ s.allLocals.length := by
  simp only [Slots.allLocals, List.length_append, if_pos hrefs, List.length_cons, List.length_nil]
  omega

/-- The words of the frame are zeroed one after the other. -/
theorem zeroing_onTrack (hs : fx.slots = .ok s) (hfits : Fits rt fx top) {n : Nat}
    (hn : n ≤ s.nrefs) (hst : Claimed rt fx s top 0 st) :
    OnTrack (wasm rt) (Claimed rt fx s top n) (AtNewRef rt fx s top) (Restored rt top)
      ((List.range n).flatMap fun k =>
        [.localGet (fx.emitter s).gcbaseLocal, .i32Const 0, .i32Store (k * 4)]) st := by
  induction n with
  | zero => exact hst
  | succ n ih =>
    rw [List.range_succ, List.flatMap_append]
    refine (ih (Nat.le_of_succ_le hn)).append fun st₀ h₀ => ?_
    rw [List.flatMap_singleton]
    refine onTrack_instr (by simp) fun st₁ h₁ => ?_
    obtain ⟨a, ha, rfl⟩ := exec_localGet_iff.mp h₁
    refine onTrack_instr (by simp) fun st₂ h₂ => ?_
    cases h₂
    refine onTrack_instr (by simp) fun st₃ h₃ => ?_
    obtain ⟨v, b, stack, mem, hstack, hstore, rfl⟩ := exec_i32Store_iff.mp h₃
    dsimp only at hstack hstore
    rw [h₀.gcbase] at ha
    cases ha
    cases hstack
    have hlength := length_store32 hstore
    have hroom := (store32_eq_some.mp hstore).1
    refine ⟨⟨h₀.locals, hlength ▸ h₀.size, ?_, h₀.zero⟩, h₀.ta, h₀.gcbase, fun k hk => ?_,
      fun _ => ?_⟩
    · rw [load32_store32_of_disjoint hstore (hfits.apart hs hn)]
      exact h₀.unpublished
    · rcases Nat.lt_succ_iff_lt_or_eq.mp hk with hk | rfl
      · rw [load32_store32_of_disjoint hstore (by omega)]
        exact h₀.zeroed k hk
      · exact load32_store32 hstore
    · dsimp only
      omega

variable (hs : fx.slots = .ok s)
include hs

/-- The two helper locals are set. -/
theorem claim_onTrack (hrefs : 0 < s.nrefs) (hst : Entered rt fx s top st) :
    OnTrack (wasm rt) (Claimed rt fx s top 0) (AtNewRef rt fx s top) (Restored rt top)
      [.call TOPADDR, .localSet (fx.emitter s).taLocal, .localGet (fx.emitter s).taLocal,
        .i32Load 0,
        .localSet (fx.emitter s).gcbaseLocal] st := by
  have hlocals := allLocals_length hrefs
  have hlength := hst.locals
  have hta := taLocal_eq fx hrefs
  have hgcbase := gcbaseLocal_eq fx hrefs
  refine onTrack_instr (by decide) fun st₁ h₁ => ?_
  cases h₁
  refine onTrack_instr (by simp) fun st₂ h₂ => ?_
  obtain ⟨v, stack, hstack, hlt, rfl⟩ := exec_localSet_iff.mp h₂
  cases hstack
  refine onTrack_instr (by simp) fun st₃ h₃ => ?_
  obtain ⟨v, hv, rfl⟩ := exec_localGet_iff.mp h₃
  dsimp only at hv
  rw [List.getElem?_set_self hlt] at hv
  cases hv
  refine onTrack_instr (by simp) fun st₄ h₄ => ?_
  obtain ⟨a, v, stack, hstack, hload, rfl⟩ := exec_i32Load_iff.mp h₄
  cases hstack
  dsimp only at hload
  rw [Nat.add_zero, hst.unpublished] at hload
  cases hload
  refine onTrack_instr (by simp) fun st₅ h₅ => ?_
  obtain ⟨v, stack, hstack, hlt', rfl⟩ := exec_localSet_iff.mp h₅
  cases hstack
  refine ⟨⟨by simp [hlength], hst.size, hst.unpublished, fun i l k hl hk => ?_⟩, ?_, ?_,
    fun k hk => absurd hk (Nat.not_lt_zero k), fun hno => absurd hno (lt_irrefl 0)⟩
  rotate_left
  · rw [List.getElem?_set_ne (by omega), List.getElem?_set_self hlt]
  · rw [List.getElem?_set_self hlt']
  · obtain ⟨hne, hne'⟩ := helper_ne hs hl hrefs
    rw [List.getElem?_set_ne hne'.symm, List.getElem?_set_ne hne.symm]
    exact hst.zero i l k hl hk

/-- The frame is published. -/
theorem publish_onTrack (hfits : Fits rt fx top) (hrefs : 0 < s.nrefs)
    (href : ∀ i k : Nat, s.refSlot[i]? = some (some k) → k < s.nrefs)
    (hst : Claimed rt fx s top s.nrefs st) :
    OnTrack (wasm rt) (Framed rt fx s top) (AtNewRef rt fx s top) (Restored rt top)
      [.localGet (fx.emitter s).taLocal, .localGet (fx.emitter s).gcbaseLocal,
        .i32Const (s.nrefs * 4), .i32Add, .i32Store 0] st := by
  refine onTrack_instr (by simp) fun st₁ h₁ => ?_
  obtain ⟨a, ha, rfl⟩ := exec_localGet_iff.mp h₁
  refine onTrack_instr (by simp) fun st₂ h₂ => ?_
  obtain ⟨b, hb, rfl⟩ := exec_localGet_iff.mp h₂
  refine onTrack_instr (by simp) fun st₃ h₃ => ?_
  cases h₃
  refine onTrack_instr (by simp) fun st₄ h₄ => ?_
  obtain ⟨x, y, stack, hstack, rfl⟩ := exec_i32Add_iff.mp h₄
  refine onTrack_instr (by simp) fun st₅ h₅ => ?_
  obtain ⟨v, c, stack', mem, hstack', hstore, rfl⟩ := exec_i32Store_iff.mp h₅
  dsimp only at hb hstack hstack' hstore
  rw [hst.ta] at ha
  rw [hst.gcbase] at hb
  cases ha
  cases hb
  cases hstack
  cases hstack'
  rw [Nat.add_zero] at hstore
  have hlength := length_store32 hstore
  have hwidth : BitVec.ofInt 32 (s.nrefs * 4) = BitVec.ofNat 32 (4 * s.nrefs) := by
    rw [Nat.mul_comm]
    exact BitVec.ofInt_natCast 32 (s.nrefs * 4)
  refine ⟨hst.locals, hlength ▸ hst.size, ?_, fun _ => ⟨hst.ta, hst.gcbase, ?_⟩,
    fun i l k hl hk => ⟨0, hst.zero i l k hl hk, ?_⟩⟩
  · rw [load32_store32 hstore, hwidth]
  · rw [hlength]
    exact hst.room hrefs
  · rw [load32_store32_of_disjoint hstore (hfits.apart hs (href i k hk)).symm]
    exact hst.zeroed k (href i k hk)

theorem region_keepsFrame (hfield : s.hasGetField = true) :
    KeepsFrame rt fx s top [.call REGBASE, .localSet (fx.emitter s).rbLocal] := by
  intro st hst
  obtain ⟨hle, hlt⟩ := le_rbLocal fx hfield
  refine onTrack_instr (by decide) fun st₁ h₁ => ?_
  cases h₁
  refine onTrack_instr (by simp) fun st₂ h₂ => ?_
  obtain ⟨v, stack, -, -, rfl⟩ := exec_localSet_iff.mp h₂
  refine ⟨by simp [hst.locals], hst.size, hst.published, fun hrefs => ?_, fun i l k hl hk => ?_⟩
  · have hlt := hlt hrefs
    have hta := taLocal_eq fx hrefs
    have hgcbase := gcbaseLocal_eq fx hrefs
    rw [List.getElem?_set_ne (by omega), List.getElem?_set_ne (by omega)]
    exact hst.frame hrefs
  · have hbounds := (Fixture.slotsFor hs).ssa.bounds i l hl
    rw [List.getElem?_set_ne (by omega)]
    exact hst.slots i l k hl hk

/-- **The prologue builds the frame.** -/
theorem prologue_onTrack (hfits : Fits rt fx top) (hst : Entered rt fx s top st) :
    OnTrack (wasm rt) (Framed rt fx s top) (AtNewRef rt fx s top) (Restored rt top)
      (prologue (fx.emitter s) s) st := by
  have href : ∀ i k : Nat, s.refSlot[i]? = some (some k) → k < s.nrefs :=
    fun i k hk => ((Fixture.slotsFor hs).ref.bounds i k hk).2
  unfold prologue
  refine OnTrack.append (J := Framed rt fx s top) ?_ fun st₁ hst₁ => ?_
  · by_cases hrefs : 0 < s.nrefs
    · rw [if_pos (show (fx.emitter s).hasFrame = true from decide_eq_true hrefs)]
      refine OnTrack.append (J := Claimed rt fx s top s.nrefs) ?_ fun st₁ hst₁ =>
        publish_onTrack hs hfits hrefs href hst₁
      exact (claim_onTrack hs hrefs hst).append fun st₁ hst₁ => zeroing_onTrack hs hfits le_rfl hst₁
    · have hzero : s.nrefs = 0 := by omega
      rw [if_neg (show ¬ (fx.emitter s).hasFrame = true by simpa [Fixture.emitter] using hzero)]
      refine ⟨hst.locals, hst.size, ?_, fun hno => absurd hno hrefs, fun i l k _ hk => ?_⟩
      · rw [hzero, Nat.mul_zero, BitVec.add_zero]
        exact hst.unpublished
      · exact absurd (href i k hk) (by omega)
  · split
    case isTrue hfield => exact region_keepsFrame hs hfield st₁ hst₁
    case isFalse => exact hst₁

/-- Locals of reference type are zero at the beginning. -/
theorem entered_enter {body : List (Tok Instr)} {args : List (BitVec 64)} {mem : List UInt8}
    (hargs : args.length = fx.argtypes.length) (hsize : mem.length < 2 ^ 32)
    (htop : load32 mem rt.topAddr.toNat = some top) :
    Entered rt fx s top ((fx.moduleWith s body).enter args mem) := by
  refine ⟨?_, hsize, htop, fun i l k hl hk => ?_⟩
  · simp [Module.enter, Fixture.moduleWith, hargs]
  · have hslots := Fixture.slotsFor hs
    obtain ⟨st, vt, hst, hvt, hlocal⟩ := hslots.types i l hl
    have href : st.holdsRef = true := (hslots.ref.some_iff i st hst).mp ⟨k, hk⟩
    have hty : st.ty = REF_TY := of_decide_eq_true (Bool.and_eq_true_iff.mp href).2
    rw [hty] at hvt
    cases hvt
    have hle := (hslots.ssa.bounds i l hl).1
    have hall : s.allLocals[l - fx.argtypes.length]? = some .i32 := by
      unfold Slots.allLocals
      rw [List.append_assoc, List.getElem?_append_left (List.getElem?_eq_some_iff.mp hlocal).1]
      exact hlocal
    change (args.map Val.i64 ++ s.allLocals.map ValType.zero)[l]? = some (.i32 0)
    rw [List.getElem?_append_right (by rw [List.length_map, hargs]; exact hle),
      List.length_map, hargs,
      List.getElem?_map, hall]
    rfl

end Prologue

/-! ### Runs -/

/-- The frame is kept in all runs. -/
theorem tracked_start {rt : Runtime} {fx : Fixture} {s : Slots} {top : BitVec 32}
    (hs : fx.slots = .ok s) (hfits : Fits rt fx top) (events : List Event)
    {args : List (BitVec 64)} {mem : List UInt8} (hargs : args.length = fx.argtypes.length)
    (hsize : mem.length < 2 ^ 32) (htop : load32 mem rt.topAddr.toNat = some top) :
    Tracked (wasm rt) (Framed rt fx s top) (AtNewRef rt fx s top) (Restored rt top)
      ((fx.moduleWith s (codeOf (fx.emitter s).emission events)).start args mem) :=
  ⟨⟨prologue (fx.emitter s) s, _, rfl,
    prologue_onTrack hs hfits (entered_enter hs hargs hsize htop),
    segmented_codeOf hs hfits events⟩,
    fun _ hlabel => absurd hlabel List.not_mem_nil⟩

/-- Each statement of reference type has its local and its slot, both with one value.  The
slot is one of the shadow stack, below the published top. -/
def Rooted (rt : Runtime) (fx : Fixture) (s : Slots) (top : BitVec 32) (st : WState) : Prop :=
  ∃ published, load32 st.mem rt.topAddr.toNat = some published ∧
    ∀ (i : Nat) (stmt : Stmt), fx.stmts[i]? = some stmt → stmt.holdsRef = true →
      ∃ l k v, s.ssaLocal[i]? = some (some l) ∧ s.refSlot[i]? = some (some k) ∧
        st.locals[l]? = some (.i32 v) ∧ load32 st.mem (top.toNat + k * 4) = some v ∧
        top.toNat + k * 4 + 4 ≤ published.toNat ∧
        rt.shadowBase ≤ top.toNat + k * 4 ∧ top.toNat + k * 4 + 4 ≤ rt.shadowEnd

/-- **Frames are complete**, if the frame fits into what is left of the shadow stack.
Whenever the function calls the allocator, the values of all statements of reference type are
in their slots.  When the function returns, the top is what it was on entry.

The prologue does not check that the frame fits. -/
theorem emitModule_frames (rt : Runtime) (validate : Module → Option String) (fx : Fixture)
    (cfg : Cfg) (fuel : Nat) (m : Module)
    (hm : (emitModule validate fx cfg fuel).run = some (.ok m))
    (args : List (BitVec 64)) (hargs : args.length = fx.argtypes.length) (mem : List UInt8)
    (hsize : mem.length < 2 ^ 32) (top : BitVec 32)
    (htop : load32 mem rt.topAddr.toNat = some top) (hfits : Fits rt fx top) :
    ∃ s, fx.slots = .ok s ∧ ∀ n : Nat,
      (∀ c code, after (step (wasm rt)) n (m.start args mem) = .next c →
        c.code = .leaf (.call NEWREF) :: code → Rooted rt fx s top c.state) ∧
      ∀ st, after (step (wasm rt)) n (m.start args mem) = .done st →
        load32 st.mem rt.topAddr.toNat = some top := by
  obtain ⟨s, r, events, hcheck, -, -, -, hassemble⟩ := emitModule_eq_ok hm
  have hs := (Fixture.of_checkTypes hcheck).1
  obtain ⟨rfl, -⟩ := assemble_eq_ok hassemble
  have hcond : ∀ st b st', Framed rt fx s top st → (wasm rt).cond st = some (b, st') →
      Framed rt fx s top st' := by
    intro st b st' hst hb
    simp only [wasm] at hb
    split at hb
    · cases hb
      exact hst.of_eq rfl rfl
    · cases hb
  have hrun := (tracked_start hs hfits events hargs hsize htop).after hcond
  refine ⟨s, hs, fun n => ⟨fun c code hc hcode => ?_, fun st hst => ?_⟩⟩
  · have htracked := hrun n
    rw [hc] at htracked
    have hframed : Framed rt fx s top c.state := htracked.ok hcode rfl
    refine ⟨_, hframed.published, fun i st hi href => ?_⟩
    have hslots := Fixture.slotsFor hs
    obtain ⟨l, hl⟩ := (hslots.ssa.some_iff i st hi).mpr (Bool.and_eq_true_iff.mp href).1
    obtain ⟨k, hk⟩ := (hslots.ref.some_iff i st hi).mpr href
    obtain ⟨v, hv, hload⟩ := hframed.slots i l k hl hk
    have hlt := (hslots.ref.bounds i k hk).2
    refine ⟨l, k, v, hl, hk, hv, hload, ?_, hfits.slot hs hlt⟩
    rw [hframed.top_toNat]
    omega
  · have hdone := hrun n
    rw [hst] at hdone
    exact hdone

/-! ### A shadow stack that is full -/

section Straight

variable {rt : Runtime} {l : List Instr} {s s' : WState} {e : Effect WState WState}
  {locals stack : List Val} {mem mem' : List UInt8} {a v : BitVec 32} {offset : Nat}

theorem runLeaves_next {i : Instr} (h : execInstr rt i s = .next s')
    (hl : runLeaves (wasm rt) l s' = e) : runLeaves (wasm rt) (i :: l) s = e := by
  change (execInstr rt i s).bind _ = e
  rw [h]
  exact hl

theorem runLeaves_store (h : store32 mem (a.toNat + offset) v = some mem')
    (hl : runLeaves (wasm rt) l ⟨locals, stack, mem'⟩ = e) :
    runLeaves (wasm rt) (.i32Store offset :: l) ⟨locals, .i32 v :: .i32 a :: stack, mem⟩ = e :=
  runLeaves_next (exec_i32Store_iff.mpr ⟨v, a, stack, mem', rfl, h, rfl⟩) hl

theorem runLeaves_load (h : load32 mem (a.toNat + offset) = some v)
    (hl : runLeaves (wasm rt) l ⟨locals, .i32 v :: stack, mem⟩ = e) :
    runLeaves (wasm rt) (.i32Load offset :: l) ⟨locals, .i32 a :: stack, mem⟩ = e :=
  runLeaves_next (exec_i32Load_iff.mpr ⟨a, v, stack, rfl, h, rfl⟩) hl

theorem runLeaves_newRef {x : BitVec 64} (h : rt.newRef x mem = some (v, mem'))
    (hl : runLeaves (wasm rt) l ⟨locals, .i32 v :: stack, mem'⟩ = e) :
    runLeaves (wasm rt) (.call NEWREF :: l) ⟨locals, .i64 x :: stack, mem⟩ = e :=
  runLeaves_next (exec_newRef_iff.mpr ⟨x, stack, v, mem', rfl, h, rfl⟩) hl

end Straight

/-- Allocation counts in the word behind the shadow stack, and hands out the cell at 8. -/
def countedNew (mem : List UInt8) : Option (BitVec 32 × List UInt8) := do
  let count ← load32 mem 65552
  let mem ← store32 mem 65552 (count + 1)
  some (8, mem)

theorem countedNew_eq_some {mem mem' : List UInt8} {r : BitVec 32} :
    countedNew mem = some (r, mem') ↔ r = 8 ∧
      ∃ count, load32 mem 65552 = some count ∧ store32 mem 65552 (count + 1) = some mem' := by
  unfold countedNew
  simp only [Option.bind_eq_bind, Option.bind_eq_some_iff, Option.some.injEq, Prod.mk.injEq]
  constructor
  · rintro ⟨count, hload, m, hstore, rfl, rfl⟩
    exact ⟨rfl, count, hload, hstore⟩
  · rintro ⟨rfl, count, hload, hstore⟩
    exact ⟨count, hload, mem', hstore, rfl, rfl⟩

/-- A runtime with that allocator. -/
def counting : Runtime where
  topAddr := 0
  regionBase := 0
  shadowBase := 16
  newRef _ mem := countedNew mem
  top_apart := by decide
  newRef_length h hsize := by
    obtain ⟨-, count, -, hstore⟩ := countedNew_eq_some.mp h
    rw [length_store32 hstore]
    exact ⟨le_rfl, hsize⟩
  newRef_top h := by
    obtain ⟨-, count, -, hstore⟩ := countedNew_eq_some.mp h
    exact load32_store32_of_disjoint hstore (by decide)
  newRef_slots h _ _ _ hend := by
    obtain ⟨-, count, -, hstore⟩ := countedNew_eq_some.mp h
    exact load32_store32_of_disjoint hstore (Or.inl hend)

/-- The fixture of a function that makes three references and returns its argument. -/
def threeRefs : Fixture where
  name := "f"
  argtypes := ["Int64"]
  rettype := "Int64"
  blocks := [⟨1, 4, [0], []⟩]
  stmts := List.replicate 3 ⟨REF_TY, .new REF_TY [.arg 2]⟩ ++ [⟨"Any", .ret (.arg 2)⟩]
  blocks_ne := by decide
  stmts_ne := by decide

/-- Its code up to the third allocation. -/
def twoRefsCode : List Instr := [
  .call TOPADDR, .localSet 4, .localGet 4, .i32Load 0, .localSet 5,
  .localGet 5, .i32Const 0, .i32Store 0, .localGet 5, .i32Const 0, .i32Store 4,
  .localGet 5, .i32Const 0, .i32Store 8,
  .localGet 4, .localGet 5, .i32Const 12, .i32Add, .i32Store 0,
  .localGet 0, .call NEWREF, .localSet 1, .localGet 5, .localGet 1, .i32Store 0,
  .localGet 0, .call NEWREF, .localSet 2, .localGet 5, .localGet 2, .i32Store 4, .localGet 0]

/-- The module of `threeRefs`. -/
def threeRefsModule : Module where
  name := "f"
  nargs := 1
  locals := [.i32, .i32, .i32, .i32, .i32]
  body := twoRefsCode.map .leaf ++ [.call NEWREF, .localSet 3, .localGet 5, .localGet 3,
    .i32Store 8, .localGet 4, .localGet 5, .i32Store 0, .localGet 0, .ret].map .leaf

theorem exists_store32 {mem : List UInt8} {a : Nat} (v : BitVec 32) (h : a + 4 ≤ mem.length) :
    ∃ mem', store32 mem a v = some mem' ∧ mem'.length = mem.length :=
  ⟨_, store32_eq_some.mpr ⟨h, rfl⟩, length_overwrite h⟩

/-- A memory in which only the top of the shadow stack is set. -/
def stackAt (top : Nat) : List UInt8 := wordBytes top ++ List.replicate 65560 0

theorem length_stackAt (top : Nat) : (stackAt top).length = 65564 := by
  rw [stackAt, List.length_append, length_wordBytes, List.length_replicate]

theorem load32_stackAt {top : Nat} (h : top < 2 ^ 32) :
    load32 (stackAt top) 0 = some (BitVec.ofNat 32 top) := by
  have hwindow : window (stackAt top) 0 4 = wordBytes top := by
    rw [stackAt, window_append_left (by simp)]
    exact window_self (wordBytes top)
  rw [load32, if_pos (by simp [length_stackAt]), hwindow, bytesWord_wordBytes h]

/-- With a full shadow stack the first slot is the counter. -/
theorem run_twoRefsCode {mem : List UInt8} (hlen : mem.length = 65564)
    (htop : load32 mem 0 = some 65552#32) :
    ∃ st, runLeaves (wasm counting) twoRefsCode (threeRefsModule.enter [7] mem) = .next st ∧
      st.locals[1]? = some (.i32 8) ∧ load32 st.mem 65552 = some 9 := by
  -- the frame is zeroed and published
  obtain ⟨m₁, h₁, hlen₁⟩ := exists_store32 (a := 65552) 0#32 (by omega : _ ≤ mem.length)
  obtain ⟨m₂, h₂, hlen₂⟩ := exists_store32 (a := 65556) 0#32 (by omega : _ ≤ m₁.length)
  obtain ⟨m₃, h₃, hlen₃⟩ := exists_store32 (a := 65560) 0#32 (by omega : _ ≤ m₂.length)
  obtain ⟨m₄, h₄, hlen₄⟩ := exists_store32 (a := 0) 65564#32 (by omega : _ ≤ m₃.length)
  -- each allocation counts, and its result goes to its slot
  obtain ⟨m₅, h₅, hlen₅⟩ := exists_store32 (a := 65552) 1#32 (by omega : _ ≤ m₄.length)
  obtain ⟨m₆, h₆, hlen₆⟩ := exists_store32 (a := 65552) 8#32 (by omega : _ ≤ m₅.length)
  obtain ⟨m₇, h₇, hlen₇⟩ := exists_store32 (a := 65552) 9#32 (by omega : _ ≤ m₆.length)
  obtain ⟨m₈, h₈, hlen₈⟩ := exists_store32 (a := 65556) 8#32 (by omega : _ ≤ m₇.length)
  have hfirst : countedNew m₄ = some (8#32, m₅) := by
    refine countedNew_eq_some.mpr ⟨rfl, 0#32, ?_, by rw [show 0#32 + 1 = 1#32 by decide, h₅]⟩
    rw [load32_store32_of_disjoint h₄ (by decide), load32_store32_of_disjoint h₃ (by decide),
      load32_store32_of_disjoint h₂ (by decide), load32_store32 h₁]
  have hsecond : countedNew m₆ = some (8#32, m₇) :=
    countedNew_eq_some.mpr ⟨rfl, 8#32, load32_store32 h₆,
      by rw [show 8#32 + 1 = 9#32 by decide, h₇]⟩
  refine ⟨⟨[.i64 7, .i32 8, .i32 8, .i32 0, .i32 0, .i32 65552], [.i64 7], m₈⟩, ?_, rfl, ?_⟩
  · iterate 3 refine runLeaves_next rfl ?_
    refine runLeaves_load htop ?_
    iterate 3 refine runLeaves_next rfl ?_
    refine runLeaves_store h₁ ?_
    iterate 2 refine runLeaves_next rfl ?_
    refine runLeaves_store h₂ ?_
    iterate 2 refine runLeaves_next rfl ?_
    refine runLeaves_store h₃ ?_
    iterate 4 refine runLeaves_next rfl ?_
    refine runLeaves_store h₄ ?_
    refine runLeaves_next rfl ?_
    refine runLeaves_newRef hfirst ?_
    iterate 3 refine runLeaves_next rfl ?_
    refine runLeaves_store h₆ ?_
    refine runLeaves_next rfl ?_
    refine runLeaves_newRef hsecond ?_
    iterate 3 refine runLeaves_next rfl ?_
    refine runLeaves_store h₈ ?_
    refine runLeaves_next rfl ?_
    rfl
  · exact (load32_store32_of_disjoint h₈ (by decide)).trans (load32_store32 h₇)

/-- **A frame that does not fit.**  If the function is entered with a full shadow stack, its
frame lies behind the stack, in memory of the runtime.  At the third allocation the first
reference is not in its slot. -/
theorem frame_overflows :
    (emitModule (fun _ => none) threeRefs oneBlock 9).run = some (.ok threeRefsModule) ∧
    load32 (stackAt 65552) counting.topAddr.toNat = some 65552 ∧
    ∃ n c code, after (step (wasm counting)) n (threeRefsModule.start [7] (stackAt 65552)) =
      .next c ∧ c.code = .leaf (.call NEWREF) :: code ∧
      ∀ s, threeRefs.slots = .ok s → ¬ Rooted counting threeRefs s 65552 c.state := by
  have htop : load32 (stackAt 65552) 0 = some 65552#32 := load32_stackAt (by decide)
  refine ⟨by decide +kernel, htop, ?_⟩
  obtain ⟨st, hrun, hlocal, hslot⟩ := run_twoRefsCode (length_stackAt _) htop
  obtain ⟨n, -, hn⟩ := gets_leaves (wasm counting) twoRefsCode _ []
    (threeRefsModule.enter [7] (stackAt 65552))
  rw [hrun] at hn
  refine ⟨n, _, _, hn, rfl, fun s hs => ?_⟩
  rintro ⟨published, -, hall⟩
  obtain ⟨l, k, v, hl, hk, hv, hload, -⟩ := hall 0 _ rfl rfl
  cases hs
  cases hl
  cases hk
  cases hlocal.symm.trans hv
  exact absurd (hslot.symm.trans hload) (by decide)

/-- The loop of `countdown` meets the hypotheses, on an empty shadow stack. -/
theorem emitModule_frames_countdown :
    ∃ m s, (emitModule (fun _ => none) countdown countdownGraph 40).run = some (.ok m) ∧
      countdown.slots = .ok s ∧ ∀ n : Nat,
      (∀ c code, after (step (wasm counting)) n (m.start [7] (stackAt 16)) = .next c →
        c.code = .leaf (.call NEWREF) :: code → Rooted counting countdown s 16 c.state) ∧
      ∀ st, after (step (wasm counting)) n (m.start [7] (stackAt 16)) = .done st →
        load32 st.mem counting.topAddr.toNat = some 16 := by
  have hsome : ((emitModule (fun _ => none) countdown countdownGraph 40).run.bind
      Except.toOption).isSome := by decide +kernel
  obtain ⟨m, hm⟩ := Option.isSome_iff_exists.mp hsome
  obtain ⟨result, hrun, hm⟩ := Option.bind_eq_some_iff.mp hm
  cases result with
  | error e => cases hm
  | ok m' =>
    cases hm
    have hsize : (stackAt 16).length < 2 ^ 32 := by
      rw [length_stackAt]
      decide
    obtain ⟨s, hs, hframes⟩ := emitModule_frames counting (fun _ => none) countdown
      countdownGraph 40 m hrun [7] rfl (stackAt 16) hsize 16 (load32_stackAt (by decide))
      (by unfold Fits; decide)
    exact ⟨m, s, hrun, hs, hframes⟩

end Ruju.Aot
