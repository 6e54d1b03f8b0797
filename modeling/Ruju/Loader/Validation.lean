import Ruju.Interp.Boxes
import Ruju.Interp.WellFormed
import Ruju.Loader.Parse

/-!
# Loaded code inside its frame

`parse` checks each line by itself: its head, its operands, the counts.  It does not
compare an index with the slot count or the number of statements, and it does not ask
how a body ends.  So it accepts bodies that are not well formed; what it loads is
evaluated inside the frame and the code if it is.  Nor does it bound the slot count, and a
body with close to `2 ^ 32` slots has no frame that could hold them.
-/

namespace Ruju.Loader

open Interp

/-- The loader's constants among the boxes. -/
def boxConsts : Consts Box where
  bool := .bool
  nothing := .nothing
  sym := .sym
  main := .main
  sym_injective _ _ h := Box.sym.inj h
  sym_ne_bool _ _ h := Box.noConfusion h
  sym_ne_nothing _ h := Box.noConfusion h
  sym_ne_main _ h := Box.noConfusion h

section Evaluation

variable {V H : Type} {P : Prims V H}

/-- Arguments are stored one slot after the other, from slot `i` on. -/
theorem seedFrame_zip (args : List V) : ∀ (i : Nat) (frame : List V),
    seedFrame ((List.range' i args.length).zip args) frame = .error .badSeed ↔
      args ≠ [] ∧ frame.length < i + args.length := by
  induction args with
  | nil => simp [seedFrame]
  | cons a args ih =>
    intro i frame
    rw [List.length_cons, List.range'_succ, List.zip_cons_cons, seedFrame]
    split
    · rename_i hi
      rw [ih, List.length_set]
      cases args <;> simp <;> omega
    · simp
      omega

/-- **A call's arguments are stored inside the frame** exactly if there are not more of
them than the frame has entries. -/
theorem start_badSeed (body : Body V) (args : List V) (st : State V H) :
    start P body (argSeed args) st = .error .badSeed ↔
      body.nslots + body.code.length < args.length := by
  have h := seedFrame_zip args 0 (List.replicate (body.nslots + body.code.length) P.null)
  rw [← List.range_eq_range', List.length_replicate, Nat.zero_add] at h
  have hmap : start P body (argSeed args) st = .error .badSeed ↔
      seedFrame (argSeed args) (List.replicate (body.nslots + body.code.length) P.null) =
        .error .badSeed := by
    unfold start
    cases seedFrame (argSeed args) (List.replicate (body.nslots + body.code.length) P.null) <;>
      simp [Except.map]
  rw [hmap]
  refine h.trans ⟨And.right, fun hlt => ⟨?_, hlt⟩⟩
  rintro rfl
  exact Nat.not_lt_zero _ hlt

variable [DecidableEq V]

theorem safe_evalThunks (fuel : Nat) {thunks : List (Body V)}
    (hwf : ∀ t ∈ thunks, t.wellFormed = true) :
    ∀ (last : V) (st : State V H), st.Sane → SafeCall (evalThunks P fuel last thunks st) := by
  induction thunks with
  | nil => exact fun last st hst => hst
  | cons t thunks ih =>
    intro last st hst
    have hcall : SafeCall (enterWith P (run P fuel) t [] st) :=
      safe_enterWith (run_inside fuel) t [] st (hwf t List.mem_cons_self) hst
    rw [evalThunks]
    cases hr : enterWith P (run P fuel) t [] st with
    | error stop =>
      rw [hr] at hcall
      exact hcall
    | ok r =>
      obtain ⟨r, st'⟩ := r
      rw [hr] at hcall
      cases r with
      | error e => exact hcall
      | ok v => exact ih (fun t' h => hwf t' (List.mem_cons_of_mem _ h)) v st' hcall

/-- **Loading stays inside.**  If the bodies of the text are well formed, every frame has as
many entries as its body has slots and statements, and no statement of a thunk, or of a
method called from one, uses an index outside its frame or its code; and a call's arguments
are stored inside the callee's frame unless there are more of them than it has entries. -/
theorem loadAndEval_inside (K : Consts V) (P : Prims V H) (fuel : Nat) (src : String)
    (st : State V H)
    (hwf : ∀ thunks, parse K src = .ok thunks → ∀ t ∈ thunks, t.wellFormed = true)
    (hst : st.Sane) :
    loadAndEval K P fuel src st ≠ .error .outside ∧
      loadAndEval K P fuel src st ≠ .error .frameWraps ∧
      ∀ (body : Body V) (args : List V) (st' : State V H),
        body.nslots + body.code.length < 2 ^ 32 →
        (start P body (argSeed args) st' = .error .badSeed ↔
          body.nslots + body.code.length < args.length) := by
  have hsafe : SafeCall (loadAndEval K P fuel src st) := by
    unfold loadAndEval
    cases hparse : parse K src with
    | error msg => exact hst
    | ok thunks => exact safe_evalThunks (P := P) fuel (hwf thunks hparse) P.nothing st hst
  refine ⟨fun hout => ?_, fun hout => ?_, fun body args st' _ => start_badSeed body args st'⟩
  · rw [hout] at hsafe
    exact hsafe.1 rfl
  · rw [hout] at hsafe
    exact hsafe.2 rfl

end Evaluation

/-- A text whose only operand is a slot that its frame does not have. -/
def strayText : String := "RUJU_LOWERED 1\nthunk 0 1\nvalue slot:5"

/-- The loader accepts the stray slot, and reading it leaves the frame. -/
theorem parse_accepts_stray :
    parse boxConsts strayText = .ok [⟨0, [.value (.slot 5)]⟩] ∧
      (⟨0, [.value (.slot 5)]⟩ : Body Box).wellFormed = false ∧
      loadAndEval boxConsts boxes 1 strayText freshState = .error .outside :=
  ⟨rfl, rfl, rfl⟩

/-- A text that defines the method `f(x) = x` and calls it. -/
def methodText : String :=
  "RUJU_LOWERED 1\nthunk 0 4\nmethod1 f\nmethod3 ssa:0 nothing 1 1\nreturn slot:0\n" ++
    "call ssa:0 int:7\nreturn ssa:2"

theorem loadAndEval_inside_method :
    (∀ thunks, parse boxConsts methodText = .ok thunks → ∀ t ∈ thunks, t.wellFormed = true) ∧
      (∃ st, loadAndEval boxConsts boxes 9 methodText freshState = .ok (.ok (.int 7), st)) ∧
      ∀ fuel, loadAndEval boxConsts boxes fuel methodText freshState ≠ .error .outside := by
  have hwf : ∀ thunks, parse boxConsts methodText = .ok thunks → ∀ t ∈ thunks,
      t.wellFormed = true := by
    have hall : ((parse boxConsts methodText).toOption.all fun thunks =>
        thunks.all Body.wellFormed) = true := by
      decide +kernel
    intro thunks hparse
    rw [hparse] at hall
    exact List.all_eq_true.mp hall
  have hvalue : ((loadAndEval boxConsts boxes 9 methodText freshState).toOption.bind fun r =>
      r.1.toOption) = some (.int 7) := by
    decide +kernel
  refine ⟨hwf, ?_, fun fuel => (loadAndEval_inside boxConsts boxes fuel methodText freshState
    hwf (fun e he => absurd he List.not_mem_nil)).1⟩
  rcases hrun : loadAndEval boxConsts boxes 9 methodText freshState with _ | ⟨_ | v, st⟩ <;>
    rw [hrun] at hvalue
  · cases hvalue
  · cases hvalue
  · cases hvalue
    exact ⟨st, rfl⟩

end Ruju.Loader
