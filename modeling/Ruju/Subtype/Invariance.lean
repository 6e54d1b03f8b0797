import Ruju.Subtype.Rename

/-!
# Simulation of the algorithm, function by function

The functions of `Ruju.Subtype.Engine` in the order of that module, each
simulated by itself along a renaming, from a simulation of the knots.  The
results are `engine_sim`, its two uses, and the statements about whole queries:

* `subtype_ren` — an injective renaming of the allocation numbers of both types
  does not change the answer;
* `subtype_mono` — a larger bound on the recursion does not change an answer.
-/

namespace Ruju

section
variable {R : Renaming} {strict : Bool} {k k' : Knot}

/-- Simulations along a renaming of computations without a result. -/
abbrev AgreeU (strict : Bool) (R : Renaming) (m m' : SubM Unit) : Prop :=
  Sim strict (EnvRel R) (fun _ _ => True) m m'

/-- Rename the state of a slow local search. -/
def LocalSearch.ren (R : Renaming) (s : LocalSearch) : LocalSearch :=
  { s with se := s.se.ren R }

/-! ### Control -/

theorem modify_sim {f f' : Env → Env}
    (h : ∀ e, R.base ≤ e.next → R.base ≤ (f e).next ∧ f' (e.ren R) = (f e).ren R) :
    AgreeU strict R (modify f : SubM Unit) (modify f') :=
  Sim.update fun e e' he => by
    obtain ⟨hn, rfl⟩ := he
    exact h e hn

theorem get_sim {α β : Type} {Q : α → β → Prop} {f : Env → SubM α} {f' : Env → SubM β}
    (h : ∀ e, R.base ≤ e.next → Sim strict (EnvRel R) Q (f e) (f' (e.ren R))) :
    Sim strict (EnvRel R) Q (get >>= f) (get >>= f') :=
  Sim.andThen Sim.getState fun e _ he => by
    obtain ⟨hn, rfl⟩ := he
    exact h e hn

/-- A change of the environment that the renaming commutes with by definition. -/
theorem after_modify {α β : Type} {Q : α → β → Prop} {f f' : Env → Env} {m : SubM α} {m' : SubM β}
    (hf : (fun e => ((f e).next, f' (e.ren R))) = fun e => (e.next, (f e).ren R))
    (hm : Sim strict (EnvRel R) Q m m') :
    Sim strict (EnvRel R) Q (modify f >>= fun _ => m) (modify f' >>= fun _ => m') := by
  have h := fun e => Prod.mk.inj (congrFun hf e)
  exact (modify_sim fun e hn => ⟨(h e).1 ▸ hn, (h e).2⟩).next hm

theorem when_sim {c : Bool} {m m' : SubM Unit} (h : AgreeU strict R m m') :
    AgreeU strict R (SubM.when c m) (SubM.when c m') :=
  Sim.ite h (.ret trivial)

theorem stuck_sim {α β : Type} {Q : α → β → Prop} {m' : SubM β}
    (h : strict = true → m' = SubM.stuck) :
    Sim strict (EnvRel R) Q SubM.stuck m' :=
  Sim.stuck fun hs s' => by rw [h hs]; rfl

/-- The rule for a loop with a bound on its passes: the simulation of one pass,
given that of the remaining ones. -/
theorem loop_sim {ι ι' α β : Type} {Q : α → β → Prop} {I : ι → ι' → Prop}
    (loop : Nat → ι → SubM α) (loop' : Nat → ι' → SubM β)
    (h0 : ∀ i, loop 0 i = SubM.stuck) (h0' : ∀ i, loop' 0 i = SubM.stuck)
    (step : ∀ n m i i', I i i' →
      (∀ j j', I j j' → Sim strict (EnvRel R) Q (loop n j) (loop' m j')) →
      Sim strict (EnvRel R) Q (loop (n + 1) i) (loop' (m + 1) i')) :
    ∀ n m i i', I i i' → n ≤ m → (strict = true → n = m) →
      Sim strict (EnvRel R) Q (loop n i) (loop' m i') := by
  intro n
  induction n with
  | zero =>
    intro m i i' _ _ hs
    rw [h0]
    exact stuck_sim fun h => by rw [← hs h, h0']
  | succ n ih =>
    intro m i i' hi hnm hs
    obtain ⟨m, rfl⟩ : ∃ m', m = m' + 1 := ⟨m - 1, by omega⟩
    exact step n m i i' hi fun j j' hj =>
      ih m j j' hj (by omega) fun h => by have := hs h; omega

/-! ### The drivers -/

section
variable (hk : KnotSim strict R k k')
include hk

theorem existsLoop_sim (x y : Ty) (se : SavedVars) (param : Param) :
    ∀ n m, n ≤ m → (strict = true → n = m) →
      Agree strict R (existsLoop k x y se param n)
        (existsLoop k' (x.ren R.map) (y.ren R.map) (se.ren R) param m) := by
  intro n m
  refine loop_sim (fun n (_ : Unit) => existsLoop k x y se param n)
    (fun m (_ : Unit) =>
      existsLoop k' (x.ren R.map) (y.ren R.map) (se.ren R) param m)
    (I := fun _ _ => True) (fun _ => rfl) (fun _ => rfl) ?_ n m () () trivial
  intro n m _ _ _ ih
  refine after_modify rfl ?_
  refine (hk.sub x y param).bindEq fun b => ?_
  refine Sim.ite (.ret rfl) ?_
  refine (SubM.nextUnionState_sim true).bindEq fun b' => ?_
  refine Sim.ite ?_ ?_
  · refine Sim.andThen (modify_sim fun e hn => ⟨hn, ?_⟩) fun _ _ _ => ih () () trivial
    have := Env.restoreVars_ren (R := R) { e with envidx := e.envout.length } se
    have h' : Env.ren R { e with envidx := e.envout.length } =
        { e.ren R with envidx := (e.ren R).envout.length } := by simp [Env.ren]
    rw [h'] at this
    rw [this]
    rfl
  · exact Sim.next (modify_sim fun e hn => ⟨hn, Env.restoreVars_ren e se⟩) (.ret rfl)

theorem existsSubtype_sim (x y : Ty) (se : SavedVars) (param : Param) :
    Agree strict R (existsSubtype k x y se param)
      (existsSubtype k' (x.ren R.map) (y.ren R.map) (se.ren R) param) :=
  Sim.andThen (modify_sim fun _ hn => ⟨hn, rfl⟩) fun _ _ _ =>
    existsLoop_sim hk x y se param _ _ hk.passes hk.passes_eq

theorem forallLoop_sim (x y : Ty) (param : Param) :
    ∀ n m se, n ≤ m → (strict = true → n = m) →
      Agree strict R (forallLoop k x y param n se)
        (forallLoop k' (x.ren R.map) (y.ren R.map) param m (se.ren R)) := by
  intro n m se
  refine loop_sim (forallLoop k x y param)
    (forallLoop k' (x.ren R.map) (y.ren R.map) param)
    (I := fun se se' => se' = se.ren R) (fun _ => rfl) (fun _ => rfl) ?_ n m se _ rfl
  rintro n m se _ rfl ih
  refine (existsSubtype_sim hk x y se param).bindEq fun b => ?_
  refine Sim.ite ?_ (.ret rfl)
  refine (SubM.nextUnionState_sim false).bindEq fun b' => ?_
  refine Sim.ite ?_ (.ret rfl)
  refine get_sim fun e hn => ?_
  exact ih _ _ rfl

/-- A whole search is simulated, the bound on its passes included. -/
theorem forallExistsSubtype_sim (x y : Ty) (param : Param) :
    Agree strict R (forallExistsSubtype k x y param)
      (forallExistsSubtype k' (x.ren R.map) (y.ren R.map) param) := by
  refine get_sim fun e hn => ?_
  refine (Sim.setState ⟨hn, rfl⟩).next ?_
  exact forallLoop_sim hk x y param _ _ e.saveVars hk.passes hk.passes_eq

theorem leftLoop_sim (x y : Ty) (param : Param) :
    ∀ n m, n ≤ m → (strict = true → n = m) →
      Agree strict R (leftLoop k x y param n)
        (leftLoop k' (x.ren R.map) (y.ren R.map) param m) := by
  intro n m
  refine loop_sim (fun n (_ : Unit) => leftLoop k x y param n)
    (fun m (_ : Unit) => leftLoop k' (x.ren R.map) (y.ren R.map) param m)
    (I := fun _ _ => True) (fun _ => rfl) (fun _ => rfl) ?_ n m () () trivial
  intro n m _ _ _ ih
  refine after_modify rfl ?_
  refine (hk.sub x y param).bindEq fun b => ?_
  refine Sim.ite ?_ (.ret rfl)
  refine (SubM.nextUnionState_sim false).bindEq fun b' => ?_
  exact Sim.ite (ih () () trivial) (.ret rfl)

theorem localPasses_sim (x y : Ty) (param : Param) (limitSlow : Bool) (oldRmore : Nat) :
    ∀ n m count s, n ≤ m → (strict = true → n = m) →
      Sim strict (EnvRel R) (fun p q => q = (p.1, p.2.ren R))
        (localPasses k x y param limitSlow oldRmore n count s)
        (localPasses k' (x.ren R.map) (y.ren R.map) param limitSlow oldRmore m count
          (s.ren R)) := by
  intro n m count s
  refine loop_sim
    (fun n i => localPasses k x y param limitSlow oldRmore n i.1 i.2)
    (fun m i =>
      localPasses k' (x.ren R.map) (y.ren R.map) param limitSlow oldRmore m i.1 i.2)
    (I := fun i j => j = (i.1, i.2.ren R)) (fun _ => rfl) (fun _ => rfl) ?_
    n m (count, s) (count, s.ren R) rfl
  rintro n m ⟨count, s⟩ _ rfl ih
  refine after_modify rfl ?_
  refine (hk.sub x y param).bindEq fun ans => ?_
  have hs : ∀ c : Nat, (if limitSlow && decide (c = 4) then { s.ren R with limited := true }
      else s.ren R) =
      (if limitSlow && decide (c = 4) then { s with limited := true } else s).ren R :=
    fun c => by split <;> rfl
  simp only [hs]
  refine Sim.ite ?_ (.ret rfl)
  refine (SubM.nextUnionState_sim false).bindEq fun more => ?_
  refine Sim.ite ?_ (.ret rfl)
  refine get_sim fun e hn => ?_
  refine Sim.ite ?_ (ih (_, _) _ rfl)
  exact Sim.andThen (Sim.setState ⟨hn, rfl⟩) fun _ _ _ => ih (_, _) _ rfl

theorem localRounds_sim (x y : Ty) (param : Param) (limitSlow : Bool) (oldRmore : Nat) :
    ∀ n m s, n ≤ m → (strict = true → n = m) →
      Sim strict (EnvRel R) (fun p q => q = (p.1, p.2.ren R))
        (localRounds k x y param limitSlow oldRmore n s)
        (localRounds k' (x.ren R.map) (y.ren R.map) param limitSlow oldRmore m
          (s.ren R)) := by
  intro n m s
  refine loop_sim (localRounds k x y param limitSlow oldRmore)
    (localRounds k' (x.ren R.map) (y.ren R.map) param limitSlow oldRmore)
    (I := fun s s' => s' = s.ren R) (fun _ => rfl) (fun _ => rfl) ?_ n m s _ rfl
  rintro n m s _ rfl ih
  refine after_modify rfl ?_
  refine (localPasses_sim hk x y param limitSlow oldRmore _ _ s.iniCount s
    hk.passes hk.passes_eq).bindMap fun ⟨ans, s'⟩ => ?_
  refine get_sim fun e hn => ?_
  refine Sim.ite (.ret rfl) ?_
  refine (SubM.nextUnionState_sim true).next ?_
  refine Sim.andThen (modify_sim fun e hn => ⟨hn, ?_⟩) fun _ _ _ => ih _ _ rfl
  simp only [LocalSearch.ren, Env.restoreVars_ren]
  rfl

theorem localSlow_sim (x y : Ty) (param : Param) (limitSlow : Bool) :
    Agree strict R (localSlow k x y param limitSlow)
      (localSlow k' (x.ren R.map) (y.ren R.map) param limitSlow) := by
  refine get_sim fun e hn => ?_
  refine (localRounds_sim hk x y param limitSlow e.runions.more _ _
    { se := e.saveVars } hk.passes hk.passes_eq).bindMap fun ⟨ans, s⟩ => ?_
  refine Sim.next (modify_sim fun e' hn' => ?_) (.ret rfl)
  refine ⟨hn', ?_⟩
  simp only [LocalSearch.ren, Env.unchanged_ren, Env.ren_runions]
  rfl

theorem localForallExistsSubtype_sim (x y : Ty) (param : Param) (limitSlow : Option Bool) :
    Agree strict R (localForallExistsSubtype k x y param limitSlow)
      (localForallExistsSubtype k' (x.ren R.map) (y.ren R.map) param limitSlow) := by
  unfold localForallExistsSubtype
  rw [Ty.obviouslyInUnion_ren R.inj, Ty.hasFreeTypevars_ren R.inj,
    Ty.hasFreeTypevars_ren R.inj]
  refine Sim.ite (.ret rfl) ?_
  refine Sim.ite (SubM.alloc_sim (hk.issubtype x y)) ?_
  refine get_sim fun e hn => ?_
  rw [Env.hasExistentialTypevar_ren, Env.hasExistentialTypevar_ren,
    Env.isExistentialTypevar_ren, Env.isExistentialTypevar_ren]
  refine Sim.ite ?_ ?_
  · refine (Sim.setState ⟨hn, rfl⟩).next ?_
    refine (forallExistsSubtype_sim hk x y param).bindEq fun ans => ?_
    exact after_modify rfl (.ret rfl)
  · refine Sim.ite ?_ (localSlow_sim hk x y param _)
    exact Sim.andThen (Sim.setState ⟨hn, rfl⟩) fun _ _ _ =>
      leftLoop_sim hk x y param _ _ hk.passes hk.passes_eq

/-! ### Variables -/

omit hk in
theorem occur_ren (invariant : Bool) (d : Nat) (b : VarBinding) :
    (b.ren R.map).occur invariant d = (b.occur invariant d).ren R.map := by
  unfold VarBinding.occur
  by_cases h : (invariant && decide (b.depth0 < d)) = true
  · have h' : (invariant && decide ((b.ren R.map).depth0 < d)) = true := h
    rw [if_pos h, if_pos h']
    rfl
  · have h' : ¬(invariant && decide ((b.ren R.map).depth0 < d)) = true := h
    rw [if_neg h, if_neg h']
    rfl

omit hk in
theorem recordOccurrence_sim (i : Nat) (param : Param) :
    AgreeU strict R (recordOccurrence i param) (recordOccurrence i param) := by
  refine get_sim fun e hn => ?_
  refine Sim.ite (.ret trivial) ?_
  refine Sim.mono (SubM.modifyBinding_sim i fun b => ?_) fun _ _ _ => trivial
  exact occur_ren _ _ b

theorem subtypeLeftVar_sim (x y : Ty) (param : Param) :
    Agree strict R (subtypeLeftVar k x y param)
      (subtypeLeftVar k' (x.ren R.map) (y.ren R.map) param) := by
  refine get_sim fun e hn => ?_
  refine Sim.branch (.ret (by simp)) ?_ (by simp)
  refine Sim.branch (.ret rfl) ?_ (by simp)
  refine Sim.branch (.ret rfl) ?_ (by simp)
  refine Sim.branch (.ret rfl) ?_ (by simp)
  refine Sim.branch (.ret rfl) ?_ (by simp)
  exact hk.sub x y param

omit hk in
theorem forallBoundScope_sim {m m' : SubM Bool} (h : Agree strict R m m') :
    Agree strict R (forallBoundScope m) (forallBoundScope m') := by
  refine get_sim fun e hn => ?_
  refine (Sim.setState ⟨hn, Env.resetOccurs_ren e _ fun _ => rfl⟩).next ?_
  refine h.bindEq fun ans => ?_
  refine Sim.next (modify_sim fun e' hn' => ⟨hn', ?_⟩) (.ret rfl)
  rw [Env.occursCovs_ren]
  exact Env.foldOccurs_ren e' _ (fun _ => rfl) _

theorem ccheck_sim (a b : Ty) :
    Agree strict R (ccheck k a b) (ccheck k' (a.ren R.map) (b.ren R.map)) := by
  refine get_sim fun e hn => ?_
  refine Sim.branch (.ret (by simp)) ?_ (by simp)
  refine Sim.branch (.ret rfl) ?_ (by simp)
  refine Sim.branch (.ret rfl) ?_ (by simp)
  refine Sim.branch (.ret rfl) ?_ (by simp)
  refine Sim.branch (.ret rfl) ?_ (by simp)
  refine (Sim.setState ⟨hn, Env.resetOccurs_ren e _ fun _ => rfl⟩).next ?_
  refine (localForallExistsSubtype_sim hk a b .none (some true)).bindEq fun ok => ?_
  refine Sim.next (modify_sim fun e' hn' => ⟨hn', ?_⟩) ?_
  · rw [Env.occursCovs_ren]
    exact Env.foldOccurs_ren e' _ (fun _ => rfl) _
  · exact after_modify rfl (.ret rfl)

omit hk in
theorem offsetBlocks_ren (e : Env) (a : Ty) :
    offsetBlocks (e.ren R) (a.ren R.map) = offsetBlocks e a := by
  have hb : a.ren R.map = Ty.bottom ↔ a = Ty.bottom := by simp
  have ha : a.ren R.map = Ty.any ↔ a = Ty.any := by simp
  show (decide (e.loffset ≠ 0) && !(a.ren R.map).isTypevar &&
    decide (a.ren R.map ≠ Ty.bottom) && decide (a.ren R.map ≠ Ty.any)) = _
  rw [Ty.isTypevar_ren, decide_eq_decide.mpr (not_congr hb),
    decide_eq_decide.mpr (not_congr ha)]
  rfl

theorem varLt_sim (a : Ty) (i : Nat) (param : Param) :
    Agree strict R (varLt k a i param) (varLt k' (a.ren R.map) i param) := by
  refine (recordOccurrence_sim i param).next ?_
  refine get_sim fun e hn => ?_
  refine Sim.branch (.ret rfl) ?_ (by rw [offsetBlocks_ren])
  refine (SubM.binding_sim i).bindMap fun bb => ?_
  refine Sim.ite (forallBoundScope_sim (subtypeLeftVar_sim hk bb.ub a param)) ?_
  refine Sim.branch (.ret rfl) ?_ (by simp)
  refine (ccheck_sim hk bb.lb a).bindEq fun ok => ?_
  refine Sim.ite ?_ (.ret rfl)
  refine (SubM.binding_sim i).bindMap fun b => ?_
  refine Sim.andThen (SubM.alloc_sim (simpleMeet_sim hk.issubtype b.ub a 1)) ?_
  intro m m' hm
  exact (SubM.setUb_sim i hm).next (.ret rfl)

theorem varGt_sim (a : Ty) (i : Nat) (param : Param) :
    Agree strict R (varGt k a i param) (varGt k' (a.ren R.map) i param) := by
  refine (recordOccurrence_sim i param).next ?_
  refine get_sim fun e hn => ?_
  refine Sim.branch (.ret rfl) ?_ (by rw [offsetBlocks_ren])
  refine (SubM.binding_sim i).bindMap fun bb => ?_
  refine Sim.ite (forallBoundScope_sim (subtypeLeftVar_sim hk a bb.lb param)) ?_
  refine Sim.branch (.ret rfl) ?_ (by simp)
  refine (ccheck_sim hk a bb.ub).bindEq fun ok => ?_
  refine Sim.ite ?_ (.ret rfl)
  refine (SubM.binding_sim i).bindMap fun b => ?_
  refine Sim.andThen (SubM.alloc_sim (simpleJoin_sim hk.issubtype b.lb a)) ?_
  intro m m' hm
  exact (SubM.setLb_sim i hm).next (.ret rfl)

theorem subtypeVarAt_sim (b a : Ty) (r : Bool) (param : Param) :
    Agree strict R (subtypeVarAt k b a r param)
      (subtypeVarAt k' (b.ren R.map) (a.ren R.map) r param) := by
  refine get_sim fun e hn => ?_
  rw [Env.lookup_ren]
  cases e.lookup b with
  | some i =>
    exact Sim.ite (varGt_sim hk a i param) (varLt_sim hk a i param)
  | none =>
    rw [Ty.tvarLb_ren, Ty.tvarUb_ren]
    exact Sim.ite (hk.sub a b.tvarLb param) (hk.sub b.tvarUb a param)

theorem subtypeVar_sim (b a : Ty) (r : Bool) (param : Param) :
    Agree strict R (subtypeVar k b a r param)
      (subtypeVar k' (b.ren R.map) (a.ren R.map) r param) := by
  refine get_sim fun e hn => ?_
  rw [Ty.isBoxedLong_ren, Ty.unboxLong_ren]
  refine Sim.ite ?_ (subtypeVarAt_sim hk b a r param)
  refine (SubM.alloc_sim fresh_sim).bindMap fun i => ?_
  refine after_modify rfl ?_
  refine (subtypeVarAt_sim hk b _ r param).bindEq fun ans => ?_
  exact after_modify rfl (.ret rfl)

theorem subtypeTwoVars_sim (x y : Ty) (param : Param) :
    Agree strict R (subtypeTwoVars k x y param)
      (subtypeTwoVars k' (x.ren R.map) (y.ren R.map) param) := by
  refine Sim.branch (.ret rfl) ?_ (by simp)
  refine get_sim fun e hn => ?_
  rw [Env.lookup_ren, Env.lookup_ren]
  cases e.lookup x with
  | none =>
    cases e.lookup y with
    | none => exact Sim.ret rfl
    | some j =>
      refine (SubM.binding_sim j).bindMap fun b => ?_
      refine Sim.ite (varGt_sim hk x j param) ?_
      rw [Ty.tvarUb_ren]
      exact SubM.or_sim (hk.sub x.tvarUb y param) (hk.sub x b.lb param)
  | some i =>
    cases e.lookup y with
    | none =>
      refine (SubM.binding_sim i).bindMap fun b => ?_
      refine Sim.ite (varLt_sim hk y i param) ?_
      rw [Ty.tvarLb_ren]
      exact SubM.or_sim (hk.sub b.ub y param) (hk.sub x y.tvarLb param)
    | some j =>
      refine (SubM.binding_sim i).bindMap fun bx => ?_
      refine (SubM.binding_sim j).bindMap fun b => ?_
      refine Sim.ite ?_ ?_
      · refine Sim.ite ?_ ?_
        · exact Sim.andThen (recordOccurrence_sim i param) fun _ _ _ =>
            varGt_sim hk x j param
        · exact Sim.andThen (recordOccurrence_sim j param) fun _ _ _ =>
            varLt_sim hk y i param
      · refine Sim.ite ?_ (SubM.or_sim (hk.sub bx.ub y param) (hk.sub x b.lb param))
        refine (recordOccurrence_sim i param).next ?_
        refine Sim.ite ?_ (varGt_sim hk x j param)
        refine (SubM.binding_sim i).bindMap fun bx' => ?_
        exact varGt_sim hk bx'.ub j param

/-! ### `where` types -/

omit hk in
theorem effConstrained_ren (vbf : VarBinding) (var : Ty) :
    effConstrained (vbf.ren R.map) (var.ren R.map) = effConstrained vbf var := by
  unfold effConstrained
  rw [Ty.tvarLb_ren, decide_eq_decide.mpr (Ty.ren_eq_nominal (t := var.tvarLb))]
  rfl

omit hk in
theorem envoutValue_sim (vbf : VarBinding) (var : Ty) (name : String) (t : Ty)
    (newTvar : Option Ty) :
    Sim strict (EnvRel R) (fun v v' => v' = v.ren R.map)
      (envoutValue vbf var name t newTvar)
      (envoutValue (vbf.ren R.map) (var.ren R.map) name (t.ren R.map)
        (newTvar.map (Ty.ren R.map))) := by
  refine get_sim fun e hn => ?_
  refine Sim.branch ?_ ?_ (by simp)
  · refine (SubM.alloc_sim fresh_sim).bindMap fun i => ?_
    exact Sim.ret rfl
  refine Sim.branch ?_ ?_ (by simp)
  · refine Sim.branch (.ret rfl) ?_ (by simp)
    refine Sim.branch (.ret rfl) ?_ (by simp [effConstrained_ren, Ty.hasFreeTypevars_ren R.inj])
    refine Sim.branch (.ret (by simp [effConstrained_ren, EnvVal.ren])) ?_ (by simp)
    refine (SubM.alloc_sim fresh_sim).bindMap fun i => ?_
    exact Sim.ret (by simp [effConstrained_ren, EnvVal.ren])
  refine Sim.branch ?_ ?_ (by simp)
  · refine Sim.branch (.ret (by simp [effConstrained_ren, EnvVal.ren])) (.ret rfl) (by simp)
  refine Sim.branch (.ret (by simp [effConstrained_ren, EnvVal.ren])) ?_ (by simp)
  cases newTvar with
  | some v => exact Sim.ret (by simp [effConstrained_ren, EnvVal.ren])
  | none =>
    refine (SubM.alloc_sim fresh_sim).bindMap fun i => ?_
    exact Sim.ret (by simp [effConstrained_ren, EnvVal.ren])

omit hk in
theorem egal_ren (v w : EnvVal) : (v.ren R.map).egal (w.ren R.map) = v.egal w := by
  cases v <;> cases w <;> simp [EnvVal.ren, EnvVal.egal, Ty.egal_ren R.inj, R.inj.eq_iff]

omit hk in
theorem mergeEnvout_ren (var : Ty) (val : EnvVal) (old : Option EnvVal) :
    mergeEnvout (var.ren R.map) (val.ren R.map) (old.map (EnvVal.ren R.map)) =
      (mergeEnvout var val old).ren R.map := by
  have hc : ∀ v : EnvVal, (v.ren R.map).constrained = v.constrained := fun v => by
    cases v <;> rfl
  cases old with
  | none => rfl
  | some old =>
    simp only [Option.map_some, mergeEnvout, egal_ren, hc]
    split <;> rfl

omit hk in
theorem fillEnvout_sim (vbf : VarBinding) (var : Ty) (name : String) (t : Ty)
    (newTvar : Option Ty) :
    AgreeU strict R (fillEnvout vbf var name t newTvar)
      (fillEnvout (vbf.ren R.map) (var.ren R.map) name (t.ren R.map)
        (newTvar.map (Ty.ren R.map))) := by
  refine (envoutValue_sim vbf var name t newTvar).bindMap fun val => ?_
  refine modify_sim fun e hn => ⟨hn, ?_⟩
  have hold : ((e.envout.map (·.map (EnvVal.ren R.map)))[e.envidx]?).join =
      ((e.envout[e.envidx]?).join).map (EnvVal.ren R.map) := by
    rw [List.getElem?_map]
    cases e.envout[e.envidx]? <;> rfl
  simp only [Env.ren_envout, Env.ren_envidx, hold, mergeEnvout_ren]
  simp [Env.ren, List.map_set]

omit hk in
theorem diagonalCheck_sim (vb : VarBinding) (var : Ty) :
    Agree strict R (diagonalCheck vb var) (diagonalCheck (vb.ren R.map) (var.ren R.map)) := by
  have hd : (vb.ren R.map).isDiagonal = vb.isDiagonal := rfl
  refine Sim.branch ?_ (.ret rfl) (by simp [hd])
  refine Sim.branch (.ret rfl) ?_ (by simp [hd])
  refine Sim.branch ?_ (.ret (by simp)) (by simp)
  refine get_sim fun e hn => ?_
  rw [VarBinding.ren_lb, Env.lookup_ren]
  cases e.lookup vb.lb with
  | none => exact Sim.ret rfl
  | some j =>
    exact Sim.next (SubM.modifyBinding_sim j fun _ => rfl) (.ret rfl)

omit hk in
theorem exitCheck_sim (found : Bool) (vb : VarBinding) (var : Ty) :
    Agree strict R (exitCheck found vb var)
      (exitCheck found (vb.ren R.map) (var.ren R.map)) :=
  Sim.ite (diagonalCheck_sim vb var) (.ret rfl)

theorem unionallBody_sim (t body : Ty) (i : Nat) (r : Bool) (param : Param) :
    Agree strict R (unionallBody k t body i r param)
      (unionallBody k' (t.ren R.map) (body.ren R.map) i r param) := by
  refine Sim.ite ?_ (hk.sub body t param)
  refine after_modify rfl ?_
  refine (hk.sub t body param).bindEq fun ans => ?_
  refine after_modify rfl ?_
  refine (SubM.binding_sim i).bindMap fun b => ?_
  refine (when_sim (c := decide (b.occursInv = 0)) ?_).next (.ret rfl)
  exact Sim.mono (SubM.setLb_sim i (Ty.widenTypeIfConcrete_ren R.inj b.lb))
    fun _ _ _ => trivial

theorem widenUb_sim (i : Nat) : AgreeU strict R (widenUb k i) (widenUb k' i) := by
  refine (SubM.binding_sim i).bindMap fun b => ?_
  rw [VarBinding.ren_ub, Ty.isIntersect_ren]
  refine when_sim ?_
  refine Sim.andThen (SubM.alloc_sim (widenIntersect_sim hk.issubtype b.ub)) ?_
  intro w w' hw
  exact Sim.mono (SubM.setUb_sim i hw) fun _ _ _ => trivial

omit hk in
theorem resolved_ren (vb : VarBinding) :
    (vb.ren R.map).resolved = vb.resolved.map (Ty.ren R.map) := by
  unfold VarBinding.resolved
  by_cases h : vb.lb = vb.ub
  · have h' : (vb.ren R.map).lb = (vb.ren R.map).ub := congrArg (Ty.ren R.map) h
    rw [if_pos h, if_pos h']
    rfl
  · have h' : ¬(vb.ren R.map).lb = (vb.ren R.map).ub := fun h' => h (Ty.ren_injective R.inj h')
    rw [if_neg h, if_neg h']
    rfl

theorem subtypeUnionall_sim (t u : Ty) (r : Bool) (param : Param) :
    Agree strict R (subtypeUnionall k t u r param)
      (subtypeUnionall k' (t.ren R.map) (u.ren R.map) r param) := by
  cases u with
  | unionall j v name lb ub body =>
    rw [Ty.ren_unionall]
    refine get_sim fun e hn => ?_
    have hinv := Ty.varOccursInvariant_ren R.inj (.tvar v name lb ub) body false
    rw [Ty.ren_tvar] at hinv
    simp only [Env.ren_vars, List.length_map, hinv]
    refine (SubM.pushBinding_sim
      { var := .tvar v name lb ub, lb, ub, existential := r,
        bodyOccursInv := Ty.varOccursInvariant (.tvar v name lb ub) false body,
        depth0 := e.invdepth }).next ?_
    refine (unionallBody_sim hk t body e.vars.length r param).bindEq fun found => ?_
    refine (SubM.binding_sim e.vars.length).bindMap fun vb => ?_
    refine (exitCheck_sim found vb (.tvar v name lb ub)).bindEq fun ans => ?_
    refine (when_sim (widenUb_sim hk e.vars.length)).next ?_
    refine (SubM.binding_sim e.vars.length).bindMap fun vbf => ?_
    refine SubM.popBinding_sim.next ?_
    refine get_sim fun e' hn' => ?_
    rw [resolved_ren]
    simp only [Env.ren_envidx, Env.ren_envout, List.length_map]
    exact (when_sim (fillEnvout_sim vbf (.tvar v name lb ub) name t _)).next (.ret rfl)
  | _ =>
    simp only [Ty.ren_nominal, Ty.ren_app, Ty.ren_union, Ty.ren_tvar, Ty.ren_vararg,
      Ty.ren_varargN, Ty.ren_long, Ty.ren_inter, subtypeUnionall]
    exact stuck_sim fun _ => rfl

/-! ### Invariant equality -/

theorem equalVar_sim (v x : Ty) :
    Agree strict R (equalVar k v x) (equalVar k' (v.ren R.map) (x.ren R.map)) := by
  refine get_sim fun e hn => ?_
  rw [Env.lookup_ren]
  cases e.lookup v with
  | none => exact Sim.ret (Ty.decide_ren_eq R.inj x v).symm
  | some i =>
    refine (recordOccurrence_sim i .invariant).next ?_
    refine (SubM.binding_sim i).bindMap fun bb => ?_
    refine Sim.ite ?_ ?_
    · rw [Ty.hasFreeTypevars_ren R.inj]
      exact SubM.and_sim (localForallExistsSubtype_sim hk x bb.lb .invariant _)
        (localForallExistsSubtype_sim hk bb.ub x .none _)
    refine Sim.branch (varLt_sim hk x i .none) ?_ (by simp)
    refine (ccheck_sim hk x bb.ub).bindEq fun ok => ?_
    refine Sim.ite ?_ (.ret rfl)
    refine (SubM.binding_sim i).bindMap fun b => ?_
    refine Sim.andThen (SubM.alloc_sim (simpleJoin_sim hk.issubtype b.lb x)) ?_
    intro j j' hj
    refine (SubM.setLb_sim i hj).next ?_
    refine (SubM.binding_sim i).bindMap fun b' => ?_
    refine Sim.branch (.ret rfl) ?_ (by simp)
    refine (ccheck_sim hk b'.lb x).bindEq fun ok' => ?_
    refine Sim.ite ?_ (.ret rfl)
    exact (SubM.setUb_sim i rfl).next (.ret rfl)

theorem equalBack_sim (x y : Ty) :
    Agree strict R (equalBack k x y) (equalBack k' (x.ren R.map) (y.ren R.map)) := by
  refine after_modify rfl ?_
  refine (localForallExistsSubtype_sim hk y x .none _).bindEq fun back => ?_
  exact after_modify rfl (.ret rfl)

theorem equalBothWays_sim (x y : Ty) :
    Agree strict R (equalBothWays k x y)
      (equalBothWays k' (x.ren R.map) (y.ren R.map)) := by
  refine get_sim fun e hn => ?_
  rw [Ty.isTypevar_ren, Ty.isTypevar_ren, Ty.isBoxedLong_ren]
  refine Sim.ite (equalVar_sim hk y x) ?_
  refine (SubM.and_sim (localForallExistsSubtype_sim hk x y .invariant none)
    (equalBack_sim hk x y)).bindEq fun ans => ?_
  exact after_modify rfl (.ret rfl)

/-- The greedy path of both sides, when there is one. -/
def GreedyRel (strict : Bool) (R : Renaming) : Option (SubM Bool) → Option (SubM Bool) → Prop
  | some m, some m' => Agree strict R m m'
  | none, none => True
  | _, _ => False

theorem equalWith_sim {g g' : Option (SubM Bool)} (hg : GreedyRel strict R g g') (x y : Ty) :
    Agree strict R (equalWith k g x y)
      (equalWith k' g' (x.ren R.map) (y.ren R.map)) := by
  refine get_sim fun e hn => ?_
  rw [Ty.obviouslyEgal_ren R.inj]
  simp only [Ty.isIndefiniteLengthTuple_ren, Ty.isDefiniteLengthTuple_ren, Ty.isDatatype_ren,
    Ty.isTuple_ren]
  refine Sim.ite (.ret rfl) ?_
  refine Sim.ite (.ret rfl) ?_
  refine Sim.branch (.ret rfl) ?_ (by simp)
  refine Sim.ite (hk.sub x y .invariant) ?_
  cases g with
  | none =>
    cases g' with
    | none => exact equalBothWays_sim hk x y
    | some m' => exact hg.elim
  | some m =>
    cases g' with
    | none => exact hg.elim
    | some m' =>
      refine (SubM.pickUnionDecision_sim true).bindEq fun ui => ?_
      exact Sim.ite (equalBothWays_sim hk x y) hg

theorem forallExistsEqual_sim (x : Ty) : ∀ y,
    Agree strict R (forallExistsEqual k x y)
      (forallExistsEqual k' (x.ren R.map) (y.ren R.map)) := by
  induction x with
  | union i a b iha ihb =>
    intro y
    unfold forallExistsEqual
    refine equalWith_sim hk ?_ _ y
    cases y with
    | union j c d =>
      simp only [Ty.ren_union]
      exact SubM.and_sim (iha c) (ihb d)
    | _ => simp [GreedyRel]
  | _ =>
    intro y
    unfold forallExistsEqual
    refine equalWith_sim hk ?_ _ y
    simp [GreedyRel]

/-! ### Tuples -/

theorem checkVarargLength_sim (v : Ty) (n : Int) :
    Agree strict R (checkVarargLength k v n) (checkVarargLength k' (v.ren R.map) n) := by
  unfold checkVarargLength
  rw [Ty.varargNum_ren]
  cases v.varargNum with
  | none => exact Sim.ret rfl
  | some num =>
    refine (SubM.alloc_sim fresh_sim).bindMap fun i => ?_
    refine after_modify rfl ?_
    refine Sim.andThen (SubM.and_sim ?_ ?_) ?_
    · simpa using hk.sub (.long i n) num .invariant
    · simpa using hk.sub num (.long i n) .none
    rintro ans _ rfl
    exact after_modify rfl (.ret rfl)

omit hk in
theorem countValue_ren (e : Env) (num : Ty) :
    countValue (e.ren R) (num.ren R.map) = (countValue e num).ren R.map := by
  simp only [countValue, Ty.isTypevar_ren, Env.bindingOf_ren]
  split
  · cases e.bindingOf num <;> simp
  · rfl

omit hk in
theorem pinnedCount_ren (e : Env) (num : Ty) :
    pinnedCount (e.ren R) (num.ren R.map) = (pinnedCount e num).ren R.map := by
  simp only [pinnedCount, countValue_ren, Ty.isBoxedLong_ren]
  split <;> rfl

omit hk in
theorem markIntvalued_sim (num : Ty) :
    AgreeU strict R (markIntvalued num) (markIntvalued (num.ren R.map)) := by
  refine get_sim fun e hn => ?_
  rw [Ty.isTypevar_ren, Env.lookup_ren]
  cases (if num.isTypevar then e.lookup num else none) with
  | none => exact Sim.ret trivial
  | some i => exact Sim.mono (SubM.modifyBinding_sim i fun _ => rfl) fun _ _ _ => trivial

omit hk in
theorem restoreMaxOffset_sim (num : Ty) (old : Env) :
    AgreeU strict R (restoreMaxOffset num old)
      (restoreMaxOffset (num.ren R.map) (old.ren R)) := by
  refine get_sim fun e hn => ?_
  rw [Ty.isTypevar_ren, Env.lookup_ren]
  cases (if num.isTypevar then old.lookup num else none) with
  | none => exact Sim.ret trivial
  | some i =>
    simp only [Env.getElem?_ren]
    cases old.vars[i]? with
    | none => exact stuck_sim fun _ => rfl
    | some b =>
      refine Sim.setState ⟨hn, ?_⟩
      simp only [Env.ren, Env.mk.injEq, and_true]
      exact SubM.modify_map_ren
        (f := fun b' => { b' with maxOffset := b.maxOffset }) (fun _ => rfl) e.vars i

omit hk in
theorem shiftCount_sim (p : Ty) (d : Int) :
    Sim strict (EnvRel R) (TyRel R) (shiftCount p d) (shiftCount (p.ren R.map) d) := by
  refine Sim.branch ?_ (.ret rfl) (by simp)
  refine (SubM.alloc_sim fresh_sim).bindMap fun i => ?_
  exact Sim.ret (by simp [TyRel])

theorem comparePinned_sim (xp yp : Ty) (vx vy : Int) :
    Agree strict R (comparePinned k xp yp vx vy)
      (comparePinned k' (xp.ren R.map) (yp.ren R.map) vx vy) := by
  unfold comparePinned
  simp only [Ty.isBoxedLong_ren, Ty.unboxLong_ren]
  refine Sim.ite (.ret rfl) ?_
  refine (shiftCount_sim xp (vy - vx)).bindMap fun xp' => ?_
  refine (shiftCount_sim yp (vx - vy)).bindMap fun yp' => ?_
  refine after_modify rfl ?_
  refine (forallExistsEqual_sim hk xp' yp').bindEq fun ans => ?_
  exact after_modify rfl (.ret rfl)

theorem equateCounts_sim (xn yn : Ty) (vx vy : Int) (old : Env) :
    Agree strict R (equateCounts k xn yn vx vy old)
      (equateCounts k' (xn.ren R.map) (yn.ren R.map) vx vy (old.ren R)) := by
  refine after_modify rfl ?_
  refine (markIntvalued_sim xn).next ?_
  refine (markIntvalued_sim yn).next ?_
  refine get_sim fun e hn => ?_
  rw [pinnedCount_ren, pinnedCount_ren]
  refine (comparePinned_sim hk _ _ vx vy).bindEq fun ans => ?_
  refine (restoreMaxOffset_sim yn old).next ?_
  refine (restoreMaxOffset_sim xn old).next ?_
  exact after_modify rfl (.ret rfl)

theorem openCount_sim (yn : Ty) (old : Env) :
    Agree strict R (openCount k yn old) (openCount k' (yn.ren R.map) (old.ren R)) := by
  have hsub := hk.sub Ty.any yn .invariant
  rw [Ty.ren_nominal] at hsub
  refine get_sim fun e hn => ?_
  rw [countValue_ren, Ty.isBoxedLong_ren, Ty.isTypevar_ren, Env.lookup_ren]
  refine Sim.ite (.ret rfl) ?_
  cases (if yn.isTypevar then e.lookup yn else none) with
  | none =>
    refine after_modify rfl ?_
    refine hsub.bindEq fun ans => ?_
    exact after_modify rfl (.ret rfl)
  | some i =>
    refine (SubM.binding_sim i).bindMap fun b => ?_
    refine Sim.branch (.ret rfl) ?_ (by simp)
    refine Sim.next (SubM.modifyBinding_sim i fun _ => rfl) ?_
    refine after_modify rfl ?_
    refine hsub.bindEq fun ans => ?_
    refine (restoreMaxOffset_sim yn old).next ?_
    exact after_modify rfl (.ret rfl)

theorem varargElements_sim (xe ye : Ty) (param : Param) :
    Agree strict R (varargElements k xe ye param)
      (varargElements k' (xe.ren R.map) (ye.ren R.map) param) :=
  SubM.and_sim (hk.sub xe ye param) (hk.sub xe ye .covariant)

theorem subtypeTupleVarargs_sim (vtx vty : Ty) (vx vy : Int) (param : Param) :
    Agree strict R (subtypeTupleVarargs k vtx vty vx vy param)
      (subtypeTupleVarargs k' (vtx.ren R.map) (vty.ren R.map) vx vy param) := by
  have hel := varargElements_sim hk vtx.varargElem vty.varargElem param
  refine get_sim fun e hn => ?_
  simp only [Ty.varargNum_ren, Ty.varargElem_ren]
  cases vtx.varargNum with
  | none =>
    cases vty.varargNum with
    | none => exact Sim.ite (.ret rfl) (SubM.and_sim hel (Sim.ret rfl))
    | some yn =>
      refine Sim.branch (.ret rfl) ?_ (by simp [countValue_ren])
      exact SubM.and_sim hel (openCount_sim hk yn e)
  | some xn =>
    simp only [Option.map_some, countValue_ren, Ty.isBoxedLong_ren, Ty.unboxLong_ren]
    cases vty.varargNum with
    | none => exact Sim.ite (.ret rfl) hel
    | some yn =>
      simp only [Option.map_some, countValue_ren, Ty.isBoxedLong_ren, Ty.unboxLong_ren]
      refine Sim.ite (.ret rfl) ?_
      exact SubM.and_sim hel (equateCounts_sim hk xn yn vx vy e)

omit hk in
theorem bumpVararg_ren (ts : List Ty) (v : Nat) :
    bumpVararg (ts.map (Ty.ren R.map)) v = bumpVararg ts v := by
  match ts with
  | [] => rfl
  | [t] => simp [bumpVararg]
  | _ :: _ :: _ => rfl

omit hk in
theorem advanceParams_ren (v : Nat) (ts : List Ty) :
    advanceParams v (ts.map (Ty.ren R.map)) = (advanceParams v ts).map (Ty.ren R.map) := by
  match ts with
  | [] => rfl
  | [t] =>
    simp only [List.map_cons, List.map_nil, advanceParams]
    split <;> rfl
  | _ :: _ :: _ => rfl

omit hk in
theorem headElem_ren (v : Nat) (t : Ty) :
    headElem v (t.ren R.map) = (headElem v t).ren R.map := by
  simp only [headElem, Ty.varargElem_ren]
  split <;> rfl

theorem tupleTailEnd_sim (lx ly : Nat) (ys : List Ty) (vx vy : Nat) :
    Agree strict R (tupleTailEnd k lx ly ys vx vy)
      (tupleTailEnd k' lx ly (ys.map (Ty.ren R.map)) vx vy) := by
  cases ys with
  | nil => exact Sim.ret rfl
  | cons y ys =>
    exact Sim.ite (checkVarargLength_sim hk y _) (.ret rfl)

theorem tupleTail_sim (lx ly : Nat) (param : Param) (n : Nat) : ∀ xs ys vx vy,
    Agree strict R (tupleTail k lx ly param n xs ys vx vy)
      (tupleTail k' lx ly param n (xs.map (Ty.ren R.map)) (ys.map (Ty.ren R.map)) vx vy) := by
  induction n with
  | zero => exact fun _ _ _ _ => stuck_sim fun _ => rfl
  | succ n ih =>
    intro xs ys vx vy
    unfold tupleTail
    rw [bumpVararg_ren, bumpVararg_ren]
    cases xs with
    | nil => exact tupleTailEnd_sim hk lx ly ys _ _
    | cons x xs =>
      cases ys with
      | nil => exact Sim.ret rfl
      | cons y ys =>
        simp only [List.map_cons]
        refine Sim.ite (subtypeTupleVarargs_sim hk x y _ _ param) ?_
        have hlast : (xs.map (Ty.ren R.map)).getLastD (x.ren R.map) =
            (xs.getLastD x).ren R.map := by
          cases xs using List.reverseRecOn <;> simp
        refine Sim.branch ?_ ?_ (by simp)
        · rw [hlast, List.length_map]
          refine Sim.branch (subtypeTupleVarargs_sim hk (xs.getLastD x) y _ _ param) ?_ (by simp)
          exact tupleTailEnd_sim hk lx ly (y :: ys) _ _
        · rw [headElem_ren, headElem_ren]
          refine SubM.and_sim (hk.sub _ _ param) ?_
          have h := ih (advanceParams (bumpVararg (x :: xs) vx) (x :: xs))
            (advanceParams (bumpVararg (y :: ys) vy) (y :: ys))
            (bumpVararg (x :: xs) vx) (bumpVararg (y :: ys) vy)
          rw [← advanceParams_ren, ← advanceParams_ren] at h
          exact h

omit hk in
theorem tailKind_ren (ps : List Ty) : tailKind (ps.map (Ty.ren R.map)) = tailKind ps := by
  unfold tailKind
  rw [List.getLast?_map]
  cases ps.getLast? <;> simp

omit hk in
theorem knownLength_ren (e : Env) (ps : List Ty) :
    knownLength (e.ren R) (ps.map (Ty.ren R.map)) = knownLength e ps := by
  unfold knownLength
  rw [List.getLast?_map]
  cases ps.getLast? with
  | none => rfl
  | some p =>
    simp only [Option.map_some, Ty.varargNum_ren]
    cases p.varargNum <;> simp [countValue_ren]

omit hk in
theorem tailBinding_ren (e : Env) (ps : List Ty) :
    tailBinding (e.ren R) (ps.map (Ty.ren R.map)) =
      (tailBinding e ps).map (VarBinding.ren R.map) := by
  unfold tailBinding
  rw [List.getLast?_map]
  cases ps.getLast? with
  | none => rfl
  | some p =>
    simp only [Option.map_some, Ty.varargKind_ren, Ty.varargNum_ren]
    split
    · cases p.varargNum <;> simp
    · rfl

theorem tupleLengths_sim (ps qs : List Ty) :
    Agree strict R (tupleLengths k ps qs)
      (tupleLengths k' (ps.map (Ty.ren R.map)) (qs.map (Ty.ren R.map))) := by
  refine get_sim fun e hn => ?_
  have hlast : (ps.map (Ty.ren R.map)).getLastD Ty.any = (ps.getLastD Ty.any).ren R.map := by
    cases ps using List.reverseRecOn <;> simp
  have hpin : (((tailBinding e ps).map (VarBinding.ren R.map)).map (·.lb.isBoxedLong)).getD false =
      ((tailBinding e ps).map (·.lb.isBoxedLong)).getD false := by
    cases tailBinding e ps <;> simp
  have hex : (((tailBinding e ps).map (VarBinding.ren R.map)).map (!·.existential)).getD false =
      ((tailBinding e ps).map (!·.existential)).getD false := by
    cases tailBinding e ps <;> simp
  simp only [tailKind_ren, tailBinding_ren, knownLength_ren, List.length_map, hlast, hpin, hex]
  refine Sim.ite ?_ ?_
  · refine Sim.ite (.ret rfl) ?_
    exact Sim.ite (checkVarargLength_sim hk _ _) (.ret rfl)
  · refine Sim.ite (.ret rfl) ?_
    exact Sim.ite (.ret rfl) (.ret rfl)

theorem tupleSubtype_sim (ps qs : List Ty) (param : Param) :
    Agree strict R (tupleSubtype k ps qs param)
      (tupleSubtype k' (ps.map (Ty.ren R.map)) (qs.map (Ty.ren R.map)) param) := by
  unfold tupleSubtype
  simp only [List.isEmpty_map, List.length_map]
  refine Sim.ite (.ret rfl) ?_
  exact SubM.and_sim (tupleLengths_sim hk ps qs) (tupleTail_sim hk _ _ param _ ps qs 0 0)

/-! ### `sub` -/

theorem invariantParams_sim (xs : List Ty) : ∀ ys,
    Agree strict R (invariantParams k xs ys)
      (invariantParams k' (xs.map (Ty.ren R.map)) (ys.map (Ty.ren R.map))) := by
  induction xs with
  | nil => exact fun ys => Sim.ret rfl
  | cons x xs ih =>
    intro ys
    cases ys with
    | nil => exact Sim.ret rfl
    | cons y ys =>
      refine Sim.branch (ih ys) ?_ (by simp)
      exact SubM.and_sim (forallExistsEqual_sim hk x y) (ih ys)

omit hk in
theorem walkToName_ren (x y : Ty) :
    walkToName (x.ren R.map) (y.ren R.map) = (walkToName x y).map (Ty.ren R.map) := by
  unfold walkToName
  rw [Ty.nameOf_ren, Ty.supers_ren]
  cases y.nameOf with
  | none => rfl
  | some n =>
    simp only
    rw [List.find?_map]
    simp [Function.comp_def]

theorem invariantSubtype_sim (xd y : Ty) :
    Agree strict R (invariantSubtype k xd y)
      (invariantSubtype k' (xd.ren R.map) (y.ren R.map)) := by
  unfold invariantSubtype
  rw [Ty.parameters_ren, Ty.parameters_ren]
  cases xd.parameters with
  | none => exact Sim.ret rfl
  | some ps =>
    cases y.parameters with
    | none => exact Sim.ret rfl
    | some qs =>
      refine after_modify rfl ?_
      refine (invariantParams_sim hk ps qs).bindEq fun ans => ?_
      exact after_modify rfl (.ret rfl)

theorem datatypeSubtype_sim (x y : Ty) (param : Param) :
    Agree strict R (datatypeSubtype k x y param)
      (datatypeSubtype k' (x.ren R.map) (y.ren R.map) param) := by
  have hps : ∀ t : Ty,
      (t.ren R.map).parameters.getD [] = (t.parameters.getD []).map (Ty.ren R.map) := by
    intro t
    rw [Ty.parameters_ren]
    cases t.parameters <;> rfl
  unfold datatypeSubtype
  refine Sim.branch (.ret rfl) ?_ (by simp)
  rw [walkToName_ren]
  cases walkToName x y with
  | none => exact Sim.ret rfl
  | some xd =>
    simp only [Option.map_some, Ty.isTuple_ren, hps]
    exact Sim.ite (tupleSubtype_sim hk _ _ _) (invariantSubtype_sim hk xd y)

theorem subValues_sim (x y : Ty) (param : Param) :
    Agree strict R (subValues k x y param)
      (subValues k' (x.ren R.map) (y.ren R.map) param) := by
  unfold subValues
  rw [Ty.isBoxedLong_ren, Ty.isBoxedLong_ren, Ty.unboxLong_ren, Ty.unboxLong_ren]
  refine Sim.ite ?_ (datatypeSubtype_sim hk x y param)
  refine get_sim fun e hn => ?_
  exact Sim.ret rfl

theorem subGround_sim (x y : Ty) (param : Param) :
    Agree strict R (subGround k x y param)
      (subGround k' (x.ren R.map) (y.ren R.map) param) := by
  unfold subGround
  refine Sim.branch (.ret rfl) ?_ (by simp)
  refine Sim.branch (.ret rfl) ?_ (by simp)
  refine Sim.branch (subtypeUnionall_sim hk y x false param) ?_ (by simp)
  refine Sim.branch (subtypeUnionall_sim hk x y true param) ?_ (by simp)
  rw [Ty.typeParam_ren, Ty.typeParam_ren]
  cases x.typeParam with
  | none =>
    cases y.typeParam with
    | none => exact subValues_sim hk x y param
    | some t0 =>
      simp only [Option.map_none, Option.map_some, Ty.isTypevar_ren, Ty.isKind_ren]
      refine Sim.ite ?_ (.ret rfl)
      refine (SubM.alloc_sim fresh_sim).bindMap fun v => ?_
      refine (SubM.alloc_sim fresh_sim).bindMap fun i => ?_
      have h := hk.sub (.unionall i v "T" Ty.bottom Ty.any
        (.app .type [.tvar v "T" Ty.bottom Ty.any])) y param
      simpa using h
  | some t0 =>
    cases y.typeParam with
    | some t1 => exact subValues_sim hk x y param
    | none =>
      simp only [Option.map_none, Option.map_some, Ty.isTypevar_ren, Ty.typeOf_ren]
      have hty := hk.sub (.builtin .type) y param
      have hof := hk.sub t0.typeOf y param
      have hren : t0.typeOf.ren R.map = t0.typeOf := by cases t0 <;> simp [Ty.typeOf]
      rw [Ty.ren_nominal] at hty
      rw [hren] at hof
      exact Sim.ite hty hof

theorem subVars_sim (x y : Ty) (param : Param) :
    Agree strict R (subVars k x y param)
      (subVars k' (x.ren R.map) (y.ren R.map) param) := by
  refine Sim.branch ?_ ?_ (by simp)
  · refine Sim.branch (subtypeTwoVars_sim hk x y param) ?_ (by simp)
    refine get_sim fun e hn => ?_
    have hub : ((e.ren R).bindingOf (x.ren R.map)).elim (x.ren R.map) (·.ub) =
        ((e.bindingOf x).elim x (·.ub)).ren R.map := by
      rw [Env.bindingOf_ren]
      cases e.bindingOf x <;> rfl
    rw [hub]
    exact Sim.branch (subtypeUnionall_sim hk x y true param)
      (subtypeVar_sim hk x y false param) (by simp)
  · exact Sim.branch (subtypeVar_sim hk y x true param) (subGround_sim hk x y param) (by simp)

theorem subMeet_sim (x y : Ty) (param : Param) :
    Agree strict R (subMeet k x y param)
      (subMeet k' (x.ren R.map) (y.ren R.map) param) := by
  have hv := subVars_sim hk x y param
  cases y with
  | inter i a b =>
    rw [Ty.ren_inter]
    exact SubM.and_sim (hk.sub x a param) (hk.sub x b param)
  | nominal n => rw [Ty.ren_nominal] at hv ⊢; exact hv
  | app c ps => rw [Ty.ren_app] at hv ⊢; exact hv
  | union i a b => rw [Ty.ren_union] at hv ⊢; exact hv
  | tvar i n a b => rw [Ty.ren_tvar] at hv ⊢; exact hv
  | unionall i v n a b t => rw [Ty.ren_unionall] at hv ⊢; exact hv
  | vararg i t => rw [Ty.ren_vararg] at hv ⊢; exact hv
  | varargN i t n => rw [Ty.ren_varargN] at hv ⊢; exact hv
  | long i n => rw [Ty.ren_long] at hv ⊢; exact hv

omit hk in
theorem splitsUnion_sim (x y : Ty) :
    Agree strict R (splitsUnion x y) (splitsUnion (x.ren R.map) (y.ren R.map)) := by
  refine get_sim fun e hn => ?_
  rw [Ty.isTypevar_ren, Env.existentialVar_ren, Ty.hasFreeTypevars_ren R.inj]
  refine Sim.ite (.ret rfl) ?_
  exact Sim.ite (SubM.pickUnionDecision_sim true) (.ret rfl)

theorem subRight_sim (x y : Ty) (param : Param) :
    Agree strict R (subRight k x y param)
      (subRight k' (x.ren R.map) (y.ren R.map) param) := by
  unfold subRight
  rw [Ty.isUnion_ren, Ty.obviouslyInUnion_ren R.inj, Ty.isUnionall_ren]
  refine Sim.ite ?_ (subMeet_sim hk x y param)
  refine Sim.ite (.ret rfl) ?_
  refine Sim.ite (subtypeUnionall_sim hk y x false param) ?_
  refine (splitsUnion_sim x y).bindEq fun split => ?_
  refine Sim.ite ?_ (subMeet_sim hk x y param)
  refine (SubM.pickUnionElement_sim true y).bindMap fun y' => ?_
  exact subMeet_sim hk x y' param

omit hk in
theorem handlesUnion_ren (e : Env) (y : Ty) :
    handlesUnion (e.ren R) (y.ren R.map) = handlesUnion e y := by
  unfold handlesUnion
  rw [Env.bindingOf_ren]
  cases e.bindingOf y <;> simp

theorem subStep_sim (x y : Ty) (param : Param) :
    Agree strict R (subStep k x y param) (subStep k' (x.ren R.map) (y.ren R.map) param) := by
  refine get_sim fun e hn => ?_
  rw [Ty.isUnion_ren, Ty.obviouslyEgal_ren R.inj, Ty.isTypevar_ren,
    Ty.hasFreeTypevars_ren R.inj, handlesUnion_ren]
  refine Sim.branch (.ret rfl) ?_ (by simp)
  refine Sim.ite ?_ (subRight_sim hk x y param)
  refine Sim.ite (.ret rfl) ?_
  refine Sim.ite (subtypeVar_sim hk y x true param) ?_
  refine (SubM.pickUnionElement_sim false x).bindMap fun x' => ?_
  exact subRight_sim hk x' y param

theorem issubtypeStep_sim (x y : Ty) :
    Sim strict (NextRel R) (· = ·) (issubtypeStep k x y)
      (issubtypeStep k' (x.ren R.map) (y.ren R.map)) := by
  rintro n _ ⟨hn, rfl⟩
  have h := forallExistsSubtype_sim hk x y .none { next := n } _ ⟨hn, rfl⟩
  have hren : Env.ren R { next := n } = { next := n + R.shift } := rfl
  rw [hren] at h
  exact h.map fun p q hpq => ⟨hpq.1, hpq.2.1, by simp [hpq.2.2]⟩

end

/-! ### The whole algorithm -/

/-- **The algorithm does not see addresses, and its bound does not show.**  The
engine with bound `n` simulates, along any renaming, the engine with a bound
`m ≥ n`; with equal bounds the simulation is strict. -/
theorem engine_sim (R : Renaming) (strict : Bool) :
    ∀ n m, n ≤ m → (strict = true → n = m) → KnotSim strict R (engine n) (engine m) := by
  intro n
  induction n with
  | zero =>
    intro m hnm hs
    refine ⟨fun x y p => stuck_sim fun h => ?_, fun x y => Sim.stuck fun h _ => ?_,
      Nat.zero_le _, fun h => ?_⟩
    · rw [← hs h]
      rfl
    · rw [← hs h]
      rfl
    · rw [← hs h]
  | succ n ih =>
    intro m hnm hs
    obtain ⟨m, rfl⟩ : ∃ m', m = m' + 1 := ⟨m - 1, by omega⟩
    have hk := ih m (by omega) fun h => by have := hs h; omega
    exact ⟨subStep_sim hk, issubtypeStep_sim hk, by simpa [engine] using hnm,
      fun h => by simpa [engine] using hs h⟩

/-- Renaming the allocation numbers of both types, and of those the query will
allocate, does not change what a query with a given bound returns. -/
theorem subtype_ren (R : Renaming) (fuel : Nat) {next : Nat} (hn : R.base ≤ next) (a b : Ty) :
    subtype fuel (next + R.shift) (a.ren R.map) (b.ren R.map) = subtype fuel next a b := by
  have h := (engine_sim R true fuel fuel le_rfl fun _ => rfl).issubtype a b next _ ⟨hn, rfl⟩
  exact (h.map_eq fun _ _ hpq => hpq.1).symm

theorem ren_id (t : Ty) : t.ren Renaming.id.map = t := by
  induction t with
  | app c ps ih => rw [Ty.ren_app, List.map_congr_left ih, List.map_id']
  | _ => simp_all [Renaming.id]

/-- A larger bound on the recursion does not change an answer. -/
theorem subtype_mono {fuel fuel' next : Nat} (hf : fuel ≤ fuel') {a b : Ty} {r : Bool}
    (h : subtype fuel next a b = some r) : subtype fuel' next a b = some r := by
  have hs := (engine_sim Renaming.id false fuel fuel' hf (by simp)).issubtype a b next next
    ⟨Nat.zero_le _, rfl⟩
  rw [ren_id, ren_id] at hs
  obtain ⟨p, hp, rfl⟩ := Option.map_eq_some_iff.mp h
  rw [hp] at hs
  obtain ⟨q, hq, hpq⟩ := hs.exists_some
  rw [subtype, hq, hpq.1]
  rfl

/-- A query only allocates: the simulation keeps the counter above the base of the renaming,
here the one that renames nothing. -/
theorem le_of_issubtype {fuel n n' : Nat} {a b : Ty} {r : Bool}
    (h : (engine fuel).issubtype a b n = some (r, n')) : n ≤ n' := by
  let R : Renaming := { Renaming.id with base := n, above := fun _ _ => rfl }
  have hs := (engine_sim R true fuel fuel le_rfl fun _ => rfl).issubtype a b n n ⟨le_rfl, rfl⟩
  rw [h] at hs
  obtain ⟨q, -, hpq⟩ := hs.exists_some
  exact hpq.2.1

/-- The answer of a query is unique. -/
theorem SubtypeReturns.unique {next : Nat} {a b : Ty} {r r' : Bool}
    (h : SubtypeReturns next a b r) (h' : SubtypeReturns next a b r') : r = r' := by
  obtain ⟨n, hn⟩ := h
  obtain ⟨m, hm⟩ := h'
  have h₁ := subtype_mono (le_max_left n m) hn
  have h₂ := subtype_mono (le_max_right n m) hm
  rw [h₁] at h₂
  exact Option.some.inj h₂

end

end Ruju
