import Ruju.Subtype.Engine
import Ruju.Library.Simulation
import Ruju.Types.Rename

/-!
# The algorithm does not see addresses

Every function of the subtype algorithm commutes with an injective renaming of
allocation numbers, at every bound on the recursion, and a larger bound never
changes an answer.  Both facts are one simulation (`Ruju.Sim`) between two
knots, proved function by function along the text of the algorithm.

A `Renaming` is an injective map that is a shift on the numbers not yet
allocated, so that the objects a run allocates correspond to those the renamed
run allocates.
-/

namespace Ruju

/-- An injective renaming of allocation numbers that shifts everything from
`base` on by `shift`. -/
structure Renaming where
  map : Nat → Nat
  inj : Function.Injective map
  base : Nat
  shift : Nat
  above : ∀ i, base ≤ i → map i = i + shift

attribute [simp] Renaming.inj Ty.ren_inj Ty.hasFreeTypevars_ren Ty.obviouslyEgal_ren
  Ty.obviouslyInUnion_ren

/-- The identity renaming. -/
def Renaming.id : Renaming where
  map := fun i => i
  inj := fun _ _ h => h
  base := 0
  shift := 0
  above := fun _ _ => rfl

/-! ### Renamed environments -/

/-- Rename a binding. -/
def VarBinding.ren (ρ : Nat → Nat) (b : VarBinding) : VarBinding :=
  { b with var := b.var.ren ρ, lb := b.lb.ren ρ, ub := b.ub.ren ρ }

/-- Rename an `envout` entry. -/
def EnvVal.ren (ρ : Nat → Nat) : EnvVal → EnvVal
  | .ty t => .ty (t.ren ρ)
  | .wrapped t b => .wrapped (t.ren ρ) b
  | .intToken i => .intToken (ρ i)

/-- Rename an environment. -/
def Env.ren (R : Renaming) (e : Env) : Env :=
  { e with
    vars := e.vars.map (VarBinding.ren R.map)
    envout := e.envout.map (·.map (EnvVal.ren R.map))
    next := e.next + R.shift }

/-- Rename a snapshot. -/
def SavedVars.ren (R : Renaming) (s : SavedVars) : SavedVars :=
  { s with vars := s.vars.map (VarBinding.ren R.map) }

/-- Rename a component of a meet. -/
def Component.ren (ρ : Nat → Nat) (c : Component) : Component :=
  { c with ty := c.ty.ren ρ }

/-- The second environment is the first one renamed. -/
def EnvRel (R : Renaming) (e e' : Env) : Prop :=
  R.base ≤ e.next ∧ e' = e.ren R

/-- The second allocation counter is the first one renamed. -/
def NextRel (R : Renaming) (n n' : Nat) : Prop :=
  R.base ≤ n ∧ n' = n + R.shift

/-- The second type is the first one renamed. -/
def TyRel (R : Renaming) (t t' : Ty) : Prop :=
  t' = t.ren R.map

/-- Simulations of computations of the algorithm that return a value both runs
agree on. -/
abbrev Agree {α : Type} (strict : Bool) (R : Renaming) (m m' : SubM α) : Prop :=
  Sim strict (EnvRel R) (· = ·) m m'

/-- Two knots whose calls simulate each other along a renaming. -/
structure KnotSim (strict : Bool) (R : Renaming) (k k' : Knot) : Prop where
  sub : ∀ x y p, Agree strict R (k.sub x y p) (k'.sub (x.ren R.map) (y.ren R.map) p)
  issubtype : ∀ x y, Sim strict (NextRel R) (· = ·)
    (k.issubtype x y) (k'.issubtype (x.ren R.map) (y.ren R.map))
  passes : k.passes ≤ k'.passes
  passes_eq : strict = true → k.passes = k'.passes

section
variable {R : Renaming} {strict : Bool}

/-! ### Reading a renamed environment -/

namespace VarBinding

variable {ρ : Nat → Nat} (b : VarBinding)

@[simp] theorem ren_var : (b.ren ρ).var = b.var.ren ρ := rfl
@[simp] theorem ren_lb : (b.ren ρ).lb = b.lb.ren ρ := rfl
@[simp] theorem ren_ub : (b.ren ρ).ub = b.ub.ren ρ := rfl
@[simp] theorem ren_existential : (b.ren ρ).existential = b.existential := rfl
@[simp] theorem ren_occursCov : (b.ren ρ).occursCov = b.occursCov := rfl
@[simp] theorem ren_covDiag : (b.ren ρ).covDiag = b.covDiag := rfl
@[simp] theorem ren_occursInv : (b.ren ρ).occursInv = b.occursInv := rfl
@[simp] theorem ren_bodyOccursInv : (b.ren ρ).bodyOccursInv = b.bodyOccursInv := rfl
@[simp] theorem ren_depth0 : (b.ren ρ).depth0 = b.depth0 := rfl
@[simp] theorem ren_intvalued : (b.ren ρ).intvalued = b.intvalued := rfl
@[simp] theorem ren_concrete : (b.ren ρ).concrete = b.concrete := rfl
@[simp] theorem ren_maxOffset : (b.ren ρ).maxOffset = b.maxOffset := rfl

end VarBinding

namespace Env

variable (e : Env)

@[simp] theorem ren_vars : (e.ren R).vars = e.vars.map (VarBinding.ren R.map) := rfl
@[simp] theorem ren_invdepth : (e.ren R).invdepth = e.invdepth := rfl
@[simp] theorem ren_lunions : (e.ren R).lunions = e.lunions := rfl
@[simp] theorem ren_runions : (e.ren R).runions = e.runions := rfl
@[simp] theorem ren_loffset : (e.ren R).loffset = e.loffset := rfl
@[simp] theorem ren_envout :
    (e.ren R).envout = e.envout.map (·.map (EnvVal.ren R.map)) := rfl
@[simp] theorem ren_envidx : (e.ren R).envidx = e.envidx := rfl
@[simp] theorem ren_next : (e.ren R).next = e.next + R.shift := rfl

theorem findIdx_ren (l : List VarBinding) (v : Ty) :
    (l.map (VarBinding.ren R.map)).findIdx (fun b => b.var = v.ren R.map) =
      l.findIdx fun b => b.var = v := by
  induction l with
  | nil => rfl
  | cons b l ih => simp [List.findIdx_cons, ih, Ty.ren_inj R.inj]

@[simp] theorem lookup_ren (v : Ty) : (e.ren R).lookup (v.ren R.map) = e.lookup v := by
  simp only [lookup, ren_vars, ← List.map_reverse, findIdx_ren, List.length_map]

@[simp] theorem getElem?_ren (i : Nat) :
    (e.ren R).vars[i]? = e.vars[i]?.map (VarBinding.ren R.map) := by
  simp

@[simp] theorem bindingOf_ren (v : Ty) :
    (e.ren R).bindingOf (v.ren R.map) = (e.bindingOf v).map (VarBinding.ren R.map) := by
  simp only [bindingOf, lookup_ren]
  cases e.lookup v <;> simp

@[simp] theorem existentialVar_ren (v : Ty) :
    (e.ren R).existentialVar (v.ren R.map) = e.existentialVar v := by
  simp only [existentialVar, bindingOf_ren]
  cases e.bindingOf v <;> simp

@[simp] theorem universalVar_ren (v : Ty) :
    (e.ren R).universalVar (v.ren R.map) = e.universalVar v := by
  simp only [universalVar, bindingOf_ren]
  cases e.bindingOf v <;> simp

@[simp] theorem hasExistentialTypevar_ren (t : Ty) :
    (e.ren R).hasExistentialTypevar (t.ren R.map) = e.hasExistentialTypevar t := by
  have h := Ty.hasFreeVarWhere_ren R.inj (existentialVar_ren (R := R) e) t []
  rw [List.map_nil] at h
  simp only [hasExistentialTypevar, h, ren_vars, List.any_map, Function.comp_def,
    VarBinding.ren_existential]

@[simp] theorem hasUniversalTypevar_ren (t : Ty) :
    (e.ren R).hasUniversalTypevar (t.ren R.map) = e.hasUniversalTypevar t := by
  have h := Ty.hasFreeVarWhere_ren R.inj (universalVar_ren (R := R) e) t []
  rw [List.map_nil] at h
  exact h

@[simp] theorem isExistentialTypevar_ren (t : Ty) :
    (e.ren R).isExistentialTypevar (t.ren R.map) = e.isExistentialTypevar t := by
  simp [isExistentialTypevar]

@[simp] theorem saveVars_ren : (e.ren R).saveVars = (e.saveVars).ren R := rfl

@[simp] theorem occursCovs_ren : (e.ren R).occursCovs = e.occursCovs := by
  simp [occursCovs, Function.comp_def]

theorem restoreVars_ren (s : SavedVars) :
    (e.ren R).restoreVars (s.ren R) = (e.restoreVars s).ren R := by
  simp only [restoreVars, SavedVars.ren, ren, List.map_append, List.map_take, List.map_drop,
    List.length_map, List.map_replicate, Option.map_none, Env.mk.injEq, and_true]
  rw [List.zipWith_map, List.map_zipWith]
  rfl

theorem resetOccurs_ren (p : VarBinding → Bool) (hp : ∀ b, p (b.ren R.map) = p b) :
    (e.ren R).resetOccurs p = (e.resetOccurs p).ren R := by
  simp only [resetOccurs, ren, List.map_map, Env.mk.injEq, and_true]
  refine List.map_congr_left fun b _ => ?_
  simp only [Function.comp_apply, hp]
  split <;> rfl

theorem foldOccurs_ren (p : VarBinding → Bool) (hp : ∀ b, p (b.ren R.map) = p b)
    (saved : List Nat) :
    (e.ren R).foldOccurs p saved = (e.foldOccurs p saved).ren R := by
  simp only [foldOccurs, ren, List.map_append, List.map_drop, Env.mk.injEq, and_true]
  rw [List.zipWith_map_left, List.map_zipWith]
  congr 2
  funext b n
  simp only [hp]
  split <;> rfl

theorem bindingUnchanged_ren (v s : VarBinding) :
    bindingUnchanged (v.ren R.map) (s.ren R.map) = bindingUnchanged v s := by
  have hlb : decide ((v.ren R.map).lb = (s.ren R.map).lb) = decide (v.lb = s.lb) :=
    Ty.decide_ren_eq R.inj v.lb s.lb
  have hub : decide ((v.ren R.map).ub = (s.ren R.map).ub) = decide (v.ub = s.ub) :=
    Ty.decide_ren_eq R.inj v.ub s.ub
  unfold bindingUnchanged
  rw [hlb, hub, VarBinding.ren_var, Ty.isLeafTypevar_ren]
  rfl

theorem unchanged_ren (s : SavedVars) : (e.ren R).unchanged (s.ren R) = e.unchanged s := by
  simp only [unchanged, SavedVars.ren, ren_vars]
  rw [List.zip_map, List.all_map]
  exact congrArg (List.all _) (funext fun p => bindingUnchanged_ren p.1 p.2)

end Env

/-! ### Basic operations -/

theorem fresh_sim : Sim strict (NextRel R) (fun i j => j = R.map i) fresh fresh := by
  rintro n _ ⟨hn, rfl⟩
  exact ⟨(R.above n hn).symm, Nat.le_succ_of_le hn, by omega⟩

namespace SubM

theorem alloc_sim {α β : Type} {Q : α → β → Prop} {m : AllocM α} {m' : AllocM β}
    (h : Sim strict (NextRel R) Q m m') : Sim strict (EnvRel R) Q (alloc m) (alloc m') := by
  rintro e _ ⟨hn, rfl⟩
  have halloc : ∀ {γ : Type} (m : AllocM γ) (e : Env),
      alloc m e = (m e.next).map fun p => (p.1, { e with next := p.2 }) := by
    intro γ m e
    rw [alloc]
    cases m e.next <;> rfl
  rw [halloc, halloc]
  refine (h e.next (e.next + R.shift) ⟨hn, rfl⟩).map fun p q hpq => ⟨hpq.1, hpq.2.1, ?_⟩
  simp [Env.ren, hpq.2.2]

theorem binding_sim (i : Nat) :
    Sim strict (EnvRel R) (fun b b' => b' = b.ren R.map) (binding i) (binding i) := by
  rintro e _ ⟨hn, rfl⟩
  simp only [binding, Env.getElem?_ren]
  cases e.vars[i]? with
  | none => trivial
  | some b => exact ⟨rfl, hn, rfl⟩

theorem modify_map_ren {f f' : VarBinding → VarBinding}
    (h : ∀ b, f' (b.ren R.map) = (f b).ren R.map) (l : List VarBinding) (i : Nat) :
    (l.map (VarBinding.ren R.map)).modify i f' = (l.modify i f).map (VarBinding.ren R.map) := by
  induction l generalizing i with
  | nil => cases i <;> rfl
  | cons b l ih => cases i <;> simp [h, ih]

theorem modifyBinding_sim (i : Nat) {f f' : VarBinding → VarBinding}
    (h : ∀ b, f' (b.ren R.map) = (f b).ren R.map) :
    Agree strict R (modifyBinding i f) (modifyBinding i f') := by
  rintro e _ ⟨hn, rfl⟩
  simp only [modifyBinding, Env.ren_vars, List.length_map]
  by_cases hi : i < e.vars.length
  · simp only [hi, if_true]
    exact ⟨trivial, hn, by simp [Env.ren, modify_map_ren h]⟩
  · simp only [hi, if_false]
    trivial

theorem setLb_sim (i : Nat) {t t' : Ty} (h : t' = t.ren R.map) :
    Agree strict R (setLb i t) (setLb i t') :=
  modifyBinding_sim i fun b => by subst h; rfl

theorem setUb_sim (i : Nat) {t t' : Ty} (h : t' = t.ren R.map) :
    Agree strict R (setUb i t) (setUb i t') :=
  modifyBinding_sim i fun b => by subst h; rfl

theorem pushBinding_sim (b : VarBinding) :
    Agree strict R (pushBinding b) (pushBinding (b.ren R.map)) := by
  rintro e _ ⟨hn, rfl⟩
  exact ⟨rfl, hn, by simp [Env.ren]⟩

theorem popBinding_sim : Agree strict R popBinding popBinding := by
  rintro e _ ⟨hn, rfl⟩
  exact ⟨rfl, hn, by simp [Env.ren, List.map_dropLast]⟩

theorem pickUnionDecision_sim (r : Bool) :
    Agree strict R (pickUnionDecision r) (pickUnionDecision r) := by
  rintro e _ ⟨hn, rfl⟩
  cases r <;> exact ⟨rfl, hn, rfl⟩

theorem nextUnionState_sim (r : Bool) :
    Agree strict R (nextUnionState r) (nextUnionState r) := by
  rintro e _ ⟨hn, rfl⟩
  cases r with
  | true =>
    simp only [nextUnionState, Env.ren_runions]
    cases e.runions.next <;> exact ⟨rfl, hn, rfl⟩
  | false =>
    simp only [nextUnionState, Env.ren_lunions]
    cases e.lunions.next <;> exact ⟨rfl, hn, rfl⟩

theorem pickUnionElement_sim (r : Bool) (t : Ty) :
    Sim strict (EnvRel R) (TyRel R) (pickUnionElement r t)
      (pickUnionElement r (t.ren R.map)) := by
  induction t with
  | union i a b iha ihb =>
    simp only [Ty.ren_union, pickUnionElement]
    refine (pickUnionDecision_sim r).bindEq fun ui => ?_
    exact Sim.ite ihb iha
  | _ =>
    simp only [pickUnionElement, Ty.ren_nominal, Ty.ren_app, Ty.ren_tvar, Ty.ren_unionall,
      Ty.ren_vararg, Ty.ren_varargN, Ty.ren_long, Ty.ren_inter]
    exact Sim.ret (by simp [TyRel])

theorem and_sim {m n m' n' : SubM Bool} (hm : Agree strict R m m')
    (hn : Agree strict R n n') : Agree strict R (SubM.and m n) (SubM.and m' n') := by
  refine hm.bindEq fun b => ?_
  exact Sim.ite hn (.ret rfl)

theorem or_sim {m n m' n' : SubM Bool} (hm : Agree strict R m m')
    (hn : Agree strict R n n') : Agree strict R (SubM.or m n) (SubM.or m' n') := by
  refine hm.bindEq fun b => ?_
  exact Sim.ite (.ret rfl) hn

end SubM

/-! ### Unions, meets and joins -/

/-- Renamed lists of types. -/
def TysRel (R : Renaming) (l l' : List Ty) : Prop :=
  l' = l.map (Ty.ren R.map)

/-- Renamed results of one row of a meet. -/
def RowRel (R : Renaming) (p q : Component × List Component) : Prop :=
  q.1 = p.1.ren R.map ∧ q.2 = p.2.map (Component.ren R.map)

section
variable {is is' : Ty → Ty → AllocM Bool}
  (his : ∀ x y, Sim strict (NextRel R) (· = ·) (is x y)
    (is' (x.ren R.map) (y.ren R.map)))
include his

theorem subsumed_sim (later : Bool) (c : Ty) (l : List Ty) :
    Sim strict (NextRel R) (· = ·) (subsumed is later c l)
      (subsumed is' later (c.ren R.map) (l.map (Ty.ren R.map))) := by
  induction l with
  | nil => exact Sim.ret rfl
  | cons d l ih =>
    refine (his c d).bindEq fun b => ?_
    refine Sim.ite (Sim.andThen (his d c) ?_) ih
    rintro b' _ rfl
    exact Sim.ite ih (.ret rfl)

theorem survivors_sim (l : List Ty) : ∀ kept,
    Sim strict (NextRel R) (TysRel R) (survivors is kept l)
      (survivors is' (kept.map (Ty.ren R.map)) (l.map (Ty.ren R.map))) := by
  induction l with
  | nil => exact fun kept => Sim.ret rfl
  | cons c l ih =>
    intro kept
    refine Sim.branch (ih kept) ?_ (by simp)
    refine (subsumed_sim his false c kept).bindEq fun b => ?_
    refine Sim.ite (ih kept) ?_
    refine (subsumed_sim his true c l).bindEq fun b' => ?_
    refine Sim.ite (ih kept) ?_
    simpa using ih (kept ++ [c])

omit his in
theorem buildUnion_sim (l : List Ty) :
    Sim strict (NextRel R) (TyRel R) (buildUnion l) (buildUnion (l.map (Ty.ren R.map))) := by
  induction l with
  | nil => exact Sim.ret (by simp [TyRel])
  | cons t l ih =>
    cases l with
    | nil => exact Sim.ret rfl
    | cons u l =>
      refine ih.bindMap fun acc => ?_
      refine fresh_sim.bindMap fun i => ?_
      exact Sim.ret (by simp [TyRel])

omit his in
theorem insertionSort_ren (l : List Ty) :
    (l.map (Ty.ren R.map)).insertionSort (fun s t => Ty.typeCmp s t ≠ .gt) =
      (l.insertionSort fun s t => Ty.typeCmp s t ≠ .gt).map (Ty.ren R.map) := by
  have hins : ∀ (a : Ty) (m : List Ty),
      (m.map (Ty.ren R.map)).orderedInsert (fun s t => Ty.typeCmp s t ≠ .gt) (a.ren R.map) =
        (m.orderedInsert (fun s t => Ty.typeCmp s t ≠ .gt) a).map (Ty.ren R.map) := by
    intro a m
    induction m with
    | nil => rfl
    | cons b m ih =>
      simp only [List.map_cons, List.orderedInsert_cons, Ty.typeCmp_ren, ih]
      split <;> simp
  induction l with
  | nil => rfl
  | cons a l ih => simp only [List.map_cons, List.insertionSort_cons, ih, hins]

omit his in
theorem destutter_ren (l : List Ty) :
    (l.map (Ty.ren R.map)).destutter (· ≠ ·) = (l.destutter (· ≠ ·)).map (Ty.ren R.map) := by
  have hd : ∀ (m : List Ty) (a : Ty),
      List.destutter' (· ≠ ·) (a.ren R.map) (m.map (Ty.ren R.map)) =
        (List.destutter' (· ≠ ·) a m).map (Ty.ren R.map) := by
    intro m
    induction m with
    | nil => exact fun a => rfl
    | cons b m ih =>
      intro a
      simp only [List.map_cons, List.destutter'_cons, ne_eq, Ty.ren_inj R.inj, ih]
      split <;> simp
  cases l with
  | nil => rfl
  | cons a l => exact hd l a

theorem unionOf_sim (l : List Ty) :
    Sim strict (NextRel R) (TyRel R) (unionOf is l) (unionOf is' (l.map (Ty.ren R.map))) := by
  have hflat : (l.map (Ty.ren R.map)).flatMap Ty.flattenUnion =
      (l.flatMap Ty.flattenUnion).map (Ty.ren R.map) := by
    simp [List.flatMap_map, List.map_flatMap]
  simp only [unionOf, hflat]
  refine (survivors_sim his _ []).bindMap fun kept => ?_
  rw [insertionSort_ren, destutter_ren]
  exact buildUnion_sim _

theorem simpleJoin_sim (a b : Ty) :
    Sim strict (NextRel R) (TyRel R) (simpleJoin is a b)
      (simpleJoin is' (a.ren R.map) (b.ren R.map)) := by
  refine Sim.branch (.ret rfl) ?_ (by simp)
  refine Sim.branch (.ret rfl) ?_ (by simp)
  exact unionOf_sim his [a, b]

theorem obviouslyDisjoint_sim (x y : Ty) :
    Sim strict (NextRel R) (· = ·) (obviouslyDisjoint is x y)
      (obviouslyDisjoint is' (x.ren R.map) (y.ren R.map)) := by
  refine Sim.branch (.ret rfl) ?_ (by simp)
  refine Sim.branch (.ret rfl) ?_ (by simp)
  refine Sim.branch (.ret rfl) ?_ (by simp)
  refine (his x y).bindEq fun b => ?_
  refine Sim.ite (.ret rfl) ?_
  refine (his y x).bindEq fun b' => ?_
  exact Sim.ret rfl

omit his in
theorem revive_ren (meets : Bool) (c : Component) :
    (c.ren R.map).revive meets = (c.revive meets).ren R.map := by
  cases meets <;> rfl

theorem comesAlive_sim (c d : Component) :
    Sim strict (NextRel R) (· = ·) (comesAlive is c d)
      (comesAlive is' (c.ren R.map) (d.ren R.map)) := by
  refine Sim.ite (.ret rfl) ?_
  refine (obviouslyDisjoint_sim his c.ty d.ty).bindEq fun b => ?_
  exact Sim.ret rfl

theorem aliveRow_sim (l : List Component) : ∀ c : Component,
    Sim strict (NextRel R) (RowRel R) (aliveRow is c l)
      (aliveRow is' (c.ren R.map) (l.map (Component.ren R.map))) := by
  induction l with
  | nil => exact fun c => Sim.ret ⟨rfl, rfl⟩
  | cons d l ih =>
    intro c
    refine (comesAlive_sim his c d).bindEq fun meets => ?_
    rw [revive_ren]
    refine Sim.andThen (ih (c.revive meets)) ?_
    rintro ⟨c', l'⟩ ⟨_, _⟩ ⟨rfl, rfl⟩
    exact Sim.ret ⟨rfl, by simp [revive_ren]⟩

omit his in
theorem markPair_ren (sub back : Bool) (c d : Component) :
    markPair sub back (c.ren R.map) (d.ren R.map) =
      ((markPair sub back c d).1.ren R.map, (markPair sub back c d).2.ren R.map) := by
  unfold markPair Component.ren
  split_ifs <;> rfl

theorem markRow_sim (l : List Component) : ∀ c : Component,
    Sim strict (NextRel R) (RowRel R) (markRow is c l)
      (markRow is' (c.ren R.map) (l.map (Component.ren R.map))) := by
  induction l with
  | nil => exact fun c => Sim.ret ⟨rfl, rfl⟩
  | cons d l ih =>
    intro c
    refine Sim.ite ?_ ?_
    · refine (his c.ty d.ty).bindEq fun sub => ?_
      refine (his d.ty c.ty).bindEq fun back => ?_
      rw [markPair_ren]
      refine Sim.andThen (ih (markPair sub back c d).1) ?_
      rintro ⟨c', l'⟩ ⟨_, _⟩ ⟨rfl, rfl⟩
      exact Sim.ret ⟨rfl, rfl⟩
    · refine Sim.andThen (ih c) ?_
      rintro ⟨c', l'⟩ ⟨_, _⟩ ⟨rfl, rfl⟩
      exact Sim.ret ⟨rfl, rfl⟩

omit his in
theorem rows_sim
    {row row' : Component → List Component → AllocM (Component × List Component)}
    (hrow : ∀ l c, Sim strict (NextRel R) (RowRel R) (row c l)
      (row' (c.ren R.map) (l.map (Component.ren R.map))))
    {p : Component → Bool} (hp : ∀ c, p (c.ren R.map) = p c) (l : List Component) :
    ∀ r, Sim strict (NextRel R)
      (fun a b => b.1 = a.1.map (Component.ren R.map) ∧ b.2 = a.2.map (Component.ren R.map))
      (rows row p l r)
      (rows row' p (l.map (Component.ren R.map)) (r.map (Component.ren R.map))) := by
  induction l with
  | nil => exact fun r => Sim.ret ⟨rfl, rfl⟩
  | cons c l ih =>
    intro r
    refine Sim.branch ?_ ?_ (by rw [hp])
    · refine Sim.andThen (hrow r c) ?_
      rintro ⟨c', r'⟩ ⟨_, _⟩ ⟨rfl, rfl⟩
      refine Sim.andThen (ih r') ?_
      rintro ⟨l', r''⟩ ⟨_, _⟩ ⟨rfl, rfl⟩
      exact Sim.ret ⟨rfl, rfl⟩
    · refine Sim.andThen (ih r) ?_
      rintro ⟨l', r''⟩ ⟨_, _⟩ ⟨rfl, rfl⟩
      exact Sim.ret ⟨rfl, rfl⟩

omit his in
theorem keptComponents_ren (l r : List Component) :
    keptComponents (l.map (Component.ren R.map)) (r.map (Component.ren R.map)) =
      (keptComponents l r).map (Component.ren R.map) := by
  have hall : ∀ m : List Component,
      (m.map (Component.ren R.map)).all Component.below = m.all Component.below := fun m => by
    rw [List.all_map]
    rfl
  have hfilter : ∀ (m : List Component) (p : Component → Bool),
      (∀ c, p (c.ren R.map) = p c) →
      (m.map (Component.ren R.map)).filter p = (m.filter p).map (Component.ren R.map) :=
    fun m p hp => by rw [List.filter_map]; simp [Function.comp_def, hp]
  unfold keptComponents
  rw [hall, hall, hfilter l (·.alive) fun _ => rfl, hfilter r (·.alive) fun _ => rfl,
    hfilter l (fun c => c.alive && decide (2 ≤ c.mark)) fun _ => rfl,
    hfilter r (fun c => c.alive && decide (0 ≤ c.mark)) fun _ => rfl]
  split_ifs <;> simp

theorem meetFromMarks_sim (a b : Ty) (overesi : Nat) (l r : List Component) :
    Sim strict (NextRel R) (TyRel R) (meetFromMarks is a b overesi l r)
      (meetFromMarks is' (a.ren R.map) (b.ren R.map) overesi
        (l.map (Component.ren R.map)) (r.map (Component.ren R.map))) := by
  have hall : ∀ (m : List Component) (p : Component → Bool),
      (∀ c, p (c.ren R.map) = p c) → (m.map (Component.ren R.map)).all p = m.all p :=
    fun m p hp => by rw [List.all_map]; exact congrArg _ (funext hp)
  unfold meetFromMarks
  rw [hall l (!·.alive) fun _ => rfl, hall l Component.within fun _ => rfl,
    hall r Component.within fun _ => rfl, hall l Component.below fun _ => rfl,
    hall r Component.below fun _ => rfl, keptComponents_ren]
  refine Sim.ite (.ret (by simp [TyRel])) ?_
  refine Sim.ite (.ret rfl) ?_
  refine Sim.ite (.ret rfl) ?_
  refine Sim.ite (.ret (by simp [TyRel])) ?_
  refine Sim.ite ?_ ?_
  · refine fresh_sim.bindMap fun i => ?_
    exact Sim.ret (by simp [TyRel])
  · refine Sim.branch (.ret (by simp [TyRel])) ?_ (by simp)
    have h := unionOf_sim his ((keptComponents l r).map (·.ty))
    rw [List.map_map] at h ⊢
    exact h

theorem simpleIntersect_sim (a b : Ty) (overesi : Nat) :
    Sim strict (NextRel R) (TyRel R) (simpleIntersect is a b overesi)
      (simpleIntersect is' (a.ren R.map) (b.ren R.map) overesi) := by
  have hc : ∀ t : Ty, ((t.ren R.map).flattenUnion.map fun t => ({ ty := t } : Component)) =
      (t.flattenUnion.map fun t => ({ ty := t } : Component)).map (Component.ren R.map) :=
    fun t => by simp [Component.ren]
  unfold simpleIntersect
  rw [hc, hc]
  refine Sim.andThen (rows_sim (aliveRow_sim his) (fun _ => rfl) _ _) ?_
  rintro ⟨l, r⟩ ⟨_, _⟩ ⟨rfl, rfl⟩
  refine Sim.andThen (rows_sim (markRow_sim his) (fun _ => rfl) l r) ?_
  rintro ⟨l', r'⟩ ⟨_, _⟩ ⟨rfl, rfl⟩
  exact meetFromMarks_sim his a b overesi l' r'

theorem simpleMeet_sim (a b : Ty) (overesi : Nat) :
    Sim strict (NextRel R) (TyRel R) (simpleMeet is a b overesi)
      (simpleMeet is' (a.ren R.map) (b.ren R.map) overesi) := by
  have hk : ∀ s t : Ty, ((t.ren R.map).typeParam.map Ty.typeOf = some (s.ren R.map)) ↔
      t.typeParam.map Ty.typeOf = some s := fun s t => by
    cases hp : t.typeParam with
    | none => simp [hp]
    | some p => cases p <;> cases s <;> simp [hp, Ty.typeOf]
  unfold simpleMeet
  refine Sim.branch (.ret rfl) ?_ (by simp)
  refine Sim.branch (.ret rfl) ?_ (by simp)
  refine Sim.branch ?_ ?_ (by simp)
  · refine fresh_sim.bindMap fun i => ?_
    exact Sim.ret (by simp [TyRel])
  refine Sim.branch (.ret (by simp [TyRel])) ?_ (by simp)
  refine Sim.branch (.ret rfl) ?_ (by simp only [Bool.and_eq_true, Ty.isKind_ren,
    Ty.isTypeType_ren, decide_eq_true_eq, hk])
  refine Sim.branch (.ret rfl) ?_ (by simp only [Bool.and_eq_true, Ty.isKind_ren,
    Ty.isTypeType_ren, decide_eq_true_eq, hk])
  refine Sim.branch (.ret rfl) ?_ (by simp)
  refine Sim.branch (.ret rfl) ?_ (by simp)
  exact simpleIntersect_sim his a b overesi

theorem widenIntersect_sim (t : Ty) :
    Sim strict (NextRel R) (TyRel R) (widenIntersect is t)
      (widenIntersect is' (t.ren R.map)) := by
  induction t with
  | inter i a b iha ihb =>
    simp only [Ty.ren_inter, widenIntersect]
    refine iha.bindMap fun a' => ?_
    refine ihb.bindMap fun b' => ?_
    exact simpleMeet_sim his a' b' 2
  | _ =>
    simp only [widenIntersect, Ty.ren_nominal, Ty.ren_app, Ty.ren_union, Ty.ren_tvar,
      Ty.ren_unionall, Ty.ren_vararg, Ty.ren_varargN, Ty.ren_long]
    exact Sim.ret (by simp [TyRel])

end

end

end Ruju
