import Ruju.Types.Predicates
import Mathlib.Logic.Function.Basic
import Mathlib.Data.List.Sort
import Mathlib.Data.List.Destutter

/-!
# Renaming allocation numbers

`Ty.ren ρ` replaces every allocation number in a type by its image under `ρ`:
it moves an object, with everything it refers to, to other addresses.  For an
injective `ρ` this is invisible to every operation of the runtime that only
compares addresses; the lemmas here say so for each structural predicate, and
they are `simp` lemmas so that a renamed argument disappears from a goal.
-/

namespace Ruju

namespace Ty

mutual

/-- Replace every allocation number by its image under `ρ`. -/
def ren (ρ : Nat → Nat) : Ty → Ty
  | nominal n => nominal n
  | app c ps => app c (rens ρ ps)
  | union i a b => union (ρ i) (ren ρ a) (ren ρ b)
  | tvar i n lb ub => tvar (ρ i) n (ren ρ lb) (ren ρ ub)
  | unionall i v n lb ub t =>
    unionall (ρ i) (ρ v) n (ren ρ lb) (ren ρ ub) (ren ρ t)
  | vararg i t => vararg (ρ i) (ren ρ t)
  | varargN i t n => varargN (ρ i) (ren ρ t) (ren ρ n)
  | long i n => long (ρ i) n
  | inter i a b => inter (ρ i) (ren ρ a) (ren ρ b)

/-- `ren` on a parameter list. -/
def rens (ρ : Nat → Nat) : List Ty → List Ty
  | [] => []
  | p :: ps => ren ρ p :: rens ρ ps

end

variable {ρ : Nat → Nat}

@[simp] theorem rens_eq_map (ps : List Ty) : rens ρ ps = ps.map (ren ρ) := by
  induction ps with
  | nil => rfl
  | cons p ps ih => rw [rens, ih, List.map_cons]

section
variable (n : Nominal) (c : Con) (ps : List Ty) (i v : Nat) (s : String)
  (a b t : Ty) (m : Int)

@[simp] theorem ren_nominal : ren ρ (nominal n) = nominal n := (rfl)
@[simp] theorem ren_app : ren ρ (app c ps) = app c (ps.map (ren ρ)) := by
  rw [ren, rens_eq_map]
@[simp] theorem ren_union : ren ρ (union i a b) = union (ρ i) (ren ρ a) (ren ρ b) := (rfl)
@[simp] theorem ren_tvar : ren ρ (tvar i s a b) = tvar (ρ i) s (ren ρ a) (ren ρ b) := (rfl)
@[simp] theorem ren_unionall :
    ren ρ (unionall i v s a b t) =
      unionall (ρ i) (ρ v) s (ren ρ a) (ren ρ b) (ren ρ t) := (rfl)
@[simp] theorem ren_vararg : ren ρ (vararg i t) = vararg (ρ i) (ren ρ t) := (rfl)
@[simp] theorem ren_varargN :
    ren ρ (varargN i t a) = varargN (ρ i) (ren ρ t) (ren ρ a) := (rfl)
@[simp] theorem ren_long : ren ρ (long i m) = long (ρ i) m := (rfl)
@[simp] theorem ren_inter : ren ρ (inter i a b) = inter (ρ i) (ren ρ a) (ren ρ b) := (rfl)

end

/-! ### Injectivity -/

theorem map_ren_inj {ps : List Ty} (ih : ∀ p ∈ ps, ∀ q, ren ρ p = ren ρ q → p = q) :
    ∀ qs, ps.map (ren ρ) = qs.map (ren ρ) → ps = qs := by
  induction ps with
  | nil =>
    intro qs h
    cases qs with
    | nil => rfl
    | cons q qs => simp at h
  | cons p ps ihp =>
    intro qs h
    cases qs with
    | nil => simp at h
    | cons q qs =>
      simp only [List.map_cons, List.cons.injEq] at h
      rw [ih p (List.mem_cons_self ..) q h.1,
        ihp (fun r hr => ih r (List.mem_cons_of_mem _ hr)) qs h.2]

theorem ren_injective (hρ : Function.Injective ρ) : Function.Injective (ren ρ) := by
  intro s
  induction s with
  | app c ps ih =>
    intro t h
    cases t with
    | app d qs =>
      simp only [ren_app, app.injEq] at h
      rw [h.1, map_ren_inj (fun p hp q => @ih p hp q) qs h.2]
    | _ => simp at h
  | _ =>
    intro t h
    cases t <;> simp [hρ.eq_iff] at h ⊢
    all_goals grind

theorem ren_inj (hρ : Function.Injective ρ) {s t : Ty} : ren ρ s = ren ρ t ↔ s = t :=
  (ren_injective hρ).eq_iff

theorem decide_ren_eq (hρ : Function.Injective ρ) (s t : Ty) :
    decide (ren ρ s = ren ρ t) = decide (s = t) :=
  decide_eq_decide.mpr (ren_inj hρ)

@[simp] theorem ren_eq_nominal {t : Ty} {n : Nominal} :
    ren ρ t = nominal n ↔ t = nominal n := by
  cases t <;> simp

/-! ### Kinds of objects -/

section
variable (t : Ty)

@[simp] theorem typeOf_ren : (ren ρ t).typeOf = t.typeOf := by cases t <;> simp [typeOf]
@[simp] theorem isDatatype_ren : (ren ρ t).isDatatype = t.isDatatype := by
  cases t <;> simp [isDatatype]
@[simp] theorem isUnion_ren : (ren ρ t).isUnion = t.isUnion := by
  cases t <;> simp [isUnion]
@[simp] theorem isTypevar_ren : (ren ρ t).isTypevar = t.isTypevar := by
  cases t <;> simp [isTypevar]
@[simp] theorem isUnionall_ren : (ren ρ t).isUnionall = t.isUnionall := by
  cases t <;> simp [isUnionall]
@[simp] theorem isVararg_ren : (ren ρ t).isVararg = t.isVararg := by
  cases t <;> simp [isVararg]
@[simp] theorem isBoxedLong_ren : (ren ρ t).isBoxedLong = t.isBoxedLong := by
  cases t <;> simp [isBoxedLong]
@[simp] theorem isIntersect_ren : (ren ρ t).isIntersect = t.isIntersect := by
  cases t <;> simp [isIntersect]
@[simp] theorem isTuple_ren : (ren ρ t).isTuple = t.isTuple := by
  cases t with
  | app c ps => cases c <;> simp [isTuple]
  | _ => simp [isTuple]
@[simp] theorem typeParam_ren : (ren ρ t).typeParam = t.typeParam.map (ren ρ) := by
  cases t with
  | app c ps => cases c <;> cases ps <;> simp [typeParam]
  | _ => simp [typeParam]
@[simp] theorem isTypeType_ren : (ren ρ t).isTypeType = t.isTypeType := by
  cases t with
  | app c ps => cases c <;> cases ps <;> simp [isTypeType]
  | _ => simp [isTypeType]
@[simp] theorem tvarLb_ren : (ren ρ t).tvarLb = ren ρ t.tvarLb := by
  cases t <;> simp [tvarLb]
@[simp] theorem tvarUb_ren : (ren ρ t).tvarUb = ren ρ t.tvarUb := by
  cases t <;> simp [tvarUb]
@[simp] theorem isKind_ren : (ren ρ t).isKind = t.isKind := by simp [isKind]
@[simp] theorem isTypeOrTypevar_ren : (ren ρ t).isTypeOrTypevar = t.isTypeOrTypevar := by
  simp [isTypeOrTypevar]
@[simp] theorem parameters_ren :
    (ren ρ t).parameters = t.parameters.map (·.map (ren ρ)) := by
  cases t <;> simp [parameters]
@[simp] theorem nameOf_ren : (ren ρ t).nameOf = t.nameOf := by
  cases t with
  | app c ps => cases c <;> simp [nameOf]
  | _ => simp [nameOf]
@[simp] theorem typeSym_ren : (ren ρ t).typeSym = t.typeSym := by simp [typeSym]
@[simp] theorem supers_ren : (ren ρ t).supers = t.supers.map (ren ρ) := by
  cases t with
  | nominal n => simp [supers, Function.comp_def]
  | app c ps => cases c <;> simp [supers]
  | _ => simp [supers]
@[simp] theorem varargElem_ren : (ren ρ t).varargElem = ren ρ t.varargElem := by
  cases t <;> simp [varargElem]
@[simp] theorem varargNum_ren : (ren ρ t).varargNum = t.varargNum.map (ren ρ) := by
  cases t <;> simp [varargNum]
@[simp] theorem varargKind_ren : (ren ρ t).varargKind = t.varargKind := by
  cases t <;> simp [varargKind]
@[simp] theorem unboxLong_ren : (ren ρ t).unboxLong = t.unboxLong := by
  cases t <;> simp [unboxLong]
@[simp] theorem isDatatypeSingleton_ren :
    (ren ρ t).isDatatypeSingleton = t.isDatatypeSingleton := by
  cases t <;> simp [isDatatypeSingleton]
@[simp] theorem unwrapUnionall_ren :
    (ren ρ t).unwrapUnionall = ren ρ t.unwrapUnionall := by
  induction t <;> simp_all [unwrapUnionall]
@[simp] theorem flattenUnion_ren :
    (ren ρ t).flattenUnion = t.flattenUnion.map (ren ρ) := by
  induction t <;> simp_all [flattenUnion]

end

/-! ### Predicates that compare objects -/

section
variable (hρ : Function.Injective ρ)
include hρ

theorem contains_map_ren (l : List Ty) (t : Ty) :
    (l.map (ren ρ)).contains (ren ρ t) = l.contains t := by
  induction l with
  | nil => rfl
  | cons s l ih => simp [ren_inj hρ]

theorem hasFreeVarWhere_ren {p p' : Ty → Bool} (hp : ∀ v, p' (ren ρ v) = p v) (t : Ty) :
    ∀ bound, (ren ρ t).hasFreeVarWhere p' (bound.map (ren ρ)) =
      t.hasFreeVarWhere p bound := by
  induction t with
  | app c ps ih =>
    intro bound
    simp only [ren_app, hasFreeVarWhere]
    induction ps with
    | nil => rfl
    | cons q qs ihq =>
      simp only [List.map_cons, hasFreeVarsWhere, ih q (List.mem_cons_self ..),
        ihq fun r hr => ih r (List.mem_cons_of_mem _ hr)]
  | tvar i n lb ub =>
    intro bound
    have hc := contains_map_ren hρ bound (tvar i n lb ub)
    have hv := hp (tvar i n lb ub)
    simp only [ren_tvar] at hc hv
    simp only [ren_tvar, hasFreeVarWhere, hc, hv]
  | unionall i v n lb ub t ihl ihu iht =>
    intro bound
    have := iht (tvar v n lb ub :: bound)
    simp only [List.map_cons, ren_tvar] at this
    simp [hasFreeVarWhere, ihl, ihu, this]
  | _ => intro bound; simp_all [hasFreeVarWhere]

theorem hasFreeTypevars_ren (t : Ty) : (ren ρ t).hasFreeTypevars = t.hasFreeTypevars :=
  hasFreeVarWhere_ren hρ (fun _ => rfl) t []

theorem hasTypevar_ren (t v : Ty) : (ren ρ t).hasTypevar (ren ρ v) = t.hasTypevar v :=
  hasFreeVarWhere_ren hρ (fun u => by simp [ren_inj hρ]) t []

theorem find?_ren (env : List (Ty × Ty)) (t : Ty) :
    (env.map fun p => (ren ρ p.1, ren ρ p.2)).find? (fun p => p.1 = ren ρ t) =
      (env.find? fun p => p.1 = t).map fun p => (ren ρ p.1, ren ρ p.2) := by
  induction env with
  | nil => rfl
  | cons p env ih =>
    by_cases h : p.1 = t
    · simp [h]
    · have h' : ¬ren ρ p.1 = ren ρ t := fun e => h ((ren_inj hρ).mp e)
      simp [h, h', ih]

theorem map_ren_eq {ps qs : List Ty} : ps.map (ren ρ) = qs.map (ren ρ) ↔ ps = qs :=
  (List.map_injective_iff.mpr (ren_injective hρ)).eq_iff

theorem egalTypes_ren (tn : Bool) (s : Ty) : ∀ t env,
    egalTypes tn (env.map fun p => (ren ρ p.1, ren ρ p.2)) (ren ρ s) (ren ρ t) =
      egalTypes tn env s t := by
  induction s with
  | app c ps ih =>
    intro t env
    have hl : ∀ qs, egalTypesList tn (env.map fun p => (ren ρ p.1, ren ρ p.2))
        (ps.map (ren ρ)) (qs.map (ren ρ)) = egalTypesList tn env ps qs := by
      induction ps with
      | nil => intro qs; cases qs <;> simp [egalTypesList]
      | cons p ps ihp =>
        intro qs
        have ihp := ihp fun r hr => ih r (List.mem_cons_of_mem _ hr)
        cases qs <;> simp [egalTypesList, ih p List.mem_cons_self, ihp]
    cases t <;> simp [egalTypes, map_ren_eq hρ, hl]
  | tvar i n a b =>
    intro t env
    have he := ren_inj hρ (s := tvar i n a b) (t := t)
    have hf := find?_ren hρ env (tvar i n a b)
    rw [ren_tvar] at he hf
    simp only [ren_tvar, egalTypes, he, isTypevar_ren, hf]
    cases env.find? fun p => p.1 = tvar i n a b with
    | none => rfl
    | some p => simp [ren_inj hρ]
  | unionall i v n a b u iha ihb ihu =>
    intro t env
    cases t with
    | unionall j w m c d s =>
      have hu := ihu s ((tvar v n a b, tvar w m c d) :: env)
      simp only [List.map_cons, ren_tvar] at hu
      simp [egalTypes, ren_inj hρ, hρ.eq_iff, iha, ihb, hu]
    | _ => simp [egalTypes]
  | union i a b iha ihb =>
    intro t env
    cases t <;> simp [egalTypes, ren_inj hρ, hρ.eq_iff, iha, ihb]
  | _ =>
    intro t env
    cases t <;> simp [egalTypes, ren_inj hρ, hρ.eq_iff]

theorem egal_ren (s : Ty) : ∀ t, egal (ren ρ s) (ren ρ t) = egal s t := by
  induction s with
  | app c ps ih =>
    intro t
    have hl : ∀ qs, egalList (ps.map (ren ρ)) (qs.map (ren ρ)) = egalList ps qs := by
      induction ps with
      | nil => intro qs; cases qs <;> simp [egalList]
      | cons p ps ihp =>
        intro qs
        have ihp := ihp fun r hr => ih r (List.mem_cons_of_mem _ hr)
        cases qs <;> simp [egalList, ih p List.mem_cons_self, ihp]
    cases t <;> simp [egal, map_ren_eq hρ, hl]
  | unionall i v n a b u =>
    intro t
    have he := ren_inj hρ (s := unionall i v n a b u) (t := t)
    have ht := egalTypes_ren hρ true (unionall i v n a b u) t []
    simp only [ren_unionall, List.map_nil] at he ht
    simp only [ren_unionall, egal, he, isUnionall_ren, ht]
  | union i a b iha ihb =>
    intro t
    cases t <;> simp [egal, ren_inj hρ, hρ.eq_iff, iha, ihb]
  | _ =>
    intro t
    cases t <;> simp [egal, ren_inj hρ, hρ.eq_iff]

theorem obviouslyEgal_ren (s : Ty) :
    ∀ t, obviouslyEgal (ren ρ s) (ren ρ t) = obviouslyEgal s t := by
  induction s with
  | app c ps ih =>
    intro t
    have hl : ∀ qs, obviouslyEgalList (ps.map (ren ρ)) (qs.map (ren ρ)) =
        obviouslyEgalList ps qs := by
      induction ps with
      | nil => intro qs; cases qs <;> simp [obviouslyEgalList]
      | cons p ps ihp =>
        intro qs
        have ihp := ihp fun r hr => ih r (List.mem_cons_of_mem _ hr)
        cases qs <;> simp [obviouslyEgalList, ih p List.mem_cons_self, ihp]
    cases t <;> simp [obviouslyEgal, map_ren_eq hρ, hl]
  | unionall i v n a b u iha ihb ihu =>
    intro t
    cases t <;> simp [obviouslyEgal, ren_inj hρ, hρ.eq_iff, ihu]
  | vararg i a iha =>
    intro t
    cases t <;> simp [obviouslyEgal, ren_inj hρ, hρ.eq_iff, iha]
  | varargN i a b iha ihb =>
    intro t
    cases t <;> simp [obviouslyEgal, ren_inj hρ, hρ.eq_iff, iha, egal_ren hρ]
  | union i a b iha ihb | inter i a b iha ihb =>
    intro t
    cases t <;> simp [obviouslyEgal, ren_inj hρ, hρ.eq_iff, iha, ihb]
  | _ =>
    intro t
    cases t <;> simp [obviouslyEgal, ren_inj hρ, hρ.eq_iff]

theorem obviouslyArmOf_ren (u x : Ty) :
    obviouslyArmOf (ren ρ u) (ren ρ x) = obviouslyArmOf u x := by
  have he := fun u => obviouslyEgal_ren hρ u x
  induction u with
  | union i a b iha ihb => simp [obviouslyArmOf, iha, ihb]
  | _ => exact he _

theorem obviouslyInUnion_ren (u x : Ty) :
    obviouslyInUnion (ren ρ u) (ren ρ x) = obviouslyInUnion u x := by
  have he := fun x => obviouslyArmOf_ren hρ u x
  induction x with
  | union i a b iha ihb => simp [obviouslyInUnion, iha, ihb]
  | _ => exact he _

theorem varOccursInvariant_ren (var : Ty) (t : Ty) : ∀ inside,
    varOccursInvariant (ren ρ var) inside (ren ρ t) = varOccursInvariant var inside t := by
  have he : ∀ s, (ren ρ s = ren ρ var ↔ s = var) := fun s => ren_inj hρ
  induction t with
  | app c ps ih =>
    intro inside
    have hl : ∀ inside, varsOccurInvariant (ren ρ var) inside (ps.map (ren ρ)) =
        varsOccurInvariant var inside ps := by
      clear he
      induction ps with
      | nil => intro inside; rfl
      | cons p ps ihp =>
        intro inside
        simp [varsOccurInvariant, ih p (List.mem_cons_self ..),
          ihp fun r hr => ih r (List.mem_cons_of_mem _ hr)]
    have h := he (app c ps)
    rw [ren_app] at h
    simp only [ren_app, varOccursInvariant, h, hl]
  | union i a b iha ihb =>
    intro inside
    have h := he (union i a b)
    rw [ren_union] at h
    simp only [ren_union, varOccursInvariant, h, iha, ihb]
  | unionall i v n a b u iha ihb ihu =>
    intro inside
    have h := he (unionall i v n a b u)
    have hv := he (tvar v n a b)
    rw [ren_unionall] at h
    rw [ren_tvar] at hv
    simp only [ren_unionall, varOccursInvariant, h, hv, iha, ihb, ihu]
  | vararg i a iha =>
    intro inside
    have h := he (vararg i a)
    rw [ren_vararg] at h
    simp only [ren_vararg, varOccursInvariant, h, iha]
  | varargN i a b iha =>
    intro inside
    have h := he (varargN i a b)
    rw [ren_varargN] at h
    simp only [ren_varargN, varOccursInvariant, h, iha]
  | nominal n =>
    intro inside
    have h := he (nominal n)
    rw [ren_nominal] at h
    simp only [ren_nominal, varOccursInvariant, h]
  | tvar i n a b =>
    intro inside
    have h := he (tvar i n a b)
    rw [ren_tvar] at h
    simp only [ren_tvar, varOccursInvariant, h]
  | long i n =>
    intro inside
    have h := he (long i n)
    rw [ren_long] at h
    simp only [ren_long, varOccursInvariant, h]
  | inter i a b =>
    intro inside
    have h := he (inter i a b)
    rw [ren_inter] at h
    simp only [ren_inter, varOccursInvariant, h]

theorem widenTypeIfConcrete_ren (t : Ty) :
    widenTypeIfConcrete (ren ρ t) = ren ρ (widenTypeIfConcrete t) := by
  induction t with
  | app c ps =>
    cases c with
    | type =>
      cases ps with
      | nil => simp [widenTypeIfConcrete]
      | cons p ps =>
        simp only [ren_app, List.map_cons, widenTypeIfConcrete, isTypevar_ren, typeOf_ren]
        split
        · simp
        · cases p <;> simp [typeOf]
    | _ => simp [widenTypeIfConcrete]
  | union i a b iha ihb =>
    simp only [ren_union, widenTypeIfConcrete, iha, ihb, ren_inj hρ]
    split <;> simp
  | unionall i v n a b u iha ihb ihu =>
    have hv := hasTypevar_ren hρ (widenTypeIfConcrete u) (tvar v n a b)
    rw [ren_tvar] at hv
    simp only [ren_unionall, widenTypeIfConcrete, ihu, hv, ne_eq, ren_inj hρ]
    split <;> simp
  | _ => simp [widenTypeIfConcrete]

end

/-! ### Concreteness, varargs and the canonical order -/

section
variable (t : Ty)

@[simp] theorem isLeafBound_ren : (ren ρ t).isLeafBound = t.isLeafBound := by
  induction t with
  | app c ps ih =>
    simp only [ren_app, isLeafBound]
    induction ps with
    | nil => rfl
    | cons p ps ihp =>
      simp [areLeafBounds, ih p (List.mem_cons_self ..),
        ihp fun r hr => ih r (List.mem_cons_of_mem _ hr)]
  | _ => simp [isLeafBound]

@[simp] theorem isLeafTypevar_ren : (ren ρ t).isLeafTypevar = t.isLeafTypevar := by
  cases t <;> simp [isLeafTypevar]

@[simp] theorem isIndefiniteLengthTuple_ren :
    (ren ρ t).isIndefiniteLengthTuple = t.isIndefiniteLengthTuple := by
  simp only [isIndefiniteLengthTuple, unwrapUnionall_ren]
  cases t.unwrapUnionall with
  | app c ps =>
    cases c <;> simp only [ren_app, List.getLast?_map]
    cases ps.getLast? <;> simp
  | _ => simp

@[simp] theorem hasFixedLength_ren : (ren ρ t).hasFixedLength = t.hasFixedLength := by
  cases t with
  | app c ps =>
    cases c <;> simp only [ren_app, hasFixedLength, List.getLast?_map]
    cases ps.getLast? <;> simp
  | _ => simp [hasFixedLength]

@[simp] theorem isDefiniteLengthTuple_ren :
    (ren ρ t).isDefiniteLengthTuple = t.isDefiniteLengthTuple := by
  simp only [isDefiniteLengthTuple, isTypevar_ren, tvarUb_ren]
  split <;> simp

@[simp] theorem isBits_ren : (ren ρ t).isBits = t.isBits := by
  induction t with
  | app c ps ih =>
    cases c <;> simp only [ren_app, isBits]
    induction ps with
    | nil => rfl
    | cons p ps ihp =>
      simp [isBits.areBits, ih p (List.mem_cons_self ..),
        ihp fun r hr => ih r (List.mem_cons_of_mem _ hr)]
  | _ => simp [isBits]

@[simp] theorem nameCmp_ren (s : Ty) : ∀ t, nameCmp (ren ρ s) (ren ρ t) = nameCmp s t := by
  induction s with
  | app c ps ih =>
    intro t
    have hl : ∀ qs, nameCmps (ps.map (ren ρ)) (qs.map (ren ρ)) = nameCmps ps qs := by
      induction ps with
      | nil => intro qs; simp [nameCmps]
      | cons p ps ihp =>
        intro qs
        cases qs with
        | nil => simp [nameCmps]
        | cons q qs =>
          simp [nameCmps, ih p (List.mem_cons_self ..),
            ihp fun r hr => ih r (List.mem_cons_of_mem _ hr)]
    have hs : (ren ρ (app c ps)).typeSym = (app c ps).typeSym := typeSym_ren _
    rw [ren_app] at hs
    have hp : ((ren ρ t).parameters.getD []) = (t.parameters.getD []).map (ren ρ) := by
      cases t <;> simp [parameters]
    simp only [ren_app, nameCmp, isDatatype_ren, hs, typeSym_ren, hp, hl, List.length_map]
  | nominal n =>
    intro t
    have hp : ((ren ρ t).parameters.getD []).length = (t.parameters.getD []).length := by
      cases t <;> simp [parameters]
    simp only [ren_nominal, nameCmp, isDatatype_ren, typeSym_ren, hp]
  | _ => intro t; simp [nameCmp]

@[simp] theorem typeCmp_ren (s : Ty) : typeCmp (ren ρ s) (ren ρ t) = typeCmp s t := by
  simp [typeCmp]

end

end Ty

end Ruju
