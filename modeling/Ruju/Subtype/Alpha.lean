import Ruju.Subtype.Invariance
import Mathlib.Data.Fintype.Sum
import Mathlib.Data.Fintype.Card
import Mathlib.Data.Finset.Range

/-!
# Alpha-equivalent copies

A `where` type is copied by replacing every variable it binds by a new
`TypeVar` object, its bounds copied along, and by rebuilding the objects that
mention one.  On the trees of this development the copy is a renaming of
allocation numbers (`Ty.ren`) that is injective on the type, moves the variables
it binds, moves objects to addresses that are not in use, and keeps what
mentions no variable (`AlphaCopy`).

The environment of the algorithm finds a binding by the identity of its
variable, with the bindings of both sides on one stack.  Two sides that bind the
same object therefore do see each other's bindings (`subtype_shared_var`), and a
copy changes the answer.  When the two sides bind no common variable it does
not: such a copy extends to a permutation of the addresses in use that fixes the
other side, and the algorithm does not see addresses (`subtype_ren`).
-/

namespace Ruju

namespace Ty

/-! ### The objects of a type -/

/-- The address of an object that is not interned. -/
def address : Ty → Option Nat
  | union i .. => some i
  | tvar i .. => some i
  | unionall i .. => some i
  | vararg i .. => some i
  | varargN i .. => some i
  | long i .. => some i
  | inter i .. => some i
  | nominal _ => none
  | app .. => none

mutual

/-- The objects with an address that a type refers to, itself included.  A
`UnionAll` refers to its variable, also where the body does not mention it. -/
def objects : Ty → List Ty
  | nominal _ => []
  | app _ ps => objectsList ps
  | union i a b => union i a b :: (objects a ++ objects b)
  | tvar i n lb ub => tvar i n lb ub :: (objects lb ++ objects ub)
  | unionall i v n lb ub t =>
    unionall i v n lb ub t :: tvar v n lb ub :: (objects lb ++ objects ub ++ objects t)
  | vararg i t => vararg i t :: objects t
  | varargN i t n => varargN i t n :: (objects t ++ objects n)
  | long i n => [long i n]
  | inter i a b => inter i a b :: (objects a ++ objects b)

/-- `objects` of a parameter list. -/
def objectsList : List Ty → List Ty
  | [] => []
  | p :: ps => objects p ++ objectsList ps

end

/-- The addresses a type refers to. -/
def ids (t : Ty) : List Nat :=
  t.objects.filterMap address

/-- The variable a `UnionAll` binds. -/
def binder : Ty → Option Ty
  | unionall _ v n lb ub _ => some (tvar v n lb ub)
  | _ => none

/-- The `TypeVar` objects bound somewhere in a type. -/
def boundVars (t : Ty) : List Ty :=
  t.objects.filterMap binder

theorem mem_objectsList {o : Ty} {ps : List Ty} :
    o ∈ objectsList ps ↔ ∃ p ∈ ps, o ∈ p.objects := by
  induction ps with
  | nil => simp [objectsList]
  | cons p ps ih => simp [objectsList, ih]

theorem mem_ids {t : Ty} {i : Nat} : i ∈ t.ids ↔ ∃ o ∈ t.objects, o.address = some i := by
  simp [ids, List.mem_filterMap]

/-- An object with an address and two parts. -/
theorem ids_of_parts {t a b : Ty} {i : Nat} (h : t.objects = t :: (a.objects ++ b.objects))
    (hi : t.address = some i) : t.ids = i :: (a.ids ++ b.ids) := by
  rw [ids, h, List.filterMap_cons_some hi, List.filterMap_append]
  rfl

section
variable (i v : Nat) (s : String) (a b t : Ty) (m : Int)

@[simp] theorem ids_union : (union i a b).ids = i :: (a.ids ++ b.ids) := ids_of_parts rfl rfl
@[simp] theorem ids_tvar : (tvar i s a b).ids = i :: (a.ids ++ b.ids) := ids_of_parts rfl rfl
@[simp] theorem ids_varargN : (varargN i a b).ids = i :: (a.ids ++ b.ids) := ids_of_parts rfl rfl
@[simp] theorem ids_inter : (inter i a b).ids = i :: (a.ids ++ b.ids) := ids_of_parts rfl rfl
@[simp] theorem ids_vararg : (vararg i t).ids = i :: t.ids := (rfl)
@[simp] theorem ids_long : (long i m).ids = [i] := (rfl)
@[simp] theorem ids_unionall :
    (unionall i v s a b t).ids = i :: v :: (a.ids ++ (b.ids ++ t.ids)) := by
  show i :: v :: List.filterMap address (a.objects ++ b.objects ++ t.objects) = _
  rw [List.filterMap_append, List.filterMap_append, List.append_assoc]
  rfl

end

theorem mem_boundVars {t T : Ty} :
    T ∈ t.boundVars ↔ ∃ o ∈ t.objects, o.binder = some T := by
  simp [boundVars, List.mem_filterMap]

/-! ### Renaming and the addresses in use -/

variable {ρ σ : Nat → Nat}

theorem mem_objects_of_param {c : Con} {ps : List Ty} {p o : Ty} (hp : p ∈ ps)
    (ho : o ∈ p.objects) : o ∈ (app c ps).objects := by
  rw [objects]
  exact mem_objectsList.mpr ⟨p, hp, ho⟩

/-- What an object of a type refers to, the type refers to. -/
theorem objects_trans {t o p : Ty} (ho : o ∈ t.objects) (hp : p ∈ o.objects) : p ∈ t.objects := by
  induction t with
  | nominal n => simp [objects] at ho
  | app c ps ih =>
    rw [objects, mem_objectsList] at ho
    obtain ⟨q, hq, ho⟩ := ho
    exact mem_objects_of_param hq (ih q hq ho)
  | unionall i v n lb ub t ihl ihu iht =>
    simp only [objects, List.mem_cons, List.mem_append] at ho ⊢
    rcases ho with rfl | rfl | (ho | ho) | ho
    · simpa [objects, or_assoc] using hp
    · simp only [objects, List.mem_cons, List.mem_append] at hp
      tauto
    all_goals tauto
  | _ =>
    simp only [objects, List.mem_cons, List.mem_append, List.not_mem_nil] at ho ⊢
    rcases ho with rfl | ho
    · simpa [objects] using hp
    · tauto

/-- Only the addresses a type refers to matter to its renaming. -/
theorem ren_congr {t : Ty} (h : ∀ i ∈ t.ids, ρ i = σ i) : t.ren ρ = t.ren σ := by
  induction t with
  | nominal n => simp
  | app c ps ih =>
    simp only [ren_app, app.injEq, true_and]
    refine List.map_congr_left fun p hp => ih p hp fun i hi => ?_
    obtain ⟨o, ho, hoi⟩ := mem_ids.mp hi
    exact h i (mem_ids.mpr ⟨o, mem_objects_of_param hp ho, hoi⟩)
  | _ => simp_all [or_imp, forall_and]

theorem address_ren (t : Ty) : (t.ren ρ).address = t.address.map ρ := by
  cases t <;> simp [address]

theorem objects_ren (t : Ty) : (t.ren ρ).objects = t.objects.map (ren ρ) := by
  induction t with
  | app c ps ih =>
    rw [ren_app, objects, objects]
    induction ps with
    | nil => rfl
    | cons p ps ihp =>
      rw [List.map_cons, objectsList, objectsList, List.map_append,
        ih p (List.mem_cons_self ..), ihp fun q hq => ih q (List.mem_cons_of_mem _ hq)]
  | _ => simp_all [objects]

theorem ids_ren (t : Ty) : (t.ren ρ).ids = t.ids.map ρ := by
  rw [ids, ids, objects_ren, List.filterMap_map, List.map_filterMap]
  congr 1
  funext o
  exact address_ren o

/-! ### Closed types -/

theorem hasFreeVarWhere_of_param {pred : Ty → Bool} {bound : List Ty} {c : Con} {ps : List Ty}
    {p : Ty} (hp : p ∈ ps) (h : (app c ps).hasFreeVarWhere pred bound = false) :
    p.hasFreeVarWhere pred bound = false := by
  rw [hasFreeVarWhere] at h
  induction ps with
  | nil => cases hp
  | cons q ps ih =>
    simp only [hasFreeVarsWhere, Bool.or_eq_false_iff] at h
    rcases List.mem_cons.mp hp with rfl | hp
    · exact h.1
    · exact ih hp h.2

/-- A variable a closed type refers to is one it binds: `bound` are variables in
scope, and whatever those refer to is already accounted for in `B`. -/
theorem typevar_mem_of_closed {B : List Ty} {t : Ty} :
    ∀ {bound : List Ty}, (∀ T ∈ bound, ∀ o ∈ T.objects, o.isTypevar → o ∈ B) →
      (∀ o ∈ t.objects, ∀ T, o.binder = some T → T ∈ B) →
      t.hasFreeVarWhere (fun _ => true) bound = false →
      ∀ o ∈ t.objects, o.isTypevar → o ∈ B := by
  induction t with
  | nominal n => simp [objects]
  | long i n => simp [objects, isTypevar]
  | tvar i n lb ub ihl ihu =>
    intro bound hbound hB hfree
    have hmem : tvar i n lb ub ∈ bound := by
      simpa [hasFreeVarWhere] using hfree
    exact hbound _ hmem
  | app c ps ih =>
    intro bound hbound hB hfree o ho hv
    rw [objects, mem_objectsList] at ho
    obtain ⟨p, hp, ho⟩ := ho
    refine ih p hp hbound (fun o ho => hB o (mem_objects_of_param hp ho)) ?_ o ho hv
    exact hasFreeVarWhere_of_param hp hfree
  | unionall i v n lb ub t ihl ihu iht =>
    intro bound hbound hB hfree o ho hv
    simp only [hasFreeVarWhere, Bool.or_eq_false_iff] at hfree
    obtain ⟨⟨hl, hu⟩, ht⟩ := hfree
    simp only [objects, List.mem_cons, List.mem_append] at ho hB
    have hlb := ihl hbound (fun o ho => hB o (by tauto)) hl
    have hub := ihu hbound (fun o ho => hB o (by tauto)) hu
    have hvar : tvar v n lb ub ∈ B := hB _ (Or.inl rfl) _ rfl
    have hscope : ∀ T ∈ tvar v n lb ub :: bound, ∀ o ∈ T.objects, o.isTypevar → o ∈ B := by
      rintro T hT o ho hv
      rcases List.mem_cons.mp hT with rfl | hT
      · simp only [objects, List.mem_cons, List.mem_append] at ho
        rcases ho with rfl | ho | ho
        · exact hvar
        · exact hlb o ho hv
        · exact hub o ho hv
      · exact hbound T hT o ho hv
    have hbody := iht hscope (fun o ho => hB o (by tauto)) ht
    rcases ho with rfl | rfl | (ho | ho) | ho
    · simp [isTypevar] at hv
    · exact hvar
    · exact hlb o ho hv
    · exact hub o ho hv
    · exact hbody o ho hv
  | vararg i t ih =>
    intro bound hbound hB hfree o ho hv
    simp only [objects, List.mem_cons] at ho hB
    rcases ho with rfl | ho
    · simp [isTypevar] at hv
    · exact ih hbound (fun o ho => hB o (Or.inr ho)) (by simpa [hasFreeVarWhere] using hfree)
        o ho hv
  | union i a b iha ihb | varargN i a b iha ihb | inter i a b iha ihb =>
    intro bound hbound hB hfree o ho hv
    simp only [hasFreeVarWhere, Bool.or_eq_false_iff] at hfree
    simp only [objects, List.mem_cons, List.mem_append] at ho hB
    rcases ho with rfl | ho | ho
    · simp [isTypevar] at hv
    · exact iha hbound (fun o ho => hB o (by tauto)) hfree.1 o ho hv
    · exact ihb hbound (fun o ho => hB o (by tauto)) hfree.2 o ho hv

/-- A closed type binds every variable it refers to. -/
theorem typevar_mem_boundVars {t : Ty} (h : t.hasFreeTypevars = false) {o : Ty}
    (ho : o ∈ t.objects) (hv : o.isTypevar) : o ∈ t.boundVars := by
  refine typevar_mem_of_closed (by simp) (fun o ho T hT => ?_) h o ho hv
  exact mem_boundVars.mpr ⟨o, ho, hT⟩

end Ty

/-! ### Moving addresses by a permutation -/

/-- An injection defined on finitely many numbers below `N`, with values below
`N`, extends to a renaming that fixes everything from `N` on. -/
theorem exists_renaming_extend {N : Nat} {s : List Nat} {f : Nat → Nat}
    (hs : ∀ i ∈ s, i < N) (hf : ∀ i ∈ s, f i < N)
    (hinj : ∀ i ∈ s, ∀ j ∈ s, f i = f j → i = j) :
    ∃ R : Renaming, R.base = N ∧ R.shift = 0 ∧ ∀ i ∈ s, R.map i = f i := by
  obtain ⟨g, hg⟩ : ∃ g : Fin N ≃ Finset.range N, ∀ i ∈ {i : Fin N | i.val ∈ s}, (g i : Nat) = f i :=
    Set.MapsTo.exists_equiv_extend_of_card_eq (by simp) (fun i hi => by simpa using hf i hi)
      fun i hi j hj h => Fin.ext (hinj i hi j hj h)
  have hlt : ∀ i : Fin N, (g i : Nat) < N := fun i => Finset.mem_range.mp (g i).2
  let map : Nat → Nat := fun i => if h : i < N then (g ⟨i, h⟩ : Nat) else i
  have hmap : Function.Injective map := by
    intro i j hij
    by_cases hi : i < N <;> by_cases hj : j < N
    · have hij' : g ⟨i, hi⟩ = g ⟨j, hj⟩ := by simpa [map, hi, hj, Subtype.ext_iff] using hij
      simpa using g.injective hij'
    · have := hlt ⟨i, hi⟩
      simp only [map, hi, hj, dif_pos, dif_neg, not_false_eq_true] at hij
      omega
    · have := hlt ⟨j, hj⟩
      simp only [map, hi, hj, dif_pos, dif_neg, not_false_eq_true] at hij
      omega
    · simpa [map, hi, hj] using hij
  refine ⟨⟨map, hmap, N, 0, fun i hi => ?_⟩, rfl, rfl, fun i hi => ?_⟩
  · simp [map, Nat.not_lt.mpr hi]
  · simpa [map, hs i hi] using hg ⟨i, hs i hi⟩ hi

/-- Where a query starts allocating does not matter, as long as it is above the
addresses of its two types. -/
theorem subtype_next (fuel : Nat) {n m : Nat} {a b : Ty} (hnm : n ≤ m)
    (ha : ∀ i ∈ a.ids, i < n) (hb : ∀ i ∈ b.ids, i < n) :
    subtype fuel m a b = subtype fuel n a b := by
  let R : Renaming :=
    { map := fun i => if i < n then i else i + (m - n)
      inj := fun i j h => by
        simp only at h
        split_ifs at h <;> omega
      base := n
      shift := m - n
      above := fun i hi => if_neg (by omega) }
  have hfix : ∀ {t : Ty}, (∀ i ∈ t.ids, i < n) → t.ren R.map = t := by
    intro t ht
    have hR : ∀ i ∈ t.ids, R.map i = Renaming.id.map i := fun i hi => if_pos (ht i hi)
    rw [Ty.ren_congr hR, ren_id]
  have h := subtype_ren R fuel (le_refl n) a b
  rwa [hfix ha, hfix hb, show n + R.shift = m from by simp only [R]; omega] at h

/-- A renaming of the addresses of the left type that fixes the addresses of the
right type, without collisions, changes no answer, in either direction. -/
theorem subtype_move {ρ : Nat → Nat} {a b : Ty} {next next' : Nat}
    (hfix : ∀ i ∈ b.ids, ρ i = i)
    (hinj : ∀ i ∈ a.ids ++ b.ids, ∀ j ∈ a.ids ++ b.ids, ρ i = ρ j → i = j)
    (ha : ∀ i ∈ a.ids, i < next) (hb : ∀ i ∈ b.ids, i < next)
    (ha' : ∀ i ∈ (a.ren ρ).ids, i < next') (hb' : ∀ i ∈ b.ids, i < next') (fuel : Nat) :
    subtype fuel next' (a.ren ρ) b = subtype fuel next a b ∧
      subtype fuel next' b (a.ren ρ) = subtype fuel next b a := by
  have hρ : ∀ i ∈ a.ids, ρ i < next' := fun i hi =>
    ha' _ (by rw [Ty.ids_ren]; exact List.mem_map_of_mem hi)
  have hle := le_max_left next next'
  have hle' := le_max_right next next'
  obtain ⟨R, hbase, hshift, hR⟩ := exists_renaming_extend (N := max next next')
    (s := a.ids ++ b.ids) (f := ρ)
    (fun i hi => by
      rcases List.mem_append.mp hi with hi | hi
      · exact lt_of_lt_of_le (ha i hi) hle
      · exact lt_of_lt_of_le (hb i hi) hle)
    (fun i hi => by
      rcases List.mem_append.mp hi with hi | hi
      · exact lt_of_lt_of_le (hρ i hi) hle'
      · rw [hfix i hi]
        exact lt_of_lt_of_le (hb i hi) hle)
    hinj
  have hRa : a.ren R.map = a.ren ρ :=
    Ty.ren_congr fun i hi => hR i (List.mem_append_left _ hi)
  have hRb : b.ren R.map = b := by
    have hid : ∀ i ∈ b.ids, R.map i = Renaming.id.map i := fun i hi =>
      (hR i (List.mem_append_right _ hi)).trans (hfix i hi)
    rw [Ty.ren_congr hid, ren_id]
  have key : ∀ s t : Ty, subtype fuel (max next next') (s.ren R.map) (t.ren R.map) =
      subtype fuel (max next next') s t := fun s t => by
    simpa [hshift] using subtype_ren R fuel (le_of_eq hbase) s t
  constructor
  · rw [← subtype_next fuel hle' ha' hb', ← subtype_next fuel hle ha hb, ← key a b, hRa, hRb]
  · rw [← subtype_next fuel hle' hb' ha', ← subtype_next fuel hle hb ha, ← key b a, hRa, hRb]

/-! ### Alpha-equivalent copies -/

/-- Objects of one heap: an address holds one object. -/
def Coherent (os : List Ty) : Prop :=
  ∀ o ∈ os, ∀ o' ∈ os, o.address = o'.address → o = o'

instance (os : List Ty) : Decidable (Coherent os) := by
  unfold Coherent; infer_instance

/-- `a.ren ρ` is an alpha-equivalent copy of `a`, made in a heap that also holds
`b`: different objects stay different, every variable `a` binds is replaced,
replacements are objects that are in use in neither type, and an object that
mentions no variable is not copied. -/
structure AlphaCopy (ρ : Nat → Nat) (a b : Ty) : Prop where
  inj : ∀ i ∈ a.ids, ∀ j ∈ a.ids, ρ i = ρ j → i = j
  replaced : ∀ T ∈ a.boundVars, ∀ i ∈ T.address, ρ i ≠ i
  fresh : ∀ i ∈ a.ids, ρ i ≠ i → ρ i ∉ a.ids ∧ ρ i ∉ b.ids
  kept : ∀ o ∈ a.objects, (∀ p ∈ o.objects, p.isTypevar = false) →
    ∀ i ∈ o.address, ρ i = i

/-- An address the two types share is that of an object without variables: a
variable in it would be bound on both sides. -/
theorem AlphaCopy.shared {ρ : Nat → Nat} {a b : Ty} (hρ : AlphaCopy ρ a b)
    (ha : a.hasFreeTypevars = false) (hb : b.hasFreeTypevars = false)
    (hcoh : Coherent (a.objects ++ b.objects)) (hdisj : ∀ T ∈ a.boundVars, T ∉ b.boundVars)
    {i : Nat} (hia : i ∈ a.ids) (hib : i ∈ b.ids) : ρ i = i := by
  obtain ⟨o, ho, hoi⟩ := Ty.mem_ids.mp hia
  obtain ⟨o', ho', hoi'⟩ := Ty.mem_ids.mp hib
  have heq : o = o' := hcoh o (List.mem_append_left _ ho) o' (List.mem_append_right _ ho')
    (hoi.trans hoi'.symm)
  subst heq
  refine hρ.kept o ho (fun p hp => ?_) i hoi
  by_contra hv
  have hv' : p.isTypevar = true := by simpa using hv
  exact hdisj p (Ty.typevar_mem_boundVars ha (Ty.objects_trans ho hp) hv')
    (Ty.typevar_mem_boundVars hb (Ty.objects_trans ho' hp) hv')

/-- **A copy is not seen by the other side.**  For closed types that bind no
common variable, replacing the left type by an alpha-equivalent copy changes no
answer, on either side of a query and at any bound on the recursion. -/
theorem subtype_alpha {ρ : Nat → Nat} {a b : Ty} {next next' : Nat}
    (ha : a.hasFreeTypevars = false) (hb : b.hasFreeTypevars = false)
    (hcoh : Coherent (a.objects ++ b.objects)) (hdisj : ∀ T ∈ a.boundVars, T ∉ b.boundVars)
    (hρ : AlphaCopy ρ a b)
    (hn : ∀ i ∈ a.ids ++ b.ids, i < next) (hn' : ∀ i ∈ (a.ren ρ).ids ++ b.ids, i < next')
    (fuel : Nat) :
    subtype fuel next' (a.ren ρ) b = subtype fuel next a b ∧
      subtype fuel next' b (a.ren ρ) = subtype fuel next b a := by
  -- `ρ` need not fix the addresses that only `b` uses; this map does
  let σ : Nat → Nat := fun i => if i ∈ a.ids then ρ i else i
  have hσ : a.ren ρ = a.ren σ := Ty.ren_congr fun i hi => (if_pos hi).symm
  have hfix : ∀ i ∈ b.ids, σ i = i := by
    intro i hi
    by_cases hia : i ∈ a.ids
    · simpa [σ, hia] using hρ.shared ha hb hcoh hdisj hia hi
    · simp [σ, hia]
  have hcross : ∀ i ∈ a.ids, ∀ j ∈ b.ids, σ i = σ j → i = j := by
    intro i hi j hj hij
    rw [hfix j hj] at hij
    simp only [σ, hi, if_true] at hij
    by_contra hne
    exact (hρ.fresh i hi fun h => hne (h.symm.trans hij)).2 (hij ▸ hj)
  have hinj : ∀ i ∈ a.ids ++ b.ids, ∀ j ∈ a.ids ++ b.ids, σ i = σ j → i = j := by
    intro i hi j hj hij
    rcases List.mem_append.mp hi with hia | hib <;> rcases List.mem_append.mp hj with hja | hjb
    · exact hρ.inj i hia j hja (by simpa [σ, hia, hja] using hij)
    · exact hcross i hia j hjb hij
    · exact (hcross j hja i hib hij.symm).symm
    · rwa [hfix i hib, hfix j hjb] at hij
  rw [hσ] at hn' ⊢
  exact subtype_move hfix hinj (fun i hi => hn i (List.mem_append_left _ hi))
    (fun i hi => hn i (List.mem_append_right _ hi))
    (fun i hi => hn' i (List.mem_append_left _ hi))
    (fun i hi => hn' i (List.mem_append_right _ hi)) fuel

/-! ### A shared variable is seen -/

section SharedVariable

/-- The free variable object at address `i`. -/
def freshVar (i : Nat) (name : String) : Ty :=
  .tvar i name .bottom .any

/-- `Pair{T, S} where {T, S}`, with `T` at `t`, `S` at `s` and the two `UnionAll`
objects at `i` and `j`. -/
def anyPair (i j t s : Nat) : Ty :=
  .unionall i t "T" .bottom .any <| .unionall j s "S" .bottom .any <|
    .app .pair [freshVar t "T", freshVar s "S"]

/-- `Pair{T, T} where T`. -/
def samePair (i t : Nat) : Ty :=
  .unionall i t "T" .bottom .any <| .app .pair [freshVar t "T", freshVar t "T"]

/-- Replace the objects at addresses `0` to `3` by new ones from `n` on. -/
def moveFirst (n i : Nat) : Nat :=
  if i < 4 then i + n else i

theorem alphaCopy_iff {ρ : Nat → Nat} {a b : Ty} :
    AlphaCopy ρ a b ↔
      (∀ i ∈ a.ids, ∀ j ∈ a.ids, ρ i = ρ j → i = j) ∧
      (∀ T ∈ a.boundVars, ∀ i ∈ T.address, ρ i ≠ i) ∧
      (∀ i ∈ a.ids, ρ i ≠ i → ρ i ∉ a.ids ∧ ρ i ∉ b.ids) ∧
      (∀ o ∈ a.objects, (∀ p ∈ o.objects, p.isTypevar = false) → ∀ i ∈ o.address, ρ i = i) :=
  ⟨fun h => ⟨h.1, h.2, h.3, h.4⟩, fun h => ⟨h.1, h.2.1, h.2.2.1, h.2.2.2⟩⟩

instance (ρ : Nat → Nat) (a b : Ty) : Decidable (AlphaCopy ρ a b) :=
  decidable_of_iff' _ alphaCopy_iff

/-- With `T` bound by both sides the binding of one answers for the other:
`Pair{T, S} where {T, S}` is accepted below `Pair{T, T} where T`, and a copy of
it is not. -/
theorem subtype_shared_var :
    (anyPair 2 3 0 1).hasFreeTypevars = false ∧ (samePair 4 0).hasFreeTypevars = false ∧
      Coherent ((anyPair 2 3 0 1).objects ++ (samePair 4 0).objects) ∧
      AlphaCopy (moveFirst 5) (anyPair 2 3 0 1) (samePair 4 0) ∧
      subtype 8 5 (anyPair 2 3 0 1) (samePair 4 0) = some true ∧
      subtype 8 9 ((anyPair 2 3 0 1).ren (moveFirst 5)) (samePair 4 0) = some false := by
  have hcopy : (anyPair 2 3 0 1).ren (moveFirst 5) = anyPair 7 8 5 6 := by decide +kernel
  rw [hcopy]
  decide +kernel

/-- Two distinct variables: the copy of `Pair{T, S} where {T, S}` compares to
`Pair{R, R} where R` as the original does. -/
theorem subtype_alpha_anyPair :
    subtype 8 10 ((anyPair 2 3 0 1).ren (moveFirst 6)) (samePair 4 5) =
        subtype 8 6 (anyPair 2 3 0 1) (samePair 4 5) ∧
      subtype 8 10 (samePair 4 5) ((anyPair 2 3 0 1).ren (moveFirst 6)) =
        subtype 8 6 (samePair 4 5) (anyPair 2 3 0 1) :=
  subtype_alpha (by decide +kernel) (by decide +kernel) (by decide +kernel) (by decide +kernel)
    (by decide +kernel) (by decide +kernel) (by decide +kernel) 8

end SharedVariable

end Ruju
