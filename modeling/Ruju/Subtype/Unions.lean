import Ruju.Subtype.Expansion
import Ruju.Library.Maximal

/-!
# Normalized unions

`union_of` keeps the maximal ones of the members it is given, and `Ruju.Library.Maximal`
says what that gives for any relation.  Here the relation is the answer of a ground query
(`isSub`).

The result is always in normal form, it is below everything that is above all parts, and
normalizing its members again changes nothing.  That the parts are below the result takes
more: a part may be dropped for another one that is dropped in turn, and the answers of
the subtype algorithm are not transitive (`unionOf_drops`).
-/

namespace Ruju

/-! ### Comparisons one after the other -/

/-- The comparisons of `a` with `b`, of `b` with `c` and of `a` with `c` fit together: when the
first two do not descend, the third one is the first of them that is not a tie. -/
def Chained (ab bc ac : Ordering) : Prop := ab ≠ .gt → bc ≠ .gt → ac = ab.then bc

theorem Chained.ne_gt {ab bc ac : Ordering} (h : Chained ab bc ac) (hab : ab ≠ .gt)
    (hbc : bc ≠ .gt) : ac ≠ .gt := by
  rw [h hab hbc]
  cases ab with
  | lt => exact Ordering.noConfusion
  | eq => exact hbc
  | gt => exact absurd rfl hab

/-- Ties are broken by a second comparison. -/
theorem Chained.then {ab bc ac ab' bc' ac' : Ordering} (h : Chained ab bc ac)
    (h' : ab = .eq → bc = .eq → Chained ab' bc' ac') :
    Chained (ab.then ab') (bc.then bc') (ac.then ac') := by
  intro hab hbc
  cases ab with
  | gt => exact absurd rfl hab
  | lt =>
    cases bc with
    | gt => exact absurd rfl hbc
    | lt | eq =>
      rw [h Ordering.noConfusion Ordering.noConfusion]
      rfl
  | eq =>
    cases bc with
    | gt => exact absurd rfl hbc
    | lt =>
      rw [h Ordering.noConfusion Ordering.noConfusion]
      cases ab' with
      | gt => exact absurd rfl hab
      | lt | eq => rfl
    | eq =>
      rw [h Ordering.noConfusion Ordering.noConfusion]
      exact h' rfl rfl hab hbc

theorem chained_compare {α : Type} [Ord α] [Std.TransOrd α] (a b c : α) :
    Chained (compare a b) (compare b c) (compare a c) := by
  intro hab hbc
  cases h₁ : compare a b with
  | gt => exact absurd h₁ hab
  | eq => exact Std.TransCmp.congr_left h₁
  | lt =>
    cases h₂ : compare b c with
    | gt => exact absurd h₂ hbc
    | lt => exact Std.TransCmp.lt_trans h₁ h₂
    | eq => exact Std.TransCmp.lt_of_lt_of_eq h₁ h₂

/-! ### The order of members -/

namespace Ty

theorem nameCmps_swap {ps : List Ty} (h : ∀ p ∈ ps, ∀ u, nameCmp u p = (nameCmp p u).swap)
    (qs : List Ty) : nameCmps qs ps = (nameCmps ps qs).swap := by
  induction ps generalizing qs with
  | nil => cases qs <;> rfl
  | cons p ps ih =>
    cases qs with
    | nil => rfl
    | cons q qs =>
      rw [nameCmps, nameCmps, Ordering.swap_then, h p List.mem_cons_self,
        ih fun p hp => h p (List.mem_cons_of_mem _ hp)]

theorem nameCmp_datatypes {t u : Ty} (ht : t.isDatatype) (hu : u.isDatatype) :
    nameCmp t u = (compare t.typeSym u.typeSym).then
      ((compare (t.parameters.getD []).length (u.parameters.getD []).length).then
        (nameCmps (t.parameters.getD []) (u.parameters.getD []))) := by
  cases t with
  | nominal n =>
    simp only [nameCmp, hu, Bool.not_true, Bool.false_eq_true, if_false]
    simp [parameters, nameCmps, typeSym, nameOf, TypeName.sym]
  | app c ps =>
    simp only [nameCmp, hu, Bool.not_true, Bool.false_eq_true, if_false]
    rfl
  | _ => cases ht

theorem nameCmp_of_not_datatypes {t u : Ty} (h : (t.isDatatype && u.isDatatype) = false) :
    nameCmp t u = compare u.isDatatype t.isDatatype := by
  cases t <;> cases u <;> first | rfl | cases h

theorem nameCmp_swap (t u : Ty) : nameCmp u t = (nameCmp t u).swap := by
  have step : ∀ t u : Ty,
      (∀ p ∈ t.parameters.getD [], ∀ u, nameCmp u p = (nameCmp p u).swap) →
      nameCmp u t = (nameCmp t u).swap := by
    intro t u ih
    cases h : t.isDatatype && u.isDatatype with
    | false =>
      rw [nameCmp_of_not_datatypes h, nameCmp_of_not_datatypes (by rwa [Bool.and_comm])]
      exact Std.OrientedCmp.eq_swap
    | true =>
      obtain ⟨ht, hu⟩ := Bool.and_eq_true_iff.mp h
      rw [nameCmp_datatypes hu ht, nameCmp_datatypes ht hu, nameCmps_swap ih,
        Ordering.swap_then, Ordering.swap_then]
      congr 1
      · exact Std.OrientedCmp.eq_swap
      · congr 1
        exact Std.OrientedCmp.eq_swap
  induction t generalizing u with
  | app c ps ih => exact step _ u ih
  | _ => exact step _ u (by simp [parameters])

/-- `type_cmp` answers the swapped question with the swapped order. -/
theorem typeCmp_swap (t u : Ty) : typeCmp u t = (typeCmp t u).swap := by
  have hbool : ∀ a b : Bool, compare a b = (compare b a).swap := fun _ _ => Std.OrientedCmp.eq_swap
  have hn := nameCmp_swap t u
  have hn' := nameCmp_swap t.unwrapUnionall u.unwrapUnionall
  unfold typeCmp
  by_cases h₁ : t.isDatatype = u.isDatatype
  · by_cases h₂ : t.isDatatype = true
    · by_cases h₃ : t.isDatatypeSingleton = u.isDatatypeSingleton
      · by_cases h₄ : t.isBits = u.isBits
        · simp [h₁.symm, h₂, h₃.symm, h₄.symm, hn]
        · cases h₅ : t.isDatatypeSingleton
          · simp only [h₁.symm, h₂, h₃.symm, h₅, ne_eq, not_true_eq_false, if_false, Bool.not_true,
              Bool.false_eq_true, Bool.not_false, Bool.true_and, decide_eq_true_eq]
            rw [if_pos (Ne.symm h₄), if_pos h₄]
            exact hbool _ _
          · simp [h₁.symm, h₂, h₃.symm, h₅, hn]
      · simp only [h₁.symm, h₂, ne_eq, not_true_eq_false, if_false, Bool.not_true,
          Bool.false_eq_true]
        rw [if_pos (Ne.symm h₃), if_pos h₃]
        exact hbool _ _
    · simp [h₁.symm, h₂, hn']
  · rw [if_pos (Ne.symm h₁), if_pos h₁]
    exact hbool _ _

/-- Of two members one may stand before the other. -/
theorem typeCmp_total (t u : Ty) : typeCmp t u ≠ .gt ∨ typeCmp u t ≠ .gt := by
  rw [typeCmp_swap t u]
  cases typeCmp t u <;> simp

theorem chained_nameCmps {ps : List Ty}
    (h : ∀ p ∈ ps, ∀ u v, Chained (nameCmp p u) (nameCmp u v) (nameCmp p v)) (qs rs : List Ty)
    (hpq : ps.length = qs.length) (hqr : qs.length = rs.length) :
    Chained (nameCmps ps qs) (nameCmps qs rs) (nameCmps ps rs) := by
  induction ps generalizing qs rs with
  | nil =>
    obtain rfl := List.length_eq_zero_iff.mp hpq.symm
    exact fun _ _ => rfl
  | cons p ps ih =>
    cases qs with
    | nil => cases hpq
    | cons q qs =>
      cases rs with
      | nil => cases hqr
      | cons r rs =>
        rw [nameCmps, nameCmps, nameCmps]
        exact (h p List.mem_cons_self q r).then fun _ _ =>
          ih (fun p hp => h p (List.mem_cons_of_mem _ hp)) qs rs (Nat.succ.inj hpq)
            (Nat.succ.inj hqr)

theorem chained_nameCmp (t u v : Ty) : Chained (nameCmp t u) (nameCmp u v) (nameCmp t v) := by
  have step : ∀ t u v : Ty,
      (∀ p ∈ t.parameters.getD [], ∀ u v, Chained (nameCmp p u) (nameCmp u v) (nameCmp p v)) →
      Chained (nameCmp t u) (nameCmp u v) (nameCmp t v) := by
    intro t u v ih
    cases hall : t.isDatatype && u.isDatatype && v.isDatatype with
    | true =>
      rw [Bool.and_eq_true, Bool.and_eq_true] at hall
      obtain ⟨⟨ht, hu⟩, hv⟩ := hall
      rw [nameCmp_datatypes ht hu, nameCmp_datatypes hu hv, nameCmp_datatypes ht hv]
      refine (chained_compare _ _ _).then fun _ _ => (chained_compare _ _ _).then fun hp hq => ?_
      exact chained_nameCmps ih _ _ (Std.LawfulEqCmp.compare_eq_iff_eq.mp hp)
        (Std.LawfulEqCmp.compare_eq_iff_eq.mp hq)
    | false =>
      -- one of the three is no `DataType`: the answers depend on nothing else
      have hgt : compare true false = .gt := rfl
      have hlt : compare false true = .lt := rfl
      intro htu huv
      cases ht : t.isDatatype <;> cases hu : u.isDatatype <;> cases hv : v.isDatatype <;>
        simp_all [nameCmp_of_not_datatypes]
      cases h : nameCmp t u <;> simp_all
  induction t generalizing u v with
  | app c ps ih => exact step _ u v ih
  | _ => exact step _ u v (by simp [parameters])

/-- The group in which `type_cmp` sorts a type. -/
def sortRank (t : Ty) : Nat :=
  if !t.isDatatype then 3
  else if t.isDatatypeSingleton then 0
  else if t.isBits then 1
  else 2

/-- `type_cmp` compares groups first, and then by name. -/
theorem typeCmp_eq (t u : Ty) : typeCmp t u = (compare t.sortRank u.sortRank).then
    (if t.isDatatype then nameCmp t u else nameCmp t.unwrapUnionall u.unwrapUnionall) := by
  unfold typeCmp sortRank
  cases ht : t.isDatatype <;> cases hu : u.isDatatype <;>
    cases t.isDatatypeSingleton <;> cases u.isDatatypeSingleton <;>
    cases t.isBits <;> cases u.isBits <;> rfl

theorem isDatatype_of_sortRank {t u : Ty} (h : t.sortRank = u.sortRank) :
    t.isDatatype = u.isDatatype := by
  unfold sortRank at h
  cases ht : t.isDatatype <;> cases hu : u.isDatatype <;> simp only [ht, hu] at h ⊢ <;>
    split_ifs at h <;> simp_all

/-- `type_cmp` is transitive, ties included. -/
theorem chained_typeCmp (t u v : Ty) : Chained (typeCmp t u) (typeCmp u v) (typeCmp t v) := by
  rw [typeCmp_eq, typeCmp_eq, typeCmp_eq]
  refine (chained_compare _ _ _).then fun htu _ => ?_
  rw [← isDatatype_of_sortRank (Std.LawfulEqCmp.compare_eq_iff_eq.mp htu)]
  split
  · exact chained_nameCmp t u v
  · exact chained_nameCmp _ _ _

/-- **The order of union members is a total preorder.** -/
theorem typeCmp_preorder :
    (∀ t, typeCmp t t = .eq) ∧ (∀ t u, typeCmp t u = (typeCmp u t).swap) ∧
      ∀ t u v, typeCmp t u ≠ .gt → typeCmp u v ≠ .gt → typeCmp t v ≠ .gt := by
  refine ⟨fun t => ?_, fun t u => typeCmp_swap u t, fun t u v => (chained_typeCmp t u v).ne_gt⟩
  have hswap := typeCmp_swap t t
  cases h : typeCmp t t with
  | eq => rfl
  | lt =>
    rw [h] at hswap
    cases hswap
  | gt =>
    rw [h] at hswap
    cases hswap

/-- `Int64`, a bits type, sorts before `Any`, and `Any` before `Number`, by name. -/
theorem typeCmp_preorder_number : typeCmp (.builtin .int64) (.builtin .number) ≠ .gt :=
  typeCmp_preorder.2.2 (.builtin .int64) (.builtin .any) (.builtin .number) (by decide) (by decide)

theorem flattenUnion_eq_arms (t : Ty) : t.flattenUnion = t.arms := by
  induction t with
  | union i a b iha ihb => rw [flattenUnion, arms, iha, ihb]
  | _ => rfl

theorem exists_mem_arms (t : Ty) : ∃ a, a ∈ t.arms := by
  induction t with
  | union i a b iha _ =>
    obtain ⟨c, hc⟩ := iha
    exact ⟨c, List.mem_append_left _ hc⟩
  | _ => exact ⟨_, List.mem_singleton_self _⟩

/-- The members of a normalized union; `Union{}` has none. -/
def members (t : Ty) : List Ty := if t = bottom then [] else t.arms

theorem mem_members_of_arms {t a : Ty} (h : a ∈ t.arms) : a = bottom ∨ a ∈ t.members := by
  rw [members]
  split
  case isTrue ht =>
    subst ht
    exact Or.inl (List.mem_singleton.mp h)
  · exact Or.inr h

theorem mem_arms_of_members {t a : Ty} (h : a ∈ t.members) : a ∈ t.arms := by
  rw [members] at h
  split at h
  · cases h
  · exact h

theorem isGround_of_arms {t : Ty} (h : ∀ a ∈ t.arms, a.isGround) : t.isGround := by
  induction t with
  | union i a b iha ihb =>
    rw [isGround, Bool.and_eq_true]
    exact ⟨iha fun c hc => h c (List.mem_append_left _ hc),
      ihb fun c hc => h c (List.mem_append_right _ hc)⟩
  | _ => exact h _ (List.mem_singleton_self _)

end Ty

/-! ### Ground queries as a relation -/

/-- The answer of a ground query. -/
noncomputable def isSub (x y : Ty) : Bool := open Classical in decide (tree x y).Holds

theorem isSub_iff {x y : Ty} : isSub x y = true ↔ (tree x y).words.Covers := by
  classical
  rw [isSub, decide_eq_true_eq, DecisionTree.holds_iff_covers]

theorem subtypeReturns_iff_isSub {x y : Ty} (hx : x.isGround) (hy : y.isGround) {k : Nat} :
    SubtypeReturns k x y true ↔ isSub x y = true := by
  rw [subtypeReturns_iff hx hy, isSub_iff]

theorem isSub_refl (x : Ty) : isSub x x = true := isSub_iff.mpr (covers_refl x)

/-- A query asks for every arm of its left side. -/
theorem isSub_iff_arms {x y : Ty} (hx : x.isGround) (hy : y.isGround) :
    isSub x y = true ↔ ∀ a ∈ x.arms, isSub a y = true := by
  rw [isSub_iff, covers_iff_arms hx hy]
  refine forall₂_congr fun a ha => ?_
  rw [isSub_iff, covers_iff_arms (Ty.isGround_of_mem_arms hx ha) hy,
    Ty.arms_of_not_union (Ty.not_union_of_mem_arms ha)]
  simp

/-- More arms on the right accept more. -/
theorem isSub_mono {x y z : Ty} (hx : x.isGround) (hy : y.isGround) (hz : z.isGround)
    (hsub : y.arms ⊆ z.arms) (h : isSub x y = true) : isSub x z = true :=
  isSub_iff.mpr (covers_mono hx hy hz hsub (isSub_iff.mp h))

/-- A single arm on the right is enough for a type without covariant unions. -/
theorem isSub_iff_exists_arm {x y : Ty} (hx : x.isGround) (hy : y.isGround)
    (hux : x.isUnion = false) (hfree : x.covUnionFree) :
    isSub x y = true ↔ ∃ b ∈ y.arms, isSub x b = true := by
  constructor
  · intro h
    rw [isSub_iff, covers_iff_arms hx hy, Ty.arms_of_not_union hux] at h
    obtain ⟨w, hw⟩ := (h x List.mem_cons_self).nonempty
    rw [armReads_eq hux] at hw
    split at hw
    case isTrue hobv =>
      rw [Bool.and_eq_true, Ty.obviouslyArmOf_iff] at hobv
      obtain ⟨-, b, hb, hegal⟩ := hobv
      have hgb := Ty.isGround_of_mem_arms hy hb
      refine ⟨b, hb, isSub_iff.mpr (Language.covers_of_nil_mem ?_)⟩
      exact nil_mem_tree_of_egal hx b hgb (Ty.obviouslyEgal_symm hgb _ hegal)
    case isFalse =>
      obtain ⟨b, hb, hw⟩ := hw
      refine ⟨b, hb, ?_⟩
      by_cases hxb : x = b
      · rw [hxb]
        exact isSub_refl b
      · have htree : tree x b = armTree tree x b := by
          rw [tree_of_not_union hux (Ty.not_union_of_mem_arms hb), if_neg hxb]
        rw [isSub_iff, (silent_tree hfree).covers_iff]
        exact (silent_tree hfree).nil_mem ⟨w, by rwa [htree]⟩
  · rintro ⟨b, hb, h⟩
    refine isSub_mono hx (Ty.isGround_of_mem_arms hy hb) hy ?_ h
    rw [Ty.arms_of_not_union (Ty.not_union_of_mem_arms hb)]
    simpa using hb

theorem isSub_bottom {y : Ty} (hy : y.isGround) : isSub Ty.bottom y = true := by
  have harm : ∀ a, armTree tree Ty.bottom a = DecisionTree.ret true := by
    intro a
    unfold armTree
    split
    · rfl
    · rw [if_pos rfl]
  rw [isSub_iff, covers_iff_arms rfl hy]
  intro a ha
  obtain rfl : a = Ty.bottom := List.mem_singleton.mp ha
  refine Language.covers_of_nil_mem ?_
  rw [armReads_eq rfl]
  split
  · rfl
  · obtain ⟨b, hb⟩ := y.exists_mem_arms
    exact ⟨b, hb, by simp [harm]⟩

/-! ### Where the answers are transitive -/

namespace Builtin

theorem supers_trans {a b c : Builtin} (hab : b ∈ a.supers) (hbc : c ∈ b.supers) :
    c ∈ a.supers := by
  induction hn : a.supers.length generalizing a with
  | zero =>
    rw [List.length_eq_zero_iff.mp hn] at hab
    cases hab
  | succ n ih =>
    by_cases ha : a = any
    · subst ha
      obtain rfl : b = any := by simpa using hab
      exact hbc
    · have hlen := length_supers ha
      rw [supers_cons a ha] at hab ⊢
      rcases List.mem_cons.mp hab with rfl | hab
      · rwa [supers_cons b ha] at hbc
      · exact List.mem_cons_of_mem _ (ih hab (by omega))

end Builtin

theorem Nominal.supers_trans {n m k : Nominal} (hnm : m ∈ n.supers) (hmk : k ∈ m.supers) :
    k ∈ n.supers := by
  induction n with
  | builtin a =>
    obtain ⟨b, hb, rfl⟩ := List.mem_map.mp hnm
    obtain ⟨c, hc, rfl⟩ := List.mem_map.mp hmk
    exact List.mem_map_of_mem (Builtin.supers_trans hb hc)
  | struct i s p g ih =>
    rcases List.mem_cons.mp hnm with rfl | hnm
    · exact hmk
    · exact List.mem_cons_of_mem _ (ih hnm)

namespace Ty

/-- An expansion is plain and no larger. -/
theorem of_mem_expand {t : Ty} (ht : t.isPlain) :
    ∀ e ∈ t.expand, e.isPlain ∧ e.weight ≤ t.weight := by
  refine plain_induct (P := fun t => ∀ e ∈ t.expand, e.isPlain ∧ e.weight ≤ t.weight) ?_ ?_ ?_ ?_
    t ht
  · intro n hn e he
    obtain rfl := List.mem_singleton.mp he
    exact ⟨hn, le_rfl⟩
  · intro ps hps ih e he
    obtain ⟨es, hes, rfl⟩ := mem_expand_tuple.mp he
    have hall := mem_expandAll_iff.mp hes
    have hweights : weights es ≤ weights ps ∧ ∀ e ∈ es, e.isPlain := by
      clear he hes hps
      induction hall with
      | nil => exact ⟨le_rfl, by simp⟩
      | cons he _ ihrec =>
        obtain ⟨hw, hp⟩ := ihrec fun p hp => ih p (List.mem_cons_of_mem _ hp)
        obtain ⟨hp', hw'⟩ := ih _ List.mem_cons_self _ he
        exact ⟨by simp only [weights]; omega, by simpa using ⟨hp', hp⟩⟩
    exact ⟨isPlain_tuple.mpr hweights.2, by simp only [weight]; omega⟩
  · intro c ps hc htype hlen hps _ e he
    rw [expand_app hc] at he
    obtain rfl := List.mem_singleton.mp he
    refine ⟨?_, le_rfl⟩
    have hplain := arePlain_iff.mpr hps
    cases c <;> first | exact absurd rfl hc | exact absurd rfl htype | simp [isPlain, hlen, hplain]
  · intro i a b _ _ iha ihb e he
    rcases mem_expand_union.mp he with he | he
    · obtain ⟨hp, hw⟩ := iha e he
      exact ⟨hp, by simp only [weight]; omega⟩
    · obtain ⟨hp, hw⟩ := ihb e he
      exact ⟨hp, by simp only [weight]; omega⟩

end Ty

theorem eq_any_of_below {z : Ty} (h : Below Ty.any z) : z = Ty.any := by
  generalize hx : Ty.any = x at h
  cases h with
  | any => exact hx
  | bottom => cases hx
  | nominal h =>
    cases hx
    rw [List.mem_singleton.mp h]
  | tuple => cases hx
  | invariant => cases hx

theorem forall₂_trans {r : Ty → Ty → Prop} {xs ys zs : List Ty}
    (h : ∀ x ∈ xs, ∀ y ∈ ys, ∀ z ∈ zs, r x y → r y z → r x z) (hxy : List.Forall₂ r xs ys)
    (hyz : List.Forall₂ r ys zs) : List.Forall₂ r xs zs := by
  induction hxy generalizing zs with
  | nil => exact hyz
  | cons hr _ ih =>
    cases hyz with
    | cons hr' hyz =>
      exact .cons (h _ List.mem_cons_self _ List.mem_cons_self _ List.mem_cons_self hr hr')
        (ih (fun x hx y hy z hz => h x (List.mem_cons_of_mem _ hx) y (List.mem_cons_of_mem _ hy) z
          (List.mem_cons_of_mem _ hz)) hyz)

/-- The order on expansions is transitive.  The induction is on the size of the three
types together, because invariant parameters are compared in both directions. -/
theorem Below.trans {x y z : Ty} (hx : x.isPlain) (hy : y.isPlain) (hz : z.isPlain)
    (hxy : Below x y) (hyz : Below y z) : Below x z := by
  induction hw : x.weight + y.weight + z.weight using Nat.strong_induction_on
    generalizing x y z with
  | _ w ih =>
    subst hw
    have hsub : ∀ {p q r : Ty}, p.isPlain → q.isPlain → r.isPlain →
        p.weight + q.weight + r.weight < x.weight + y.weight + z.weight →
        Sub p q → Sub q r → Sub p r := by
      intro p q r hp hq hr hlt hpq hqr e he
      obtain ⟨f, hf, hef⟩ := hpq e he
      obtain ⟨g, hg, hfg⟩ := hqr f hf
      obtain ⟨hep, hew⟩ := Ty.of_mem_expand hp e he
      obtain ⟨hfp, hfw⟩ := Ty.of_mem_expand hq f hf
      obtain ⟨hgp, hgw⟩ := Ty.of_mem_expand hr g hg
      exact ⟨g, hg, ih _ (by omega) hep hfp hgp hef hfg rfl⟩
    cases hxy with
    | any =>
      rw [eq_any_of_below hyz]
      exact .any _
    | bottom => exact .bottom _
    | @nominal n m h =>
      cases hyz with
      | any => exact .any _
      | bottom =>
        have hn : n = .builtin .bottom :=
          Nominal.eq_bottom_of_mem_supers (by simpa [Ty.isPlain] using hx) h
        rw [hn]
        exact .bottom _
      | nominal h' => exact .nominal (Nominal.supers_trans h h')
    | @tuple xs ys hlen h =>
      have hxy : List.Forall₂ Below xs ys :=
        List.forall₂_iff_zip.mpr ⟨hlen, fun hp => h _ hp⟩
      rcases below_tuple_iff.mp hyz with rfl | ⟨zs, rfl, hall⟩
      · exact .any _
      · refine below_tuple_iff.mpr (Or.inr ⟨zs, rfl, forall₂_trans ?_ hxy hall⟩)
        intro p hp q hq r hr
        have hwp := Ty.weight_lt_of_mem (c := .tuple) hp
        have hwq := Ty.weight_lt_of_mem (c := .tuple) hq
        have hwr := Ty.weight_lt_of_mem (c := .tuple) hr
        exact fun h h' => ih _ (by omega) (Ty.isPlain_tuple.mp hx p hp)
          (Ty.isPlain_tuple.mp hy q hq) (Ty.isPlain_tuple.mp hz r hr) h h' rfl
    | @invariant c ps qs hc hlen h h' =>
      have hxy : List.Forall₂ (fun p q => Sub p q ∧ Sub q p) ps qs :=
        List.forall₂_iff_zip.mpr ⟨hlen, fun hp =>
          ⟨fun e he => belowSome_iff.mp (h _ hp e he),
            fun e he => belowSome_iff.mp (h' _ hp e he)⟩⟩
      rcases (below_app_iff hc).mp hyz with rfl | ⟨rs, rfl, hlen', hqr⟩
      · exact .any _
      · have hyz : List.Forall₂ (fun p q => Sub p q ∧ Sub q p) qs rs :=
          List.forall₂_iff_zip.mpr ⟨hlen', fun hp => hqr _ hp⟩
        have hxz : List.Forall₂ (fun p q => Sub p q ∧ Sub q p) ps rs := by
          refine forall₂_trans (fun p hp q hq r hr hpq hqr => ?_) hxy hyz
          have hwp := Ty.weight_lt_of_mem (c := c) hp
          have hwq := Ty.weight_lt_of_mem (c := c) hq
          have hwr := Ty.weight_lt_of_mem (c := c) hr
          have hpp := (Ty.isPlain_app hc hx).2.2 p hp
          have hpq' := (Ty.isPlain_app hc hy).2.2 q hq
          have hpr' := (Ty.isPlain_app hc hz).2.2 r hr
          exact ⟨hsub hpp hpq' hpr' (by omega) hpq.1 hqr.1,
            hsub hpr' hpq' hpp (by omega) hqr.2 hpq.2⟩
        obtain ⟨hlen'', hpr⟩ := List.forall₂_iff_zip.mp hxz
        exact (below_app_iff hc).mpr (Or.inr ⟨rs, rfl, hlen'', fun p hp => hpr hp⟩)

theorem Sub.trans {x y z : Ty} (hx : x.isPlain) (hy : y.isPlain) (hz : z.isPlain)
    (hxy : Sub x y) (hyz : Sub y z) : Sub x z := by
  intro e he
  obtain ⟨f, hf, hef⟩ := hxy e he
  obtain ⟨g, hg, hfg⟩ := hyz f hf
  exact ⟨g, hg, Below.trans (Ty.of_mem_expand hx e he).1 (Ty.of_mem_expand hy f hf).1
    (Ty.of_mem_expand hz g hg).1 hef hfg⟩

/-! ### The normal form -/

section NormalForm

variable {le : Ty → Ty → Bool} {parts : List Ty}

/-- The components that are maximal for `le`, in the order of the union's members. -/
def normalForm (le : Ty → Ty → Bool) (parts : List Ty) : List Ty :=
  (maximal le (· = Ty.bottom) [] (parts.flatMap Ty.arms)).insertionSort
    fun s t => Ty.typeCmp s t ≠ .gt

theorem mem_normalForm {a : Ty} : a ∈ normalForm le parts ↔
    a ∈ maximal le (· = Ty.bottom) [] (parts.flatMap Ty.arms) :=
  (List.perm_insertionSort _ _).mem_iff

theorem mem_components_of_normalForm {a : Ty} (ha : a ∈ normalForm le parts) :
    a ∈ parts.flatMap Ty.arms ∧ a ≠ Ty.bottom := by
  rcases mem_of_mem_maximal (mem_normalForm.mp ha) with ha | ha
  · cases ha
  · simpa using ha

theorem not_union_of_components {a : Ty} (ha : a ∈ parts.flatMap Ty.arms) : a.isUnion = false := by
  obtain ⟨p, -, ha⟩ := List.mem_flatMap.mp ha
  exact Ty.not_union_of_mem_arms ha

theorem isGround_of_components (hparts : ∀ p ∈ parts, p.isGround) {a : Ty}
    (ha : a ∈ parts.flatMap Ty.arms) : a.isGround := by
  obtain ⟨p, hp, ha⟩ := List.mem_flatMap.mp ha
  exact Ty.isGround_of_mem_arms (hparts p hp) ha

/-- No member is below another. -/
theorem pairwise_normalForm (le : Ty → Ty → Bool) (parts : List Ty) :
    (normalForm le parts).Pairwise (Unrelated le) :=
  (List.perm_insertionSort _ _).symm.pairwise (pairwise_maximal .nil (by simp)) And.symm

theorem nodup_normalForm (hrefl : ∀ a ∈ parts.flatMap Ty.arms, le a a) :
    (normalForm le parts).Nodup :=
  nodup_of_unrelated (fun a ha => hrefl a (mem_components_of_normalForm ha).1)
    (pairwise_normalForm le parts)

theorem flatMap_arms_of_not_unions {l : List Ty} (h : ∀ a ∈ l, a.isUnion = false) :
    l.flatMap Ty.arms = l := by
  calc l.flatMap Ty.arms = l.flatMap fun a => [a] :=
        List.flatMap_congr fun a ha => Ty.arms_of_not_union (h a ha)
    _ = l := List.flatMap_singleton' l

/-- Normalizing once is enough. -/
theorem normalForm_idem (le : Ty → Ty → Bool) (parts : List Ty) :
    normalForm le (normalForm le parts) = normalForm le parts := by
  have hflat : (normalForm le parts).flatMap Ty.arms = normalForm le parts :=
    flatMap_arms_of_not_unions fun a ha =>
      not_union_of_components (mem_components_of_normalForm ha).1
  have hkeep : maximal le (· = Ty.bottom) [] (normalForm le parts) = normalForm le parts :=
    maximal_eq_append (fun a ha => by simpa using (mem_components_of_normalForm ha).2)
      (pairwise_normalForm le parts)
  conv_lhs => rw [normalForm, hflat, hkeep]
  exact insertionSort_of_isChain (isChain_insertionSort Ty.typeCmp_total _)

variable {t : Ty}

/-- The union of the normal form is below whatever is above all parts. -/
theorem isSub_of_parts (hparts : ∀ p ∈ parts, p.isGround) (ht : t.isGround)
    (hmem : t.members = normalForm le parts) {c : Ty} (hc : c.isGround)
    (h : ∀ p ∈ parts, isSub p c = true) : isSub t c = true := by
  rw [isSub_iff_arms ht hc]
  intro a ha
  rcases Ty.mem_members_of_arms ha with rfl | ha
  · exact isSub_bottom hc
  · rw [hmem] at ha
    obtain ⟨p, hp, hap⟩ := List.mem_flatMap.mp (mem_components_of_normalForm ha).1
    exact (isSub_iff_arms (hparts p hp) hc).mp (h p hp) a hap

/-- Every component but `Union{}` is below one that stays.  A component stays if it is not
below an earlier one that stays and not strictly below a later one; the others are dropped,
each for a single component that may be dropped in turn. -/
def KeepsAbove (parts : List Ty) : Prop :=
  ∀ a ∈ parts.flatMap Ty.arms, a ≠ Ty.bottom →
    ∃ m ∈ maximal isSub (· = Ty.bottom) [] (parts.flatMap Ty.arms), isSub a m = true

/-- The union of the normal form is above every part if all that is dropped is below
something that stays. -/
theorem isSub_part (hparts : ∀ p ∈ parts, p.isGround) (ht : t.isGround)
    (hmem : t.members = normalForm isSub parts) (habove : KeepsAbove parts) {p : Ty}
    (hp : p ∈ parts) : isSub p t = true := by
  rw [isSub_iff_arms (hparts p hp) ht]
  intro a ha
  have hcomp : a ∈ parts.flatMap Ty.arms := List.mem_flatMap.mpr ⟨p, hp, ha⟩
  by_cases hbot : a = Ty.bottom
  · rw [hbot]
    exact isSub_bottom ht
  · obtain ⟨m, hm, ham⟩ := habove a hcomp hbot
    rw [← mem_normalForm] at hm
    have hmc := (mem_components_of_normalForm hm).1
    refine isSub_mono (isGround_of_components hparts hcomp) (isGround_of_components hparts hmc) ht
      ?_ ham
    rw [Ty.arms_of_not_union (not_union_of_components hmc)]
    simpa using Ty.mem_arms_of_members (hmem ▸ hm)

/-- A component without unions in tuples that is below the union is below a single member. -/
theorem exists_stays_of_isSub (hparts : ∀ p ∈ parts, p.isGround) (ht : t.isGround)
    (hmem : t.members = normalForm isSub parts) {a : Ty} (ha : a ∈ parts.flatMap Ty.arms)
    (hfree : a.covUnionFree) (hne : a ≠ Ty.bottom) (h : isSub a t = true) :
    ∃ m ∈ maximal isSub (· = Ty.bottom) [] (parts.flatMap Ty.arms), isSub a m = true := by
  have hga := isGround_of_components hparts ha
  have hua := not_union_of_components ha
  obtain ⟨m, hm, ham⟩ := (isSub_iff_exists_arm hga ht hua hfree).mp h
  rcases Ty.mem_members_of_arms hm with rfl | hm
  · have hda : a.isDatatype := by
      cases a with
      | nominal | app => rfl
      | union => cases hua
      | _ => simp [Ty.isGround] at hga
    exact absurd (eq_bottom_of_nonempty hga hda (isSub_iff.mp ham).nonempty) hne
  · exact ⟨m, mem_normalForm.mp (hmem ▸ hm), ham⟩

end NormalForm

/-! ### One run -/

section Run

variable {issubtype : Ty → Ty → AllocM Bool} {low : Nat} {le : Ty → Ty → Bool}

/-- The queries between members of the list return with the answers of `le`, when the
allocation numbers below `low` are taken. -/
def Answers (issubtype : Ty → Ty → AllocM Bool) (low : Nat) (le : Ty → Ty → Bool)
    (cs : List Ty) : Prop :=
  ∀ a ∈ cs, ∀ b ∈ cs, ∀ next ≥ low, ∃ next' ≥ low, issubtype a b next = some (le a b, next')

theorem Answers.mono {cs ds : List Ty} (h : Answers issubtype low le cs) (hsub : ds ⊆ cs) :
    Answers issubtype low le ds :=
  fun a ha b hb => h a (hsub ha) b (hsub hb)

/-- One scan of `union_of` returns, and finds what is below. -/
theorem subsumed_run {c : Ty} {ds : List Ty} (h : Answers issubtype low le (c :: ds))
    (later : Bool) {next : Nat} (hn : low ≤ next) :
    ∃ next' ≥ low, subsumed issubtype later c ds next = some (isBelow le later c ds, next') := by
  induction ds generalizing next with
  | nil => exact ⟨next, hn, rfl⟩
  | cons d ds ih =>
    have hd : d ∈ c :: d :: ds := by simp
    have hrec := fun {m} => @ih (h.mono (by simp)) m
    obtain ⟨n₁, hn₁, h₁⟩ := h c List.mem_cons_self d hd next hn
    obtain ⟨n₂, hn₂, h₂⟩ := h d hd c List.mem_cons_self n₁ hn₁
    have hstep : isBelow le later c (d :: ds) =
        (le c d && !(le d c && later) || isBelow le later c ds) := rfl
    rw [subsumed, hstep]
    cases hcd : le c d with
    | false =>
      obtain ⟨n', hle, hn'⟩ := hrec hn₁
      exact ⟨n', hle, by simp [bind, StateT.bind, h₁, hcd, hn']⟩
    | true =>
      by_cases hback : le d c = true ∧ later = true
      · obtain ⟨hdc, rfl⟩ := hback
        obtain ⟨n', hle, hn'⟩ := hrec hn₂
        exact ⟨n', hle, by simp [bind, StateT.bind, h₁, h₂, hcd, hdc, hn']⟩
      · have hfalse : (le d c && later) = false := by simpa using hback
        refine ⟨n₂, hn₂, ?_⟩
        simp only [bind, StateT.bind, h₁, hcd, Option.bind_some, if_true, h₂, hfalse,
          Bool.false_eq_true, if_false]
        rfl

/-- The loop of `union_of` keeps the members that are maximal. -/
theorem survivors_run (kept cs : List Ty) (h : Answers issubtype low le (kept ++ cs))
    {next : Nat} (hn : low ≤ next) :
    ∃ next', survivors issubtype kept cs next =
      some (maximal le (· = Ty.bottom) kept cs, next') := by
  induction cs generalizing kept next with
  | nil => exact ⟨next, rfl⟩
  | cons c cs ih =>
    have hskip : Answers issubtype low le (kept ++ cs) :=
      h.mono (by intro a ha; simp at ha ⊢; tauto)
    have hkeep : Answers issubtype low le (kept ++ [c] ++ cs) := h.mono (by simp)
    have hkept : Answers issubtype low le (c :: kept) :=
      h.mono (by intro a ha; simp at ha ⊢; tauto)
    have hcs : Answers issubtype low le (c :: cs) := h.mono (by simp)
    rw [survivors, maximal]
    by_cases hc : c = Ty.bottom
    · simpa [hc] using ih _ hskip hn
    · obtain ⟨n₁, hn₁, h₁⟩ := subsumed_run hkept false hn
      obtain ⟨n₂, hn₂, h₂⟩ := subsumed_run hcs true hn₁
      cases hb₁ : isBelow le false c kept with
      | true =>
        obtain ⟨n', hn'⟩ := ih _ hskip hn₁
        exact ⟨n', by simp [bind, StateT.bind, hc, h₁, hb₁, hn']⟩
      | false =>
        cases hb₂ : isBelow le true c cs with
        | true =>
          obtain ⟨n', hn'⟩ := ih _ hskip hn₂
          exact ⟨n', by simp [bind, StateT.bind, hc, h₁, hb₁, h₂, hb₂, hn']⟩
        | false =>
          obtain ⟨n', hn'⟩ := ih _ hkeep hn₂
          exact ⟨n', by simp [bind, StateT.bind, hc, h₁, hb₁, h₂, hb₂, hn']⟩

/-- `build_union` returns the union of its members. -/
theorem buildUnion_run {l : List Ty} (hu : ∀ a ∈ l, a.isUnion = false)
    (hb : ∀ a ∈ l, a ≠ Ty.bottom) (next : Nat) :
    ∃ t next', buildUnion l next = some (t, next') ∧ t.members = l := by
  induction l generalizing next with
  | nil => exact ⟨Ty.bottom, next, rfl, rfl⟩
  | cons a l ih =>
    have hu' := hu a List.mem_cons_self
    have hb' := hb a List.mem_cons_self
    cases l with
    | nil => exact ⟨a, next, rfl, by rw [Ty.members, if_neg hb', Ty.arms_of_not_union hu']⟩
    | cons b l =>
      obtain ⟨t, n', hrun, hmem⟩ := ih (fun a ha => hu a (List.mem_cons_of_mem _ ha))
        (fun a ha => hb a (List.mem_cons_of_mem _ ha)) next
      have hne : t ≠ Ty.bottom := by
        rintro rfl
        cases hmem
      rw [Ty.members, if_neg hne] at hmem
      refine ⟨.union n' a t, n' + 1, ?_, ?_⟩
      · simp [buildUnion, bind, StateT.bind, hrun, fresh]
        rfl
      · rw [Ty.members, if_neg (by simp [Ty.bottom, Ty.builtin]), Ty.arms, hmem,
          Ty.arms_of_not_union hu', List.singleton_append]

/-- `union_of` returns the union of the normal form. -/
theorem unionOf_run {parts : List Ty} (hrefl : ∀ a ∈ parts.flatMap Ty.arms, le a a)
    (h : Answers issubtype low le (parts.flatMap Ty.arms)) {next : Nat} (hn : low ≤ next) :
    ∃ t next', unionOf issubtype parts next = some (t, next') ∧
      t.members = normalForm le parts := by
  have hmem : ∀ a ∈ normalForm le parts, a ∈ parts.flatMap Ty.arms ∧ a ≠ Ty.bottom :=
    fun a ha => mem_components_of_normalForm ha
  have hdistinct : (normalForm le parts).destutter (· ≠ ·) = normalForm le parts :=
    List.destutter_of_isChain _ _ (List.Pairwise.isChain (nodup_normalForm hrefl))
  have hflat : parts.flatMap Ty.flattenUnion = parts.flatMap Ty.arms :=
    List.flatMap_congr fun p _ => p.flattenUnion_eq_arms
  obtain ⟨n₁, h₁⟩ := survivors_run [] (parts.flatMap Ty.arms) h hn
  obtain ⟨t, n', hrun, hmembers⟩ := buildUnion_run
    (fun a ha => not_union_of_components (hmem a ha).1) (fun a ha => (hmem a ha).2) n₁
  refine ⟨t, n', ?_, hmembers⟩
  rw [unionOf, hflat]
  simp only [bind, StateT.bind, h₁, Option.bind_some]
  rw [← normalForm, hdistinct]
  exact hrun

/-- The union of ground parts is ground. -/
theorem isGround_of_members {t : Ty} {parts : List Ty} (hparts : ∀ p ∈ parts, p.isGround)
    (hmem : t.members = normalForm le parts) : t.isGround := by
  refine Ty.isGround_of_arms fun a ha => ?_
  rcases Ty.mem_members_of_arms ha with rfl | ha
  · rfl
  · rw [hmem] at ha
    exact isGround_of_components hparts (mem_components_of_normalForm ha).1

end Run

/-- With enough fuel the engine answers. -/
theorem exists_answers {cs : List Ty} (h : ∀ c ∈ cs, c.isGround) :
    ∃ N, ∀ fuel ≥ N, Answers (engine fuel).issubtype 0 isSub cs := by
  obtain ⟨N, hN⟩ := exists_runs (2 * Ty.weights cs + 1)
  refine ⟨N, fun fuel hfuel a ha b hb next _ => ?_⟩
  have hwa := Ty.weight_le_weights ha
  have hwb := Ty.weight_le_weights hb
  obtain ⟨next', hrun⟩ := (hN fuel hfuel).issubtype a b (h a ha) (h b hb) (by omega) next
  exact ⟨next', Nat.zero_le _, hrun⟩

/-! ### The least upper bound -/

theorem subtypeReturns_false_iff {x y : Ty} (hx : x.isGround) (hy : y.isGround) {k : Nat} :
    SubtypeReturns k x y false ↔ isSub x y = false := by
  obtain ⟨r, hr⟩ := subtypeReturns_total hx hy k
  have htrue := subtypeReturns_iff_isSub hx hy (k := k)
  constructor
  · intro h
    rw [← Bool.not_eq_true, ← htrue]
    intro h'
    cases h.unique h'
  · intro h
    cases r with
    | false => exact hr
    | true =>
      rw [htrue.mp hr] at h
      cases h

/-- A plain type without unions in tuples. -/
structure Ty.Steady (t : Ty) : Prop where
  plain : t.isPlain
  steady : t.isSteady

theorem Ty.Steady.ground {t : Ty} (h : t.Steady) : t.isGround := Ty.isGround_of_isPlain h.plain

/-- Queries of steady types are answered by the set-theoretic rule. -/
theorem Ty.Steady.subtype_iff {x y : Ty} (hx : x.Steady) (hy : y.Steady) {k : Nat} :
    SubtypeReturns k x y true ↔ Sub x y := by
  rw [subtypeReturns_iff hx.ground hy.ground]
  exact covers_iff_sub hx.plain hy.plain hx.steady hy.steady

/-- **Subtyping is transitive on steady types**, for the queries as they run; with unions in
tuples it is not. -/
theorem subtype_trans {x y z : Ty} (hx : x.Steady) (hy : y.Steady) (hz : z.Steady) {k : Nat}
    (hxy : SubtypeReturns k x y true) (hyz : SubtypeReturns k y z true) :
    SubtypeReturns k x z true := by
  rw [hx.subtype_iff hy] at hxy
  rw [hy.subtype_iff hz] at hyz
  exact (hx.subtype_iff hz).mpr (hxy.trans hx.plain hy.plain hz.plain hyz)

theorem subtype_trans_signed : SubtypeReturns 1 (.builtin .int8) (.builtin .signed) true :=
  subtype_trans (y := .union 0 (.builtin .int16) (.builtin .int8)) ⟨rfl, rfl⟩ ⟨rfl, rfl⟩ ⟨rfl, rfl⟩
    ⟨8, by decide +kernel⟩ ⟨8, by decide +kernel⟩

/-- `Int8`, `Box{Int8}`, `Union{}` and `Signed`. -/
def Ty.someParts : List Ty :=
  [.builtin .int8, .app .box [.builtin .int8], Ty.bottom, .builtin .signed]

/-- `Int8` is dropped for `Signed`, which stays. -/
theorem keepsAbove_someParts : KeepsAbove Ty.someParts := by
  have hsigned : isSub (.builtin .int8) (.builtin .signed) = true :=
    (subtypeReturns_iff_isSub (k := 0) rfl rfl).mp ⟨4, by decide +kernel⟩
  have hback : isSub (.builtin .signed) (.builtin .int8) = false :=
    (subtypeReturns_false_iff (k := 0) rfl rfl).mp ⟨4, by decide +kernel⟩
  have hbox : ∀ t : Ty, t = Ty.bottom ∨ t = .builtin .signed →
      isSub (.app .box [.builtin .int8]) t = false := by
    rintro t (rfl | rfl) <;>
      exact (subtypeReturns_false_iff (k := 0) rfl rfl).mp ⟨4, by decide +kernel⟩
  have hbox' : isSub (.builtin .signed) (.app .box [.builtin .int8]) = false :=
    (subtypeReturns_false_iff (k := 0) rfl rfl).mp ⟨4, by decide +kernel⟩
  have hstay : maximal isSub (· = Ty.bottom) [] (Ty.someParts.flatMap Ty.arms) =
      [.app .box [.builtin .int8], .builtin .signed] := by
    have hflat : Ty.someParts.flatMap Ty.arms = Ty.someParts := rfl
    rw [hflat]
    simp [Ty.someParts, maximal, isBelow, hsigned, hback, hbox, hbox', Ty.bottom, Ty.builtin]
  intro a ha hne
  rw [hstay]
  rcases List.mem_cons.mp ha with rfl | ha
  · exact ⟨_, by simp, hsigned⟩
  rcases List.mem_cons.mp ha with rfl | ha
  · exact ⟨_, by simp, isSub_refl _⟩
  rcases List.mem_cons.mp ha with rfl | ha
  · exact absurd rfl hne
  obtain rfl := List.mem_singleton.mp ha
  exact ⟨_, by simp, isSub_refl _⟩

/-- `Tuple{Int16 ∪ Int8, Int32 ∪ Int64}`. -/
def Ty.twoUnions : Ty :=
  .app .tuple [.union 0 (.builtin .int16) (.builtin .int8),
    .union 1 (.builtin .int32) (.builtin .int64)]

/-- `Tuple{Int8, Any} ∪ Tuple{Int16 ∪ Int8, Int32}`, without `Tuple{Int16, Int64}`. -/
def Ty.leavesOut : Ty :=
  .union 2 (.app .tuple [.builtin .int8, Ty.any])
    (.app .tuple [.union 0 (.builtin .int16) (.builtin .int8), .builtin .int32])

/-- `Tuple{Int16, Int32} ∪ Tuple{Int8, Any}`. -/
def Ty.leavesMoreOut : Ty :=
  .union 3 (.app .tuple [.builtin .int16, .builtin .int32]) (.app .tuple [.builtin .int8, Ty.any])

end Ruju
