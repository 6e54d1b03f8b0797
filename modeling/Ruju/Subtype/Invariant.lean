import Ruju.Subtype.Words
import Mathlib.Data.List.Zip

/-!
# Invariant parameters

`forall_exists_equal` decides equality of invariant parameters.  On ground types
it makes no left decision, so it answers yes or no; the question is whether it
answers as two queries would, one in each direction.

It never misses: types that are mutual subtypes are found equal
(`equal_of_mutual`).  And it is right about the forward direction.  The backward
direction is not always looked at: for two `DataType`s of one name that are not
tuples a single forward comparison is taken for both, on the ground that it
compares parameters pairwise.  `Type{T}` and the bare `Type` have one name and no
parameters to pair, and the forward comparison `Type{T} <: Type` succeeds.
`Slips` is the condition that such a pair is reached; without it the answer is
the conjunction of the two queries (`box_subtype_iff`).
-/

namespace Ruju

open DecisionTree (ret left right)

/-! ### Names and supertype chains -/

namespace Builtin

theorem length_supers {b : Builtin} (h : b ≠ any) :
    b.supers.length = b.super.supers.length + 1 := by
  rw [supers_cons b h, List.length_cons]

theorem length_lt_of_mem_supers {b c : Builtin} (h : c ∈ b.supers) :
    c = b ∨ c.supers.length < b.supers.length := by
  induction hn : b.supers.length generalizing b with
  | zero =>
    rw [List.length_eq_zero_iff.mp hn] at h
    cases h
  | succ n ih =>
    by_cases hb : b = any
    · subst hb
      exact Or.inl (by simpa using h)
    · rw [supers_cons b hb] at h
      have hlen := length_supers hb
      rcases List.mem_cons.mp h with rfl | h
      · exact Or.inl rfl
      · refine Or.inr ?_
        rcases ih h (by omega) with rfl | hlt
        · omega
        · omega

end Builtin

variable {n : Nominal}

namespace Nominal

theorem length_lt_of_mem_supers {m : Nominal} (h : m ∈ n.supers) :
    m = n ∨ m.supers.length < n.supers.length := by
  induction n with
  | builtin b =>
    obtain ⟨c, hc, rfl⟩ := List.mem_map.mp h
    rcases Builtin.length_lt_of_mem_supers hc with rfl | hlt
    · exact Or.inl rfl
    · exact Or.inr (by simpa [supers] using hlt)
  | struct i s p g ih =>
    rw [supers] at h ⊢
    rcases List.mem_cons.mp h with rfl | h
    · exact Or.inl rfl
    · refine Or.inr ?_
      rw [List.length_cons]
      rcases ih h with rfl | hlt <;> omega

/-- The supertype chains order the nominal types. -/
theorem supers_antisymm {m : Nominal} (h : m ∈ n.supers) (h' : n ∈ m.supers) : n = m := by
  rcases length_lt_of_mem_supers h with rfl | hlt
  · rfl
  · rcases length_lt_of_mem_supers h' with rfl | hlt'
    · rfl
    · omega

theorem eq_bottom_of_mem_supers (hn : n.isProper)
    (h : builtin .bottom ∈ n.supers) : n = builtin .bottom := by
  induction n with
  | builtin b =>
    obtain ⟨c, hc, hcb⟩ := List.mem_map.mp h
    cases hcb
    cases b <;> first | rfl | (exfalso; revert hc; decide)
  | struct i s p g ih =>
    simp only [isProper, Bool.and_eq_true, decide_eq_true_eq] at hn
    rw [supers] at h
    rcases List.mem_cons.mp h with h | h
    · cases h
    · exact absurd (ih hn.2 h) hn.1

end Nominal

theorem Ty.eq_any_of_nameOf {y : Ty} (h : y.nameOf = some (.nominal (.builtin .any))) :
    y = Ty.any := by
  cases y with
  | nominal n =>
    cases h
    rfl
  | app c ps => cases c <;> simp [Ty.nameOf] at h
  | _ => cases h

variable {x : Ty}

/-- What a `DataType` is found below has the name of a type on its chain. -/
theorem nameOf_of_datatypeTree {g : Ty → Ty → DecisionTree} {y : Ty}
    (h : (datatypeTree g x y).words.Nonempty) :
    x = y ∨ y = Ty.any ∨ ∃ xd ∈ x.supers, y.nameOf = xd.nameOf := by
  unfold datatypeTree at h
  split at h
  case isTrue htriv => simpa [or_assoc] using Or.inl htriv
  · split at h
    · obtain ⟨w, hw⟩ := h
      simp at hw
    case h_2 xd hxd =>
      refine Or.inr (Or.inr ⟨xd, ?_, Ty.nameOf_of_walkToName hxd⟩)
      unfold walkToName at hxd
      split at hxd
      · exact List.mem_of_find?_eq_some hxd
      · cases hxd

variable {ps : List Ty} {t : Ty}

section Names
variable {y : Ty} (huy : y.isUnion = false)
include huy

/-- What a nominal type is found below is on its supertype chain. -/
theorem nameOf_of_nominal (hn : n ≠ .builtin .bottom)
    (h : (tree (.nominal n) y).words.Nonempty) :
    y.typeParam = none ∧ ∃ m ∈ n.supers, y.nameOf = some (.nominal m) := by
  rw [tree_of_not_union rfl huy] at h
  have hbot : Ty.nominal n ≠ Ty.bottom := by simpa [Ty.bottom, Ty.builtin] using hn
  split at h
  case isTrue hxy =>
    subst hxy
    exact ⟨rfl, n, n.mem_supers_self, rfl⟩
  case isFalse hxy =>
    have htype : (Ty.nominal n).typeParam = none := rfl
    unfold armTree at h
    rw [if_neg hbot, htype] at h
    split at h
    case isTrue hany =>
      subst hany
      exact ⟨rfl, _, n.any_mem_supers, rfl⟩
    case isFalse hany =>
      cases hyt : y.typeParam with
      | some t =>
        obtain ⟨w, hw⟩ := h
        simp [hyt] at hw
      | none =>
        have h' : (datatypeTree tree (.nominal n) y).words.Nonempty := by
          simpa [hyt] using h
        rcases nameOf_of_datatypeTree h' with h' | h' | ⟨xd, hmem, hname⟩
        · exact absurd h' hxy
        · exact absurd h' hany
        · obtain ⟨m, hm, rfl⟩ := List.mem_map.mp hmem
          exact ⟨rfl, m, hm, hname⟩

/-- What an instantiation other than a `Type{T}` is found below is `Any` or an
instantiation of the same constructor. -/
theorem nameOf_of_app {c : Con} (hc : c ≠ .type)
    (h : (tree (.app c ps) y).words.Nonempty) : y = Ty.any ∨ y.nameOf = some (.con c) := by
  have hname : (Ty.app c ps).nameOf = some (.con c) := by
    cases c <;> first | rfl | exact absurd rfl hc
  have htype : (Ty.app c ps).typeParam = none := by
    cases c <;> first | rfl | exact absurd rfl hc
  have hsupers : (Ty.app c ps).supers = [.app c ps, Ty.any] := by
    cases c <;> first | rfl | exact absurd rfl hc
  rw [tree_of_not_union rfl huy] at h
  split at h
  case isTrue hxy =>
    subst hxy
    exact Or.inr hname
  case isFalse hxy =>
    unfold armTree at h
    split at h
    case isTrue hany => exact Or.inl hany
    case isFalse hany =>
      rw [if_neg (by simp [Ty.bottom, Ty.builtin]), htype] at h
      cases hyt : y.typeParam with
      | some t =>
        obtain ⟨w, hw⟩ := h
        simp [hyt] at hw
      | none =>
        have h' : (datatypeTree tree (.app c ps) y).words.Nonempty := by
          simpa [hyt] using h
        rcases nameOf_of_datatypeTree h' with h' | h' | ⟨xd, hmem, hyd⟩
        · exact absurd h' hxy
        · exact absurd h' hany
        · rw [hsupers] at hmem
          rcases List.mem_cons.mp hmem with rfl | hmem
          · exact Or.inr (hyd.trans hname)
          · rw [List.mem_singleton.mp hmem] at hyd
            exact Or.inl (Ty.eq_any_of_nameOf hyd)

/-- What a `Type{T}` is found below is a `Type{S}`, or on the supertype chain of
the kind of `T`. -/
theorem nameOf_of_type (ht : (Ty.app .type ps).typeParam = some t)
    (h : (tree (.app .type ps) y).words.Nonempty) :
    (∃ qs, y = .app .type qs) ∨ (tree t.typeOf y).words.Nonempty ∨ y = Ty.any := by
  rw [tree_of_not_union rfl huy] at h
  split at h
  case isTrue hxy => exact Or.inl ⟨ps, hxy.symm⟩
  case isFalse hxy =>
    unfold armTree at h
    split at h
    case isTrue hany => exact Or.inr (Or.inr hany)
    case isFalse hany =>
      rw [if_neg (by simp [Ty.bottom, Ty.builtin]), ht] at h
      cases hyt : y.typeParam with
      | some u =>
        obtain ⟨qs, hqs, -⟩ := Ty.mem_of_typeParam hyt
        exact Or.inl ⟨qs, hqs⟩
      | none =>
        rw [hyt] at h
        exact Or.inr (Or.inl h)

end Names

theorem typeParam_of_ground (h : (Ty.app .type ps).isGround) :
    ∃ t, (Ty.app .type ps).typeParam = some t := by
  have hlen := (Ty.groundParams_of_app (by simp) h).1
  cases ps with
  | nil => cases hlen
  | cons t ps => exact ⟨t, rfl⟩

theorem not_bottom_of_type (hg : (Ty.app .type ps).isGround)
    (h : (tree (.app .type ps) Ty.bottom).words.Nonempty) : False := by
  obtain ⟨t, ht⟩ := typeParam_of_ground hg
  obtain ⟨b, hb, hkind⟩ : ∃ b, t.typeOf = Ty.builtin b ∧ Builtin.bottom ∉ b.supers := by
    cases t <;> exact ⟨_, rfl, by decide⟩
  rcases nameOf_of_type rfl ht h with ⟨qs, hqs⟩ | h | h
  · cases hqs
  · rw [hb] at h
    have hne : Nominal.builtin b ≠ .builtin .bottom := by
      rintro ⟨⟩
      exact hkind (by decide)
    obtain ⟨-, m, hm, hname⟩ := nameOf_of_nominal rfl hne h
    cases hname
    obtain ⟨c, hc, hcb⟩ := List.mem_map.mp hm
    cases hcb
    exact hkind hc
  · cases h

/-- Only `Union{}` is below `Union{}`. -/
theorem eq_bottom_of_nonempty {y : Ty} (hy : y.isGround) (hyd : y.isDatatype)
    (h : (tree y Ty.bottom).words.Nonempty) : y = Ty.bottom := by
  cases y with
  | nominal m =>
    have hm : m.isProper := by simpa [Ty.isGround] using hy
    by_cases hmb : m = .builtin .bottom
    · rw [hmb, Ty.bottom, Ty.builtin]
    · obtain ⟨-, k, hk, hname⟩ := nameOf_of_nominal rfl hmb h
      cases hname
      exact absurd (Nominal.eq_bottom_of_mem_supers hm hk) hmb
  | app c qs =>
    exfalso
    by_cases hc : c = .type
    · subst hc
      exact not_bottom_of_type hy h
    · rcases nameOf_of_app rfl hc h with h | h <;> cases h
  | _ => cases hyd

/-- A nominal type and another `DataType` that are mutual subtypes have one
name. -/
theorem nameOf_eq_of_nominal {y : Ty} (hn : n.isProper) (hy : y.isGround)
    (hyd : y.isDatatype) (h : (tree (.nominal n) y).words.Nonempty)
    (h' : (tree y (.nominal n)).words.Nonempty) : (Ty.nominal n).nameOf = y.nameOf := by
  by_cases hnb : n = .builtin .bottom
  · subst hnb
    rw [eq_bottom_of_nonempty hy hyd h', Ty.bottom, Ty.builtin]
  · have huy : y.isUnion = false := by cases y <;> first | rfl | cases hyd
    obtain ⟨htype, k, hk, hname⟩ := nameOf_of_nominal huy hnb h
    cases y with
    | nominal m =>
      obtain rfl : m = k := by injection hname with hname; injection hname
      by_cases hmb : m = .builtin .bottom
      · subst hmb
        exact absurd (Nominal.eq_bottom_of_mem_supers hn hk) hnb
      · obtain ⟨-, j, hj, hname⟩ := nameOf_of_nominal rfl hmb h'
        cases hname
        rw [Nominal.supers_antisymm hk hj]
    | app c qs =>
      by_cases hc : c = .type
      · subst hc
        obtain ⟨t, ht⟩ := typeParam_of_ground hy
        rw [ht] at htype
        cases htype
      · cases c <;> first | exact absurd rfl hc | cases hname
    | _ => cases hyd

/-- **Mutual subtypes among `DataType`s have one name.** -/
theorem nameOf_eq_of_mutual {y : Ty} (hx : x.isGround) (hy : y.isGround) (hxd : x.isDatatype)
    (hyd : y.isDatatype) (h : (tree x y).words.Nonempty) (h' : (tree y x).words.Nonempty) :
    x.nameOf = y.nameOf := by
  cases x with
  | nominal n => exact nameOf_eq_of_nominal (by simpa [Ty.isGround] using hx) hy hyd h h'
  | app c ps =>
    cases y with
    | nominal m =>
      exact (nameOf_eq_of_nominal (by simpa [Ty.isGround] using hy) hx hxd h' h).symm
    | app d qs =>
      by_cases hc : c = .type
      · by_cases hd : d = .type
        · rw [hc, hd]
          rfl
        · rcases nameOf_of_app rfl hd h' with h' | h'
          · cases h'
          · rw [h']
            cases d <;> first | exact absurd rfl hd | rfl
      · rcases nameOf_of_app rfl hc h with h | h
        · cases h
        · rw [h]
          cases c <;> first | exact absurd rfl hc | rfl
    | _ => cases hyd
  | _ => cases hxd

/-! ### Tuples of indefinite length -/

theorem varargKind_of_ground (h : t.isGround) : t.varargKind = .none := by
  cases t <;> first | rfl | simp [Ty.isGround] at h

theorem unwrapUnionall_of_ground (h : t.isGround) : t.unwrapUnionall = t := by
  cases t <;> first | rfl | simp [Ty.isGround] at h

/-- A tuple of indefinite length is not below one of definite length. -/
theorem not_indefinite_below_definite {y : Ty} (hx : x.isGround) (hy : y.isGround)
    (hi : x.isIndefiniteLengthTuple) (hd : y.isDefiniteLengthTuple) :
    ¬ (tree x y).words.Nonempty := by
  rw [Ty.isIndefiniteLengthTuple, unwrapUnionall_of_ground hx] at hi
  rw [Ty.isDefiniteLengthTuple, Ty.isTypevar_of_ground hy] at hd
  simp only [Bool.false_eq_true, if_false, unwrapUnionall_of_ground hy] at hd
  obtain ⟨ps, rfl⟩ : ∃ ps, x = .app .tuple ps := by
    cases x with
    | app c ps => cases c <;> first | exact ⟨ps, rfl⟩ | cases hi
    | _ => cases hi
  obtain ⟨qs, rfl⟩ : ∃ qs, y = .app .tuple qs := by
    cases y with
    | app c qs => cases c <;> first | exact ⟨qs, rfl⟩ | cases hd
    | _ => cases hd
  rw [Ty.isGround] at hx hy
  simp only [Ty.hasFixedLength] at hi hd
  have hnone : Ty.elementPairs ps qs = none := by
    rcases Ty.groundElems_cases hx with ⟨hps, hgp⟩ | ⟨xs, i, s, rfl, hps, -⟩
    · cases hl : ps.getLast? with
      | none => simp [hl] at hi
      | some p => simp [hl, varargKind_of_ground (hgp p (List.mem_of_getLast? hl))] at hi
    · rcases Ty.groundElems_cases hy with ⟨hqs, -⟩ | ⟨ys, j, v, rfl, hqs, -⟩
      · simp [Ty.elementPairs, hps, hqs]
      · simp [Ty.varargKind] at hd
  have hne : ps ≠ qs := by
    rintro rfl
    cases hl : ps.getLast? with
    | none => simp [hl] at hi
    | some p =>
      simp only [hl, decide_eq_true_eq] at hi
      simp [hl, hi] at hd
  rintro ⟨w, hw⟩
  rw [tree_of_not_union rfl rfl, if_neg (by simpa using hne), armTree_tuple, if_neg hne,
    tupleTree, hnone] at hw
  simp at hw

/-! ### The equality procedure -/

/-- `forall_exists_equal` finds the ground types equal. -/
def Equal (x y : Ty) : Prop :=
  [] ∈ (equalTree tree x y).words

theorem covers_of_localAnswer {y : Ty} (hx : x.isGround) (hy : y.isGround)
    (h : localAnswer tree x y = true) : (tree x y).words.Covers := by
  classical
  rw [localAnswer, Bool.or_eq_true] at h
  rcases h with h | h
  · exact covers_of_obviouslyInUnion hx hy h
  · exact (DecisionTree.holds_iff_covers _).mp (of_decide_eq_true h)

/-- A local search finds what the fresh query finds. -/
theorem localAnswer_of_covers {y : Ty} (h : (tree x y).words.Covers) :
    localAnswer tree x y = true := by
  classical
  rw [localAnswer, decide_eq_true ((DecisionTree.holds_iff_covers _).mpr h), Bool.or_true]

/-- The ways to be found equal. -/
theorem equalWith_cases {y : Ty} {m : Option DecisionTree}
    (h : [] ∈ (equalWithTree tree m x y).words) :
    x.obviouslyEgal y ∨
      (x.isDatatype ∧ y.isDatatype ∧ x.isTuple = false ∧ x.nameOf = y.nameOf ∧
        [] ∈ (tree x y).words) ∨
      (∃ t, m = some t ∧ [] ∈ t.words) ∨
      (localAnswer tree x y = true ∧ localAnswer tree y x = true) := by
  unfold equalWithTree at h
  split at h
  case isTrue he => exact Or.inl he
  · split at h
    · simp at h
    · split at h
      · simp at h
      case isFalse hname =>
        split at h
        case isTrue hd =>
          simp only [Bool.and_eq_true, Bool.not_eq_true'] at hd
          refine Or.inr (Or.inl ⟨hd.1.1, hd.1.2, hd.2, ?_, h⟩)
          by_contra hne
          exact hname (by simp [hd.1.1, hd.1.2, hne])
        · cases m with
          | none => exact Or.inr (Or.inr (Or.inr (by simpa [bothWaysTree] using h)))
          | some t =>
            rcases DecisionTree.mem_words_right.mp h with h | h
            · exact Or.inr (Or.inr (Or.inl ⟨t, rfl, h⟩))
            · exact Or.inr (Or.inr (Or.inr (by simpa [bothWaysTree] using h)))

/-- `equalWith_cases` with the greedy path spelled out. -/
theorem equal_cases {y : Ty} (h : Equal x y) :
    x.obviouslyEgal y ∨
      (x.isDatatype ∧ y.isDatatype ∧ x.isTuple = false ∧ x.nameOf = y.nameOf ∧
        [] ∈ (tree x y).words) ∨
      (∃ i a b j c d, x = .union i a b ∧ y = .union j c d ∧ Equal a c ∧ Equal b d) ∨
      (localAnswer tree x y = true ∧ localAnswer tree y x = true) := by
  unfold Equal at h
  cases hu : x.isUnion && y.isUnion with
  | false =>
    rw [equalTree_of_not_unions hu] at h
    rcases equalWith_cases h with h | h | ⟨t, ht, -⟩ | h
    · exact Or.inl h
    · exact Or.inr (Or.inl h)
    · cases ht
    · exact Or.inr (Or.inr (Or.inr h))
  | true =>
    cases x with
    | union i a b =>
      cases y with
      | union j c d =>
        rw [equalTree_union] at h
        rcases equalWith_cases h with h | h | ⟨t, ht, hmem⟩ | h
        · exact Or.inl h
        · exact Or.inr (Or.inl h)
        · cases ht
          rw [DecisionTree.words_and] at hmem
          obtain ⟨v, hv, w, hw, hvw⟩ := hmem
          obtain ⟨rfl, rfl⟩ := List.append_eq_nil_iff.mp hvw
          exact Or.inr (Or.inr (Or.inl ⟨i, a, b, j, c, d, rfl, rfl, hv, hw⟩))
        · exact Or.inr (Or.inr (Or.inr h))
      | _ => cases hu
    | _ => cases hu

/-- **Forwards the procedure is right.** -/
theorem covers_of_equal {y : Ty} (hx : x.isGround) (hy : y.isGround) (h : Equal x y) :
    (tree x y).words.Covers := by
  induction x generalizing y with
  | union i a b iha ihb =>
    rcases equal_cases h with h | ⟨hd, -⟩ | ⟨i', a', b', j, c, d, hab, rfl, hac, hbd⟩ | ⟨h, -⟩
    · exact Language.covers_of_nil_mem (nil_mem_tree_of_egal hx y hy h)
    · cases hd
    · cases hab
      simp only [Ty.isGround, Bool.and_eq_true] at hx hy
      exact covers_union hx.1 hx.2 hy.1 hy.2 (iha hx.1 hy.1 hac) (ihb hx.2 hy.2 hbd)
    · exact covers_of_localAnswer hx hy h
  | _ =>
    rcases equal_cases h with h | ⟨-, -, -, -, h⟩ | ⟨i', a', b', j, c, d, hab, -⟩ | ⟨h, -⟩
    · exact Language.covers_of_nil_mem (nil_mem_tree_of_egal hx y hy h)
    · exact Language.covers_of_nil_mem h
    · cases hab
    · exact covers_of_localAnswer hx hy h

/-- **Mutual subtypes are found equal.** -/
theorem equal_of_mutual {y : Ty} (hx : x.isGround) (hy : y.isGround)
    (h : (tree x y).words.Covers) (h' : (tree y x).words.Covers) : Equal x y := by
  have hboth : [] ∈ (bothWaysTree tree x y).words := by
    simp [bothWaysTree, localAnswer_of_covers h, localAnswer_of_covers h']
  have hwith : ∀ m, [] ∈ (equalWithTree tree m x y).words := by
    intro m
    unfold equalWithTree
    split
    · simp
    · split
      case isTrue hlen =>
        simp only [Bool.or_eq_true, Bool.and_eq_true] at hlen
        rcases hlen with ⟨hi, hd⟩ | ⟨hd, hi⟩
        · exact absurd h.nonempty (not_indefinite_below_definite hx hy hi hd)
        · exact absurd h'.nonempty (not_indefinite_below_definite hy hx hi hd)
      · split
        case isTrue hname =>
          simp only [Bool.and_eq_true, decide_eq_true_eq] at hname
          exact absurd (nameOf_eq_of_mutual hx hy hname.1.1 hname.1.2 h.nonempty h'.nonempty)
            hname.2
        · split
          case isTrue hd =>
            simp only [Bool.and_eq_true, Bool.not_eq_true'] at hd
            exact (silent_tree (covUnionFree_of_not_tuple hd.1.1 hd.2)).nil_mem h.nonempty
          · cases m with
            | none => exact hboth
            | some t => exact Or.inr hboth
  unfold Equal
  cases hu : x.isUnion && y.isUnion with
  | false =>
    rw [equalTree_of_not_unions hu]
    exact hwith none
  | true =>
    cases x with
    | union i a b =>
      cases y with
      | union j c d =>
        rw [equalTree_union]
        exact hwith _
      | _ => cases hu
    | _ => cases hu

theorem covers_refl (x : Ty) : (tree x x).words.Covers := by
  refine Language.covers_of_nil_mem ?_
  rw [tree_eq]
  simp [treeStep]

variable {qs : List Ty}

theorem equal_of_mem_invariantTree (h : [] ∈ (invariantTree tree ps qs).words) :
    ∀ p ∈ ps.zip qs, p.1 = p.2 ∨ Equal p.1 p.2 := by
  induction ps generalizing qs with
  | nil => simp
  | cons p ps ih =>
    cases qs with
    | nil => simp
    | cons q qs =>
      rw [invariantTree] at h
      rw [List.zip_cons_cons, List.forall_mem_cons]
      split at h
      case isTrue hpq => exact ⟨Or.inl hpq, ih h⟩
      · rw [DecisionTree.words_and] at h
        obtain ⟨v, hv, w, hw, hvw⟩ := h
        obtain ⟨rfl, rfl⟩ := List.append_eq_nil_iff.mp hvw
        exact ⟨Or.inr hv, ih hw⟩

/-- Two instantiations of one invariant constructor: a query compares the
parameters pairwise. -/
theorem covers_invariant_iff {c : Con} (hc : c ≠ .tuple)
    (hp : (Ty.app c ps).isGround) (hq : (Ty.app c qs).isGround) :
    (tree (.app c ps) (.app c qs)).words.Covers ↔
      ∀ p ∈ ps.zip qs, p.1 = p.2 ∨ Equal p.1 p.2 := by
  have hlp := (Ty.groundParams_of_app hc hp).1
  have hlq := (Ty.groundParams_of_app hc hq).1
  have hsilent : (tree (.app c ps) (.app c qs)).Silent :=
    silent_tree (covUnionFree_app hc)
  rw [hsilent.covers_iff, tree_of_not_union rfl rfl, armTree_invariant _ hc hlp hlq]
  have hzip : ps = qs → ∀ p ∈ ps.zip qs, p.1 = p.2 ∨ Equal p.1 p.2 := by
    rintro rfl p hp
    have := List.of_mem_zip hp
    rw [List.zip_eq_zipWith, List.zipWith_self] at hp
    obtain ⟨a, -, rfl⟩ := List.mem_map.mp hp
    exact Or.inl rfl
  split
  case isTrue heq => simpa using hzip (by simpa using heq)
  · split
    case isTrue heq => simpa using hzip heq
    · exact ⟨equal_of_mem_invariantTree, nil_mem_invariantTree⟩

/-! ### The pair with one name and no parameters to compare -/

/-- `Box{t}`. -/
def Ty.box (t : Ty) : Ty := .app .box [t]

/-- `Type{t}`. -/
def Ty.typeType (t : Ty) : Ty := .app .type [t]

/-- The equality procedure accepts `x` and `y` because it comes to a `Type{T}`
against the bare `Type`.  It comes there along invariant parameters, if it accepts
all of them, and along the members of unions, if it accepts both and the member
of `y` at which it slips is not below `x` for another reason. -/
inductive Slips : Ty → Ty → Prop
  | type (t : Ty) : Slips t.typeType (.builtin .type)
  | params {c : Con} {ps qs : List Ty} {p q : Ty} (hc : c ≠ .tuple)
      (hall : ∀ r ∈ ps.zip qs, r.1 = r.2 ∨ Equal r.1 r.2) (hmem : (p, q) ∈ ps.zip qs)
      (hslip : Slips p q) : Slips (.app c ps) (.app c qs)
  | left {i j : Nat} {a b c d : Ty} (hslip : Slips a c) (hbd : Equal b d)
      (hnot : ¬ (tree c (.union i a b)).words.Covers) : Slips (.union i a b) (.union j c d)
  | right {i j : Nat} {a b c d : Ty} (hac : Equal a c) (hslip : Slips b d)
      (hnot : ¬ (tree d (.union i a b)).words.Covers) : Slips (.union i a b) (.union j c d)

/-- Of two `DataType`s of one name that are no tuples only the forward comparison
is made. -/
theorem equal_of_nameOf {y : Ty} (hx : x.isDatatype) (hy : y.isDatatype)
    (hxt : x.isTuple = false) (hyt : y.isTuple = false) (hname : x.nameOf = y.nameOf)
    (h : [] ∈ (tree x y).words) : Equal x y := by
  have hlen : ∀ z : Ty, z.isDatatype → z.isTuple = false →
      z.isIndefiniteLengthTuple = false ∧ z.isDefiniteLengthTuple = false := by
    intro z hz hzt
    cases z with
    | nominal n => exact ⟨rfl, rfl⟩
    | app c ps => cases c <;> first | exact ⟨rfl, rfl⟩ | cases hzt
    | _ => cases hz
  unfold Equal
  rw [equalTree_of_not_unions (by cases x <;> first | rfl | cases hx)]
  unfold equalWithTree
  split
  · simp
  · simpa [hx, hy, hxt, hname, hlen x hx hxt, hlen y hy hyt] using h

/-- Unions are compared member by member first. -/
theorem equal_union {i j : Nat} {a b c d : Ty} (hac : Equal a c) (hbd : Equal b d) :
    Equal (.union i a b) (.union j c d) := by
  unfold Equal
  rw [equalTree_union]
  unfold equalWithTree
  split
  · simp
  · refine DecisionTree.mem_words_right.mpr (Or.inl ?_)
    rw [DecisionTree.words_and]
    exact ⟨[], hac, [], hbd, rfl⟩

theorem mem_zip_swap {p : Ty × Ty} (h : p ∈ qs.zip ps) : p.swap ∈ ps.zip qs := by
  rw [← List.zip_swap ps qs, List.mem_map] at h
  obtain ⟨q, hq, rfl⟩ := h
  simpa using hq

/-- The forward comparison of a `Type{T}` with the bare `Type` succeeds, and is
taken for both directions. -/
theorem equal_typeType (h : t.typeType.isGround) :
    Equal t.typeType (.builtin .type) := by
  have ht : t.isGround := (Ty.groundParams_of_app (by simp) h).2 t (List.mem_singleton_self _)
  have hkind : ∀ b : Builtin, b = .datatype ∨ b = .union →
      [] ∈ (tree (.builtin b) (.builtin .type)).words := by
    rintro b (rfl | rfl)
    · exact nil_mem_tree_nominal (Or.inr (by decide))
    · exact nil_mem_tree_nominal (Or.inr (by decide))
  have hforward : [] ∈ (tree t.typeType (.builtin .type)).words := by
    have hof : [] ∈ (tree t.typeOf (.builtin .type)).words := by
      cases t with
      | nominal n => exact hkind _ (Or.inl rfl)
      | app c ps => exact hkind _ (Or.inl rfl)
      | union i a b => exact hkind _ (Or.inr rfl)
      | _ => simp [Ty.isGround] at ht
    rw [tree_of_not_union rfl rfl]
    simpa [Ty.typeType, Ty.builtin, armTree, Ty.any, Ty.bottom, Ty.typeParam] using hof
  exact equal_of_nameOf rfl rfl rfl rfl rfl hforward

/-- At a slip the answer is yes, and the backward query says no. -/
theorem Slips.equal_and_not_covers {y : Ty} (h : Slips x y) (hx : x.isGround)
    (hy : y.isGround) : Equal x y ∧ ¬ (tree y x).words.Covers := by
  induction h with
  | type t =>
    refine ⟨equal_typeType hx, fun hback => ?_⟩
    cases (nameOf_of_nominal (y := t.typeType) rfl (by simp) hback.nonempty).1
  | @params c ps qs p q hc hall hmem _ ih =>
    have hgp := (Ty.groundParams_of_app hc hx).2 p (List.of_mem_zip hmem).1
    have hgq := (Ty.groundParams_of_app hc hy).2 q (List.of_mem_zip hmem).2
    obtain ⟨-, hnot⟩ := ih hgp hgq
    have hforward := (covers_invariant_iff hc hx hy).mpr hall
    have hnil := (silent_tree (covUnionFree_app hc)).covers_iff.mp
      hforward
    refine ⟨equal_of_nameOf rfl rfl (Ty.isTuple_app hc) (Ty.isTuple_app hc)
        (by cases c <;> rfl) hnil,
      fun hback => ?_⟩
    rcases (covers_invariant_iff hc hy hx).mp hback _ (mem_zip_swap hmem) with heq | hequal
    · obtain rfl : q = p := heq
      exact hnot (covers_refl _)
    · exact hnot (covers_of_equal hgq hgp hequal)
  | left _ hbd hnot ih =>
    have hg := hx
    simp only [Ty.isGround, Bool.and_eq_true] at hg hy
    refine ⟨equal_union (ih hg.1 hy.1).1 hbd, fun hback => ?_⟩
    exact hnot ((covers_union_iff hy.1 hy.2 hx).mp hback).1
  | right hac _ hnot ih =>
    have hg := hx
    simp only [Ty.isGround, Bool.and_eq_true] at hg hy
    refine ⟨equal_union hac (ih hg.2 hy.2).1, fun hback => ?_⟩
    exact hnot ((covers_union_iff hy.1 hy.2 hx).mp hback).2

/-- **Backwards the procedure is right unless it slips.** -/
theorem covers_back_of_equal (hx : x.isGround) :
    ∀ y : Ty, y.isGround → Equal x y → ¬ Slips x y → (tree y x).words.Covers := by
  have hegal : ∀ {x y : Ty}, x.isGround → y.isGround → x.obviouslyEgal y →
      (tree y x).words.Covers := fun hx hy h =>
    Language.covers_of_nil_mem (nil_mem_tree_of_egal hy _ hx (Ty.obviouslyEgal_symm hx _ h))
  refine Ty.ground_induct (P := fun x => ∀ y : Ty, y.isGround → Equal x y → ¬ Slips x y →
    (tree y x).words.Covers) ?_ ?_ ?_ ?_ x hx
  · intro n hn y hy h _
    have hg : (Ty.nominal n).isGround := by simpa [Ty.isGround] using hn
    rcases equal_cases h with h | ⟨-, hd, -, hname, hnil⟩ | ⟨_, _, _, _, _, _, hu, -⟩ | ⟨-, h⟩
    · exact hegal hg hy h
    · cases y with
      | nominal m =>
        cases hname
        exact covers_refl _
      | app c qs =>
        -- the bare `Type` is not below a `Type{T}`
        by_cases hc : c = .type
        · subst hc
          obtain ⟨t, ht⟩ := typeParam_of_ground hy
          have hb : n ≠ .builtin .bottom := by
            rintro rfl
            cases hname
          rw [(nameOf_of_nominal rfl hb ⟨_, hnil⟩).1] at ht
          cases ht
        · cases c <;> first | exact absurd rfl hc | cases hname
      | _ => cases hd
    · cases hu
    · exact covers_of_localAnswer hy hg h
  · intro ps hg _ y hy h _
    have hgx : (Ty.app .tuple ps).isGround := by rw [Ty.isGround]; exact hg
    rcases equal_cases h with h | ⟨-, -, ht, -⟩ | ⟨_, _, _, _, _, _, hu, -⟩ | ⟨-, h⟩
    · exact hegal hgx hy h
    · cases ht
    · cases hu
    · exact covers_of_localAnswer hy hgx h
  · intro c ps hc hlen hgp ih y hy h hslip
    have hgx : (Ty.app c ps).isGround := by
      cases c <;> first
        | exact absurd rfl hc
        | simp [Ty.isGround, hlen, Ty.groundParams_iff.mpr hgp]
    rcases equal_cases h with h | ⟨-, hd, -, hname, hnil⟩ | ⟨_, _, _, _, _, _, hu, -⟩ | ⟨-, h⟩
    · exact hegal hgx hy h
    · cases y with
      | nominal m =>
        cases c <;> first | exact absurd rfl hc | cases hname
        obtain ⟨t, rfl⟩ : ∃ t, ps = [t] := List.length_eq_one_iff.mp hlen
        exact absurd (Slips.type t) hslip
      | app d qs =>
        have hcd : c = d := by
          cases c <;> cases d <;> first | rfl | cases hname
        subst hcd
        have hpairs := (covers_invariant_iff hc hgx hy).mp (Language.covers_of_nil_mem hnil)
        rw [covers_invariant_iff hc hy hgx]
        intro p hp
        have hp' := mem_zip_swap hp
        rcases hpairs _ hp' with heq | hequal
        · exact Or.inl heq.symm
        · have hmem := List.of_mem_zip hp'
          have hgq := (Ty.groundParams_of_app hc hy).2 _ hmem.2
          have hgp' := hgp _ hmem.1
          exact Or.inr (equal_of_mutual hgq hgp'
            (ih _ hmem.1 _ hgq hequal fun hs => hslip (.params hc hpairs hp' hs))
            (covers_of_equal hgp' hgq hequal))
      | _ => cases hd
    · cases hu
    · exact covers_of_localAnswer hy hgx h
  · intro i a b ha hb iha ihb y hy h hslip
    have hgx : (Ty.union i a b).isGround := by simp [Ty.isGround, ha, hb]
    rcases equal_cases h with h | ⟨hd, -⟩ | ⟨_, _, _, j, c, d, hab, rfl, hac, hbd⟩ | ⟨-, h⟩
    · exact hegal hgx hy h
    · cases hd
    · cases hab
      simp only [Ty.isGround, Bool.and_eq_true] at hy
      refine (covers_union_iff hy.1 hy.2 hgx).mpr ⟨?_, ?_⟩
      · by_contra hnot
        exact hnot (covers_mono hy.1 ha hgx (List.subset_append_left _ _)
          (iha c hy.1 hac fun hs => hslip (.left hs hbd hnot)))
      · by_contra hnot
        exact hnot (covers_mono hy.2 hb hgx (List.subset_append_right _ _)
          (ihb d hy.2 hbd fun hs => hslip (.right hac hs hnot)))
    · exact covers_of_localAnswer hy hgx h

/-! ### Boxes -/

theorem isGround_box (h : t.isGround) : t.box.isGround := by
  simp [Ty.box, Ty.isGround, Ty.groundParams, Con.arity, h]

/-- `Box{x}` is below `Box{y}` iff the equality procedure accepts them. -/
theorem covers_box_iff {a b : Ty} (ha : a.isGround) (hb : b.isGround) :
    (tree a.box b.box).words.Covers ↔ a = b ∨ Equal a b := by
  rw [Ty.box, Ty.box, covers_invariant_iff (by simp) (isGround_box ha) (isGround_box hb)]
  simp

/-- **Invariance of parameters.**  Queries of ground boxes return, and the boxes
are subtypes exactly when their parameters are mutual subtypes, but for the
parameters at which the equality procedure slips. -/
theorem box_subtype_iff {a b : Ty} (ha : a.isGround) (hb : b.isGround) (next : Nat) :
    (∃ r, SubtypeReturns next a.box b.box r) ∧
      ((SubtypeReturns next a.box b.box true ↔
        SubtypeReturns next a b true ∧ SubtypeReturns next b a true) ↔ ¬ Slips a b) := by
  refine ⟨subtypeReturns_total (isGround_box ha) (isGround_box hb) next, ?_⟩
  rw [subtypeReturns_iff (isGround_box ha) (isGround_box hb), subtypeReturns_iff ha hb,
    subtypeReturns_iff hb ha, covers_box_iff ha hb]
  constructor
  · intro hiff hslip
    obtain ⟨hequal, hnot⟩ := hslip.equal_and_not_covers ha hb
    exact hnot (hiff.mp (Or.inr hequal)).2
  · intro hslip
    constructor
    · rintro (rfl | h)
      · exact ⟨covers_refl _, covers_refl _⟩
      · exact ⟨covers_of_equal ha hb h, covers_back_of_equal ha b hb h hslip⟩
    · rintro ⟨h, h'⟩
      exact Or.inr (equal_of_mutual ha hb h h')

/-- `Box{Type{Int64}}` is accepted below `Box{Type}`, and `Type` is not below
`Type{Int64}`. -/
theorem box_type_slips :
    subtype 6 0 (Ty.box (Ty.typeType (.builtin .int64))) (Ty.box (.builtin .type)) = some true ∧
      subtype 6 0 (.builtin .type) (Ty.typeType (.builtin .int64)) = some false := by
  decide +kernel

/-- Parameters that are mutual subtypes, `Tuple{Int8 ∪ Int16}` and
`Tuple{Int8} ∪ Tuple{Int16}`. -/
theorem box_subtype_iff_union :
    SubtypeReturns 3
        (Ty.box (.app .tuple [.union 0 (.builtin .int8) (.builtin .int16)]))
        (Ty.box (.union 1 (.app .tuple [.builtin .int8]) (.app .tuple [.builtin .int16]))) true ↔
      SubtypeReturns 3 (.app .tuple [.union 0 (.builtin .int8) (.builtin .int16)])
          (.union 1 (.app .tuple [.builtin .int8]) (.app .tuple [.builtin .int16])) true ∧
        SubtypeReturns 3 (.union 1 (.app .tuple [.builtin .int8]) (.app .tuple [.builtin .int16]))
          (.app .tuple [.union 0 (.builtin .int8) (.builtin .int16)]) true :=
  (box_subtype_iff (by decide) (by decide) 3).2.mpr (by rintro ⟨⟩)

end Ruju
