import Ruju.Subtype.GroundRun
import Ruju.Subtype.Invariance

/-!
# What ground queries accept

The answer of a ground query is whether the words of its tree cover every
stream of left decisions (`subtypeReturns_iff`).  This module computes those
words as far as every later argument needs them: a left union asks for each of
its arms, a right union offers each of its arms, and the shortcuts of the source
(`obviously_egal`, `obviously_in_union`) never refuse what the search would have
to accept.
-/

namespace Ruju

open DecisionTree (ret left right)

variable {x y : Ty}

/-- A ground query returns `true` exactly when the words of its tree cover. -/
theorem subtypeReturns_iff (hx : x.isGround) (hy : y.isGround) {next : Nat} :
    SubtypeReturns next x y true ↔ (tree x y).words.Covers := by
  classical
  obtain ⟨N, hN⟩ := subtype_ground hx hy
  have hret : SubtypeReturns next x y (decide (tree x y).Holds) :=
    ⟨N, by simpa using hN N le_rfl next⟩
  rw [← DecisionTree.holds_iff_covers]
  constructor
  · intro h
    exact of_decide_eq_true (hret.unique h)
  · intro h
    simpa [h] using hret

/-- A ground query returns. -/
theorem subtypeReturns_total (hx : x.isGround) (hy : y.isGround) (next : Nat) :
    ∃ r, SubtypeReturns next x y r := by
  classical
  obtain ⟨N, hN⟩ := subtype_ground hx hy
  exact ⟨_, N, hN N le_rfl next⟩

/-! ### Obvious equality -/

variable {ps qs : List Ty} {c : Con} {a : Ty}

namespace Ty

@[simp] theorem obviouslyEgal_refl (t : Ty) : t.obviouslyEgal t = true := by
  cases t <;> simp [obviouslyEgal]

theorem obviouslyEgalList_iff :
    obviouslyEgalList ps qs = true ↔ List.Forall₂ (fun p q => p.obviouslyEgal q) ps qs := by
  induction ps generalizing qs with
  | nil => cases qs <;> simp [obviouslyEgalList]
  | cons p ps ih => cases qs <;> simp [obviouslyEgalList, ih]

theorem obviouslyEgal_app (h : (app c ps).obviouslyEgal y) :
    ∃ qs, y = app c qs ∧ List.Forall₂ (fun p q => p.obviouslyEgal q) ps qs := by
  simp only [obviouslyEgal, Bool.or_eq_true, decide_eq_true_eq] at h
  rcases h with rfl | h
  · exact ⟨ps, rfl, List.forall₂_same.mpr fun p _ => obviouslyEgal_refl p⟩
  · cases y with
    | app d qs =>
      simp only [Bool.and_eq_true, decide_eq_true_eq, obviouslyEgalList_iff] at h
      obtain ⟨rfl, h⟩ := h
      exact ⟨qs, rfl, h⟩
    | _ => simp at h

theorem obviouslyEgal_union {i : Nat} {b : Ty} (h : (union i a b).obviouslyEgal y) :
    ∃ j c d, y = union j c d ∧ a.obviouslyEgal c ∧ b.obviouslyEgal d := by
  simp only [obviouslyEgal, Bool.or_eq_true, decide_eq_true_eq] at h
  rcases h with rfl | h
  · exact ⟨i, a, b, rfl, obviouslyEgal_refl a, obviouslyEgal_refl b⟩
  · cases y with
    | union j c d =>
      simp only [Bool.and_eq_true] at h
      exact ⟨j, c, d, rfl, h⟩
    | _ => simp at h

/-- Obvious equality of ground types is symmetric. -/
theorem obviouslyEgal_symm (hx : x.isGround) :
    ∀ y : Ty, x.obviouslyEgal y → y.obviouslyEgal x := by
  have hlist : ∀ {ps qs : List Ty}, (∀ p ∈ ps, ∀ q, p.obviouslyEgal q → q.obviouslyEgal p) →
      obviouslyEgalList ps qs → obviouslyEgalList qs ps := by
    intro ps qs hps h
    rw [obviouslyEgalList_iff] at h ⊢
    induction h with
    | nil => exact .nil
    | cons h _ ih =>
      exact .cons (hps _ (List.mem_cons_self ..) _ h)
        (ih fun p hp => hps p (List.mem_cons_of_mem _ hp))
  have happ : ∀ {c : Con} {ps : List Ty} {y : Ty},
      (∀ p ∈ ps, ∀ q, p.obviouslyEgal q → q.obviouslyEgal p) →
      (app c ps).obviouslyEgal y → y.obviouslyEgal (app c ps) := by
    intro c ps y hps h
    simp only [obviouslyEgal, Bool.or_eq_true, decide_eq_true_eq] at h
    rcases h with rfl | h
    · exact obviouslyEgal_refl _
    · cases y with
      | app d qs =>
        simp only [Bool.and_eq_true, decide_eq_true_eq] at h
        obtain ⟨rfl, h⟩ := h
        simp [obviouslyEgal, hlist hps h]
      | _ => simp at h
  refine ground_induct (P := fun x => ∀ y : Ty, x.obviouslyEgal y → y.obviouslyEgal x)
    ?_ ?_ ?_ ?_ x hx
  · intro n _ y h
    simp only [obviouslyEgal, decide_eq_true_eq] at h
    rw [← h]
    exact obviouslyEgal_refl _
  · intro ps hg ih y
    refine happ fun p hp q hpq => ?_
    rcases groundElems_cases hg with ⟨hs, -⟩ | ⟨xs, i, s, rfl, hs, -⟩
    · exact ih p (Or.inl (by rw [hs]; exact hp)) q hpq
    · rcases List.mem_append.mp hp with hp | hp
      · exact ih p (Or.inl (by rw [hs]; exact hp)) q hpq
      · obtain rfl := List.mem_singleton.mp hp
        simp only [obviouslyEgal, Bool.or_eq_true, decide_eq_true_eq] at hpq
        rcases hpq with rfl | hpq
        · exact obviouslyEgal_refl _
        · cases q with
          | vararg j t => simp [obviouslyEgal, ih s (Or.inr (by rw [hs])) t hpq]
          | _ => simp at hpq
  · intro c ps hc hlen hg ih y
    exact happ fun p hp q hpq => ih p hp q hpq
  · intro i a b ha hb iha ihb y h
    simp only [obviouslyEgal, Bool.or_eq_true, decide_eq_true_eq] at h
    rcases h with rfl | h
    · exact obviouslyEgal_refl _
    · cases y with
      | union j c d =>
        simp only [Bool.and_eq_true] at h
        simp [obviouslyEgal, iha c h.1, ihb d h.2]
      | _ => simp at h

theorem obviouslyArmOf_iff {u : Ty} :
    u.obviouslyArmOf x = true ↔ ∃ a ∈ u.arms, a.obviouslyEgal x := by
  induction u with
  | union i a b iha ihb => simp [obviouslyArmOf, arms, iha, ihb, or_and_right, exists_or]
  | _ => simp [obviouslyArmOf, arms]

theorem obviouslyInUnion_iff {u : Ty} :
    u.obviouslyInUnion x = true ↔ ∀ a ∈ x.arms, u.obviouslyArmOf a := by
  induction x with
  | union i a b iha ihb => simp [obviouslyInUnion, arms, iha, ihb, or_imp, forall_and]
  | _ => simp [obviouslyInUnion, arms]

/-- A union that is obviously equal to another one has only arms of that. -/
theorem obviouslyArmOf_of_egal (hy : y.isGround) (hyx : y.obviouslyEgal x) (ha : a ∈ x.arms) :
    y.obviouslyArmOf a := by
  rw [obviouslyArmOf_iff]
  induction y generalizing x with
  | union j c d ihc ihd =>
    simp only [isGround, Bool.and_eq_true] at hy
    simp only [obviouslyEgal, Bool.or_eq_true, decide_eq_true_eq] at hyx
    rcases hyx with rfl | hyx
    · exact ⟨a, ha, obviouslyEgal_refl a⟩
    · cases x with
      | union i e f =>
        simp only [Bool.and_eq_true] at hyx
        rcases List.mem_append.mp ha with ha | ha
        · obtain ⟨a', ha', he⟩ := ihc hy.1 hyx.1 ha
          exact ⟨a', List.mem_append_left _ ha', he⟩
        · obtain ⟨a', ha', he⟩ := ihd hy.2 hyx.2 ha
          exact ⟨a', List.mem_append_right _ ha', he⟩
      | _ => simp at hyx
  | nominal n =>
    simp only [obviouslyEgal, decide_eq_true_eq] at hyx
    subst hyx
    exact ⟨_, List.mem_singleton_self _, by rw [List.mem_singleton.mp ha]; simp⟩
  | app c ps =>
    have hx : x.isUnion = false := by
      cases x <;> first | rfl | simp [obviouslyEgal] at hyx
    rw [arms_of_not_union hx] at ha
    rw [List.mem_singleton.mp ha]
    exact ⟨_, List.mem_singleton_self _, hyx⟩
  | _ => simp [isGround] at hy

end Ty

/-! ### Picking arms -/

/-- A left union asks for each of its arms. -/
theorem covers_pickLeft {f : Ty → DecisionTree} :
    (pickTree left f x).words.Covers ↔ ∀ a ∈ x.arms, (f a).words.Covers := by
  induction x with
  | union i a b iha ihb =>
    rw [pickTree, DecisionTree.covers_left, iha, ihb]
    simp [Ty.arms, or_imp, forall_and]
  | _ => simp [pickTree, Ty.arms]

/-- A right union offers each of its arms. -/
theorem mem_words_pickRight {f : Ty → DecisionTree} {w : List Bool} :
    w ∈ (pickTree right f y).words ↔ ∃ a ∈ y.arms, w ∈ (f a).words := by
  induction y with
  | union i a b iha ihb => simp [pickTree, Ty.arms, iha, ihb, or_and_right, exists_or]
  | _ => simp [pickTree, Ty.arms]

/-! ### Trees without unions at the top -/

section Arm
variable (g : Ty → Ty → DecisionTree)

theorem armTree_self (x : Ty) : armTree g x x = ret true := by
  unfold armTree
  split
  · rfl
  · split
    · rfl
    · cases x.typeParam <;> simp [datatypeTree]

theorem walkToName_of_nameOf
    (h : y.nameOf = (Ty.app c ps).nameOf) : walkToName (.app c ps) y = some (.app c ps) := by
  cases c <;> simp_all [walkToName, Ty.nameOf, Ty.supers]

theorem armTree_tuple (ps qs : List Ty) :
    armTree g (.app .tuple ps) (.app .tuple qs) =
      if ps = qs then ret true else tupleTree g ps qs := by
  have hwalk : walkToName (.app .tuple ps) (.app .tuple qs) = some (.app .tuple ps) :=
    walkToName_of_nameOf rfl
  simp [armTree, Ty.typeParam, datatypeTree, hwalk, Ty.isTuple, Ty.parameters]

theorem armTree_invariant (hc : c ≠ .tuple)
    (hp : ps.length = c.arity) (hq : qs.length = c.arity) :
    armTree g (.app c ps) (.app c qs) =
      if ps = qs then ret true else invariantTree g ps qs := by
  have hwalk : walkToName (.app c ps) (.app c qs) = some (.app c ps) := by
    refine walkToName_of_nameOf ?_
    cases c <;> rfl
  have ht : (Ty.app c ps).isTuple = false := Ty.isTuple_app hc
  have hdata : datatypeTree g (.app c ps) (.app c qs) =
      if ps = qs then ret true else invariantTree g ps qs := by
    simp [datatypeTree, hwalk, ht, Ty.parameters]
  have hany : ∀ {rs : List Ty} {n : Nominal}, Ty.app c rs ≠ .nominal n := by
    intro rs n h
    cases h
  unfold armTree
  rw [if_neg hany, if_neg hany, hdata]
  cases c with
  | type =>
    cases ps with
    | nil => cases hp
    | cons p ps =>
      cases qs with
      | nil => cases hq
      | cons q qs => rfl
  | _ => rfl

end Arm

theorem tree_of_not_union (hx : x.isUnion = false) (hy : y.isUnion = false) :
    tree x y = if x = y then ret true else armTree tree x y := by
  rw [tree_eq]
  simp [treeStep, rightTree, hx, hy]

theorem walkToName_nominal (n m : Nominal) :
    walkToName (.nominal n) (.nominal m) = if m ∈ n.supers then some (.nominal m) else none := by
  have hlist : ∀ l : List Nominal, (l.map Ty.nominal).find?
      (fun t => decide (t.nameOf = some (.nominal m))) =
      if m ∈ l then some (.nominal m) else none := by
    intro l
    induction l with
    | nil => rfl
    | cons k l ih =>
      rw [List.map_cons, List.find?_cons]
      by_cases hk : k = m
      · simp [hk, Ty.nameOf]
      · have hname : decide ((Ty.nominal k).nameOf = some (.nominal m)) = false := by
          simp [Ty.nameOf, hk]
        rw [hname, ih]
        simp [Ne.symm hk]
  exact hlist n.supers

/-- Against a nominal type a `DataType` is compared by the names on its supertype chain
only, whatever its parameters are. -/
theorem subStep_nominal (k : Knot) {x : Ty} {m : Nominal} (hx : x.isDatatype)
    (hbot : x ≠ Ty.bottom) (htype : x.typeParam = none) (hm : m ≠ .builtin .any) (param : Param) :
    Denotes (subStep k x (.nominal m) param) (ret (walkToName x (.nominal m)).isSome) := by
  have hdata : datatypeSubtype k x (.nominal m) param =
      if x = .nominal m then pure true else pure (walkToName x (.nominal m)).isSome := by
    unfold datatypeSubtype
    cases hwalk : walkToName x (.nominal m) with
    | none => simp [hm]
    | some xd =>
      have hname := Ty.nameOf_of_walkToName hwalk
      have htuple : xd.isTuple = false := by
        cases xd with
        | app c ps => cases c <;> first | rfl | cases hname
        | _ => rfl
      simp [hm, htuple, invariantSubtype, Ty.parameters]
  refine Denotes.get fun e he => ?_
  by_cases hxy : x = .nominal m
  · have hwalk : (walkToName x (.nominal m)).isSome = true := by
      rw [hxy, walkToName_nominal, if_pos m.mem_supers_self]
      rfl
    rw [if_pos ⟨hxy, he.loffset⟩, hwalk]
    exact Denotes.pure true e he
  · rw [if_neg fun h => hxy h.1]
    rw [if_neg hxy] at hdata
    have hstep : subRight k x (.nominal m) param = pure (walkToName x (.nominal m)).isSome := by
      rw [← hdata]
      have hright : (Ty.nominal m).typeParam = none := rfl
      cases x with
      | nominal | app =>
        simp [subRight, subMeet, subVars, subGround, subValues, Ty.isUnion, Ty.isTypevar,
          Ty.isUnionall, Ty.isBoxedLong, hm, hbot, htype, hright]
      | _ => cases hx
    have hunion : x.isUnion = false := by
      cases x with
      | union => cases hx
      | _ => rfl
    simp only [hunion, Bool.false_eq_true, if_false, hstep]
    exact Denotes.pure _ e he

/-- **A nominal type on the right.** -/
theorem walkToName_of_subtype {x : Ty} {m : Nominal} {fuel next : Nat} (hx : x.isDatatype)
    (hbot : x ≠ Ty.bottom) (htype : x.typeParam = none) (hm : m ≠ .builtin .any)
    (h : subtype fuel next x (.nominal m) = some true) :
    (walkToName x (.nominal m)).isSome := by
  obtain _ | _ | fuel := fuel
  · cases h
  · cases h
  · obtain ⟨n', hrun⟩ := issubtypeStep_run (k := engine (fuel + 1))
      (subStep_nominal (engine fuel) hx hbot htype hm .none) (Nat.succ_le_succ (Nat.zero_le fuel))
      next
    have hans : ((issubtypeStep (engine (fuel + 1)) x (.nominal m) next).map (·.1)) = some true := h
    rw [hrun] at hans
    simpa [DecisionTree.Holds, DecisionTree.eval] using hans

/-- A nominal type is below another one that is on its supertype chain. -/
theorem nil_mem_tree_nominal {n m : Nominal} (h : n = .builtin .bottom ∨ m ∈ n.supers) :
    [] ∈ (tree (.nominal n) (.nominal m)).words := by
  rw [tree_of_not_union rfl rfl]
  split
  · simp
  · unfold armTree
    split
    · simp
    · split
      · simp
      case isFalse hb =>
        have hmem : m ∈ n.supers := h.resolve_left fun hn => hb (by rw [hn])
        simp [Ty.typeParam, datatypeTree, walkToName_nominal, hmem, Ty.isTuple, Ty.parameters]

variable {pairs : List (Ty × Ty)}

theorem nil_mem_allTree {g : Ty → Ty → DecisionTree}
    (h : ∀ p ∈ pairs, [] ∈ (g p.1 p.2).words) : [] ∈ (allTree g pairs).words := by
  induction pairs with
  | nil => simp [allTree]
  | cons p ps ih =>
    rw [allTree, DecisionTree.words_and]
    exact ⟨[], h p (List.mem_cons_self ..), [],
      ih fun q hq => h q (List.mem_cons_of_mem _ hq), rfl⟩

theorem nil_mem_invariantTree {g : Ty → Ty → DecisionTree}
    (h : ∀ p ∈ ps.zip qs, p.1 = p.2 ∨ [] ∈ (equalTree g p.1 p.2).words) :
    [] ∈ (invariantTree g ps qs).words := by
  induction ps generalizing qs with
  | nil =>
    rw [invariantTree]
    · simp
    · simp
  | cons p ps ih =>
    cases qs with
    | nil =>
      rw [invariantTree]
      · simp
      · simp
    | cons q qs =>
      have hrest := @ih qs fun r hr => h r (List.mem_cons_of_mem _ hr)
      have hhead := h (p, q) (List.mem_cons_self ..)
      rw [invariantTree]
      split
      · exact hrest
      · rw [DecisionTree.words_and]
        exact ⟨[], hhead.resolve_left ‹_›, [], hrest, rfl⟩

/-- Obviously equal parameter lists split alike. -/
theorem splitElems_of_egal (hp : Ty.groundElems ps) (hq : Ty.groundElems qs)
    (h : List.Forall₂ (fun p q => p.obviouslyEgal q) ps qs) :
    List.Forall₂ (fun p q => p.obviouslyEgal q) (Ty.splitElems ps).1 (Ty.splitElems qs).1 ∧
      Option.Rel (fun p q => p.obviouslyEgal q) (Ty.splitElems ps).2 (Ty.splitElems qs).2 := by
  induction h with
  | nil => exact ⟨.nil, .none⟩
  | @cons p q ps qs hpq hrest ih =>
    by_cases hlast : ∃ i t, p = .vararg i t ∧ ps = []
    · obtain ⟨i, t, rfl, rfl⟩ := hlast
      cases hrest
      cases q with
      | vararg j u =>
        refine ⟨.nil, .some ?_⟩
        simp only [Ty.obviouslyEgal, Bool.or_eq_true, decide_eq_true_eq, Ty.vararg.injEq] at hpq
        rcases hpq with ⟨-, rfl⟩ | hpq
        · exact Ty.obviouslyEgal_refl _
        · exact hpq
      | _ => simp [Ty.obviouslyEgal] at hpq
    · have hcp : ∀ i t, p = .vararg i t → ps = [] → False := fun i t h₁ h₂ =>
        hlast ⟨i, t, h₁, h₂⟩
      rw [Ty.groundElems_cons hcp, Bool.and_eq_true] at hp
      have hcq : ∀ i t, q = .vararg i t → qs = [] → False := by
        rintro i t rfl rfl
        have hg := hp.1
        cases p <;> simp_all [Ty.isGround, Ty.obviouslyEgal]
      rw [Ty.groundElems_cons hcq, Bool.and_eq_true] at hq
      rw [Ty.splitElems_cons hcp, Ty.splitElems_cons hcq]
      obtain ⟨h₁, h₂⟩ := ih hp.2 hq.2
      exact ⟨.cons hpq h₁, h₂⟩

/-- Tuples with obviously equal parameters compare obviously equal elements. -/
theorem elementPairs_of_egal (hp : Ty.groundElems ps) (hq : Ty.groundElems qs)
    (h : List.Forall₂ (fun p q => p.obviouslyEgal q) ps qs) :
    ∃ pairs, Ty.elementPairs ps qs = some pairs ∧ ∀ p ∈ pairs, p.1.obviouslyEgal p.2 := by
  obtain ⟨hfst, hsnd⟩ := splitElems_of_egal hp hq h
  have hlen := hfst.length_eq
  have hzip : ∀ p ∈ (Ty.splitElems ps).1.zip (Ty.splitElems qs).1, p.1.obviouslyEgal p.2 :=
    fun p hp => (List.forall₂_iff_zip.mp hfst).2 hp
  unfold Ty.elementPairs
  cases hx : Ty.splitElems ps with
  | mk xs sx =>
    cases hy : Ty.splitElems qs with
    | mk ys sy =>
      rw [hx, hy] at hsnd hlen hzip
      cases hsnd with
      | none =>
        simp only at hlen hzip
        exact ⟨_, by simp [hlen], hzip⟩
      | @some s v hsv =>
        simp only at hlen hzip
        refine ⟨_, if_pos (le_of_eq hlen.symm), fun p hp => ?_⟩
        have hdrop : xs.drop ys.length = [] := by rw [← hlen, List.drop_length]
        simp only [hdrop, List.map_nil, ite_self, List.append_nil, List.mem_append,
          List.mem_cons, List.not_mem_nil, or_false, or_self] at hp
        rcases hp with hp | rfl
        · exact hzip p hp
        · exact hsv

/-- Obviously equal ground types are accepted without a left decision. -/
theorem nil_mem_tree_of_egal (hx : x.isGround) :
    ∀ y : Ty, y.isGround → x.obviouslyEgal y → [] ∈ (tree x y).words := by
  refine Ty.ground_induct (P := fun x => ∀ y : Ty, y.isGround → x.obviouslyEgal y →
    [] ∈ (tree x y).words) ?_ ?_ ?_ ?_ x hx
  · intro n _ y _ h
    simp only [Ty.obviouslyEgal, decide_eq_true_eq] at h
    rw [← h, tree_eq]
    simp [treeStep]
  · intro ps hg ih y hy h
    obtain ⟨qs, rfl, hforall⟩ := Ty.obviouslyEgal_app h
    rw [Ty.isGround] at hy
    obtain ⟨pairs, hpairs, hegal⟩ := elementPairs_of_egal hg hy hforall
    rw [tree_of_not_union rfl rfl, armTree_tuple]
    split
    · simp
    · split
      · simp
      · rw [tupleTree, hpairs]
        refine nil_mem_allTree fun p hp => ?_
        obtain ⟨h₁, h₂⟩ := Ty.isElem_of_mem_elementPairs hpairs hp
        exact ih p.1 h₁ p.2 (Ty.groundElems_split hy h₂) (hegal p hp)
  · intro c ps hc hlen hg ih y hy h
    obtain ⟨qs, rfl, hforall⟩ := Ty.obviouslyEgal_app h
    rw [tree_of_not_union rfl rfl,
      armTree_invariant _ hc hlen (Ty.groundParams_of_app hc hy).1]
    split
    · simp
    · split
      · simp
      · refine nil_mem_invariantTree fun p hp => Or.inr ?_
        have hegal : p.1.obviouslyEgal p.2 := (List.forall₂_iff_zip.mp hforall).2 hp
        rw [equalTree_of_egal hegal]
        simp
  · intro i a b ha hb iha ihb y hy h
    rw [tree_eq]
    simp only [treeStep, Ty.isUnion, if_true, h]
    split <;> simp

/-! ### Queries by arms -/

/-- What a left arm reads against `y`. -/
noncomputable def armReads (x y : Ty) : Language :=
  (rightTree tree x y).words

/-- An arm that is obviously an arm of the right side is accepted at once. -/
theorem nil_mem_armReads (hx : x.isGround) (hy : y.isGround)
    (hux : x.isUnion = false) (h : y.obviouslyArmOf x) : [] ∈ armReads x y := by
  have hin : y.obviouslyInUnion x := by
    rw [Ty.obviouslyInUnion_iff, Ty.arms_of_not_union hux]
    simpa using h
  unfold armReads rightTree
  cases huy : y.isUnion with
  | true => simp [hin]
  | false =>
    rw [Ty.obviouslyArmOf_iff, Ty.arms_of_not_union huy] at h
    obtain ⟨_, ha, hegal⟩ := h
    obtain rfl := List.mem_singleton.mp ha
    have hnil := nil_mem_tree_of_egal hx _ hy (Ty.obviouslyEgal_symm hy _ hegal)
    rw [tree_of_not_union hux huy] at hnil
    split at hnil
    case isTrue hxy =>
      subst hxy
      simp [armTree_self]
    · exact hnil

/-- **A query asks for every arm of its left side.** -/
theorem covers_iff_arms (hx : x.isGround) (hy : y.isGround) :
    (tree x y).words.Covers ↔ ∀ a ∈ x.arms, (armReads a y).Covers := by
  have hegal : x.obviouslyEgal y → ∀ a ∈ x.arms, (armReads a y).Covers := fun h a ha =>
    Language.covers_of_nil_mem (nil_mem_armReads (Ty.isGround_of_mem_arms hx ha) hy
      (Ty.not_union_of_mem_arms ha)
      (Ty.obviouslyArmOf_of_egal hy (Ty.obviouslyEgal_symm hx _ h) ha))
  rw [tree_eq]
  unfold treeStep
  split
  case isTrue hxy =>
    subst hxy
    exact ⟨fun _ => hegal (Ty.obviouslyEgal_refl x), fun _ => Language.covers_of_nil_mem (by simp)⟩
  case isFalse hxy =>
    cases hux : x.isUnion with
    | false =>
      rw [Ty.arms_of_not_union hux]
      simp [armReads]
    | true =>
      simp only [if_true]
      split
      case isTrue he =>
        exact ⟨fun _ => hegal he, fun _ => Language.covers_of_nil_mem (by simp)⟩
      · exact covers_pickLeft

/-- What is obviously in the right side is below it. -/
theorem covers_of_obviouslyInUnion (hx : x.isGround) (hy : y.isGround)
    (h : y.obviouslyInUnion x) : (tree x y).words.Covers := by
  rw [covers_iff_arms hx hy]
  intro a ha
  exact Language.covers_of_nil_mem (nil_mem_armReads (Ty.isGround_of_mem_arms hx ha) hy
    (Ty.not_union_of_mem_arms ha) (Ty.obviouslyInUnion_iff.mp h a ha))

/-- What an arm reads against a right side: nothing, when it is obviously an arm
of it, and otherwise what it reads against some arm. -/
theorem armReads_eq (hux : x.isUnion = false) :
    armReads x y = (if y.isUnion && y.obviouslyArmOf x then ({[]} : Language)
      else {w | ∃ a ∈ y.arms, w ∈ (armTree tree x a).words}) := by
  have hin : y.obviouslyInUnion x = y.obviouslyArmOf x := by
    rw [Bool.eq_iff_iff, Ty.obviouslyInUnion_iff, Ty.arms_of_not_union hux]
    simp
  unfold armReads rightTree
  rw [hin]
  cases huy : y.isUnion with
  | false =>
    rw [Ty.arms_of_not_union huy]
    ext w
    simp
  | true =>
    cases y.obviouslyArmOf x with
    | true =>
      ext w
      simp
    | false =>
      ext w
      simp [mem_words_pickRight]

/-- More arms on the right accept more. -/
theorem covers_armReads_mono {z : Ty} (hx : x.isGround) (hz : z.isGround)
    (hux : x.isUnion = false) (hsub : y.arms ⊆ z.arms) (h : (armReads x y).Covers) :
    (armReads x z).Covers := by
  by_cases hobv : z.obviouslyArmOf x
  · exact Language.covers_of_nil_mem (nil_mem_armReads hx hz hux hobv)
  · have hobv' : y.obviouslyArmOf x = false := by
      rw [Bool.eq_false_iff]
      intro hy
      rw [Ty.obviouslyArmOf_iff] at hy hobv
      obtain ⟨a, ha, he⟩ := hy
      exact hobv ⟨a, hsub ha, he⟩
    refine h.mono ?_
    rw [armReads_eq hux, armReads_eq hux]
    simp only [hobv', hobv, Bool.and_false, Bool.false_eq_true, if_false]
    rintro w ⟨a, ha, hw⟩
    exact ⟨a, hsub ha, hw⟩

/-- A query against more arms succeeds if one against fewer does. -/
theorem covers_mono {z : Ty} (hx : x.isGround) (hy : y.isGround) (hz : z.isGround)
    (hsub : y.arms ⊆ z.arms) (h : (tree x y).words.Covers) : (tree x z).words.Covers := by
  rw [covers_iff_arms hx hy] at h
  rw [covers_iff_arms hx hz]
  exact fun e he => covers_armReads_mono (Ty.isGround_of_mem_arms hx he) hz
    (Ty.not_union_of_mem_arms he) hsub (h e he)

/-- Both members of a union are asked for. -/
theorem covers_union_iff {i : Nat} {b : Ty} (ha : a.isGround) (hb : b.isGround)
    (hy : y.isGround) : (tree (.union i a b) y).words.Covers ↔
      (tree a y).words.Covers ∧ (tree b y).words.Covers := by
  have hx : (Ty.union i a b).isGround := by simp [Ty.isGround, ha, hb]
  rw [covers_iff_arms hx hy, covers_iff_arms ha hy, covers_iff_arms hb hy]
  exact List.forall_mem_append

/-- Unions are compared componentwise. -/
theorem covers_union {i j : Nat} {b c d : Ty} (ha : a.isGround) (hb : b.isGround)
    (hc : c.isGround) (hd : d.isGround) (hac : (tree a c).words.Covers)
    (hbd : (tree b d).words.Covers) : (tree (.union i a b) (.union j c d)).words.Covers := by
  have hy : (Ty.union j c d).isGround := by simp [Ty.isGround, hc, hd]
  exact (covers_union_iff ha hb hy).mpr
    ⟨covers_mono ha hc hy (List.subset_append_left _ _) hac,
      covers_mono hb hd hy (List.subset_append_right _ _) hbd⟩

/-! ### Types without covariant unions -/

namespace Ty

mutual

/-- No union outside invariant parameters. -/
def covUnionFree : Ty → Bool
  | union .. => false
  | app .tuple ps => covUnionFreeElems ps
  | vararg _ t => covUnionFree t
  | _ => true

/-- No union in the elements of a tuple. -/
def covUnionFreeElems : List Ty → Bool
  | [] => true
  | p :: ps => covUnionFree p && covUnionFreeElems ps

end

theorem covUnionFreeElems_iff :
    covUnionFreeElems ps = true ↔ ∀ p ∈ ps, p.covUnionFree := by
  induction ps with
  | nil => simp [covUnionFreeElems]
  | cons p ps ih => simp [covUnionFreeElems, ih]

theorem IsElem.covUnionFree {t : Ty} (h : IsElem t ps)
    (hps : covUnionFreeElems ps) : t.covUnionFree := by
  rw [covUnionFreeElems_iff] at hps
  rcases h with h | h
  · exact hps t (mem_of_mem_splitElems h)
  · obtain ⟨i, hi⟩ := vararg_mem_of_splitElems h
    simpa [Ty.covUnionFree] using hps _ hi

end Ty

theorem silent_allTree {g : Ty → Ty → DecisionTree}
    (h : ∀ p ∈ pairs, (g p.1 p.2).Silent) : (allTree g pairs).Silent := by
  induction pairs with
  | nil => exact DecisionTree.silent_ret true
  | cons p ps ih =>
    exact (h p (List.mem_cons_self ..)).and (ih fun q hq => h q (List.mem_cons_of_mem _ hq))

theorem silent_equalWithTree {g : Ty → Ty → DecisionTree}
    (h : x.isDatatype → x.isTuple = false → (g x y).Silent) {m : Option DecisionTree}
    (hm : ∀ t, m = some t → t.Silent) : (equalWithTree g m x y).Silent := by
  unfold equalWithTree
  split
  · exact DecisionTree.silent_ret true
  · split
    · exact DecisionTree.silent_ret false
    · split
      · exact DecisionTree.silent_ret false
      · split
        case isTrue hd =>
          simp only [Bool.and_eq_true, Bool.not_eq_true'] at hd
          exact h hd.1.1 hd.2
        · cases m with
          | none => exact DecisionTree.silent_ret _
          | some t => exact (hm t rfl).right (DecisionTree.silent_ret _)

/-- The comparison of invariant parameters makes no left decision. -/
theorem silent_equalTree {g : Ty → Ty → DecisionTree}
    (h : ∀ p q, p.weight + q.weight ≤ x.weight + y.weight → p.isDatatype → p.isTuple = false →
      (g p q).Silent) : (equalTree g x y).Silent := by
  induction x generalizing y with
  | union i a b iha ihb =>
    cases y with
    | union j c d =>
      rw [equalTree_union]
      refine silent_equalWithTree (h _ _ le_rfl) fun t ht => ?_
      cases ht
      exact (iha fun p q hpq => h p q (by simp only [Ty.weight]; omega)).and
        (ihb fun p q hpq => h p q (by simp only [Ty.weight]; omega))
    | _ =>
      rw [equalTree_of_not_unions rfl]
      exact silent_equalWithTree (h _ _ le_rfl) fun t ht => by cases ht
  | _ =>
    rw [equalTree_of_not_unions rfl]
    exact silent_equalWithTree (h _ _ le_rfl) fun t ht => by cases ht

theorem silent_invariantTree {g : Ty → Ty → DecisionTree}
    (h : ∀ p ∈ ps, ∀ q ∈ qs, (equalTree g p q).Silent) : (invariantTree g ps qs).Silent := by
  induction ps generalizing qs with
  | nil =>
    rw [invariantTree]
    · exact DecisionTree.silent_ret true
    · simp
  | cons p ps ih =>
    cases qs with
    | nil =>
      rw [invariantTree]
      · exact DecisionTree.silent_ret true
      · simp
    | cons q qs =>
      have hrest := @ih qs fun p' hp' q' hq' =>
        h p' (List.mem_cons_of_mem _ hp') q' (List.mem_cons_of_mem _ hq')
      rw [invariantTree]
      split
      · exact hrest
      · exact (h p (List.mem_cons_self ..) q (List.mem_cons_self ..)).and hrest

theorem covUnionFree_of_not_tuple (hx : x.isDatatype) (ht : x.isTuple = false) :
    x.covUnionFree := by
  cases x with
  | nominal n => rfl
  | app c ps => cases c <;> first | rfl | cases ht
  | _ => cases hx

theorem covUnionFree_app {c : Con} {ps : List Ty} (hc : c ≠ .tuple) :
    (Ty.app c ps).covUnionFree :=
  covUnionFree_of_not_tuple rfl (Ty.isTuple_app hc)

theorem silent_armTree (hx : x.covUnionFree)
    (h : ∀ p q, p.weight + q.weight < x.weight + y.weight → p.covUnionFree → (tree p q).Silent) :
    (armTree tree x y).Silent := by
  unfold armTree
  split
  · exact DecisionTree.silent_ret true
  · split
    · exact DecisionTree.silent_ret true
    · split
      case h_1 t hxt hyt =>
        have hlt := Ty.weight_typeOf_lt hxt
        exact h _ _ (by omega) (by cases t <;> rfl)
      · exact DecisionTree.silent_ret false
      · unfold datatypeTree
        split
        · exact DecisionTree.silent_ret true
        · split
          · exact DecisionTree.silent_ret false
          case h_2 xd hxd =>
            cases xd with
            | app c ps =>
              obtain rfl := Ty.eq_of_walkToName hxd
              have hy : ∀ {q : Ty} {qs : List Ty}, y.parameters = some qs → q ∈ qs →
                  q.weight < y.weight := by
                intro q qs hqs hq
                cases y with
                | app d rs =>
                  cases hqs
                  exact Ty.weight_lt_of_mem hq
                | _ => cases hqs
              split
              case isTrue ht =>
                obtain rfl : c = .tuple := by cases c <;> first | rfl | cases ht
                simp only [Ty.parameters, Option.getD_some, tupleTree]
                split
                case h_1 pairs hpairs =>
                  refine silent_allTree fun p hp => ?_
                  obtain ⟨h₁, h₂⟩ := Ty.isElem_of_mem_elementPairs hpairs hp
                  refine h _ _ (Nat.add_lt_add h₁.weight_lt ?_)
                    (h₁.covUnionFree (by simpa [Ty.covUnionFree] using hx))
                  cases y with
                  | app d qs => exact h₂.weight_lt
                  | _ => simp [Ty.IsElem, Ty.splitElems] at h₂
                · exact DecisionTree.silent_ret false
              · split
                case h_1 ps' qs hps hqs =>
                  cases hps
                  refine silent_invariantTree fun p hp q hq =>
                    silent_equalTree fun p' q' hpq hd ht => ?_
                  have h₁ := Ty.weight_lt_of_mem (c := c) hp
                  have h₂ := hy hqs hq
                  exact h _ _ (by omega) (covUnionFree_of_not_tuple hd ht)
                · exact DecisionTree.silent_ret true
            | _ => exact DecisionTree.silent_ret true

/-- A left side without covariant unions makes no left decision. -/
theorem silent_tree (hx : x.covUnionFree) : (tree x y).Silent := by
  induction hw : x.weight + y.weight using Nat.strong_induction_on generalizing x y with
  | _ w ih =>
    subst hw
    have hux : x.isUnion = false := by cases x <;> first | rfl | simp [Ty.covUnionFree] at hx
    have harm : ∀ y' ∈ y.arms, (armTree tree x y').Silent := by
      intro y' hy'
      have hwy := Ty.weight_le_of_mem_arms hy'
      exact silent_armTree hx fun p q hpq hp => ih _ (by omega) hp rfl
    rw [tree_eq]
    unfold treeStep rightTree
    rw [hux]
    split
    · exact DecisionTree.silent_ret true
    · simp only [Bool.false_eq_true, if_false]
      split
      · split
        · exact DecisionTree.silent_ret true
        · intro w hw
          obtain ⟨y', hy', hw⟩ := mem_words_pickRight.mp hw
          exact harm y' hy' w hw
      case isFalse huy =>
        refine harm y ?_
        rw [Ty.arms_of_not_union (by simpa using huy)]
        exact List.mem_singleton_self _

end Ruju
