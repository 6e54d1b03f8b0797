import Ruju.Subtype.Invariant

/-!
# The set-theoretic reading of ground subtyping

A union distributes through tuples, so a type without `Vararg` and `Type{T}` is
the union of its finitely many union-free expansions (`Ty.expand`), and `a <: b`
should say that every expansion of `a` is below some expansion of `b` (`Sub`).

The algorithm does not expand.  It walks the two types once for every combination
of decisions, with the left decisions read from one stream, and a shortcut that
accepts an element of a tuple without reading its decisions shifts those of the
elements behind it.  On steady types, which have no union among the elements of a
tuple, an arm of the left side has no decision of its own, nothing can shift, and
the algorithm decides `Sub` (`covers_iff_sub`).
-/

namespace Ruju

open DecisionTree (ret left right)

variable {ps es : List Ty} {p t e : Ty}

namespace Ty

/-! ### Plain types and their expansions -/

mutual

/-- A type built from nominal types, tuples without `Vararg`, unions and the
invariant constructors other than `Type`. -/
def isPlain : Ty → Bool
  | nominal n => n.isProper
  | app .type _ => false
  | app .tuple ps => arePlain ps
  | app c ps => decide (ps.length = c.arity) && arePlain ps
  | union _ a b => isPlain a && isPlain b
  | _ => false

/-- `isPlain` of every parameter. -/
def arePlain : List Ty → Bool
  | [] => true
  | p :: ps => isPlain p && arePlain ps

end

theorem arePlain_iff : arePlain ps = true ↔ ∀ p ∈ ps, p.isPlain := by
  induction ps with
  | nil => simp [arePlain]
  | cons p ps ih => simp [arePlain, ih]

mutual

/-- The union-free expansions of a type. -/
def expand : Ty → List Ty
  | union _ a b => expand a ++ expand b
  | app .tuple ps => (expandAll ps).map (app .tuple)
  | t => [t]

/-- The expansions of the elements of a tuple. -/
def expandAll : List Ty → List (List Ty)
  | [] => [[]]
  | p :: ps => (expand p).flatMap fun e => (expandAll ps).map (e :: ·)

end

theorem mem_expand_union {i : Nat} {a b : Ty} :
    e ∈ (union i a b).expand ↔ e ∈ a.expand ∨ e ∈ b.expand := by
  rw [expand, List.mem_append]

theorem mem_expand_tuple :
    e ∈ (app .tuple ps).expand ↔ ∃ es ∈ expandAll ps, e = app .tuple es := by
  simp only [expand, List.mem_map, eq_comm]

theorem expand_app {c : Con} (hc : c ≠ .tuple) (ps : List Ty) :
    (app c ps).expand = [app c ps] := by
  cases c <;> first | rfl | exact absurd rfl hc

/-- The expansions of a tuple are the tuples of expansions. -/
theorem mem_expandAll_iff :
    es ∈ expandAll ps ↔ List.Forall₂ (fun e p => e ∈ p.expand) es ps := by
  induction ps generalizing es with
  | nil => simp [expandAll]
  | cons p ps ih =>
    simp only [expandAll, List.mem_flatMap, List.mem_map]
    constructor
    · rintro ⟨e, he, es', hes', rfl⟩
      exact .cons he (ih.mp hes')
    · intro h
      cases h with
      | cons he hes => exact ⟨_, he, _, ih.mpr hes, rfl⟩

/-- The expansions of a type are those of its arms. -/
theorem mem_expand_arms : e ∈ t.expand ↔ ∃ a ∈ t.arms, e ∈ a.expand := by
  induction t with
  | union i a b iha ihb =>
    rw [mem_expand_union, iha, ihb]
    simp [arms, or_and_right, exists_or]
  | _ => simp [arms]

end Ty

/-! ### Subtyping by expansions -/

mutual

/-- The order on union-free expansions: the nominal supertype chain with `Any` on
top and `Union{}` at the bottom, pointwise on tuples of one length, and mutual
subtyping on invariant parameters. -/
inductive Below : Ty → Ty → Prop
  | any (x : Ty) : Below x Ty.any
  | bottom (y : Ty) : Below Ty.bottom y
  | nominal {n m : Nominal} (h : m ∈ n.supers) : Below (.nominal n) (.nominal m)
  | tuple {xs ys : List Ty} (hlen : xs.length = ys.length)
      (h : ∀ p ∈ xs.zip ys, Below p.1 p.2) : Below (.app .tuple xs) (.app .tuple ys)
  | invariant {c : Con} {ps qs : List Ty} (hc : c ≠ .tuple) (hlen : ps.length = qs.length)
      (h : ∀ p ∈ ps.zip qs, ∀ x ∈ p.1.expand, BelowSome x p.2.expand)
      (h' : ∀ p ∈ ps.zip qs, ∀ y ∈ p.2.expand, BelowSome y p.1.expand) :
      Below (.app c ps) (.app c qs)

/-- Below some member of a list of expansions. -/
inductive BelowSome : Ty → List Ty → Prop
  | intro {x y : Ty} {ys : List Ty} (hy : y ∈ ys) (h : Below x y) : BelowSome x ys

end

variable {x : Ty}

theorem belowSome_iff {ys : List Ty} : BelowSome x ys ↔ ∃ y ∈ ys, Below x y :=
  ⟨fun ⟨hy, h⟩ => ⟨_, hy, h⟩, fun ⟨_, hy, h⟩ => ⟨hy, h⟩⟩

/-- Every expansion of `a` is below some expansion of `b`. -/
def Sub (a b : Ty) : Prop :=
  ∀ x ∈ a.expand, ∃ y ∈ b.expand, Below x y

variable {c : Con}

/-! ### The rules of `Sub` -/

variable {y b : Ty}

/-- An arm of the right side is enough. -/
theorem Sub.of_arm (hb : b ∈ y.arms) (h : Sub x b) : Sub x y := by
  intro e he
  obtain ⟨e', he', hbelow⟩ := h e he
  exact ⟨e', Ty.mem_expand_arms.mpr ⟨b, hb, he'⟩, hbelow⟩

theorem below_tuple_iff {xs : List Ty} :
    Below (.app .tuple xs) y ↔
      y = Ty.any ∨ ∃ ys, y = .app .tuple ys ∧ List.Forall₂ Below xs ys := by
  constructor
  · intro h
    generalize hx : Ty.app .tuple xs = x at h
    cases h with
    | any => exact Or.inl rfl
    | bottom => cases hx
    | nominal => cases hx
    | tuple hlen h =>
      cases hx
      exact Or.inr ⟨_, rfl, List.forall₂_iff_zip.mpr ⟨hlen, fun hp => h _ hp⟩⟩
    | invariant hc => exact absurd (Ty.app.inj hx).1.symm hc
  · rintro (rfl | ⟨ys, rfl, h⟩)
    · exact .any _
    · exact .tuple h.length_eq fun p hp => (List.forall₂_iff_zip.mp h).2 hp

theorem below_app_iff (hc : c ≠ .tuple) :
    Below (.app c ps) y ↔ y = Ty.any ∨ ∃ qs, y = .app c qs ∧ ps.length = qs.length ∧
      ∀ p ∈ ps.zip qs, Sub p.1 p.2 ∧ Sub p.2 p.1 := by
  constructor
  · intro h
    generalize hx : Ty.app c ps = x at h
    cases h with
    | any => exact Or.inl rfl
    | bottom => cases hx
    | nominal => cases hx
    | tuple => exact absurd (Ty.app.inj hx).1 hc
    | invariant _ hlen h h' =>
      cases hx
      exact Or.inr ⟨_, rfl, hlen, fun p hp => ⟨fun e he => belowSome_iff.mp (h p hp e he),
        fun e he => belowSome_iff.mp (h' p hp e he)⟩⟩
  · rintro (rfl | ⟨qs, rfl, hlen, h⟩)
    · exact .any _
    · exact .invariant hc hlen (fun p hp e he => belowSome_iff.mpr ((h p hp).1 e he))
        fun p hp e he => belowSome_iff.mpr ((h p hp).2 e he)

variable {qs : List Ty}

/-- A tuple is below an expansion iff it is so element by element. -/
theorem belowSome_tuple_iff :
    BelowSome (.app .tuple es) (Ty.app .tuple qs).expand ↔
      List.Forall₂ (fun e q => BelowSome e q.expand) es qs := by
  have hiff : BelowSome (.app .tuple es) (Ty.app .tuple qs).expand ↔
      ∃ fs, List.Forall₂ (fun f q => f ∈ q.expand) fs qs ∧ List.Forall₂ Below es fs := by
    rw [belowSome_iff]
    constructor
    · rintro ⟨y, hy, hbelow⟩
      obtain ⟨fs, hfs, rfl⟩ := Ty.mem_expand_tuple.mp hy
      obtain hany | ⟨ys, hys, hall⟩ := below_tuple_iff.mp hbelow
      · cases hany
      · cases hys
        exact ⟨fs, Ty.mem_expandAll_iff.mp hfs, hall⟩
    · rintro ⟨fs, hfs, hall⟩
      exact ⟨_, Ty.mem_expand_tuple.mpr ⟨fs, Ty.mem_expandAll_iff.mpr hfs, rfl⟩,
        below_tuple_iff.mpr (Or.inr ⟨fs, rfl, hall⟩)⟩
  rw [hiff]
  clear hiff
  constructor
  · rintro ⟨fs, hfs, hall⟩
    induction hall generalizing qs with
    | nil =>
      cases hfs
      exact .nil
    | cons hef _ ih =>
      cases hfs with
      | cons hf hfs => exact .cons (belowSome_iff.mpr ⟨_, hf, hef⟩) (ih hfs)
  · intro h
    induction h with
    | nil => exact ⟨[], .nil, .nil⟩
    | cons heq _ ih =>
      obtain ⟨f, hf, hef⟩ := belowSome_iff.mp heq
      obtain ⟨fs, hfs, hall⟩ := ih
      exact ⟨f :: fs, .cons hf hfs, .cons hef hall⟩

/-- Tuples are compared element by element. -/
theorem sub_tuple (h : List.Forall₂ Sub ps qs) : Sub (.app .tuple ps) (.app .tuple qs) := by
  intro e he
  obtain ⟨es, hes, rfl⟩ := Ty.mem_expand_tuple.mp he
  rw [Ty.mem_expandAll_iff] at hes
  clear he
  refine belowSome_iff.mp (belowSome_tuple_iff.mpr ?_)
  induction hes generalizing qs with
  | nil =>
    cases h
    exact .nil
  | cons he _ ih =>
    cases h with
    | cons hpq h => exact .cons (belowSome_iff.mpr (hpq _ he)) (ih h)

/-- Two instantiations of one invariant constructor ask for both directions. -/
theorem sub_app_iff (hc : c ≠ .tuple) (hlen : ps.length = qs.length) :
    Sub (.app c ps) (.app c qs) ↔ ∀ p ∈ ps.zip qs, Sub p.1 p.2 ∧ Sub p.2 p.1 := by
  unfold Sub
  rw [Ty.expand_app hc, Ty.expand_app hc]
  simp only [List.mem_singleton, forall_eq, exists_eq_left]
  rw [below_app_iff hc]
  constructor
  · rintro (hany | ⟨qs', hqs, -, h⟩)
    · cases hany
    · cases hqs
      exact h
  · intro h
    exact Or.inr ⟨qs, rfl, hlen, h⟩

/-! ### Reflexivity and obvious equality -/

variable {a : Ty}

namespace Ty

theorem isPlain_app (hc : c ≠ .tuple) (h : (app c ps).isPlain) :
    c ≠ .type ∧ ps.length = c.arity ∧ ∀ p ∈ ps, p.isPlain := by
  cases c with
  | tuple => exact absurd rfl hc
  | type => simp [isPlain] at h
  | _ => simpa [isPlain, arePlain_iff] using h

theorem isPlain_tuple : (app .tuple ps).isPlain ↔ ∀ p ∈ ps, p.isPlain := by
  rw [isPlain, arePlain_iff]

/-- Induction over plain types. -/
theorem plain_induct {P : Ty → Prop} (nominal : ∀ n : Nominal, n.isProper → P (.nominal n))
    (tuple : ∀ ps : List Ty, (∀ p ∈ ps, p.isPlain) → (∀ p ∈ ps, P p) → P (.app .tuple ps))
    (app : ∀ (c : Con) (ps : List Ty), c ≠ .tuple → c ≠ .type → ps.length = c.arity →
      (∀ p ∈ ps, p.isPlain) → (∀ p ∈ ps, P p) → P (.app c ps))
    (union : ∀ (i : Nat) (a b : Ty), a.isPlain → b.isPlain → P a → P b → P (.union i a b)) :
    ∀ t : Ty, t.isPlain → P t := by
  suffices h : ∀ n (t : Ty), t.weight ≤ n → t.isPlain → P t from fun t => h t.weight t le_rfl
  intro n
  induction n with
  | zero =>
    intro t ht
    have := t.weight_pos
    omega
  | succ n ih =>
    intro t ht hp
    cases t with
    | nominal m => exact nominal m (by simpa [isPlain] using hp)
    | union i a b =>
      rw [weight] at ht
      simp only [isPlain, Bool.and_eq_true] at hp
      exact union i a b hp.1 hp.2 (ih a (by omega) hp.1) (ih b (by omega) hp.2)
    | app c ps =>
      have hlt : ∀ p ∈ ps, p.weight ≤ n := fun p hmem => by
        have := weight_lt_of_mem (c := c) hmem
        omega
      by_cases hc : c = .tuple
      · subst hc
        have hps := isPlain_tuple.mp hp
        exact tuple ps hps fun p hmem => ih p (hlt p hmem) (hps p hmem)
      · obtain ⟨htype, hlen, hps⟩ := isPlain_app hc hp
        exact app c ps hc htype hlen hps fun p hmem => ih p (hlt p hmem) (hps p hmem)
    | _ => simp [isPlain] at hp

/-- There is no `Vararg` to split off. -/
theorem not_vararg_of_isPlain (h : p.isPlain) (i : Nat) (t : Ty) : p ≠ vararg i t := by
  rintro rfl
  simp [isPlain] at h

theorem splitElems_of_plain (h : ∀ p ∈ ps, p.isPlain) :
    splitElems ps = (ps, none) := by
  induction ps with
  | nil => rfl
  | cons p ps ih =>
    rw [splitElems_cons fun i t hp _ => not_vararg_of_isPlain (h p (List.mem_cons_self ..)) i t hp,
      ih fun q hq => h q (List.mem_cons_of_mem _ hq)]

theorem elementPairs_of_plain (hp : ∀ p ∈ ps, p.isPlain)
    (hq : ∀ q ∈ qs, q.isPlain) :
    elementPairs ps qs = if ps.length = qs.length then some (ps.zip qs) else none := by
  rw [elementPairs, splitElems_of_plain hp, splitElems_of_plain hq]

theorem isGround_of_isPlain (h : t.isPlain) : t.isGround := by
  refine plain_induct (P := fun t => t.isGround) ?_ ?_ ?_ ?_ t h
  · intro n hn
    simpa [isGround] using hn
  · intro ps hps ih
    rw [isGround]
    induction ps with
    | nil => rfl
    | cons p ps ihp =>
      rw [groundElems_cons fun i t hp _ =>
        not_vararg_of_isPlain (hps p (List.mem_cons_self ..)) i t hp, Bool.and_eq_true]
      exact ⟨ih p (List.mem_cons_self ..), ihp (fun q hq => hps q (List.mem_cons_of_mem _ hq))
        fun q hq => ih q (List.mem_cons_of_mem _ hq)⟩
  · intro c ps hc _ hlen _ ih
    have hparams := groundParams_iff.mpr ih
    cases c <;> first | exact absurd rfl hc | simp [isGround, hlen, hparams]
  · intro i a b _ _ ha hb
    simp [isGround, ha, hb]

theorem exists_mem_expand (h : t.isPlain) : ∃ e, e ∈ t.expand := by
  refine plain_induct (P := fun t => ∃ e, e ∈ t.expand) ?_ ?_ ?_ ?_ t h
  · exact fun n _ => ⟨_, List.mem_singleton_self _⟩
  · intro ps hps ih
    have hall : ∃ es, List.Forall₂ (fun e p => e ∈ p.expand) es ps := by
      clear hps
      induction ps with
      | nil => exact ⟨[], .nil⟩
      | cons p ps ihp =>
        obtain ⟨e, he⟩ := ih p List.mem_cons_self
        obtain ⟨es, hes⟩ := ihp fun q hq => ih q (List.mem_cons_of_mem _ hq)
        exact ⟨e :: es, .cons he hes⟩
    obtain ⟨es, hes⟩ := hall
    exact ⟨_, mem_expand_tuple.mpr ⟨es, mem_expandAll_iff.mpr hes, rfl⟩⟩
  · intro c ps hc _ _ _ _
    exact ⟨_, (expand_app hc ps).symm ▸ List.mem_singleton_self _⟩
  · rintro i a b _ _ ⟨e, he⟩ _
    exact ⟨e, mem_expand_union.mpr (Or.inl he)⟩

theorem isPlain_of_mem_arms (h : t.isPlain) (ha : a ∈ t.arms) : a.isPlain := by
  induction t with
  | union i b c ihb ihc =>
    simp only [isPlain, Bool.and_eq_true] at h
    rcases List.mem_append.mp ha with ha | ha
    · exact ihb h.1 ha
    · exact ihc h.2 ha
  | _ =>
    rw [List.mem_singleton.mp ha]
    exact h

end Ty

/-- Obviously equal plain types are subtypes of each other. -/
theorem sub_of_egal (hx : x.isPlain) :
    ∀ y : Ty, y.isPlain → x.obviouslyEgal y → Sub x y ∧ Sub y x := by
  refine Ty.plain_induct (P := fun x => ∀ y : Ty, y.isPlain → x.obviouslyEgal y →
    Sub x y ∧ Sub y x) ?_ ?_ ?_ ?_ x hx
  · intro n _ y _ h
    simp only [Ty.obviouslyEgal, decide_eq_true_eq] at h
    subst h
    have hself : Sub (.nominal n) (.nominal n) := fun e he =>
      ⟨e, he, by
        rw [List.mem_singleton.mp he]
        exact .nominal n.mem_supers_self⟩
    exact ⟨hself, hself⟩
  · intro ps hps ih y hy h
    obtain ⟨qs, rfl, hforall⟩ := Ty.obviouslyEgal_app h
    obtain ⟨hlen, hzip⟩ := List.forall₂_iff_zip.mp hforall
    have hqs := Ty.isPlain_tuple.mp hy
    have hboth : ∀ p ∈ ps.zip qs, Sub p.1 p.2 ∧ Sub p.2 p.1 := fun p hp =>
      ih p.1 (List.of_mem_zip hp).1 p.2 (hqs p.2 (List.of_mem_zip hp).2) (hzip hp)
    exact ⟨sub_tuple (List.forall₂_iff_zip.mpr ⟨hlen, fun hp => (hboth _ hp).1⟩),
      sub_tuple (List.forall₂_iff_zip.mpr ⟨hlen.symm, fun hp => (hboth _ (mem_zip_swap hp)).2⟩)⟩
  · intro c ps hc _ _ hps ih y hy h
    obtain ⟨qs, rfl, hforall⟩ := Ty.obviouslyEgal_app h
    obtain ⟨hlen, hzip⟩ := List.forall₂_iff_zip.mp hforall
    have hqs := (Ty.isPlain_app hc hy).2.2
    have hboth : ∀ p ∈ ps.zip qs, Sub p.1 p.2 ∧ Sub p.2 p.1 := fun p hp =>
      ih p.1 (List.of_mem_zip hp).1 p.2 (hqs p.2 (List.of_mem_zip hp).2) (hzip hp)
    rw [sub_app_iff hc hlen, sub_app_iff hc hlen.symm]
    exact ⟨hboth, fun p hp => (hboth _ (mem_zip_swap hp)).symm⟩
  · intro i a b _ _ iha ihb y hy h
    obtain ⟨j, c, d, rfl, hac, hbd⟩ := Ty.obviouslyEgal_union h
    simp only [Ty.isPlain, Bool.and_eq_true] at hy
    obtain ⟨hac, hca⟩ := iha c hy.1 hac
    obtain ⟨hbd, hdb⟩ := ihb d hy.2 hbd
    have hunion : ∀ {i j : Nat} {a b c d : Ty}, Sub a c → Sub b d →
        Sub (.union i a b) (.union j c d) := by
      intro i j a b c d hac hbd e he
      obtain ⟨a', ha', he⟩ := Ty.mem_expand_arms.mp he
      have hside : ∃ s : Ty, (∀ f ∈ s.arms, f ∈ (Ty.union j c d).arms) ∧
          ∃ f ∈ s.expand, Below e f := by
        rcases List.mem_append.mp ha' with ha' | ha'
        · exact ⟨c, fun f hf => List.mem_append_left _ hf,
            hac e (Ty.mem_expand_arms.mpr ⟨a', ha', he⟩)⟩
        · exact ⟨d, fun f hf => List.mem_append_right _ hf,
            hbd e (Ty.mem_expand_arms.mpr ⟨a', ha', he⟩)⟩
      obtain ⟨s, hs, f, hf, hbelow⟩ := hside
      obtain ⟨b', hb', hf⟩ := Ty.mem_expand_arms.mp hf
      exact ⟨f, Ty.mem_expand_arms.mpr ⟨b', hs b' hb', hf⟩, hbelow⟩
    exact ⟨hunion hac hbd, hunion hca hdb⟩

theorem sub_refl (hx : x.isPlain) : Sub x x :=
  (sub_of_egal hx x hx (Ty.obviouslyEgal_refl x)).1

/-- What is obviously an arm is below the union. -/
theorem sub_of_obviouslyArmOf (ha : a.isPlain) (hy : y.isPlain)
    (h : y.obviouslyArmOf a) : Sub a y := by
  obtain ⟨b, hb, hegal⟩ := Ty.obviouslyArmOf_iff.mp h
  exact Sub.of_arm hb (sub_of_egal (Ty.isPlain_of_mem_arms hy hb) a ha hegal).2

/-! ### Types without covariant unions -/

/-- Such a type is its own and only expansion. -/
theorem expand_of_covUnionFree (hx : x.isPlain) (h : x.covUnionFree) : x.expand = [x] := by
  revert h
  refine Ty.plain_induct (P := fun x => x.covUnionFree → x.expand = [x]) ?_ ?_ ?_ ?_ x hx
  · intro n _ _
    rfl
  · intro ps hps ih h
    rw [Ty.covUnionFree, Ty.covUnionFreeElems_iff] at h
    have hall : Ty.expandAll ps = [ps] := by
      clear hps
      induction ps with
      | nil => rfl
      | cons p ps ihp =>
        rw [Ty.expandAll, ih p List.mem_cons_self (h p List.mem_cons_self),
          ihp (fun q hq => ih q (List.mem_cons_of_mem _ hq))
            fun q hq => h q (List.mem_cons_of_mem _ hq)]
        rfl
    rw [Ty.expand, hall]
    rfl
  · intro c ps hc _ _ _ _ _
    exact Ty.expand_app hc ps
  · intro i a b _ _ _ _ h
    simp [Ty.covUnionFree] at h

theorem sub_iff_belowSome (hx : x.isPlain) (h : x.covUnionFree) :
    Sub x y ↔ BelowSome x y.expand := by
  rw [Sub, expand_of_covUnionFree hx h, belowSome_iff]
  simp

/-! ### Arms -/

/-- The right side accepts the arm before any of its decisions is read. -/
def AtOnce (a y : Ty) : Prop :=
  y = Ty.any ∨ y = a ∨ (y.isUnion && y.obviouslyArmOf a) = true

theorem armReads_of_atOnce (hu : a.isUnion = false) (h : AtOnce a y) :
    armReads a y = {[]} := by
  have hret : (ret true).words = {[]} := by
    ext w
    simp [DecisionTree.words]
  rcases h with rfl | rfl | h
  · show (rightTree tree a Ty.any).words = _
    rw [← hret]
    rfl
  · unfold armReads rightTree
    rw [if_neg (by simp [hu]), armTree_self, hret]
  · rw [armReads_eq hu, if_pos h]

/-- What a shortcut of `sub` accepts is below in every expansion. -/
theorem sub_of_atOnce (ha : a.isPlain) (hy : y.isPlain) (h : AtOnce a y) : Sub a y := by
  rcases h with rfl | rfl | h
  · exact fun e _ => ⟨Ty.any, List.mem_singleton_self _, .any e⟩
  · exact sub_refl ha
  · exact sub_of_obviouslyArmOf ha hy (Bool.and_eq_true_iff.mp h).2

theorem mem_armReads (hu : a.isUnion = false) (h : ¬ AtOnce a y) {w : List Bool} :
    w ∈ armReads a y ↔ ∃ b ∈ y.arms, w ∈ (armTree tree a b).words := by
  rw [armReads_eq hu, if_neg fun hin => h (Or.inr (Or.inr hin))]
  exact Iff.rfl

theorem belowSome_arms :
    BelowSome e y.expand ↔ ∃ b ∈ y.arms, BelowSome e b.expand := by
  simp only [belowSome_iff]
  constructor
  · rintro ⟨f, hf, h⟩
    obtain ⟨b, hb, hf⟩ := Ty.mem_expand_arms.mp hf
    exact ⟨b, hb, f, hf, h⟩
  · rintro ⟨b, hb, f, hf, h⟩
    exact ⟨f, Ty.mem_expand_arms.mpr ⟨b, hb, hf⟩, h⟩

/-- Plain types never come to a `Type{T}` against `Type`. -/
theorem Slips.not_plain (h : Slips x y) : ¬ x.isPlain := by
  induction h with
  | type t => simp [Ty.typeType, Ty.isPlain]
  | params hc _ hmem _ ih =>
    exact fun hx => ih ((Ty.isPlain_app hc hx).2.2 _ (List.of_mem_zip hmem).1)
  | left _ _ _ ih =>
    intro hx
    simp only [Ty.isPlain, Bool.and_eq_true] at hx
    exact ih hx.1
  | right _ _ _ ih =>
    intro hx
    simp only [Ty.isPlain, Bool.and_eq_true] at hx
    exact ih hx.2

theorem tree_eq_armTree (hx : x.isUnion = false) (hy : y.isUnion = false) :
    tree x y = armTree tree x y := by
  rw [tree_of_not_union hx hy]
  split
  case isTrue hxy =>
    subst hxy
    rw [armTree_self]
  · rfl

theorem app_of_nameOf (h : b.nameOf = some (.con c)) :
    ∃ qs, b = .app c qs := by
  cases b with
  | app d qs => cases d <;> cases h <;> exact ⟨qs, rfl⟩
  | _ => cases h

theorem nominal_of_nameOf (hb : b.isPlain) {m : Nominal}
    (h : b.nameOf = some (.nominal m)) : b = .nominal m := by
  cases b with
  | nominal k =>
    cases h
    rfl
  | app d qs =>
    cases d with
    | type => simp [Ty.isPlain] at hb
    | _ => cases h
  | _ => cases h

/-- An expansion keeps the constructor. -/
theorem nameOf_of_mem_expand {f : Ty} (hub : b.isUnion = false) (hf : f ∈ b.expand) :
    f.nameOf = b.nameOf := by
  cases b with
  | union => cases hub
  | app c qs =>
    by_cases hc : c = .tuple
    · subst hc
      obtain ⟨fs, -, rfl⟩ := Ty.mem_expand_tuple.mp hf
      rfl
    · rw [Ty.expand_app hc] at hf
      rw [List.mem_singleton.mp hf]
  | _ => rw [List.mem_singleton.mp hf]

theorem eq_any_of_mem_expand (hub : b.isUnion = false) (h : Ty.any ∈ b.expand) :
    b = Ty.any :=
  Ty.eq_any_of_nameOf (nameOf_of_mem_expand hub h).symm

/-- Nominal types are compared along the supertype chain. -/
theorem mem_armTree_nominal {n : Nominal} (hb : b.isPlain) (hub : b.isUnion = false) :
    [] ∈ (armTree tree (.nominal n) b).words ↔ BelowSome (.nominal n) b.expand := by
  rw [← tree_eq_armTree rfl hub]
  by_cases hn : n = .builtin .bottom
  · subst hn
    obtain ⟨e, he⟩ := Ty.exists_mem_expand hb
    refine ⟨fun _ => belowSome_iff.mpr ⟨e, he, .bottom e⟩, fun _ => ?_⟩
    rw [tree_eq_armTree rfl hub]
    unfold armTree
    split
    · simp
    · rw [if_pos rfl]
      simp
  · constructor
    · intro h
      obtain ⟨-, m, hm, hname⟩ := nameOf_of_nominal hub hn ⟨[], h⟩
      obtain rfl := nominal_of_nameOf hb hname
      exact belowSome_iff.mpr ⟨_, List.mem_singleton_self _, .nominal hm⟩
    · intro h
      obtain ⟨e, he, hbelow⟩ := belowSome_iff.mp h
      have hname := nameOf_of_mem_expand hub he
      generalize hx : Ty.nominal n = x at hbelow
      cases hbelow with
      | any =>
        subst hx
        obtain rfl := nominal_of_nameOf hb hname.symm
        exact nil_mem_tree_nominal (Or.inr n.any_mem_supers)
      | bottom => exact absurd (Ty.nominal.inj hx) hn
      | nominal hm =>
        cases hx
        obtain rfl := nominal_of_nameOf hb hname.symm
        exact nil_mem_tree_nominal (Or.inr hm)
      | tuple => cases hx
      | invariant => cases hx

/-- Invariant parameters are compared both ways. -/
theorem mem_armTree_app (hc : c ≠ .tuple)
    (ha : (Ty.app c ps).isPlain) (hb : b.isPlain) (hub : b.isUnion = false)
    (h : ∀ qs, b = .app c qs → ∀ p ∈ ps.zip qs,
      ((tree p.1 p.2).words.Covers ↔ Sub p.1 p.2) ∧ ((tree p.2 p.1).words.Covers ↔ Sub p.2 p.1)) :
    [] ∈ (armTree tree (.app c ps) b).words ↔ BelowSome (.app c ps) b.expand := by
  obtain ⟨htype, hlen, hps⟩ := Ty.isPlain_app hc ha
  rw [← tree_eq_armTree rfl hub]
  by_cases hbc : ∃ qs, b = .app c qs
  · obtain ⟨qs, rfl⟩ := hbc
    obtain ⟨-, hlenq, hqs⟩ := Ty.isPlain_app hc hb
    rw [← (silent_tree (covUnionFree_app hc)).covers_iff,
      ← sub_iff_belowSome ha (covUnionFree_app hc), sub_app_iff hc (hlen.trans hlenq.symm),
      covers_invariant_iff hc (Ty.isGround_of_isPlain ha) (Ty.isGround_of_isPlain hb)]
    refine forall₂_congr fun p hp => ?_
    have hp₁ := hps p.1 (List.of_mem_zip hp).1
    have hp₂ := hqs p.2 (List.of_mem_zip hp).2
    obtain ⟨hfwd, hback⟩ := h qs rfl p hp
    rw [← hfwd, ← hback]
    have hg₁ := Ty.isGround_of_isPlain hp₁
    have hg₂ := Ty.isGround_of_isPlain hp₂
    constructor
    · rintro (heq | hequal)
      · rw [heq]
        exact ⟨covers_refl _, covers_refl _⟩
      · exact ⟨covers_of_equal hg₁ hg₂ hequal,
          covers_back_of_equal hg₁ _ hg₂ hequal fun hs => hs.not_plain hp₁⟩
    · rintro ⟨h₁, h₂⟩
      exact Or.inr (equal_of_mutual hg₁ hg₂ h₁ h₂)
  · -- only `Any` is left
    by_cases hany : b = Ty.any
    · subst hany
      refine ⟨fun _ => belowSome_iff.mpr ⟨_, List.mem_singleton_self _, .any _⟩, fun _ => ?_⟩
      rw [tree_eq_armTree rfl rfl]
      simp [armTree]
    · refine ⟨fun hmem => ?_, fun hbelow => ?_⟩
      · obtain hb' | hb' := nameOf_of_app hub htype ⟨[], hmem⟩
        · exact absurd hb' hany
        · exact absurd (app_of_nameOf hb') hbc
      · obtain ⟨f, hf, hbelow⟩ := belowSome_iff.mp hbelow
        obtain rfl | ⟨qs, rfl, -⟩ := (below_app_iff hc).mp hbelow
        · exact absurd (eq_any_of_mem_expand hub hf) hany
        · have hf' := nameOf_of_mem_expand hub hf
          exact absurd (app_of_nameOf (hf'.symm.trans (by
            cases c <;> first | rfl | exact absurd rfl htype))) hbc

theorem nil_mem_allTree_iff {pairs : List (Ty × Ty)} :
    [] ∈ (allTree tree pairs).words ↔ ∀ p ∈ pairs, [] ∈ (tree p.1 p.2).words := by
  induction pairs with
  | nil => simp [allTree]
  | cons p pairs ih =>
    rw [allTree, DecisionTree.words_and, List.forall_mem_cons, ← ih]
    constructor
    · rintro ⟨v, hv, w, hw, hvw⟩
      obtain ⟨rfl, rfl⟩ := List.append_eq_nil_iff.mp hvw
      exact ⟨hv, hw⟩
    · rintro ⟨hv, hw⟩
      exact ⟨[], hv, [], hw, rfl⟩

/-- A tuple without decisions is compared element by element with a tuple of its
length. -/
theorem mem_armTree_tuple (ha : (Ty.app .tuple ps).isPlain)
    (hfree : (Ty.app .tuple ps).covUnionFree)
    (hb : b.isPlain) (hub : b.isUnion = false)
    (h : ∀ qs, b = .app .tuple qs → ∀ p ∈ ps.zip qs, (tree p.1 p.2).words.Covers ↔ Sub p.1 p.2) :
    [] ∈ (armTree tree (.app .tuple ps) b).words ↔ BelowSome (.app .tuple ps) b.expand := by
  have hps := Ty.isPlain_tuple.mp ha
  have helems := Ty.covUnionFreeElems_iff.mp hfree
  by_cases hany : b = Ty.any
  · subst hany
    refine ⟨fun _ => belowSome_iff.mpr ⟨_, List.mem_singleton_self _, .any _⟩, fun _ => ?_⟩
    simp [armTree]
  by_cases hself : b = .app .tuple ps
  · subst hself
    refine ⟨fun _ => (sub_iff_belowSome ha hfree).mp (sub_refl ha), fun _ => ?_⟩
    simp [armTree_self]
  by_cases htuple : ∃ qs, b = .app .tuple qs
  · obtain ⟨qs, rfl⟩ := htuple
    have hpq : ps ≠ qs := fun heq => hself (by rw [heq])
    rw [armTree_tuple, if_neg hpq, tupleTree,
      Ty.elementPairs_of_plain hps (Ty.isPlain_tuple.mp hb), belowSome_tuple_iff,
      List.forall₂_iff_zip]
    by_cases hlen : ps.length = qs.length
    · rw [if_pos hlen, nil_mem_allTree_iff]
      refine Iff.trans (forall₂_congr fun p hp => ?_) ⟨fun hall => ⟨hlen, fun hp => hall _ hp⟩,
        fun hall p hp => hall.2 hp⟩
      have hp₁ := (List.of_mem_zip hp).1
      rw [← (silent_tree (helems p.1 hp₁)).covers_iff, h qs rfl p hp,
        sub_iff_belowSome (hps p.1 hp₁) (helems p.1 hp₁)]
    · simp [hlen]
  · -- neither found nor truly below
    refine ⟨fun hmem => ?_, fun hbelow => ?_⟩
    · rw [← tree_eq_armTree rfl hub] at hmem
      obtain hb' | hname := nameOf_of_app hub (by simp) ⟨[], hmem⟩
      · exact absurd hb' hany
      · exact absurd (app_of_nameOf hname) htuple
    · obtain ⟨f, hf, hbelow⟩ := belowSome_iff.mp hbelow
      obtain rfl | ⟨fs, rfl, -⟩ := below_tuple_iff.mp hbelow
      · exact absurd (eq_any_of_mem_expand hub hf) hany
      · exact absurd (app_of_nameOf (nameOf_of_mem_expand hub hf).symm) htuple

/-- An arm that makes no decision is compared rightly once each comparison with a
right arm is. -/
theorem covers_armReads_iff (ha : a.isPlain) (hy : y.isPlain) (hu : a.isUnion = false)
    (hfree : a.covUnionFree)
    (h : ∀ b ∈ y.arms, [] ∈ (armTree tree a b).words ↔ BelowSome a b.expand) :
    (armReads a y).Covers ↔ Sub a y := by
  by_cases honce : AtOnce a y
  · refine ⟨fun _ => sub_of_atOnce ha hy honce, fun _ => Language.covers_of_nil_mem ?_⟩
    rw [armReads_of_atOnce hu honce]
    rfl
  · have hnil : (armReads a y).Covers ↔ [] ∈ armReads a y := by
      refine ⟨fun hcovers => ?_, Language.covers_of_nil_mem⟩
      obtain ⟨w, hw⟩ := hcovers.nonempty
      obtain ⟨b, -, hwb⟩ := (mem_armReads hu honce).mp hw
      rwa [silent_armTree hfree (fun p q _ hp => silent_tree hp) w hwb] at hw
    rw [hnil, mem_armReads hu honce, sub_iff_belowSome ha hfree, belowSome_arms]
    exact exists_congr fun b => and_congr_right fun hb => h b hb

/-! ### Steady types -/

namespace Ty

mutual

/-- No union among the elements of a tuple, at any depth. -/
def isSteady : Ty → Bool
  | union _ a b => isSteady a && isSteady b
  | app .tuple ps => covUnionFreeElems ps && areSteady ps
  | app _ ps => areSteady ps
  | _ => true

/-- `isSteady` of every parameter. -/
def areSteady : List Ty → Bool
  | [] => true
  | p :: ps => isSteady p && areSteady ps

end

theorem areSteady_iff {ps : List Ty} : areSteady ps = true ↔ ∀ p ∈ ps, p.isSteady := by
  induction ps with
  | nil => simp [areSteady]
  | cons p ps ih => simp [areSteady, ih]

theorem isSteady_of_app {c : Con} {ps : List Ty} (h : (app c ps).isSteady) :
    ∀ p ∈ ps, p.isSteady := by
  rw [← areSteady_iff]
  cases c with
  | tuple =>
    rw [isSteady, Bool.and_eq_true] at h
    exact h.2
  | _ => exact h

theorem isSteady_of_mem_arms {t a : Ty} (h : t.isSteady) (ha : a ∈ t.arms) : a.isSteady := by
  induction t with
  | union i b c ihb ihc =>
    rw [isSteady, Bool.and_eq_true] at h
    rcases List.mem_append.mp ha with ha | ha
    · exact ihb h.1 ha
    · exact ihc h.2 ha
  | _ =>
    obtain rfl := List.mem_singleton.mp ha
    exact h

theorem covUnionFree_of_isSteady {t : Ty} (hp : t.isPlain) (h : t.isSteady)
    (hu : t.isUnion = false) : t.covUnionFree := by
  cases t with
  | union => cases hu
  | app c ps =>
    cases c with
    | tuple =>
      rw [isSteady, Bool.and_eq_true] at h
      exact h.1
    | _ => rfl
  | nominal => rfl
  | _ => simp [isPlain] at hp

theorem isPlain_of_app {c : Con} {ps : List Ty} (h : (app c ps).isPlain) :
    ∀ p ∈ ps, p.isPlain := by
  by_cases hc : c = .tuple
  · subst hc
    exact isPlain_tuple.mp h
  · exact (isPlain_app hc h).2.2

end Ty

theorem sub_iff_arms : Sub x y ↔ ∀ a ∈ x.arms, Sub a y := by
  constructor
  · exact fun h a ha e he => h e (Ty.mem_expand_arms.mpr ⟨a, ha, he⟩)
  · intro h e he
    obtain ⟨a, ha, he⟩ := Ty.mem_expand_arms.mp he
    exact h a ha e he

/-- **On steady types ground subtyping is the set-theoretic rule.**  The induction is on the
size of the two sides together, because an invariant parameter is compared in both
directions. -/
theorem covers_iff_sub (hx : x.isPlain) (hy : y.isPlain) (hsx : x.isSteady) (hsy : y.isSteady) :
    (tree x y).words.Covers ↔ Sub x y := by
  induction hw : x.weight + y.weight using Nat.strong_induction_on generalizing x y with
  | _ w ih =>
    subst hw
    rw [covers_iff_arms (Ty.isGround_of_isPlain hx) (Ty.isGround_of_isPlain hy), sub_iff_arms]
    refine forall₂_congr fun a ha => ?_
    have hpa := Ty.isPlain_of_mem_arms hx ha
    have hsa := Ty.isSteady_of_mem_arms hsx ha
    have hua := Ty.not_union_of_mem_arms ha
    have hwa := Ty.weight_le_of_mem_arms ha
    have hfree := Ty.covUnionFree_of_isSteady hpa hsa hua
    -- the parameters of the arm against those of an arm on the right
    have hparams : ∀ {c : Con} {ps qs : List Ty}, a = .app c ps → .app c qs ∈ y.arms →
        ∀ p ∈ ps.zip qs, ((tree p.1 p.2).words.Covers ↔ Sub p.1 p.2) ∧
          ((tree p.2 p.1).words.Covers ↔ Sub p.2 p.1) := by
      rintro c ps qs rfl hqs p hp
      obtain ⟨h₁, h₂⟩ := List.of_mem_zip hp
      have hw₁ := Ty.weight_lt_of_mem (c := c) h₁
      have hw₂ := Ty.weight_lt_of_mem (c := c) h₂
      have hwq := Ty.weight_le_of_mem_arms hqs
      have hp₁ := Ty.isPlain_of_app hpa _ h₁
      have hp₂ := Ty.isPlain_of_app (Ty.isPlain_of_mem_arms hy hqs) _ h₂
      have hs₁ := Ty.isSteady_of_app hsa _ h₁
      have hs₂ := Ty.isSteady_of_app (Ty.isSteady_of_mem_arms hsy hqs) _ h₂
      exact ⟨ih _ (by omega) hp₁ hp₂ hs₁ hs₂ rfl, ih _ (by omega) hp₂ hp₁ hs₂ hs₁ rfl⟩
    refine covers_armReads_iff hpa hy hua hfree fun b hb => ?_
    have hpb := Ty.isPlain_of_mem_arms hy hb
    have hub := Ty.not_union_of_mem_arms hb
    cases a with
    | nominal n => exact mem_armTree_nominal hpb hub
    | app c ps =>
      by_cases hc : c = .tuple
      · subst hc
        exact mem_armTree_tuple hpa hfree hpb hub fun qs hqs p hp =>
          (hparams rfl (hqs ▸ hb) p hp).1
      · exact mem_armTree_app hc hpa hpb hub fun qs hqs => hparams rfl (hqs ▸ hb)
    | union => cases hua
    | _ => simp [Ty.isPlain] at hpa

end Ruju
