import Ruju.Interp.Eval
import Ruju.Subtype.Engine

/-!
# Method selection

The method table of `dispatch.rs`: how it is filled, and which entry `select` picks.
The table is one list for all generic functions, in the order of registration, and an
entry is known by its index.  Which signature is below which is a parameter: nothing
below depends on the subtype relation being transitive, which on these types it need
not be.

**What a redefinition does.**  `select` scans the applicable entries from the oldest
and stops at the first that is below all of them.  Of two entries with equivalent
signatures both pass that test or neither does, as far as the relation is transitive,
so the older one wins: registering a signature again has no effect.
`select_latest_iff` says exactly when the newest equivalent entry is the one selected.
-/

namespace Ruju.Interp

variable {V : Type}

/-! ### Registration -/

/-- `add_method`. -/
def addMethod (func : Nat) (sig : V) (body : Body V) (table : List (Entry V)) : List (Entry V) :=
  table ++ [{ func, sig, body, fptr1 := none }]

/-- `add_compiled_method`: the body is empty, the entry point is an index of the
function table. -/
def addCompiledMethod (func : Nat) (sig : V) (fptr1 : Nat) (table : List (Entry V)) :
    List (Entry V) :=
  table ++ [{ func, sig, body := ⟨0, []⟩, fptr1 := some fptr1 }]

/-- A call that registers a method. -/
inductive Registration (V : Type)
  | method (func : Nat) (sig : V) (body : Body V)
  | compiled (func : Nat) (sig : V) (fptr1 : Nat)

/-- The effect of a registration on the table. -/
def Registration.apply (table : List (Entry V)) : Registration V → List (Entry V)
  | method func sig body => addMethod func sig body table
  | compiled func sig fptr1 => addCompiledMethod func sig fptr1 table

/-- The table after a sequence of registrations. -/
def registered (calls : List (Registration V)) : List (Entry V) :=
  calls.foldl Registration.apply []

/-! ### Selection -/

section
variable (issubtype : V → V → Bool)

/-- Is the entry one of `func` that accepts the arguments? -/
def accepts (func : Nat) (argtuple : V) (e : Entry V) : Bool :=
  decide (e.func = func) && issubtype argtuple e.sig

/-- The applicable methods, as index and signature. -/
def applicable (table : List (Entry V)) (func : Nat) (argtuple : V) : List (Nat × V) :=
  (table.zipIdx.filter fun p => accepts issubtype func argtuple p.1).map fun p => (p.2, p.1.sig)

/-- `select`: the first applicable method that is below all applicable ones, or else
the first applicable one. -/
def selectIndex (table : List (Entry V)) (func : Nat) (argtuple : V) : Option Nat :=
  let methods := applicable issubtype table func argtuple
  match methods.find? fun p => methods.all fun q => issubtype p.2 q.2 with
  | some p => some p.1
  | none => methods.head?.map (·.1)

/-! ### The most specific method -/

/-- Entry `i` is applicable, and below every applicable entry. -/
def IsMostSpecific (table : List (Entry V)) (func : Nat) (argtuple : V) (i : Nat) : Prop :=
  ∃ e, table[i]? = some e ∧ accepts issubtype func argtuple e ∧
    ∀ (j : Nat) (e' : Entry V), table[j]? = some e' → accepts issubtype func argtuple e' →
      issubtype e.sig e'.sig

/-- Entries `i` and `j` are methods of `func` with equivalent signatures. -/
def AreEquivalent (table : List (Entry V)) (func : Nat) (i j : Nat) : Prop :=
  ∃ e e', table[i]? = some e ∧ table[j]? = some e' ∧ e.func = func ∧ e'.func = func ∧
    issubtype e.sig e'.sig ∧ issubtype e'.sig e.sig

/-- Entry `i` is the most recently registered of those equivalent to `m`. -/
def IsLatest (table : List (Entry V)) (func : Nat) (m i : Nat) : Prop :=
  AreEquivalent issubtype table func m i ∧ ∀ j, AreEquivalent issubtype table func m j → j ≤ i

end

/-- The interpreter's `select` is the entry at the index. -/
theorem select_eq_getElem? {H : Type} (P : Prims V H) (methods : List (Entry V)) (func : Nat)
    (argtuple : V) (h : H) : select P methods func argtuple h =
      (selectIndex (fun s t => P.issubtype s t h) methods func argtuple).bind (methods[·]?) := by
  -- both filter the same entries, one of them together with their indices
  obtain ⟨l, happ, hfilter, hindex⟩ : ∃ l : List (Entry V × Nat),
      applicable (fun s t => P.issubtype s t h) methods func argtuple =
        l.map (fun p => (p.2, p.1.sig)) ∧
      (methods.filter fun e => decide (e.func = func) && P.issubtype argtuple e.sig h) =
        l.map (·.1) ∧ ∀ p ∈ l, methods[p.2]? = some p.1 := by
    refine ⟨_, rfl, ?_, fun p hp => ?_⟩
    · conv_lhs => rw [← List.zipIdx_map_fst 0 methods, List.filter_map]
      rfl
    · simpa using List.mem_zipIdx_iff_getElem?.mp (List.mem_filter.mp hp).1
  unfold select selectIndex
  simp only [happ, hfilter, List.find?_map, List.all_map, List.head?_map, Function.comp_def]
  cases hfind : l.find? fun p => l.all fun q => P.issubtype p.1.sig q.1.sig h with
  | some p => simpa using (hindex p (List.mem_of_find?_eq_some hfind)).symm
  | none =>
    cases l with
    | nil => rfl
    | cons p l => simpa using (hindex p List.mem_cons_self).symm

section
variable {issubtype : V → V → Bool} {table : List (Entry V)} {func : Nat} {argtuple : V}

theorem mem_applicable {i : Nat} {s : V} :
    (i, s) ∈ applicable issubtype table func argtuple ↔
      ∃ e, table[i]? = some e ∧ accepts issubtype func argtuple e ∧ e.sig = s := by
  simp only [applicable, List.mem_map, List.mem_filter, Prod.mk.injEq, Prod.exists,
    List.mk_mem_zipIdx_iff_getElem?]
  constructor
  · rintro ⟨e, j, ⟨hj, he⟩, rfl, rfl⟩
    exact ⟨e, hj, he, rfl⟩
  · rintro ⟨e, he, hacc, rfl⟩
    exact ⟨e, i, ⟨he, hacc⟩, rfl, rfl⟩

/-- The test of `select` is the definition of most specific. -/
theorem isMostSpecific_iff {i : Nat} :
    IsMostSpecific issubtype table func argtuple i ↔
      ∃ s, (i, s) ∈ applicable issubtype table func argtuple ∧
        (applicable issubtype table func argtuple).all fun q => issubtype s q.2 := by
  simp only [List.all_eq_true, Prod.forall, mem_applicable]
  constructor
  · rintro ⟨e, he, hacc, hall⟩
    refine ⟨e.sig, ⟨e, he, hacc, rfl⟩, ?_⟩
    rintro j _ ⟨e', he', hacc', rfl⟩
    exact hall j e' he' hacc'
  · rintro ⟨_, ⟨e, he, hacc, rfl⟩, hall⟩
    exact ⟨e, he, hacc, fun j e' he' hacc' => hall j e'.sig ⟨e', he', hacc', rfl⟩⟩

/-- Indices ascend along the applicable methods. -/
theorem pairwise_applicable :
    (applicable issubtype table func argtuple).Pairwise fun p q => p.1 < q.1 := by
  refine List.pairwise_map.mpr (List.Pairwise.filter _ ?_)
  exact List.pairwise_map.mp
    (by rw [List.zipIdx_map_snd]; exact List.pairwise_lt_range')

/-- **What `select` returns**: the oldest most specific entry, if there is one. -/
theorem selectIndex_of_isMostSpecific {m : Nat}
    (hm : IsMostSpecific issubtype table func argtuple m) :
    ∃ i, selectIndex issubtype table func argtuple = some i ∧
      IsMostSpecific issubtype table func argtuple i ∧ i ≤ m := by
  obtain ⟨s, hs, hall⟩ := isMostSpecific_iff.mp hm
  obtain ⟨p, hfind⟩ : ∃ p, (applicable issubtype table func argtuple).find?
      (fun p => (applicable issubtype table func argtuple).all fun q => issubtype p.2 q.2) =
        some p :=
    Option.isSome_iff_exists.mp (List.find?_isSome.mpr ⟨(m, s), hs, hall⟩)
  refine ⟨p.1, by simp [selectIndex, hfind], isMostSpecific_iff.mpr ⟨p.2, ?_, ?_⟩, ?_⟩
  · exact List.mem_of_find?_eq_some hfind
  · have htest := List.find?_some hfind
    exact htest
  · -- everything before `p` fails the test, and `m` passes it
    obtain ⟨-, before, after, hsplit, hbefore⟩ := List.find?_eq_some_iff_append.mp hfind
    have hsorted : (applicable issubtype table func argtuple).Pairwise fun p q => p.1 < q.1 :=
      pairwise_applicable
    rw [hsplit] at hs hsorted
    rcases List.mem_append.mp hs with h | h
    · have hfail := hbefore _ h
      simp only [hall, Bool.not_true, Bool.false_eq_true] at hfail
    · rcases List.mem_cons.mp h with rfl | h
      · exact le_rfl
      · exact le_of_lt ((List.pairwise_cons.mp (List.pairwise_append.mp hsorted).2.1).1 _ h)

/-- Two most specific entries have equivalent signatures. -/
theorem areEquivalent_of_isMostSpecific {i j : Nat}
    (hi : IsMostSpecific issubtype table func argtuple i)
    (hj : IsMostSpecific issubtype table func argtuple j) :
    AreEquivalent issubtype table func i j := by
  obtain ⟨e, he, hacc, hall⟩ := hi
  obtain ⟨e', he', hacc', hall'⟩ := hj
  have hfunc : ∀ {e : Entry V}, accepts issubtype func argtuple e → e.func = func := by
    intro e h
    simp only [accepts, Bool.and_eq_true, decide_eq_true_eq] at h
    exact h.1
  exact ⟨e, e', he, he', hfunc hacc, hfunc hacc', hall j e' he' hacc', hall' i e he hacc⟩

end

/-- **When redefinition takes effect.**  After any registrations and for any arguments
with a most specific method, `select` picks the most recently registered equivalent of
it iff no equivalent of it was registered after it. -/
theorem select_latest_iff (issubtype : V → V → Bool) (calls : List (Registration V)) (func : Nat)
    (argtuple : V) :
    (∀ m, IsMostSpecific issubtype (registered calls) func argtuple m →
        ∃ i, selectIndex issubtype (registered calls) func argtuple = some i ∧
          IsLatest issubtype (registered calls) func m i) ↔
      ∀ m, IsMostSpecific issubtype (registered calls) func argtuple m →
        ∀ j, AreEquivalent issubtype (registered calls) func m j → j ≤ m := by
  constructor
  · intro h m hm j hj
    obtain ⟨i, hsel, hlatest⟩ := h m hm
    obtain ⟨i', hsel', -, hle⟩ := selectIndex_of_isMostSpecific hm
    have hi : i = i' := Option.some.inj (hsel.symm.trans hsel')
    have := hlatest.2 j hj
    omega
  · intro h m hm
    obtain ⟨i, hsel, hi, hle⟩ := selectIndex_of_isMostSpecific hm
    -- the selected entry and `m` are equivalent, so neither is older than the other
    have hmi : m ≤ i := h i hi m (areEquivalent_of_isMostSpecific hi hm)
    obtain rfl : i = m := by omega
    exact ⟨i, hsel, areEquivalent_of_isMostSpecific hm hm, h i hm⟩

/-- `issubtype` of the runtime on types that need at most `fuel` levels of recursion. -/
def issubtypeWithin (fuel : Nat) (a b : Ty) : Bool :=
  subtype fuel 0 a b = some true

/-- `Tuple{Int64}`. -/
def intTuple : Ty := .app .tuple [.builtin .int64]

/-- Function 0 defined on `Tuple{Int64}` twice, with a body and then with a compiled
entry point. -/
def definedTwice : List (Registration Ty) :=
  [.method 0 intTuple ⟨0, []⟩, .compiled 0 intTuple 7]

theorem sig_of_definedTwice {j : Nat} {e : Entry Ty}
    (h : (registered definedTwice)[j]? = some e) : j ≤ 1 ∧ e.sig = intTuple := by
  match j, h with
  | 0, h | 1, h =>
    cases h
    exact ⟨by omega, rfl⟩

/-- **The second definition is ignored.**  Both entries are most specific for an `Int64`
argument, the second is the latest, and the first is selected. -/
theorem redefinition_ignored :
    IsMostSpecific (issubtypeWithin 12) (registered definedTwice) 0 intTuple 0 ∧
      IsMostSpecific (issubtypeWithin 12) (registered definedTwice) 0 intTuple 1 ∧
      IsLatest (issubtypeWithin 12) (registered definedTwice) 0 0 1 ∧
      selectIndex (issubtypeWithin 12) (registered definedTwice) 0 intTuple = some 0 := by
  have hrefl : issubtypeWithin 12 intTuple intTuple = true := by decide +kernel
  have hbelow : ∀ (j : Nat) (e : Entry Ty), (registered definedTwice)[j]? = some e →
      accepts (issubtypeWithin 12) 0 intTuple e → issubtypeWithin 12 intTuple e.sig := by
    intro j e he _
    rw [(sig_of_definedTwice he).2]
    exact hrefl
  refine ⟨⟨_, rfl, by simpa [accepts] using hrefl, hbelow⟩,
    ⟨_, rfl, by simpa [accepts] using hrefl, hbelow⟩,
    ⟨⟨_, _, rfl, rfl, rfl, rfl, hrefl, hrefl⟩, ?_⟩, ?_⟩
  · rintro j ⟨_, e', -, he', -⟩
    exact (sig_of_definedTwice he').1
  · simp [selectIndex, applicable, registered, definedTwice, Registration.apply, addMethod,
      addCompiledMethod, accepts, hrefl]

end Ruju.Interp
