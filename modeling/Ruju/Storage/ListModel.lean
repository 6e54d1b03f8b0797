import Ruju.Storage.Growth

/-!
# Arrays are lists

The operations of `array.rs` against lists of cells.  The list model knows nothing of
buffers and capacities: a new array is a list of zero cells, growing appends zero cells,
shrinking takes a prefix, an access beyond the end is an error.  Whatever is done to
whatever arrays, each holds its list's cells, and answers what the list answers
(`array_refines_list`).  An operation on one array leaves the lists of the others alone:
arrays do not share buffers.

An operation that runs out of memory leaves the lists as they are, so a run may go on
after a failure.  It does so only where a request that it makes is refused (`HasRoom`): a
run in which every request is granted is a run of the lists.
-/

namespace Ruju.Storage

/-- An operation on an array. -/
inductive ArrayOp
  | aref (i : Nat)
  | aset (i v : Nat)
  | push (v : Nat)
  | growEnd (inc : Nat)
  | delEnd (dec : Nat)

namespace ArrayOp

/-- The operation on the store; only `aref` returns a value. -/
def exec (R : Runtime) (a : Nat) : ArrayOp → StoreOp (Option Nat)
  | aref i => fun s => ((Arr.aref R a i s).1.map some, (Arr.aref R a i s).2)
  | aset i v => fun s => ((Arr.aset R a i v s).1.map fun _ => none, (Arr.aset R a i v s).2)
  | push v => fun s => ((Arr.push R a v s).1.map fun _ => none, (Arr.push R a v s).2)
  | growEnd inc => fun s =>
    ((Arr.growEnd R a inc s).1.map fun _ => none, (Arr.growEnd R a inc s).2)
  | delEnd dec => fun s => ((Arr.delEnd a dec s).1.map fun _ => none, (Arr.delEnd a dec s).2)

/-- The operation on a list of cells.  The store tells what the values are. -/
def onList (R : Runtime) (s : Store) (a : Nat) (elem : TypeObj) (cs : List (List UInt8)) :
    ArrayOp → Except Error (Option (List UInt8)) × List (List UInt8)
  | aref i =>
    match cs[i]? with
    | none => (.error (.bounds a (i + 1)), cs)
    | some c => if isUnset elem c then (.error .undefRef, cs) else (.ok (some c), cs)
  | aset i v =>
    if cs.length ≤ i then (.error (.bounds a (i + 1)), cs)
    else if Memory.accepts R elem (s.typeOf v) then (.ok none, cs.set i (cellOf s elem v))
    else (.error (.message (Memory.typeMessage elem (s.typeOf v))), cs)
  | push v => (.ok none, cs ++ [cellOf s elem v])
  | growEnd inc => (.ok none, cs ++ List.replicate inc (zeroCell elem))
  | delEnd dec =>
    if cs.length < dec then (.error (.bounds a 0), cs)
    else (.ok none, cs.take (cs.length - dec))

/-- Stored values are live, and pushed ones may become elements. -/
def Ready (R : Runtime) (s : Store) (elem : TypeObj) : ArrayOp → Prop
  | aset _ v => Live R s v
  | push v => Live R s v ∧ Memory.accepts R elem (s.typeOf v)
  | _ => True

/-- The requests for memory that the operation may have to make are granted: a box for an
inline element, or a buffer of the next capacity. -/
def HasRoom (R : Runtime) (s : Store) (elem : TypeObj) (cap len : Nat) : ArrayOp → Prop
  | aref _ => ∀ n, elemKind elem = .bits n → s.Grants R n
  | push _ => CanGrow R s elem cap (len + 1)
  | growEnd inc => CanGrow R s elem cap (len + inc)
  | _ => True

end ArrayOp

/-- The operation reported a lack of memory. -/
def OutOfRoom {α : Type} (r : Except Error α) : Prop := ∃ e, r = .error e ∧ e.isAllocation

/-- The array's answer is the list's: the same error, or a value that shows the cell. -/
def Answers (R : Runtime) (s : Store) (elem : TypeObj) (r : Except Error (Option Nat))
    (r' : Except Error (Option (List UInt8))) : Prop :=
  match r, r' with
  | .error e, .error e' => e = e'
  | .ok none, .ok none => True
  | .ok (some v), .ok (some c) => Shows R s elem c v
  | _, _ => False

/-- The arrays of a program as lists of cells, by their references. -/
abbrev Lists := Nat → Option (TypeObj × List (List UInt8))

/-- Every array holds the cells of its list, with room for them and zeros behind them, and
no two of them share a buffer. -/
structure Tracks (s : Store) (L : Lists) : Prop where
  holds : ∀ a elem cs, L a = some (elem, cs) → ∃ mem cap, Holds s a elem mem cap cs
  apart : ∀ a b, a ≠ b → L a ≠ none → L b ≠ none → Arr.memOf s a ≠ Arr.memOf s b

/-- A step of a program: a new array, or an operation on one. -/
inductive ArrayStep
  | alloc1d (elem : TypeObj) (len : Nat)
  | on (a : Nat) (op : ArrayOp)

/-- **The refinement, along a run**: the lists are tracked, and every operation answers as
on the list, unless a request is refused. -/
def Refines (R : Runtime) : List ArrayStep → Store → Lists → Prop
  | [], s, L => Tracks s L
  | .alloc1d elem len :: steps, s, L => Tracks s L ∧
    ((¬ CanAlloc R s elem len ∧ OutOfRoom (Arr.alloc1d R elem len s).1 ∧
        Refines R steps (Arr.alloc1d R elem len s).2 L) ∨
      ∃ a, (Arr.alloc1d R elem len s).1 = .ok a ∧ L a = none ∧
        Refines R steps (Arr.alloc1d R elem len s).2
          (Function.update L a (some (elem, List.replicate len (zeroCell elem)))))
  | .on a op :: steps, s, L => Tracks s L ∧
    ∀ elem cs, L a = some (elem, cs) → op.Ready R s elem →
      (¬ op.HasRoom R s elem (Memory.len s (Arr.memOf s a)) cs.length ∧
          OutOfRoom (op.exec R a s).1 ∧ Refines R steps (op.exec R a s).2 L) ∨
        (Answers R (op.exec R a s).2 elem (op.exec R a s).1 (op.onList R s a elem cs).1 ∧
          Refines R steps (op.exec R a s).2
            (Function.update L a (some (elem, (op.onList R s a elem cs).2))))

section

variable {R : Runtime} {s s' : Store} {a mem mem' cap : Nat} {elem : TypeObj}
  {cs cs' : List (List UInt8)} {L : Lists}

/-- One operation: out of memory with the cells as they were, or the list's operation. -/
theorem exec_refines (hs : s.Valid) (h : Holds s a elem mem cap cs)
    (op : ArrayOp) (hop : op.Ready R s elem) :
    (op.exec R a s).2.Valid ∧
      ((¬ op.HasRoom R s elem cap cs.length ∧ OutOfRoom (op.exec R a s).1 ∧
          s.Extends (op.exec R a s).2) ∨
        (Answers R (op.exec R a s).2 elem (op.exec R a s).1 (op.onList R s a elem cs).1 ∧
          ∃ mem' cap', Holds (op.exec R a s).2 a elem mem' cap' (op.onList R s a elem cs).2 ∧
            Local a mem s mem' (op.exec R a s).2)) := by
  cases op with
  | aref i =>
    simp only [ArrayOp.exec, ArrayOp.onList]
    cases hget : cs[i]? with
    | none =>
      rw [aref_of_le h (List.getElem?_eq_none_iff.mp hget)]
      exact ⟨hs, Or.inr ⟨rfl, mem, cap, h, .refl a mem s⟩⟩
    | some c =>
      obtain ⟨hvalid, hext, hcases⟩ := aref_spec (R := R) hs h hget
      have h' : Holds (Arr.aref R a i s).2 a elem mem cap cs :=
        ⟨hext _ _ h.array, hext _ _ h.buffer, h.sized, h.le_cap⟩
      have hlocal : Local a mem s mem (Arr.aref R a i s).2 :=
        ⟨Or.inl rfl, fun b o _ _ hb => hext b o hb⟩
      refine ⟨hvalid, ?_⟩
      rcases hcases with ⟨hunset, herr⟩ | ⟨hset, ⟨herr, n, hkind, hno⟩ | ⟨r, hok, hshows⟩⟩
      · simp only [if_pos hunset, herr]
        exact Or.inr ⟨rfl, mem, cap, h', hlocal⟩
      · rw [herr]
        exact Or.inl ⟨fun hroom => hno (hroom n hkind), ⟨_, rfl, rfl⟩, hext⟩
      · simp only [if_neg hset, hok]
        exact Or.inr ⟨hshows, mem, cap, h', hlocal⟩
  | aset i v =>
    simp only [ArrayOp.exec, ArrayOp.onList]
    by_cases hi : cs.length ≤ i
    · rw [aset_of_le h hi, if_pos hi]
      exact ⟨hs, Or.inr ⟨rfl, mem, cap, h, .refl a mem s⟩⟩
    · rw [if_neg hi]
      by_cases hacc : Memory.accepts R elem (s.typeOf v)
      · obtain ⟨s', haset, hvalid, h', hrest, -⟩ := aset_spec hs h (not_le.mp hi) hacc
          (length_cellOf hop hacc)
        rw [haset, if_pos hacc]
        exact ⟨hvalid, Or.inr ⟨trivial, mem, cap, h', Or.inl rfl,
          fun b o _ hbm hb => (hrest b hbm).trans hb⟩⟩
      · rw [aset_of_not_accepts h (not_le.mp hi) hacc, if_neg hacc]
        exact ⟨hs, Or.inr ⟨rfl, mem, cap, h, .refl a mem s⟩⟩
  | push v =>
    simp only [ArrayOp.exec, ArrayOp.onList]
    rcases push_spec hs h hop.1 hop.2
      with ⟨hno, e, s', hpush, he, hvalid, hsame⟩ | ⟨mem', cap', s', hpush, hvalid, h', hlocal⟩
    · rw [hpush]
      exact ⟨hvalid, Or.inl ⟨hno, ⟨e, rfl, he⟩, fun b o hb => (congrFun hsame b).trans hb⟩⟩
    · rw [hpush]
      exact ⟨hvalid, Or.inr ⟨trivial, mem', cap', h', hlocal⟩⟩
  | growEnd inc =>
    simp only [ArrayOp.exec, ArrayOp.onList]
    rcases growEnd_spec R inc hs h with ⟨hno, e, s', hgrow, he, hvalid, hsame⟩ | ⟨hcan, -⟩
    · rw [hgrow]
      exact ⟨hvalid, Or.inl ⟨hno, ⟨e, rfl, he⟩, fun b o hb => (congrFun hsame b).trans hb⟩⟩
    · obtain ⟨mem', cap', s', hgrow, hvalid, h', hlocal⟩ := growEnd_local inc hs h hcan
      rw [hgrow]
      exact ⟨hvalid, Or.inr ⟨trivial, mem', cap', h', hlocal⟩⟩
  | delEnd dec =>
    simp only [ArrayOp.exec, ArrayOp.onList]
    by_cases hdec : cs.length < dec
    · have hdel : Arr.delEnd a dec s = (.error (.bounds a 0), s) := by
        rw [Arr.delEnd, h.len, if_pos hdec]
      rw [hdel, if_pos hdec]
      exact ⟨hs, Or.inr ⟨rfl, mem, cap, h, .refl a mem s⟩⟩
    · obtain ⟨s', hdel, hvalid, h', hrest⟩ := delEnd_spec hs h (not_lt.mp hdec)
      rw [hdel, if_neg hdec]
      exact ⟨hvalid, Or.inr ⟨trivial, mem, cap, h', Or.inl rfl,
        fun b o hba hbm hb => (hrest b hba hbm).trans hb⟩⟩

/-- New objects disturb no list. -/
theorem Tracks.extends (h : Tracks s L) (hext : s.Extends s') : Tracks s' L where
  holds := by
    intro a elem cs ha
    obtain ⟨mem, cap, hh⟩ := h.holds a elem cs ha
    exact ⟨mem, cap, hext _ _ hh.array, hext _ _ hh.buffer, hh.sized, hh.le_cap⟩
  apart := by
    have hmem : ∀ a, L a ≠ none → Arr.memOf s' a = Arr.memOf s a := by
      intro a ha
      obtain ⟨⟨elem, cs⟩, hcs⟩ := Option.ne_none_iff_exists'.mp ha
      obtain ⟨mem, cap, hh⟩ := h.holds a elem cs hcs
      rw [hh.memOf, Arr.memOf, hext _ _ hh.array]
    intro a b hab ha hb
    rw [hmem a ha, hmem b hb]
    exact h.apart a b hab ha hb

/-- An operation on one array disturbs the list of no other. -/
theorem Tracks.update (h : Tracks s L) (ha : Holds s a elem mem cap cs) {cap' : Nat}
    (hLa : L a ≠ none) (ha' : Holds s' a elem mem' cap' cs') (hlocal : Local a mem s mem' s') :
    Tracks s' (Function.update L a (some (elem, cs'))) := by
  -- what the other arrays hold, before and after
  have hother : ∀ b elem' cs'', b ≠ a → L b = some (elem', cs'') →
      ∃ mem'' cap'', mem'' ≠ mem' ∧ Holds s' b elem' mem'' cap'' cs'' := by
    intro b elem' cs'' hba hb
    obtain ⟨mem'', cap'', hh⟩ := h.holds b elem' cs'' hb
    have hne : mem'' ≠ mem := by
      have := h.apart b a hba (by rw [hb]; simp) hLa
      rwa [hh.memOf, ha.memOf] at this
    have hbm : b ≠ mem := by
      rintro rfl
      cases hh.array.symm.trans ha.buffer
    have hma : mem'' ≠ a := by
      rintro rfl
      cases hh.buffer.symm.trans ha.array
    refine ⟨mem'', cap'', ?_, hlocal.2 _ _ hba hbm hh.array, hlocal.2 _ _ hma hne hh.buffer,
      hh.sized, hh.le_cap⟩
    rintro rfl
    rcases hlocal.1 with hsame | hnone
    · exact hne hsame
    · cases hnone.symm.trans hh.buffer
  refine ⟨fun b elem' cs'' hb => ?_, fun b c hbc hb hc => ?_⟩
  · by_cases hba : b = a
    · subst hba
      rw [Function.update_self] at hb
      cases hb
      exact ⟨mem', cap', ha'⟩
    · rw [Function.update_of_ne hba] at hb
      obtain ⟨mem'', cap'', -, hh⟩ := hother b elem' cs'' hba hb
      exact ⟨mem'', cap'', hh⟩
  · have hfar : ∀ b, b ≠ a → Function.update L a (some (elem, cs')) b ≠ none →
        Arr.memOf s' b ≠ mem' ∧ L b ≠ none ∧ Arr.memOf s' b = Arr.memOf s b := by
      intro b hba hb
      rw [Function.update_of_ne hba] at hb
      obtain ⟨⟨elem', cs''⟩, hLb⟩ := Option.ne_none_iff_exists'.mp hb
      obtain ⟨mem'', cap'', hne, hh⟩ := hother b elem' cs'' hba hLb
      obtain ⟨mem₀, cap₀, hh₀⟩ := h.holds b elem' cs'' hLb
      have hbm : b ≠ mem := by
        rintro rfl
        cases hh₀.array.symm.trans ha.buffer
      have harr := hlocal.2 _ _ hba hbm hh₀.array
      refine ⟨by rwa [hh.memOf], hb, ?_⟩
      rw [hh₀.memOf, Arr.memOf, harr]
    by_cases hba : b = a
    · subst hba
      rw [ha'.memOf]
      exact Ne.symm (hfar c (Ne.symm hbc) hc).1
    · obtain ⟨hne, hLb, hsame⟩ := hfar b hba hb
      by_cases hca : c = a
      · subst hca
        rw [ha'.memOf]
        exact hne
      · obtain ⟨-, hLc, hsame'⟩ := hfar c hca hc
        rw [hsame, hsame']
        exact h.apart b c hbc hLb hLc

/-- A new array disturbs no list. -/
theorem Tracks.alloc (h : Tracks s L) (hext : s.Extends s') (ha : s.objs a = none)
    (hmem : s.objs mem = none) (hh : Holds s' a elem mem cap cs) :
    L a = none ∧ Tracks s' (Function.update L a (some (elem, cs))) := by
  have hext' := h.extends hext
  have hnone : L a = none := by
    by_contra hne
    obtain ⟨⟨elem', cs'⟩, hLa⟩ := Option.ne_none_iff_exists'.mp hne
    obtain ⟨mem', cap', hold⟩ := h.holds a elem' cs' hLa
    cases ha.symm.trans hold.array
  -- the buffers of the other arrays were there before
  have hfar : ∀ b, L b ≠ none → Arr.memOf s' b ≠ mem := by
    intro b hb
    obtain ⟨⟨elem', cs'⟩, hLb⟩ := Option.ne_none_iff_exists'.mp hb
    obtain ⟨mem', cap', hold⟩ := h.holds b elem' cs' hLb
    rw [Arr.memOf, hext _ _ hold.array]
    rintro rfl
    cases hmem.symm.trans hold.buffer
  refine ⟨hnone, fun b elem' cs' hb => ?_, fun b c hbc hb hc => ?_⟩
  · by_cases hba : b = a
    · subst hba
      rw [Function.update_self] at hb
      cases hb
      exact ⟨mem, cap, hh⟩
    · rw [Function.update_of_ne hba] at hb
      exact hext'.holds b elem' cs' hb
  · by_cases hba : b = a
    · subst hba
      rw [Function.update_of_ne (Ne.symm hbc)] at hc
      rw [hh.memOf]
      exact Ne.symm (hfar c hc)
    · rw [Function.update_of_ne hba] at hb
      by_cases hca : c = a
      · subst hca
        rw [hh.memOf]
        exact hfar b hb
      · rw [Function.update_of_ne hca] at hc
        exact hext'.apart b c hbc hb hc

/-- A run, by induction on its steps. -/
theorem refines_run (steps : List ArrayStep) (hs : s.Valid) (h : Tracks s L) :
    Refines R steps s L := by
  induction steps generalizing s L with
  | nil => exact h
  | cons step steps ih =>
    cases step with
    | alloc1d elem len =>
      refine ⟨h, ?_⟩
      rcases alloc1d_spec R elem len hs with ⟨hno, e, s', halloc, he, hvalid, hext⟩ |
        ⟨a, mem, s', halloc, hvalid, hext, ha, hmem, hh⟩
      · rw [halloc]
        exact Or.inl ⟨hno, ⟨e, rfl, he⟩, ih hvalid (h.extends hext)⟩
      · obtain ⟨hnone, h'⟩ := h.alloc hext ha hmem hh
        rw [halloc]
        exact Or.inr ⟨a, rfl, hnone, ih hvalid h'⟩
    | on a op =>
      refine ⟨h, fun elem cs hLa hop => ?_⟩
      obtain ⟨mem, cap, hh⟩ := h.holds a elem cs hLa
      rw [hh.memOf, hh.bufferLen]
      obtain ⟨hvalid, ⟨hno, hout, hext⟩ | ⟨hans, mem', cap', hh', hlocal⟩⟩ :=
        exec_refines hs hh op hop
      · exact Or.inl ⟨hno, hout, ih hvalid (h.extends hext)⟩
      · exact Or.inr ⟨hans, ih hvalid (h.update hh (by rw [hLa]; simp) hh' hlocal)⟩

end

/-- **Arrays refine lists**, whatever is done from the first allocation on. -/
theorem array_refines_list (R : Runtime) (s : Store) (hs : s.Valid) (steps : List ArrayStep) :
    Refines R steps s fun _ => none :=
  refines_run steps hs ⟨fun _ _ _ h => absurd h (by simp), fun _ _ _ h => absurd rfl h⟩

/-- Two arrays: one of truth values that is pushed to, cut and grown again, and one of
references. -/
theorem array_refines_list_bool :
    Refines grantingRuntime
      [.alloc1d (.builtin .bool) 0, .on 5 (.push 3), .alloc1d .any 2, .on 8 (.aset 1 3),
        .on 5 (.aref 0), .on 5 (.delEnd 1), .on 5 (.growEnd 2), .on 5 (.aref 1), .on 8 (.aref 0)]
      bootStore fun _ => none :=
  array_refines_list grantingRuntime bootStore bootStore_valid _

end Ruju.Storage
