import Mathlib.Data.List.TakeWhile
import Mathlib.Tactic.IntervalCases

/-!
# Text as lines, words and numbers

Reading a line format: the text is cut at line breaks, a line at white space, and a
word may be a number.  Reading and printing are inverse to each other on words that
are `Solid`, that is nonempty and free of white space, and nothing that is read is
not solid.  Texts are lists of characters.
-/

namespace Ruju.Text

/-! ### White space and words -/

/-- The Unicode property `White_Space`. -/
def isWhite (c : Char) : Bool :=
  let n := c.toNat
  (9 ≤ n && n ≤ 13) || n == 32 || n == 0x85 || n == 0xA0 || n == 0x1680 ||
    (0x2000 ≤ n && n ≤ 0x200A) || n == 0x2028 || n == 0x2029 || n == 0x202F || n == 0x205F ||
    n == 0x3000

/-- No character of the text is white space. -/
def noWhite (cs : List Char) : Bool := cs.all fun c => !isWhite c

/-- The maximal parts of the text without white space. -/
def words (cs : List Char) : List (List Char) :=
  (cs.splitOnP isWhite).filter fun w => !w.isEmpty

/-- The words, with a blank between two of them. -/
def unwords (ws : List (List Char)) : List Char := [' '].intercalate ws

/-- The text without the white space at its two ends. -/
def trim (cs : List Char) : List Char :=
  (((cs.dropWhile isWhite).reverse).dropWhile isWhite).reverse

/-- A text that is one word. -/
structure Solid (w : List Char) : Prop where
  ne_nil : w ≠ []
  noWhite : noWhite w = true

variable {cs : List Char}

theorem noWhite_iff : noWhite cs = true ↔ ∀ c ∈ cs, isWhite c = false := by
  simp [noWhite]

theorem noWhite_append {xs ys : List Char} :
    noWhite (xs ++ ys) = true ↔ noWhite xs = true ∧ noWhite ys = true := by
  simp [noWhite]

variable {w : List Char}

/-- A word that starts with a solid text and goes on without white space. -/
theorem Solid.append (h : Solid w) (hcs : Text.noWhite cs = true) :
    Solid (w ++ cs) where
  ne_nil := by simp [h.ne_nil]
  noWhite := noWhite_append.mpr ⟨h.noWhite, hcs⟩

@[simp] theorem words_nil : words [] = [] := by
  simp [words]

/-- White space separates words. -/
theorem words_append {w : Char} (hw : isWhite w = true) (xs ys : List Char) :
    words (xs ++ w :: ys) = words xs ++ words ys := by
  rw [words, List.splitOnP_append_cons xs ys hw, List.filter_append]
  rfl

theorem words_of_solid (h : Solid w) : words w = [w] := by
  have hsplit : w.splitOnP isWhite = [w] := by
    refine List.splitOnP_eq_singleton ?_
    exact noWhite_iff.mp h.noWhite
  simp [words, hsplit, h.ne_nil]

theorem unwords_cons_cons (w w' : List Char) (ws : List (List Char)) :
    unwords (w :: w' :: ws) = w ++ ' ' :: unwords (w' :: ws) := by
  simp [unwords, List.intercalate]

theorem words_unwords {ws : List (List Char)} (h : ∀ w ∈ ws, Solid w) :
    words (unwords ws) = ws := by
  induction ws with
  | nil => simp [unwords]
  | cons w ws ih =>
    have hw := words_of_solid (h w List.mem_cons_self)
    cases ws with
    | nil => simpa [unwords] using hw
    | cons w' ws =>
      rw [unwords_cons_cons, words_append rfl, hw, ih fun v hv => h v (List.mem_cons_of_mem _ hv)]
      rfl

theorem unwords_singleton (w : List Char) : unwords [w] = w := by
  simp [unwords]

variable {c : Char}

/-- A character of the line that is not a blank is in one of the words. -/
theorem mem_unwords {ws : List (List Char)} (h : c ∈ unwords ws) (hc : c ≠ ' ') :
    ∃ w ∈ ws, c ∈ w := by
  induction ws with
  | nil => exact absurd h (by simp [unwords])
  | cons w ws ih =>
    cases ws with
    | nil =>
      rw [unwords_singleton] at h
      exact ⟨w, List.mem_cons_self, h⟩
    | cons w' ws =>
      rw [unwords_cons_cons, List.mem_append, List.mem_cons] at h
      rcases h with h | h | h
      · exact ⟨w, List.mem_cons_self, h⟩
      · exact absurd h hc
      · obtain ⟨v, hv, hcv⟩ := ih h
        exact ⟨v, List.mem_cons_of_mem _ hv, hcv⟩

/-- A part has no separator in it. -/
theorem not_of_mem_splitOnP {p : Char → Bool} {part : List Char} (h : part ∈ cs.splitOnP p)
    (hc : c ∈ part) : p c = false := by
  induction cs generalizing part with
  | nil =>
    rw [List.splitOnP_nil, List.mem_singleton] at h
    exact absurd (h ▸ hc) List.not_mem_nil
  | cons d cs ih =>
    rw [List.splitOnP_cons_eq_if_modifyHead] at h
    split at h
    · rcases List.mem_cons.mp h with rfl | h
      · exact absurd hc List.not_mem_nil
      · exact ih h hc
    · rename_i hd
      cases hparts : cs.splitOnP p with
      | nil => exact absurd hparts (List.splitOnP_ne_nil _ _)
      | cons first rest =>
        rw [hparts] at h ih
        rcases List.mem_cons.mp h with rfl | h
        · -- the first part was extended by `d`
          rcases List.mem_cons.mp hc with rfl | hc
          · simpa using hd
          · exact ih List.mem_cons_self hc
        · exact ih (List.mem_cons_of_mem _ h) hc

/-- Every word that is read is solid. -/
theorem solid_of_mem_words (h : w ∈ words cs) : Solid w := by
  rw [words, List.mem_filter] at h
  exact ⟨by simpa using h.2, noWhite_iff.mpr fun c hc => not_of_mem_splitOnP h.1 hc⟩

theorem words_dropWhile (cs : List Char) : words (cs.dropWhile isWhite) = words cs := by
  induction cs with
  | nil => rfl
  | cons c cs ih =>
    rw [List.dropWhile_cons]
    split
    · rename_i hc
      rw [ih]
      have := words_append hc [] cs
      simpa using this.symm
    · rfl

/-- White space at the end of a text adds no word. -/
theorem words_append_white {ys : List Char} (h : ∀ c ∈ ys, isWhite c = true) :
    words (cs ++ ys) = words cs := by
  induction ys with
  | nil => rw [List.append_nil]
  | cons c ys ih =>
    have hc := h c List.mem_cons_self
    have hys : words ys = [] := by
      have hdrop : ys.dropWhile isWhite = [] := by
        rw [List.dropWhile_eq_nil_iff]
        exact fun d hd => h d (List.mem_cons_of_mem _ hd)
      rw [← words_dropWhile, hdrop, words_nil]
    rw [words_append hc, hys, List.append_nil]

/-- Trimming keeps the words. -/
theorem words_trim (cs : List Char) : words (trim cs) = words cs := by
  have hcut : (cs.dropWhile isWhite) = trim cs ++
      (((cs.dropWhile isWhite).reverse).takeWhile isWhite).reverse := by
    rw [trim, ← List.reverse_append, List.takeWhile_append_dropWhile, List.reverse_reverse]
  have hwhite : ∀ c ∈ (((cs.dropWhile isWhite).reverse).takeWhile isWhite).reverse,
      isWhite c = true := by
    intro c hc
    exact List.all_eq_true.mp List.all_takeWhile c (List.mem_reverse.mp hc)
  rw [← words_dropWhile cs, hcut, words_append_white hwhite]

/-- Trimming keeps a first character that is not white space. -/
theorem trim_cons (hc : isWhite c = false) (cs : List Char) :
    ∃ t, trim (c :: cs) = c :: t := by
  have hkeep : (c :: cs).dropWhile isWhite = c :: cs := by
    simp [hc]
  rw [trim, hkeep, List.reverse_cons, List.dropWhile_append]
  split
  · exact ⟨[], by simp [hc]⟩
  · exact ⟨_, by rw [List.reverse_append]; rfl⟩

/-! ### Lines -/

/-- The lines of a file, trimmed, without the empty ones and those that `skip`
rejects. -/
def fileLines (skip : List Char → Bool) (src : List Char) : List (List Char) :=
  ((src.splitOnP fun c => c == '\n').map trim).filter fun l => !l.isEmpty && !skip l

/-- Every line followed by a line break. -/
def unlines (ls : List (List Char)) : List Char := (ls.map fun l => l ++ ['\n']).flatten

/-- Printed lines are read back, trimmed. -/
theorem fileLines_unlines {skip : List Char → Bool} {ls : List (List Char)}
    (hbreak : ∀ l ∈ ls, '\n' ∉ l) (hkeep : ∀ l ∈ ls, trim l ≠ [] ∧ skip (trim l) = false) :
    fileLines skip (unlines ls) = ls.map trim := by
  induction ls with
  | nil => simp [fileLines, unlines, trim]
  | cons l ls ih =>
    have hsplit : (unlines (l :: ls)).splitOnP (fun c => c == '\n') =
        l :: (unlines ls).splitOnP (fun c => c == '\n') := by
      have hcut : unlines (l :: ls) = l ++ '\n' :: unlines ls := by simp [unlines]
      rw [hcut]
      refine List.splitOnP_append_cons_of_forall_mem (fun c hc => ?_) _ rfl _
      rw [beq_eq_false_iff_ne]
      rintro rfl
      exact hbreak l List.mem_cons_self hc
    obtain ⟨hne, hskip⟩ := hkeep l List.mem_cons_self
    have ih := ih (fun l' h => hbreak l' (List.mem_cons_of_mem _ h))
      (fun l' h => hkeep l' (List.mem_cons_of_mem _ h))
    rw [fileLines] at ih ⊢
    rw [hsplit, List.map_cons, List.filter_cons, if_pos (by simp [hne, hskip]), ih]
    rfl

/-! ### Numbers -/

/-- The value of a digit or letter; no base has a digit of value 36. -/
def digitValue (c : Char) : Nat :=
  if '0' ≤ c ∧ c ≤ '9' then c.toNat - '0'.toNat
  else if 'a' ≤ c ∧ c ≤ 'z' then c.toNat - 'a'.toNat + 10
  else if 'A' ≤ c ∧ c ≤ 'Z' then c.toNat - 'A'.toNat + 10
  else 36

/-- The digits, read from the left after a number `acc`. -/
def readDigits (base : Nat) : List Char → Nat → Option Nat
  | [], acc => some acc
  | c :: cs, acc =>
    if digitValue c < base then readDigits base cs (acc * base + digitValue c) else none

/-- A number without a sign, with at least one digit. -/
def readNat (base : Nat) (cs : List Char) : Option Nat :=
  if cs = [] then none else readDigits base cs 0

/-- The text without a leading plus sign. -/
def stripPlus : List Char → List Char
  | '+' :: cs => cs
  | cs => cs

/-- An unsigned machine integer: an optional plus sign, and digits of a number below
the limit. -/
def readUnsigned (base limit : Nat) (cs : List Char) : Option Nat :=
  (readNat base (stripPlus cs)).filter fun n => n < limit

/-- A decimal number with an optional sign. -/
def readInt : List Char → Option Int
  | '-' :: cs => (readNat 10 cs).map fun n : Nat => -(n : Int)
  | cs => (readNat 10 (stripPlus cs)).map fun n : Nat => (n : Int)

/-- A decimal signed machine integer in the given range. -/
def readSigned (low high : Int) (cs : List Char) : Option Int :=
  (readInt cs).filter fun n => low ≤ n && n ≤ high

/-- A signed number in decimal. -/
def showInt (n : Int) : List Char :=
  if n < 0 then '-' :: Nat.toDigits 10 n.natAbs else Nat.toDigits 10 n.natAbs

theorem digitValue_digitChar {d : Nat} (hd : d < 16) : digitValue d.digitChar = d := by
  interval_cases d <;> rfl

/-- What a digit is not. -/
theorem digitChar_plain {d : Nat} (hd : d < 16) :
    isWhite d.digitChar = false ∧ d.digitChar ≠ '+' ∧ d.digitChar ≠ '-' := by
  interval_cases d <;> decide

theorem readDigits_append (base : Nat) (xs ys : List Char) (acc : Nat) :
    readDigits base (xs ++ ys) acc = (readDigits base xs acc).bind (readDigits base ys) := by
  induction xs generalizing acc with
  | nil => rfl
  | cons c xs ih =>
    rw [List.cons_append, readDigits, readDigits]
    split
    · exact ih _
    · rfl

variable {n : Nat}

section Print

variable {base : Nat} (hbase : 1 < base) (hlimit : base ≤ 16)
include hbase hlimit

/-- A printed number reads back: induction on the number, by its last digit. -/
theorem readDigits_toDigits (n : Nat) : readDigits base (Nat.toDigits base n) 0 = some n := by
  induction n using Nat.strongRecOn with
  | ind n ih =>
    rw [Nat.toDigits_eq_if hbase]
    split
    · rename_i hn
      simp [readDigits, digitValue_digitChar (Nat.lt_of_lt_of_le hn hlimit), hn]
    · rename_i hn
      have hmod : n % base < base := Nat.mod_lt _ (by omega)
      rw [readDigits_append, ih _ (Nat.div_lt_self (by omega) hbase)]
      simp [readDigits, digitValue_digitChar (Nat.lt_of_lt_of_le hmod hlimit), hmod,
        Nat.div_add_mod']

theorem mem_toDigits (hc : c ∈ Nat.toDigits base n) :
    ∃ d < 16, c = d.digitChar := by
  induction n using Nat.strongRecOn with
  | ind n ih =>
    rw [Nat.toDigits_eq_if hbase] at hc
    split at hc
    · rename_i hn
      exact ⟨n, Nat.lt_of_lt_of_le hn hlimit, List.mem_singleton.mp hc⟩
    · rcases List.mem_append.mp hc with hc | hc
      · exact ih _ (Nat.div_lt_self (by omega) hbase) hc
      · have hmod : n % base < base := Nat.mod_lt _ (by omega)
        exact ⟨n % base, Nat.lt_of_lt_of_le hmod hlimit, List.mem_singleton.mp hc⟩

omit hlimit in
theorem toDigits_ne_nil (n : Nat) : Nat.toDigits base n ≠ [] := by
  rw [Nat.toDigits_eq_if hbase]
  split <;> simp

theorem solid_toDigits (n : Nat) : Solid (Nat.toDigits base n) := by
  refine ⟨toDigits_ne_nil hbase n, noWhite_iff.mpr fun c hc => ?_⟩
  obtain ⟨d, hd, rfl⟩ := mem_toDigits hbase hlimit hc
  exact (digitChar_plain hd).1

/-- A printed number has no sign. -/
theorem toDigits_head (n : Nat) :
    ∃ c cs, Nat.toDigits base n = c :: cs ∧ c ≠ '+' ∧ c ≠ '-' := by
  cases h : Nat.toDigits base n with
  | nil => exact absurd h (toDigits_ne_nil hbase n)
  | cons c cs =>
    obtain ⟨d, hd, rfl⟩ := mem_toDigits hbase hlimit (h ▸ List.mem_cons_self)
    exact ⟨_, cs, rfl, (digitChar_plain hd).2⟩

theorem readNat_toDigits (n : Nat) :
    readNat base (stripPlus (Nat.toDigits base n)) = some n := by
  have hstrip : stripPlus (Nat.toDigits base n) = Nat.toDigits base n := by
    obtain ⟨c, cs, h, hplus, -⟩ := toDigits_head hbase hlimit n
    rw [h]
    exact stripPlus.eq_2 _ fun cs' heq => hplus (List.cons.inj heq).1
  rw [hstrip, readNat, if_neg (toDigits_ne_nil hbase n), readDigits_toDigits hbase hlimit]

theorem readUnsigned_toDigits {limit : Nat} (hn : n < limit) :
    readUnsigned base limit (Nat.toDigits base n) = some n := by
  rw [readUnsigned, readNat_toDigits hbase hlimit]
  simp [hn]

end Print

/-- What is read is below the limit. -/
theorem lt_of_readUnsigned {base limit : Nat}
    (h : readUnsigned base limit cs = some n) : n < limit := by
  rw [readUnsigned, Option.filter_eq_some_iff] at h
  simpa using h.2

theorem solid_showInt (n : Int) : Solid (showInt n) := by
  have hdigits : Solid (Nat.toDigits 10 n.natAbs) := solid_toDigits (by decide) (by decide) _
  have hminus : Solid ['-'] := ⟨by decide, by decide⟩
  rw [showInt]
  split
  · exact hminus.append hdigits.noWhite
  · exact hdigits

theorem readInt_showInt (n : Int) : readInt (showInt n) = some n := by
  have hone : 1 < 10 := by decide
  have hlimit : 10 ≤ 16 := by decide
  rw [showInt]
  split
  · have habs : -(n.natAbs : Int) = n := by omega
    rw [readInt, readNat, if_neg (toDigits_ne_nil hone _), readDigits_toDigits hone hlimit,
      Option.map_some, habs]
  · have habs : (n.natAbs : Int) = n := by omega
    obtain ⟨c, cs, h, -, hminus⟩ := toDigits_head hone hlimit n.natAbs
    have hread := readNat_toDigits hone hlimit n.natAbs
    rw [h] at hread ⊢
    rw [readInt.eq_2 _ fun cs' heq => hminus (List.cons.inj heq).1, hread, Option.map_some, habs]

theorem readSigned_showInt {low high n : Int} (hlow : low ≤ n) (hhigh : n ≤ high) :
    readSigned low high (showInt n) = some n := by
  rw [readSigned, readInt_showInt]
  simp [hlow, hhigh]

end Ruju.Text
