import HaAddons.Lib.Document
import Mathlib.Data.List.TakeWhile
import Mathlib.Data.Nat.Notation
import Mathlib.Data.Int.Notation

/-!
# Splitting and reading numbers in Python

`str.split()`, `str.strip()`, and which texts `int()` and `float()` take. White space is that of
`str.isspace`. The decimal digits of Unicode are a parameter.

* `words_append`, `words_strip` — the words of joined texts.
* `pyInt_decimal` — a number is read back as long as it has no more digits than `int` takes.
* `pyInt_quote`, `isFloat_quote` — a quoted text is no number.
-/

namespace HaAddons.Lib.Py

abbrev Text := List Char

/-! ## Words -/

/-- `str.isspace` of one character. -/
def isSpace (c : Char) : Bool :=
  (0x09 ≤ c.toNat && c.toNat ≤ 0x0D) || (0x1C ≤ c.toNat && c.toNat ≤ 0x20) || c.toNat = 0x85 ||
    c.toNat = 0xA0 || c.toNat = 0x1680 || (0x2000 ≤ c.toNat && c.toNat ≤ 0x200A) ||
    c.toNat = 0x2028 || c.toNat = 0x2029 || c.toNat = 0x202F || c.toNat = 0x205F || c.toNat = 0x3000

/-- The text without what `p` takes at its two ends. -/
def trim (p : Char → Bool) (s : Text) : Text := ((s.dropWhile p).reverse.dropWhile p).reverse

/-- `s.strip()` -/
def strip (s : Text) : Text := trim isSpace s

/-- `s.split()` -/
def words (s : Text) : List Text := (s.splitOnP isSpace).filter (· ≠ [])

/-- The text has no white space. -/
def Solid (s : Text) : Prop := ∀ c ∈ s, isSpace c = false

instance (s : Text) : Decidable (Solid s) :=
  decidable_of_iff (s.all (!isSpace ·) = true) (by simp [Solid])

section Words

variable {a b s : Text} {c : Char}

theorem words_append (hc : isSpace c = true) : words (a ++ c :: b) = words a ++ words b := by
  rw [words, List.splitOnP_append_cons a b hc, List.filter_append]
  rfl

theorem words_solid (hs : Solid s) (hne : s ≠ []) : words s = [s] := by
  rw [words, List.splitOnP_eq_singleton hs]
  simp [hne]

theorem words_nil : words [] = [] := rfl

theorem words_space (hs : ∀ c ∈ s, isSpace c = true) : words s = [] := by
  induction s with
  | nil => rfl
  | cons c s ih =>
    have hc := hs c List.mem_cons_self
    have hcons : words (c :: s) = words [] ++ words s := words_append (a := []) hc
    rw [hcons, words_nil, ih fun d hd => hs d (List.mem_cons_of_mem c hd)]
    rfl

/-- White space behind a text adds no word. -/
theorem words_append_space (hb : ∀ c ∈ b, isSpace c = true) : words (a ++ b) = words a := by
  cases b with
  | nil => rw [List.append_nil]
  | cons c b =>
    rw [words_append (hb c List.mem_cons_self),
      words_space fun d hd => hb d (List.mem_cons_of_mem c hd), List.append_nil]

theorem words_dropWhile (s : Text) : words (s.dropWhile isSpace) = words s := by
  induction s with
  | nil => rfl
  | cons c s ih =>
    rw [List.dropWhile_cons]
    split
    · rename_i hc
      have hcons : words (c :: s) = words [] ++ words s := words_append (a := []) hc
      rw [ih, hcons, words_nil]
      rfl
    · rfl

theorem words_strip (s : Text) : words (strip s) = words s := by
  have hsplit : s.dropWhile isSpace =
      strip s ++ ((s.dropWhile isSpace).reverse.takeWhile isSpace).reverse := by
    rw [strip, trim, ← List.reverse_append, List.takeWhile_append_dropWhile, List.reverse_reverse]
  have hspace : ∀ c ∈ ((s.dropWhile isSpace).reverse.takeWhile isSpace).reverse,
      isSpace c = true := fun c hc => List.mem_takeWhile_imp (List.mem_reverse.mp hc)
  rw [← words_dropWhile s, hsplit, words_append_space hspace]

theorem words_intercalate (ts : List Text) : words ([' '].intercalate ts) = ts.flatMap words := by
  induction ts with
  | nil => rfl
  | cons t ts ih =>
    cases ts with
    | nil => simp
    | cons u ts =>
      have hspace : isSpace ' ' = true := by decide
      rw [List.intercalate_cons_cons, List.append_assoc, List.singleton_append,
        words_append hspace, ih, ← List.flatMap_cons]

theorem solid_of_mem_splitOnP {w : Text} (h : w ∈ s.splitOnP isSpace) : Solid w := by
  induction s generalizing w with
  | nil =>
    rw [List.splitOnP_nil, List.mem_singleton] at h
    rw [h]
    exact fun c hc => absurd hc List.not_mem_nil
  | cons c s ih =>
    rw [List.splitOnP_cons_eq_if_modifyHead] at h
    split at h
    · cases List.mem_cons.mp h with
      | inl h => exact h ▸ fun d hd => absurd hd List.not_mem_nil
      | inr h => exact ih h
    · rename_i hc
      obtain ⟨head, tail, hs⟩ := List.exists_cons_of_ne_nil (List.splitOnP_ne_nil isSpace s)
      rw [hs, List.modifyHead_cons] at h
      cases List.mem_cons.mp h with
      | inl h =>
        rw [h]
        intro d hd
        cases List.mem_cons.mp hd with
        | inl he => simpa [he] using hc
        | inr hm => exact ih (hs ▸ List.mem_cons_self) d hm
      | inr h => exact ih (hs ▸ List.mem_cons_of_mem head h)

/-- Words hold no white space. -/
theorem solid_of_mem_words {w : Text} (h : w ∈ words s) : Solid w :=
  solid_of_mem_splitOnP (List.mem_filter.mp h).1

end Words

/-! ## Numbers -/

/-- The decimal digits of Unicode. -/
structure Numerals where
  digit : Char → Option ℕ
  ascii : ∀ c, c.toNat < 0x80 → digit c = if c.isDigit then some (c.toNat - '0'.toNat) else none

/-- The digits of ASCII alone. -/
def Numerals.plain : Numerals where
  digit c := if c.isDigit then some (c.toNat - '0'.toNat) else none
  ascii _ _ := rfl

/-- The most digits that `int()` converts. -/
def maxStrDigits : ℕ := 4300

section Numbers

variable (numerals : Numerals)

/-- Digits with single underscores between them. -/
def isDigits (s : Text) : Bool :=
  (s.splitOn '_').all fun part => part ≠ [] && part.all fun c => (numerals.digit c).isSome

/-- White space around a number. Unlike `str.strip`, the separators `U+001C` to `U+001F` stay. -/
def isBlank (c : Char) : Bool := isSpace c && !(0x1C ≤ c.toNat && c.toNat ≤ 0x1F)

/-- A text behind its sign. -/
def unsigned : Text → Text
  | '-' :: s | '+' :: s => s
  | s => s

/-- `int(s)`; `none` is a `ValueError`. -/
def pyInt (s : Text) : Option ℤ :=
  let t := unsigned (trim isBlank s)
  let digits := t.filterMap numerals.digit
  if isDigits numerals t ∧ digits.length ≤ maxStrDigits then
    let n : ℕ := digits.foldl (fun n d => 10 * n + d) 0
    some (if (trim isBlank s).head? = some '-' then -n else n)
  else none

/-- `s.lower()`, as far as a text of ASCII letters can come out of it. -/
def lower (s : Text) : Text := s.map Char.toLower

def isExponent (c : Char) : Bool := c = 'e' || c = 'E'

/-- The part of a decimal number before its exponent. -/
def isMantissa (s : Text) : Bool :=
  match s.splitOn '.' with
  | [a] => isDigits numerals a
  | [a, b] =>
    (a = [] || isDigits numerals a) && (b = [] || isDigits numerals b) && !(a = [] && b = [])
  | _ => false

/-- `float()` takes the text. -/
def isFloat (s : Text) : Bool :=
  let t := unsigned (trim isBlank s)
  [['i', 'n', 'f'], ['i', 'n', 'f', 'i', 'n', 'i', 't', 'y'], ['n', 'a', 'n']].contains (lower t) ||
    match t.dropWhile (!isExponent ·) with
    | [] => isMantissa numerals t
    | _ :: e => isMantissa numerals (t.takeWhile (!isExponent ·)) && isDigits numerals (unsigned e)

end Numbers

section Reading

variable {numerals : Numerals} {s : Text} {c : Char}

theorem digit_of_isDigit (h : c.isDigit = true) :
    numerals.digit c = some (c.toNat - '0'.toNat) := by
  have hlt : c.toNat < 0x80 := by
    delta Char.isDigit at h
    simp only [Bool.and_eq_true, decide_eq_true_eq, UInt32.le_iff_toNat_le] at h
    have hnine : '9'.val.toNat = 57 := rfl
    have hval : c.toNat = c.val.toNat := rfl
    omega
  rw [numerals.ascii c hlt, if_pos h]

theorem trim_eq_self {p : Char → Bool} (hs : ∀ c ∈ s, p c = false) : trim p s = s := by
  have hdrop : ∀ {t : Text}, (∀ c ∈ t, p c = false) → t.dropWhile p = t := by
    intro t ht
    cases t with
    | nil => rfl
    | cons c t => rw [List.dropWhile_cons_of_neg (by simp [ht c List.mem_cons_self])]
  rw [trim, hdrop hs, hdrop fun c hc => hs c (List.mem_reverse.mp hc), List.reverse_reverse]

theorem trim_solid (hs : Solid s) : trim isBlank s = s :=
  trim_eq_self fun c hc => by simp [isBlank, hs c hc]

theorem isSpace_of_isDigit (h : c.isDigit = true) : isSpace c = false := by
  delta Char.isDigit at h
  simp only [Bool.and_eq_true, decide_eq_true_eq, UInt32.le_iff_toNat_le, ge_iff_le] at h
  have hzero : '0'.val.toNat = 48 := rfl
  have hnine : '9'.val.toNat = 57 := rfl
  have hval : c.toNat = c.val.toNat := rfl
  simp [isSpace]
  omega

theorem solid_toDigits (n : ℕ) : Solid (Nat.toDigits 10 n) := fun _ hc =>
  isSpace_of_isDigit (Nat.isDigit_of_mem_toDigits (by decide) (by decide) hc)

theorem solid_decimal (n : ℤ) : Solid (Doc.decimal n) := by
  intro c hc
  unfold Doc.decimal at hc
  cases List.mem_append.mp hc with
  | inl h =>
    split at h
    · rw [List.mem_singleton.mp h]
      decide
    · cases h
  | inr h => exact solid_toDigits n.natAbs c h

theorem isDigits_toDigits (n : ℕ) : isDigits numerals (Nat.toDigits 10 n) = true := by
  have hdigit : ∀ c ∈ Nat.toDigits 10 n, c.isDigit = true := fun c hc =>
    Nat.isDigit_of_mem_toDigits (by decide) (by decide) hc
  have hplain : '_' ∉ Nat.toDigits 10 n := fun h => by
    have := hdigit _ h
    cases this
  rw [isDigits, List.splitOn_eq_singleton hplain]
  simp only [List.all_cons, List.all_nil, Bool.and_true, Bool.and_eq_true, decide_eq_true_eq,
    List.all_eq_true]
  refine ⟨by simp, fun c hc => ?_⟩
  rw [digit_of_isDigit (hdigit c hc)]
  rfl

theorem filterMap_toDigits (n : ℕ) : (Nat.toDigits 10 n).filterMap numerals.digit =
    (Nat.toDigits 10 n).map fun c => c.toNat - '0'.toNat := by
  rw [← List.filterMap_eq_map]
  apply List.filterMap_congr
  intro c hc
  exact digit_of_isDigit (Nat.isDigit_of_mem_toDigits (by decide) (by decide) hc)

theorem foldl_toDigits (n : ℕ) :
    ((Nat.toDigits 10 n).filterMap numerals.digit).foldl (fun n d => 10 * n + d) 0 = n := by
  rw [filterMap_toDigits, List.foldl_map, ← Nat.ofDigitChars_eq_foldl,
    Nat.ofDigitChars_ten_toDigits]

/-- The number of digits of a number. -/
def digitCount (n : ℤ) : ℕ := (Nat.toDigits 10 n.natAbs).length

theorem unsigned_of_isDigit {t : Text} (h : c.isDigit = true) : unsigned (c :: t) = c :: t := by
  unfold unsigned
  split
  · rename_i heq
    obtain ⟨rfl, rfl⟩ := List.cons.inj heq
    cases h
  · rename_i heq
    obtain ⟨rfl, rfl⟩ := List.cons.inj heq
    cases h
  · rfl

/-- **Numbers are read back**, if they do not have too many digits. -/
theorem pyInt_decimal (n : ℤ) :
    pyInt numerals (Doc.decimal n) = if digitCount n ≤ maxStrDigits then some n else none := by
  obtain ⟨c, t, ht, hc⟩ := Doc.exists_toDigits n.natAbs
  have hunsigned : unsigned (Doc.decimal n) = Nat.toDigits 10 n.natAbs := by
    unfold Doc.decimal
    split
    · rfl
    · rw [List.nil_append, ht, unsigned_of_isDigit hc]
  have hsign : (Doc.decimal n).head? = some '-' ↔ n < 0 := by
    unfold Doc.decimal
    split
    · rename_i hneg
      simp [hneg]
    · rename_i hneg
      rw [List.nil_append, ht]
      have hne : c ≠ '-' := fun h => by
        rw [h] at hc
        cases hc
      simp [hneg, hne]
  have hlength : ((Nat.toDigits 10 n.natAbs).filterMap numerals.digit).length = digitCount n := by
    rw [filterMap_toDigits, List.length_map, digitCount]
  unfold pyInt
  rw [trim_solid (solid_decimal n), hunsigned]
  simp only [isDigits_toDigits, true_and, hlength, foldl_toDigits, hsign]
  split_ifs with hle hneg
  · congr 1
    omega
  · congr 1
    omega
  · rfl

/-- A text that does not begin like digits. -/
theorem isDigits_eq_false (hc : c ≠ '_') (hd : numerals.digit c = none) (s : Text) :
    isDigits numerals (c :: s) = false := by
  have hbeq : (c == '_') = false := beq_eq_false_iff_ne.mpr hc
  obtain ⟨head, tail, hs⟩ := List.exists_cons_of_ne_nil (List.splitOn_ne_nil '_' s)
  rw [isDigits, List.splitOn_cons_eq_if_modifyHead, hbeq, hs]
  simp [hd]

theorem isMantissa_eq_false (hc : c ≠ '_') (hdot : c ≠ '.') (hd : numerals.digit c = none)
    (s : Text) : isMantissa numerals (c :: s) = false := by
  have hbeq : (c == '.') = false := beq_eq_false_iff_ne.mpr hdot
  obtain ⟨head, tail, hs⟩ := List.exists_cons_of_ne_nil (List.splitOn_ne_nil '.' s)
  rw [isMantissa, List.splitOn_cons_eq_if_modifyHead, hbeq, hs]
  cases tail with
  | nil => simp [isDigits_eq_false hc hd]
  | cons b tail =>
    cases tail with
    | nil => simp [isDigits_eq_false hc hd]
    | cons => rfl

theorem trim_cons {p : Char → Bool} (hc : p c = false) (s : Text) :
    ∃ t, trim p (c :: s) = c :: t := by
  have hdrop : ∀ t : Text, ∃ u, (t ++ [c]).dropWhile p = u ++ [c] := by
    intro t
    induction t with
    | nil => exact ⟨[], by simp [hc]⟩
    | cons d t ih =>
      rw [List.cons_append, List.dropWhile_cons]
      split
      · exact ih
      · exact ⟨d :: t, rfl⟩
  obtain ⟨u, hu⟩ := hdrop s.reverse
  refine ⟨u.reverse, ?_⟩
  rw [trim, List.dropWhile_cons_of_neg (by simp [hc]), List.reverse_cons, hu, List.reverse_append]
  rfl

theorem digit_quote : numerals.digit '"' = none := numerals.ascii '"' (by decide)

/-- A quoted text is no integer. -/
theorem pyInt_quote (s : Text) : pyInt numerals ('"' :: s) = none := by
  obtain ⟨t, ht⟩ := trim_cons (p := isBlank) (c := '"') (by decide) s
  have hunsigned : unsigned ('"' :: t) = '"' :: t := rfl
  have hdigits : isDigits numerals ('"' :: t) = false :=
    isDigits_eq_false (by decide) digit_quote t
  unfold pyInt
  simp [ht, hunsigned, hdigits]

/-- A quoted text is no number. -/
theorem isFloat_quote (s : Text) : isFloat numerals ('"' :: s) = false := by
  obtain ⟨t, ht⟩ := trim_cons (p := isBlank) (c := '"') (by decide) s
  have hunsigned : unsigned ('"' :: t) = '"' :: t := rfl
  have hmantissa : ∀ u, isMantissa numerals ('"' :: u) = false :=
    isMantissa_eq_false (by decide) (by decide) digit_quote
  have hlower : lower ('"' :: t) = '"' :: lower t := rfl
  have htake : ('"' :: t).takeWhile (!isExponent ·) = '"' :: t.takeWhile (!isExponent ·) := rfl
  unfold isFloat
  simp only [ht, hunsigned, hlower, htake, hmantissa]
  split <;> simp

end Reading

end HaAddons.Lib.Py
