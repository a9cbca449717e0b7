import HaAddons.Lib.Matching
import Mathlib.Data.Char
import Mathlib.Data.List.Lex
import Mathlib.Data.List.Infix
import Mathlib.Data.Prod.Lex
import Mathlib.Data.Sum.Order
import Mathlib.Order.WithBot
import Mathlib.Data.Nat.Notation
import Mathlib.Order.Basic

/-!
# Semantic versions

A version is three numbers, pre-release identifiers and build words. Its text is
`major.minor.patch-pre+build`, and what follows the patch is its suffix.

* `Version.key` — versions are ordered by their numbers, then by their pre-release identifiers. A
  release is above its pre-releases, and the build words do not count.
* `text_inj` — a text is that of one version.
* `text_ne_of_head` — a text that does not begin with a digit is no version.
-/

namespace HaAddons.Lib.SemVer

/-- The characters of identifiers. -/
def isWordChar (c : Char) : Bool := c.isDigit || c.isAlpha || c == '-'

/-- An identifier that is not a number. -/
structure Word where
  text : List Char
  chars : text.all isWordChar = true
  notNumber : text.all Char.isDigit = false

/-- A word of the build metadata. -/
structure BuildWord where
  text : List Char
  nonempty : text ≠ []
  chars : text.all isWordChar = true

/-- A pre-release identifier. Numbers are written without leading zeros. -/
inductive Identifier where
  | number (n : ℕ)
  | word (w : Word)

structure Version where
  major : ℕ
  minor : ℕ
  patch : ℕ
  pre : List Identifier
  build : List BuildWord

def decimal (n : ℕ) : List Char := Nat.toDigits 10 n

namespace Identifier

def text : Identifier → List Char
  | number n => decimal n
  | word w => w.text

/-- Numbers are below words. -/
def key : Identifier → ℕ ⊕ₗ List Char
  | number n => toLex (.inl n)
  | word w => toLex (.inr w.text)

end Identifier

namespace Version

/-- Words with dots between them, after a mark. -/
def marked {ι : Type} (mark : Char) (text : ι → List Char) (is : List ι) : List Char :=
  if is.isEmpty then [] else mark :: ['.'].intercalate (is.map text)

/-- What follows the three numbers. -/
def suffix (v : Version) : List Char :=
  marked '-' Identifier.text v.pre ++ marked '+' BuildWord.text v.build

def text (v : Version) : List Char :=
  decimal v.major ++ '.' :: (decimal v.minor ++ '.' :: (decimal v.patch ++ v.suffix))

/-- A release has no pre-release identifiers and comes last. -/
def preKey (v : Version) : WithTop (List (ℕ ⊕ₗ List Char)) :=
  if v.pre.isEmpty then ⊤ else (v.pre.map Identifier.key : List (ℕ ⊕ₗ List Char))

def key (v : Version) : ℕ ×ₗ ℕ ×ₗ ℕ ×ₗ WithTop (List (ℕ ⊕ₗ List Char)) :=
  toLex (v.major, toLex (v.minor, toLex (v.patch, v.preKey)))

instance : Preorder Version := Preorder.lift key

theorem le_def {v w : Version} : v ≤ w ↔ v.key ≤ w.key := Iff.rfl

theorem lt_def {v w : Version} : v < w ↔ v.key < w.key := Iff.rfl

theorem not_le_iff {v w : Version} : ¬ v ≤ w ↔ w < v := by
  rw [le_def, lt_def, not_le]

theorem marked_eq_nil {ι : Type} {mark : Char} {text : ι → List Char} {is : List ι} :
    marked mark text is = [] ↔ is = [] := by
  simp [marked]

theorem marked_head {ι : Type} {mark c : Char} {text : ι → List Char} {is : List ι} {s : List Char}
    (h : marked mark text is = c :: s) : c = mark := by
  unfold marked at h
  split at h
  · cases h
  · rw [List.cons.injEq] at h
    exact h.1.symm

theorem suffix_eq_nil {v : Version} : v.suffix = [] ↔ v.pre = [] ∧ v.build = [] := by
  rw [suffix, List.append_eq_nil_iff, marked_eq_nil, marked_eq_nil]

/-- A suffix begins with `-` or `+`. -/
theorem suffix_head {v : Version} {c : Char} {s : List Char} (h : v.suffix = c :: s) :
    c = '-' ∨ c = '+' := by
  unfold suffix at h
  cases hpre : marked '-' Identifier.text v.pre with
  | nil =>
    rw [hpre, List.nil_append] at h
    exact .inr (marked_head h)
  | cons d t =>
    rw [hpre, List.cons_append, List.cons.injEq] at h
    exact .inl (h.1 ▸ marked_head hpre)

/-- Releases are ordered by their numbers. -/
theorem le_of_release {v w : Version} (hv : v.pre = []) (hw : w.pre = []) :
    v ≤ w ↔ toLex (v.major, toLex (v.minor, v.patch)) ≤
      toLex (w.major, toLex (w.minor, w.patch)) := by
  rw [le_def]
  simp only [key, preKey, hv, hw, List.isEmpty_nil, if_true, Prod.Lex.toLex_le_toLex]
  simp [le_iff_lt_or_eq]

end Version

/-! ## Numbers -/

theorem isDigit_of_mem_decimal {n : ℕ} {c : Char} (h : c ∈ decimal n) : c.isDigit = true :=
  Nat.isDigit_of_mem_toDigits (by decide) (by decide) h

theorem ofDigitChars_decimal (n : ℕ) : Nat.ofDigitChars 10 (decimal n) 0 = n :=
  Nat.ofDigitChars_ten_toDigits

theorem decimal_ne_nil {n : ℕ} : decimal n ≠ [] := Nat.toDigits_ne_nil

/-- A text that does not begin with a digit is no version. -/
theorem text_ne_of_head {c : Char} {s : List Char} (hc : c.isDigit = false) (v : Version) :
    v.text ≠ c :: s := by
  intro h
  obtain ⟨d, ds, hdigits⟩ := List.exists_cons_of_ne_nil (@decimal_ne_nil v.major)
  have hd : d.isDigit = true := isDigit_of_mem_decimal (n := v.major) (hdigits ▸ List.mem_cons_self)
  rw [Version.text, hdigits, List.cons_append, List.cons.injEq] at h
  rw [h.1, hc] at hd
  cases hd

/-! ## One version for a text -/

theorem decimal_inj {m n : ℕ} (h : decimal m = decimal n) : m = n := by
  have hchars := congrArg (fun ds => Nat.ofDigitChars 10 ds 0) h
  simpa [ofDigitChars_decimal] using hchars

/-- The text does not begin with a digit. -/
def Stops (s : List Char) : Prop := ∀ c t, s = c :: t → c.isDigit = false

/-- A number ends where the digits end. -/
theorem decimal_append_inj {m n : ℕ} {s t : List Char} (hs : Stops s) (ht : Stops t)
    (h : decimal m ++ s = decimal n ++ t) : m = n ∧ s = t := by
  have htake : ∀ {k : ℕ} {u : List Char}, Stops u →
      (decimal k ++ u).takeWhile Char.isDigit = decimal k := by
    intro k u hu
    rw [List.takeWhile_append_of_pos fun _ hc => isDigit_of_mem_decimal hc]
    cases u with
    | nil => simp
    | cons c u => simp [hu c u rfl]
  have hdigits : decimal m = decimal n := by
    rw [← htake hs, h, htake ht]
  rw [hdigits, List.append_cancel_left_eq] at h
  exact ⟨decimal_inj hdigits, h⟩

theorem stops_dot {s : List Char} : Stops ('.' :: s) := by
  intro c t h
  rw [List.cons.injEq] at h
  exact h.1 ▸ rfl

theorem stops_suffix {v : Version} : Stops v.suffix := by
  intro c t h
  cases Version.suffix_head h with
  | inl hc => exact hc ▸ rfl
  | inr hc => exact hc ▸ rfl

theorem isWordChar_of_isDigit {c : Char} (h : c.isDigit = true) : isWordChar c = true := by
  simp [isWordChar, h]

theorem Identifier.isWordChar_text {i : Identifier} {c : Char} (h : c ∈ i.text) :
    isWordChar c = true := by
  cases i with
  | number n => exact isWordChar_of_isDigit (isDigit_of_mem_decimal h)
  | word w => exact List.all_eq_true.mp w.chars c h

theorem Identifier.text_inj {i j : Identifier} (h : i.text = j.text) : i = j := by
  have hnumber : ∀ {n : ℕ} {w : Word}, decimal n ≠ w.text := by
    intro n w h
    have hall : w.text.all Char.isDigit = true :=
      List.all_eq_true.mpr fun _ hc => isDigit_of_mem_decimal (h ▸ hc)
    rw [w.notNumber] at hall
    cases hall
  cases i with
  | number n =>
    cases j with
    | number m => exact congrArg number (decimal_inj h)
    | word w => exact absurd h hnumber
  | word w =>
    cases j with
    | number m => exact absurd h.symm hnumber
    | word w' =>
      cases w
      cases w'
      cases h
      rfl

theorem BuildWord.text_inj {w w' : BuildWord} (h : w.text = w'.text) : w = w' := by
  cases w
  cases w'
  cases h
  rfl

/-- Words that hold no dot are told apart by the dots between them. -/
theorem intercalate_inj {ι : Type} {text : ι → List Char}
    (hword : ∀ i c, c ∈ text i → isWordChar c = true)
    (hinj : ∀ i j, text i = text j → i = j) {is js : List ι} (hi : is ≠ []) (hj : js ≠ [])
    (h : ['.'].intercalate (is.map text) = ['.'].intercalate (js.map text)) : is = js := by
  have hdot : ∀ {ks : List ι}, ∀ l ∈ ks.map text, '.' ∉ l := by
    intro ks l hl hmem
    obtain ⟨i, -, rfl⟩ := List.mem_map.mp hl
    have hc := hword i '.' hmem
    cases hc
  have hsplit := congrArg (List.splitOn '.') h
  rw [List.splitOn_intercalate '.' hdot (by simpa using hi),
    List.splitOn_intercalate '.' hdot (by simpa using hj)] at hsplit
  exact List.map_injective_iff.mpr (fun i j hij => hinj i j hij) hsplit

theorem marked_inj {ι : Type} {mark : Char} {text : ι → List Char}
    (hword : ∀ i c, c ∈ text i → isWordChar c = true)
    (hinj : ∀ i j, text i = text j → i = j) {is js : List ι}
    (h : Version.marked mark text is = Version.marked mark text js) : is = js := by
  by_cases hi : is = []
  · rw [hi, Version.marked_eq_nil.mpr rfl] at h
    rw [hi, Version.marked_eq_nil.mp h.symm]
  · by_cases hj : js = []
    · rw [hj, Version.marked_eq_nil.mpr rfl] at h
      exact absurd (Version.marked_eq_nil.mp h) hi
    · simp only [Version.marked, List.isEmpty_iff, hi, hj, if_false, List.cons.injEq] at h
      exact intercalate_inj hword hinj hi hj h.2

theorem plus_notMem_pre {is : List Identifier} :
    ∀ c ∈ Version.marked '-' Identifier.text is, c ≠ '+' := by
  intro c hc he
  subst he
  unfold Version.marked at hc
  split at hc
  · cases hc
  · cases List.mem_cons.mp hc with
    | inl h => cases h
    | inr h =>
      cases mem_intercalate h with
      | inl h => cases h
      | inr h =>
        obtain ⟨l, hl, hmem⟩ := h
        obtain ⟨i, -, rfl⟩ := List.mem_map.mp hl
        cases Identifier.isWordChar_text hmem

theorem suffix_inj {v w : Version} (h : v.suffix = w.suffix) :
    v.pre = w.pre ∧ v.build = w.build := by
  have htake : ∀ u : Version, u.suffix.takeWhile (· ≠ '+') =
      Version.marked '-' Identifier.text u.pre := by
    intro u
    rw [Version.suffix, List.takeWhile_append_of_pos fun c hc => by simpa using plus_notMem_pre c hc]
    cases hbuild : Version.marked '+' BuildWord.text u.build with
    | nil => simp
    | cons c t => simp [Version.marked_head hbuild]
  have hpre : Version.marked '-' Identifier.text v.pre =
      Version.marked '-' Identifier.text w.pre := by
    rw [← htake, h, htake]
  rw [Version.suffix, Version.suffix, hpre, List.append_cancel_left_eq] at h
  exact ⟨marked_inj (fun _ _ => Identifier.isWordChar_text) (fun _ _ => Identifier.text_inj) hpre,
    marked_inj (fun w c hc => List.all_eq_true.mp w.chars c hc)
      (fun _ _ => BuildWord.text_inj) h⟩

/-- **A text is that of one version.** -/
theorem text_inj {v w : Version} (h : v.text = w.text) : v = w := by
  obtain ⟨hmajor, h⟩ := decimal_append_inj stops_dot stops_dot h
  obtain ⟨hminor, h⟩ := decimal_append_inj stops_dot stops_dot (List.cons.inj h).2
  obtain ⟨hpatch, h⟩ := decimal_append_inj stops_suffix stops_suffix (List.cons.inj h).2
  obtain ⟨hpre, hbuild⟩ := suffix_inj h
  cases v
  cases w
  simp_all

end HaAddons.Lib.SemVer
