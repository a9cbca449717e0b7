import HaAddons.Lib.PercentEncoding

/-!
# JSON strings on bytes

How Go's `encoding/json` writes a string into a document and reads it back. A Go string is any list
of bytes; what is not UTF-8 is replaced on the way.

* `scan_escape` — a written string is read back, with its invalid bytes replaced.
* `hasInfix_escape` — writing a string neither hides nor makes an occurrence of a plain word.
* `escape_printable` — a written string holds no control characters.
-/

namespace HaAddons

/-! ## Occurrences -/

/-- `strings.Contains(s, p)`. -/
def hasInfix (p : Bytes) : Bytes → Bool
  | [] => p.isEmpty
  | b :: s => p.isPrefixOf (b :: s) || hasInfix p s

theorem infix_of_hasInfix {p s : Bytes} (h : hasInfix p s = true) : p <:+: s := by
  induction s with
  | nil =>
    obtain rfl := List.isEmpty_iff.mp h
    exact List.infix_rfl
  | cons b s ih =>
    rcases (Bool.or_eq_true _ _).mp h with hpre | hrest
    · exact (List.isPrefixOf_iff_prefix.mp hpre).isInfix
    · exact (ih hrest).trans (List.suffix_cons b s).isInfix

/-- A word with a byte that the string does not have does not occur. -/
theorem hasInfix_eq_false {c : UInt8} {p s : Bytes} (hp : c ∈ p) (hs : c ∉ s) :
    hasInfix p s = false := by
  by_contra h
  exact hs ((infix_of_hasInfix (by simpa using h)).subset hp)

/-- No occurrence starts within `xs`. -/
theorem hasInfix_append_left {c : UInt8} {p xs : Bytes} (h : c ∉ xs) (ys : Bytes) :
    hasInfix (c :: p) (xs ++ ys) = hasInfix (c :: p) ys := by
  induction xs with
  | nil => rfl
  | cons x xs ih =>
    obtain ⟨hx, hxs⟩ := not_or.mp (mt List.mem_cons.mpr h)
    simp [hasInfix, hx, ih hxs]

theorem isPrefixOf_append_cons {c : UInt8} {p : Bytes} (h : c ∉ p) (xs ys : Bytes) :
    p.isPrefixOf (xs ++ c :: ys) = p.isPrefixOf xs := by
  induction p generalizing xs with
  | nil => simp
  | cons b p ih =>
    obtain ⟨hb, hp⟩ := not_or.mp (mt List.mem_cons.mpr h)
    cases xs with
    | nil => simp [List.isPrefixOf, Ne.symm hb]
    | cons x xs => simp [List.isPrefixOf, ih hp]

/-- An occurrence does not reach across a byte that is not in the word. -/
theorem hasInfix_append_cons {c : UInt8} {p : Bytes} (hp : p ≠ []) (h : c ∉ p) (xs ys : Bytes) :
    hasInfix p (xs ++ c :: ys) = (hasInfix p xs || hasInfix p ys) := by
  induction xs with
  | nil =>
    have hpre : p.isPrefixOf (c :: ys) = false := by
      have := isPrefixOf_append_cons h [] ys
      cases p with
      | nil => exact absurd rfl hp
      | cons b p => simpa using this
    cases p with
    | nil => exact absurd rfl hp
    | cons b p => simp [hasInfix, hpre]
  | cons x xs ih =>
    have hpre := isPrefixOf_append_cons h (x :: xs) ys
    simp only [List.cons_append] at hpre ⊢
    simp only [hasInfix, hpre, ih, Bool.or_assoc]

/-! ## Runes -/

def isContinuation (b : UInt8) : Bool := 0x80 ≤ b && b ≤ 0xBF

/-- The first two bytes of a rune of three bytes: no overlong form and no surrogate. -/
def startsThree (a b : UInt8) : Bool :=
  (a = 0xE0 && 0xA0 ≤ b && b ≤ 0xBF) || (0xE1 ≤ a && a ≤ 0xEC && isContinuation b) ||
    (a = 0xED && 0x80 ≤ b && b ≤ 0x9F) || (0xEE ≤ a && a ≤ 0xEF && isContinuation b)

/-- The first two bytes of a rune of four bytes: no overlong form and nothing above U+10FFFF. -/
def startsFour (a b : UInt8) : Bool :=
  (a = 0xF0 && 0x90 ≤ b && b ≤ 0xBF) || (0xF1 ≤ a && a ≤ 0xF3 && isContinuation b) ||
    (a = 0xF4 && 0x80 ≤ b && b ≤ 0x8F)

/-- A well-formed UTF-8 sequence of more than one byte. -/
def isWide : Bytes → Bool
  | [a, b] => 0xC2 ≤ a && a ≤ 0xDF && isContinuation b
  | [a, b, c] => startsThree a b && isContinuation c
  | [a, b, c, d] => startsFour a b && isContinuation c && isContinuation d
  | _ => false

/-- A piece of a string as `utf8.DecodeRune` sees it; a byte that is no part of a rune is invalid. -/
inductive Rune where
  | ascii (b : UInt8) (h : b < 0x80)
  | wide (s : Bytes) (h : isWide s = true)
  | invalid (b : UInt8) (h : 0x80 ≤ b)

/-- The first rune of more than one byte, if there is one. -/
def firstWide (s : Bytes) : Option {r : Bytes // isWide r = true} :=
  if h : isWide (s.take 2) = true then some ⟨_, h⟩
  else if h : isWide (s.take 3) = true then some ⟨_, h⟩
  else if h : isWide (s.take 4) = true then some ⟨_, h⟩
  else none

/-- The runes of a string; the first argument bounds their number. -/
def runesUpTo : ℕ → Bytes → List Rune
  | 0, _ | _, [] => []
  | n + 1, b :: s =>
    if h : b < 0x80 then .ascii b h :: runesUpTo n s
    else
      match firstWide (b :: s) with
      | some r => .wide r.1 r.2 :: runesUpTo n ((b :: s).drop r.1.length)
      | none => .invalid b (UInt8.not_lt.mp h) :: runesUpTo n s

def runes (s : Bytes) : List Rune := runesUpTo s.length s

/-- U+FFFD. -/
def replacement : Bytes := [0xEF, 0xBF, 0xBD]

namespace Rune

def bytes : Rune → Bytes
  | ascii b _ | invalid b _ => [b]
  | wide s _ => s

/-- The rune after it was written and read. -/
def valid : Rune → Bytes
  | invalid _ _ => replacement
  | r => r.bytes

end Rune

/-- `strings.ToValidUTF8`, byte by byte: what a string is after it was written and read. -/
def toValid (s : Bytes) : Bytes :=
  (runes s).flatMap Rune.valid

theorem firstWide_append {s : Bytes} {r : {r : Bytes // isWide r = true}}
    (h : firstWide s = some r) : r.1 ++ s.drop r.1.length = s := by
  have htake : ∀ k, s.take k ++ s.drop (s.take k).length = s := by
    intro k
    rcases Nat.le_total k s.length with hk | hk
    · rw [List.length_take, Nat.min_eq_left hk, List.take_append_drop]
    · simp [List.take_of_length_le hk]
  unfold firstWide at h
  split_ifs at h <;> cases h <;> exact htake _

theorem isWide_length {s : Bytes} (h : isWide s = true) : 2 ≤ s.length ∧ s.length ≤ 4 := by
  match s with
  | [a, b] | [a, b, c] | [a, b, c, d] => simp
  | [] | [a] => cases h
  | a :: b :: c :: d :: e :: s => cases h

theorem bytes_runesUpTo {n : ℕ} {s : Bytes} (h : s.length ≤ n) :
    (runesUpTo n s).flatMap Rune.bytes = s := by
  induction n generalizing s with
  | zero =>
    rw [List.length_eq_zero_iff.mp (Nat.le_zero.mp h)]
    rfl
  | succ n ih =>
    cases s with
    | nil => rfl
    | cons b s =>
      have hs : s.length ≤ n := by simpa using h
      rw [runesUpTo]
      split
      · simp [Rune.bytes, ih hs]
      · split
        · rename_i r hr
          have hlen := isWide_length r.2
          have hdrop : ((b :: s).drop r.1.length).length ≤ n := by
            simp only [List.length_drop, List.length_cons]
            omega
          rw [List.flatMap_cons, ih hdrop]
          exact firstWide_append hr
        · simp [Rune.bytes, ih hs]

/-- The runes make up the string. -/
theorem bytes_runes (s : Bytes) : (runes s).flatMap Rune.bytes = s :=
  bytes_runesUpTo (Nat.le_refl _)

/-- In an ASCII string every byte is a rune. -/
theorem runesUpTo_ascii {s : Bytes} (h : ∀ b ∈ s, b < 0x80) {n : ℕ} (hn : s.length ≤ n) :
    runesUpTo n s = s.pmap Rune.ascii h := by
  induction n generalizing s with
  | zero =>
    cases s with
    | nil => rfl
    | cons b s => simp at hn
  | succ n ih =>
    cases s with
    | nil => rfl
    | cons b s =>
      have htail : ∀ c ∈ s, c < 0x80 := fun c hc => h c (List.mem_cons_of_mem _ hc)
      rw [runesUpTo, dif_pos (h b List.mem_cons_self), ih htail (by simpa using hn)]
      rfl

theorem runes_ascii {s : Bytes} (h : ∀ b ∈ s, b < 0x80) : runes s = s.pmap Rune.ascii h :=
  runesUpTo_ascii h (Nat.le_refl _)

theorem toValid_ascii {s : Bytes} (h : ∀ b ∈ s, b < 0x80) : toValid s = s := by
  rw [toValid, runes_ascii h]
  induction s with
  | nil => rfl
  | cons b s ih =>
    have htail : ∀ c ∈ s, c < 0x80 := fun c hc => h c (List.mem_cons_of_mem _ hc)
    exact congrArg (b :: ·) (ih htail)

/-- The bytes of a rune of more than one byte are not ASCII. -/
theorem le_of_isWide {s : Bytes} (h : isWide s = true) : ∀ b ∈ s, 0x80 ≤ b := by
  have hthree : ∀ a b : UInt8, startsThree a b = true → 0x80 ≤ a ∧ 0x80 ≤ b := by
    intro a b h
    simp only [startsThree, isContinuation, Bool.or_eq_true, Bool.and_eq_true,
      decide_eq_true_eq] at h
    grind
  have hfour : ∀ a b : UInt8, startsFour a b = true → 0x80 ≤ a ∧ 0x80 ≤ b := by
    intro a b h
    simp only [startsFour, isContinuation, Bool.or_eq_true, Bool.and_eq_true,
      decide_eq_true_eq] at h
    grind
  match s, h with
  | [a, b], h =>
    simp only [isWide, isContinuation, Bool.and_eq_true, decide_eq_true_eq] at h
    grind
  | [a, b, c], h =>
    simp only [isWide, isContinuation, Bool.and_eq_true, decide_eq_true_eq] at h
    have := hthree a b h.1
    grind
  | [a, b, c, d], h =>
    simp only [isWide, isContinuation, Bool.and_eq_true, decide_eq_true_eq] at h
    have := hfour a b h.1.1
    grind
  | [], h | [a], h => cases h
  | a :: b :: c :: d :: e :: s, h => cases h

/-- A rune is found whatever follows it. -/
theorem firstWide_of_isWide {s : Bytes} (h : isWide s = true) (t : Bytes) :
    (firstWide (s ++ t)).map Subtype.val = some s := by
  match s, h with
  | [a, b], h => simp [firstWide, h]
  | [a, b, c], h =>
    have h2 : isWide [a, b] = false := by
      simp only [isWide, startsThree, Bool.and_eq_true, Bool.or_eq_true, decide_eq_true_eq,
        Bool.and_eq_false_iff, decide_eq_false_iff_not] at h ⊢
      grind
    simp [firstWide, h, h2]
  | [a, b, c, d], h =>
    have h2 : isWide [a, b] = false := by
      simp only [isWide, startsFour, Bool.and_eq_true, Bool.or_eq_true, decide_eq_true_eq,
        Bool.and_eq_false_iff, decide_eq_false_iff_not] at h ⊢
      grind
    have h3 : isWide [a, b, c] = false := by
      simp only [isWide, startsFour, startsThree, Bool.and_eq_true, Bool.or_eq_true,
        decide_eq_true_eq, Bool.and_eq_false_iff, Bool.or_eq_false_iff,
        decide_eq_false_iff_not] at h ⊢
      grind
    simp [firstWide, h, h2, h3]
  | [], h | [a], h => cases h
  | a :: b :: c :: d :: e :: s, h => cases h

/-! ## Writing -/

def lowerHex (n : ℕ) : UInt8 := (utf8 "0123456789abcdef").getD n 0

/-- A byte below 0x80 as it is written, with HTML escaping. -/
def escapeAscii (b : UInt8) : Bytes :=
  if b = 0x22 ∨ b = 0x5C then [0x5C, b]
  else if b = 0x08 then utf8 "\\b"
  else if b = 0x0C then utf8 "\\f"
  else if b = 0x0A then utf8 "\\n"
  else if b = 0x0D then utf8 "\\r"
  else if b = 0x09 then utf8 "\\t"
  else if b < 0x20 ∨ b = 0x3C ∨ b = 0x3E ∨ b = 0x26 then
    utf8 "\\u00" ++ [lowerHex (b.toNat / 16), lowerHex (b.toNat % 16)]
  else [b]

/-- A rune as it is written. The line separators are escaped for JavaScript's sake. -/
def Rune.escape : Rune → Bytes
  | ascii b _ => escapeAscii b
  | wide s _ =>
    if s = [0xE2, 0x80, 0xA8] then utf8 "\\u2028"
    else if s = [0xE2, 0x80, 0xA9] then utf8 "\\u2029"
    else s
  | invalid _ _ => utf8 "\\ufffd"

/-- The body of a JSON string, between its quotes. -/
def escape (s : Bytes) : Bytes := (runes s).flatMap Rune.escape

/-- What holds of every byte can be checked byte by byte. -/
theorem forall_byte {P : UInt8 → Prop} (h : ∀ n < 256, P (UInt8.ofNat n)) (b : UInt8) : P b := by
  have := h b.toNat b.toNat_lt
  rwa [UInt8.ofNat_toNat] at this

/-- What a written ASCII byte consists of. -/
theorem escapeAscii_spec (b : UInt8) : (∀ c ∈ escapeAscii b, 0x20 ≤ c) ∧
    (escapeAscii b = [b] ∨ (escapeAscii b).head? = some 0x5C ∧ 0x2D ∉ escapeAscii b) := by
  have hlow : ∀ n < 256, (escapeAscii (UInt8.ofNat n)).all (fun c => 0x20 ≤ c) := by
    decide +kernel
  have hform : ∀ n < 256, escapeAscii (UInt8.ofNat n) = [UInt8.ofNat n] ∨
      (escapeAscii (UInt8.ofNat n)).head? = some 0x5C ∧
        0x2D ∉ escapeAscii (UInt8.ofNat n) := by
    decide +kernel
  constructor
  · intro c hc
    have := forall_byte (P := fun b => (escapeAscii b).all (fun c => 0x20 ≤ c)) hlow b
    simpa using List.all_eq_true.mp this c hc
  · exact forall_byte (P := fun b => escapeAscii b = [b] ∨
      (escapeAscii b).head? = some 0x5C ∧ 0x2D ∉ escapeAscii b) hform b

theorem Rune.escape_printable (r : Rune) : ∀ c ∈ r.escape, 0x20 ≤ c := by
  cases r with
  | ascii b h => exact (escapeAscii_spec b).1
  | wide s h =>
    simp only [Rune.escape]
    split_ifs
    · decide +kernel
    · decide +kernel
    · intro c hc
      have := le_of_isWide h c hc
      grind
  | invalid b h =>
    show ∀ c ∈ utf8 "\\ufffd", 0x20 ≤ c
    decide +kernel

/-- **No control characters.** What is written stays on its line. -/
theorem escape_printable (s : Bytes) : ∀ c ∈ escape s, 0x20 ≤ c := by
  intro c hc
  obtain ⟨r, -, hr⟩ := List.mem_flatMap.mp hc
  exact r.escape_printable c hr

/-- A word that is written as it is and starts with `-`. -/
structure PlainWord (p : Bytes) : Prop where
  head : p.head? = some 0x2D
  plain : ∀ c ∈ p, c < 0x80 ∧ escapeAscii c = [c]

/-- Bytes in which no plain word begins, nor ends. -/
structure Shielded (s : Bytes) : Prop where
  dash : 0x2D ∉ s
  ne_nil : s ≠ []
  head : ∀ c < 0x80, escapeAscii c = [c] → s.head? ≠ some c

/-- Two ways to spell runes have the same plain words. -/
def SameWords (f g : Rune → Bytes) : Prop :=
  ∀ r, (∃ b, f r = [b] ∧ g r = [b]) ∨ Shielded (f r) ∧ Shielded (g r)

theorem shielded_of_le {s : Bytes} (hne : s ≠ []) (h : ∀ b ∈ s, 0x80 ≤ b) : Shielded s where
  dash hm := absurd (h _ hm) (by decide)
  ne_nil := hne
  head c hc _ hh := absurd (h c (List.mem_of_head? hh)) (UInt8.not_le.mpr hc)

theorem shielded_of_backslash {s : Bytes} (h : s.head? = some 0x5C) (hdash : 0x2D ∉ s) :
    Shielded s where
  dash := hdash
  ne_nil hs := by
    rw [hs] at h
    cases h
  head c _ hc hh := by
    obtain rfl : 0x5C = c := Option.some.inj (h.symm.trans hh)
    have hslash : escapeAscii 0x5C = [0x5C, 0x5C] := by decide
    rw [hslash] at hc
    cases hc

theorem shielded_ascii {b : UInt8} (h : escapeAscii b ≠ [b]) : Shielded [b] where
  dash hm := by
    obtain rfl : 0x2D = b := by simpa using hm
    exact h (by decide)
  ne_nil := by simp
  head c _ hc hh := by
    obtain rfl : b = c := by simpa using hh
    exact h hc

theorem isWide_ne_nil {s : Bytes} (h : isWide s = true) : s ≠ [] := by
  intro hs
  rw [hs] at h
  cases h

theorem Rune.sameWords_escape : SameWords Rune.escape Rune.bytes := by
  intro r
  cases r with
  | ascii b h =>
    by_cases hb : escapeAscii b = [b]
    · exact .inl ⟨b, hb, rfl⟩
    · obtain ⟨hhead, hdash⟩ := (escapeAscii_spec b).2.resolve_left hb
      exact .inr ⟨shielded_of_backslash hhead hdash, shielded_ascii hb⟩
  | wide s h =>
    have hs : Shielded s := shielded_of_le (isWide_ne_nil h) (le_of_isWide h)
    refine .inr ⟨?_, hs⟩
    simp only [Rune.escape]
    split_ifs
    · exact shielded_of_backslash (by decide) (by decide)
    · exact shielded_of_backslash (by decide) (by decide)
    · exact hs
  | invalid b h =>
    have hesc : Shielded (utf8 "\\ufffd") := shielded_of_backslash (by decide) (by decide)
    exact .inr ⟨hesc, shielded_of_le (by simp [bytes]) (by simpa [bytes] using h)⟩

theorem Rune.sameWords_valid : SameWords Rune.valid Rune.bytes := by
  intro r
  cases r with
  | ascii b h => exact .inl ⟨b, rfl, rfl⟩
  | wide s h =>
    have hs : Shielded s := shielded_of_le (isWide_ne_nil h) (le_of_isWide h)
    exact .inr ⟨hs, hs⟩
  | invalid b h =>
    have hvalid : Shielded replacement := shielded_of_le (by decide) (by decide +kernel)
    exact .inr ⟨hvalid, shielded_of_le (by simp [bytes]) (by simpa [bytes] using h)⟩

theorem isPrefixOf_shielded {c : UInt8} {s : Bytes} (hs : Shielded s) (hlt : c < 0x80)
    (hc : escapeAscii c = [c]) (p t : Bytes) : (c :: p).isPrefixOf (s ++ t) = false := by
  have hhead := hs.head c hlt hc
  cases s with
  | nil => exact absurd rfl hs.ne_nil
  | cons b s =>
    have hne : c ≠ b := fun h => hhead (by rw [h]; rfl)
    simp [List.isPrefixOf, hne]

theorem isPrefixOf_flatMap {f g : Rune → Bytes} (hfg : SameWords f g) (rs : List Rune) (p : Bytes)
    (hp : ∀ c ∈ p, c < 0x80 ∧ escapeAscii c = [c]) :
    p.isPrefixOf (rs.flatMap f) = p.isPrefixOf (rs.flatMap g) := by
  induction rs generalizing p with
  | nil => rfl
  | cons r rs ih =>
    cases p with
    | nil => simp
    | cons c p =>
      obtain ⟨hlt, hc⟩ := hp c List.mem_cons_self
      rw [List.flatMap_cons, List.flatMap_cons]
      rcases hfg r with ⟨b, hf, hg⟩ | ⟨hf, hg⟩
      · rw [hf, hg]
        exact congrArg (c == b && ·) (ih p fun d hd => hp d (List.mem_cons_of_mem _ hd))
      · rw [isPrefixOf_shielded hf hlt hc, isPrefixOf_shielded hg hlt hc]

theorem hasInfix_flatMap {f g : Rune → Bytes} (hfg : SameWords f g) {p : Bytes} (hp : PlainWord p)
    (rs : List Rune) : hasInfix p (rs.flatMap f) = hasInfix p (rs.flatMap g) := by
  obtain ⟨d, p, rfl⟩ : ∃ d p', p = d :: p' := by
    cases p with
    | nil => cases hp.head
    | cons d p => exact ⟨d, p, rfl⟩
  obtain rfl : d = 0x2D := by simpa using hp.head
  induction rs with
  | nil => rfl
  | cons r rs ih =>
    have hpre := isPrefixOf_flatMap hfg (r :: rs) _ hp.plain
    rw [List.flatMap_cons, List.flatMap_cons] at hpre ⊢
    rcases hfg r with ⟨b, hf, hg⟩ | ⟨hf, hg⟩
    · rw [hf, hg] at hpre ⊢
      show (_ || _) = (_ || _)
      exact congrArg₂ _ hpre ih
    · rw [hasInfix_append_left hf.dash, hasInfix_append_left hg.dash, ih]

/-- **Writing keeps plain words.** A plain word occurs in what is written exactly when it occurs in
the string. -/
theorem hasInfix_escape {p : Bytes} (hp : PlainWord p) (s : Bytes) :
    hasInfix p (escape s) = hasInfix p s := by
  rw [escape, hasInfix_flatMap Rune.sameWords_escape hp, bytes_runes]

/-- Replacing invalid bytes keeps plain words. -/
theorem hasInfix_toValid {p : Bytes} (hp : PlainWord p) (s : Bytes) :
    hasInfix p (toValid s) = hasInfix p s := by
  rw [toValid, hasInfix_flatMap Rune.sameWords_valid hp, bytes_runes]

/-! ## Reading -/

/-- The UTF-8 form of a code point below 0x10000; a surrogate becomes U+FFFD. -/
def encodeRune (n : ℕ) : Bytes :=
  if n < 0x80 then [UInt8.ofNat n]
  else if n < 0x800 then [UInt8.ofNat (0xC0 + n / 0x40), UInt8.ofNat (0x80 + n % 0x40)]
  else if 0xD800 ≤ n ∧ n < 0xE000 then replacement
  else [UInt8.ofNat (0xE0 + n / 0x1000), UInt8.ofNat (0x80 + n / 0x40 % 0x40),
    UInt8.ofNat (0x80 + n % 0x40)]

/-- `getu4`: four hex digits. -/
def getu4 (a b c d : UInt8) : Option ℕ :=
  (Percent.unhex a).bind fun w => (Percent.unhex b).bind fun x =>
    (Percent.unhex c).bind fun y => (Percent.unhex d).map fun z => ((w * 16 + x) * 16 + y) * 16 + z

/-- What a backslash followed by one letter stands for. -/
def unescapeLetter (c : UInt8) : Option UInt8 :=
  if c = 0x22 ∨ c = 0x5C ∨ c = 0x2F then some c
  else if c = 0x62 then some 0x08
  else if c = 0x66 then some 0x0C
  else if c = 0x6E then some 0x0A
  else if c = 0x72 then some 0x0D
  else if c = 0x74 then some 0x09
  else none

/-- The string up to its closing quote, and what follows the quote. The first argument bounds the
number of steps. Pairs of surrogates are read one by one; nothing here writes them. -/
def scan : ℕ → Bytes → Option (Bytes × Bytes)
  | 0, _ | _, [] => none
  | n + 1, b :: s =>
    if b = 0x22 then some ([], s)
    else if b = 0x5C then
      match s with
      | 0x75 :: w :: x :: y :: z :: s =>
        (getu4 w x y z).bind fun u => (scan n s).map fun r => (encodeRune u ++ r.1, r.2)
      | c :: s => (unescapeLetter c).bind fun d => (scan n s).map fun r => (d :: r.1, r.2)
      | [] => none
    else if b < 0x20 then none
    else if b < 0x80 then (scan n s).map fun r => (b :: r.1, r.2)
    else
      match firstWide (b :: s) with
      | some w => (scan n ((b :: s).drop w.1.length)).map fun r => (w.1 ++ r.1, r.2)
      | none => (scan n s).map fun r => (replacement ++ r.1, r.2)

/-- The digits of an escaped control character are read back. -/
theorem getu4_lowerHex (b : UInt8) (h : b < 0x80) :
    (getu4 0x30 0x30 (lowerHex (b.toNat / 16)) (lowerHex (b.toNat % 16))).map encodeRune =
      some [b] :=
  forall_byte (P := fun b => b < 0x80 →
    (getu4 0x30 0x30 (lowerHex (b.toNat / 16)) (lowerHex (b.toNat % 16))).map encodeRune =
      some [b]) (by decide +kernel) b h

theorem scan_escapeAscii {b : UInt8} (h : b < 0x80) (n : ℕ) (s : Bytes) :
    scan (n + 1) (escapeAscii b ++ s) = (scan n s).map fun r => (b :: r.1, r.2) := by
  have hu : utf8 "\\u00" = [0x5C, 0x75, 0x30, 0x30] := by decide
  unfold escapeAscii
  split_ifs with hq h1 h2 h3 h4 h5 hc
  · rcases hq with rfl | rfl <;> simp [scan, unescapeLetter]
  · subst h1
    rfl
  · subst h2
    rfl
  · subst h3
    rfl
  · subst h4
    rfl
  · subst h5
    rfl
  · obtain ⟨u, hu', henc⟩ := Option.map_eq_some_iff.mp (getu4_lowerHex b h)
    simp [hu, scan, hu', henc]
  · obtain ⟨hne, hslash⟩ := not_or.mp hq
    have hge : ¬ b < 0x20 := fun hlt => hc (.inl hlt)
    simp [scan, hne, hslash, hge, h]

theorem scan_wide {w : Bytes} (h : isWide w = true) (n : ℕ) (s : Bytes) :
    scan (n + 1) (w ++ s) = (scan n s).map fun r => (w ++ r.1, r.2) := by
  have hfirst := firstWide_of_isWide h s
  have hhigh := le_of_isWide h
  cases w with
  | nil => cases h
  | cons b w =>
    have hb : 0x80 ≤ b := hhigh b List.mem_cons_self
    have hne : b ≠ 0x22 := by grind
    have hslash : b ≠ 0x5C := by grind
    have hlow : ¬ b < 0x20 := by grind
    have hascii : ¬ b < 0x80 := UInt8.not_lt.mpr hb
    obtain ⟨v, hv, hval⟩ := Option.map_eq_some_iff.mp hfirst
    rw [List.cons_append] at hv
    have hdrop : (b :: (w ++ s)).drop (b :: w).length = s := List.drop_left
    simp only [List.cons_append, scan, hne, hslash, hlow, hascii, hv, hval, hdrop, if_false]

theorem scan_rune (r : Rune) (n : ℕ) (s : Bytes) :
    scan (n + 1) (r.escape ++ s) = (scan n s).map fun x => (r.valid ++ x.1, x.2) := by
  cases r with
  | ascii b h => exact scan_escapeAscii h n s
  | wide w h =>
    simp only [Rune.escape]
    split_ifs with h1 h2
    · subst h1
      rfl
    · subst h2
      rfl
    · exact scan_wide h n s
  | invalid b h => rfl

theorem Rune.escape_ne_nil (r : Rune) : r.escape ≠ [] := by
  rcases r.sameWords_escape with ⟨b, hb, -⟩ | ⟨hs, -⟩
  · rw [hb]
    simp
  · exact hs.ne_nil

/-- **Round trip.** A written string is read back up to its invalid bytes. -/
theorem scan_escape {n : ℕ} {s : Bytes} (h : (escape s).length < n) (t : Bytes) :
    scan n (escape s ++ 0x22 :: t) = some (toValid s, t) := by
  have hrunes : ∀ (rs : List Rune) (n : ℕ), (rs.flatMap Rune.escape).length < n →
      scan n (rs.flatMap Rune.escape ++ 0x22 :: t) = some (rs.flatMap Rune.valid, t) := by
    intro rs
    induction rs with
    | nil =>
      intro n hn
      obtain ⟨m, rfl⟩ := Nat.exists_eq_add_of_lt hn
      rfl
    | cons r rs ih =>
      intro n hn
      have hpos : 0 < r.escape.length := List.length_pos_iff.mpr r.escape_ne_nil
      rw [List.flatMap_cons, List.length_append] at hn
      obtain ⟨m, rfl⟩ : ∃ m, n = m + 1 := ⟨n - 1, by omega⟩
      rw [List.flatMap_cons, List.append_assoc, scan_rune, ih m (by omega)]
      rfl
  exact hrunes _ n h

end HaAddons
