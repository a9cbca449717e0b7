import HaAddons.Lib.JsonText
import Mathlib.Data.List.DropRight
import Mathlib.Data.List.SplitBy

/-!
# Redaction of captured output

The credential patterns and the stateful front end that lines of output are served through. Lines
are Go strings, that is, bytes; the regular expressions of the source are written out as the
functions they compute.

* `Redactor.line_spec` — a line is the marker because of a PEM block, or judged on its own.
* `Redactor.Covers` — the latch of one redactor is on wherever that of another is; skipping a line
  keeps this as showing it does.
-/

namespace HaAddons.Runner

def redactedMarker : Bytes := utf8 "<redacted>"

/-! ## Characters -/

def isUpper (b : UInt8) : Bool := 0x41 ≤ b && b ≤ 0x5A
def isLower (b : UInt8) : Bool := 0x61 ≤ b && b ≤ 0x7A
def isDigit (b : UInt8) : Bool := 0x30 ≤ b && b ≤ 0x39

/-- `[A-Za-z0-9+/=]`, in the order of either pattern. -/
def isBase64 (b : UInt8) : Bool := isUpper b || isLower b || isDigit b || b ∈ utf8 "+/="

def isLowerHex (b : UInt8) : Bool := isDigit b || (0x61 ≤ b && b ≤ 0x66)

/-- `\s`. -/
def isBlank (b : UInt8) : Bool := b ∈ [0x09, 0x0A, 0x0C, 0x0D, 0x20]

/-- What `\b` takes for a part of a word. -/
def isWord (b : UInt8) : Bool := isUpper b || isLower b || isDigit b || b = 0x5F

/-! ## Tokens -/

/-- `^[A-Z0-9]{20}$` -/
def r2AccessKeyRe (s : Bytes) : Bool := s.length = 20 && s.all fun b => isUpper b || isDigit b

/-- `^[A-Za-z0-9/+=]{40}$` -/
def awsSecretKeyRe (s : Bytes) : Bool := s.length = 40 && s.all isBase64

/-- `^[0-9a-f]{32}$|^[0-9a-f]{64}$` -/
def r2HexKeyRe (s : Bytes) : Bool := (s.length = 32 || s.length = 64) && s.all isLowerHex

def tokenDelimiters : Bytes := utf8 " \t\"'=,()[]\x7b\x7d:;@"

/-- A run of delimiters, or a token. -/
structure Segment where
  text : Bytes
  delim : Bool

def isDelimiter (b : UInt8) : Bool := b ∈ tokenDelimiters

def splitTokens (line : Bytes) : List Segment :=
  (line.splitBy fun a b => isDelimiter a == isDelimiter b).map fun t => ⟨t, t.any isDelimiter⟩

def isEqualsRun (s : Bytes) : Bool := s ≠ [] && s.all (· = 0x3D)

def isCredential (s : Bytes) : Bool := r2AccessKeyRe s || awsSecretKeyRe s || r2HexKeyRe s

/-- The loop over the segments. A secret keeps the padding that was split off it. -/
def redactSegments : List Segment → Bytes × ℕ
  | [] => ([], 0)
  | [seg] =>
    if seg.delim then (seg.text, 0)
    else if isCredential seg.text then (redactedMarker, 1)
    else (seg.text, 0)
  | seg :: next :: rest =>
    if seg.delim then
      let r := redactSegments (next :: rest)
      (seg.text ++ r.1, r.2)
    else if next.delim && isEqualsRun next.text && awsSecretKeyRe (seg.text ++ next.text) then
      let r := redactSegments rest
      (redactedMarker ++ r.1, r.2 + 1)
    else if isCredential seg.text then
      let r := redactSegments (next :: rest)
      (redactedMarker ++ r.1, r.2 + 1)
    else
      let r := redactSegments (next :: rest)
      (seg.text ++ r.1, r.2)

/-! ## Credentials in URLs -/

/-- The characters of a scheme and what follows them. Case folding adds U+017F and U+212A to the
letters. -/
def schemeRun : Bytes → Bytes × Bytes
  | 0xC5 :: 0xBF :: s =>
    let r := schemeRun s
    (0xC5 :: 0xBF :: r.1, r.2)
  | 0xE2 :: 0x84 :: 0xAA :: s =>
    let r := schemeRun s
    (0xE2 :: 0x84 :: 0xAA :: r.1, r.2)
  | b :: s =>
    if isUpper b || isLower b || isDigit b || b ∈ utf8 "+.-" then
      let r := schemeRun s
      (b :: r.1, r.2)
    else ([], b :: s)
  | [] => ([], [])

/-- `[a-z]` where case is folded. -/
def startsWithLetter : Bytes → Bool
  | 0xC5 :: 0xBF :: _ => true
  | 0xE2 :: 0x84 :: 0xAA :: _ => true
  | b :: _ => isUpper b || isLower b
  | [] => false

/-- `\b`, between the previous character and the next one. -/
def wordBoundary (prev : Option UInt8) (s : Bytes) : Bool :=
  prev.any isWord != s.head?.any isWord

/-- `(?i)\b([a-z][a-z0-9+.-]*://)[^\s:@/]+:[^\s@]+?@` at the start of a text: the length of the scheme
and of the match. Every part of the pattern ends where the next one has to begin, so there is one
way to match. -/
def urlUserinfoRe (prev : Option UInt8) (s : Bytes) : Option (ℕ × ℕ) :=
  let scheme := schemeRun s
  let user := (scheme.2.drop 3).span fun b => !isBlank b && b ∉ utf8 ":@/"
  let password := (user.2.drop 1).span fun b => !isBlank b && b != 0x40
  if wordBoundary prev s ∧ startsWithLetter s ∧ (utf8 "://").isPrefixOf scheme.2 ∧ user.1 ≠ [] ∧
      user.2.head? = some 0x3A ∧ password.1 ≠ [] ∧ password.2.head? = some 0x40 then
    some (scheme.1.length + 3, scheme.1.length + 3 + user.1.length + 1 + password.1.length + 1)
  else none

/-- Replace the matches from left to right. The first argument counts the bytes that are left of the
last match, the second is the byte before. -/
def replaceUserinfo : ℕ → Option UInt8 → Bytes → Bytes × ℕ
  | _, _, [] => ([], 0)
  | skip + 1, _, b :: s => replaceUserinfo skip (some b) s
  | 0, prev, b :: s =>
    match urlUserinfoRe prev (b :: s) with
    | some (scheme, len) =>
      let r := replaceUserinfo (len - 1) (some b) s
      ((b :: s).take scheme ++ redactedMarker ++ utf8 "@" ++ r.1, r.2 + 1)
    | none =>
      let r := replaceUserinfo 0 (some b) s
      (b :: r.1, r.2)

def redactURLUserinfo (line : Bytes) : Bytes × ℕ := replaceUserinfo 0 none line

def redactTokens (line : Bytes) : Bytes × ℕ :=
  let pre := redactURLUserinfo line
  let r := redactSegments (splitTokens pre.1)
  (r.1, pre.2 + r.2)

/-! ## PEM blocks -/

def pemHeaderPrefix : Bytes := utf8 "-----BEGIN"
def pemFooterPrefix : Bytes := utf8 "-----END"
def maxPEMBodyLines : ℕ := 256

/-- `unicode.IsSpace`. -/
def isSpaceRune (s : Bytes) : Bool :=
  s ∈ ([[0x09], [0x0A], [0x0B], [0x0C], [0x0D], [0x20], [0xC2, 0x85], [0xC2, 0xA0],
    [0xE1, 0x9A, 0x80], [0xE2, 0x80, 0x80], [0xE2, 0x80, 0x81], [0xE2, 0x80, 0x82],
    [0xE2, 0x80, 0x83], [0xE2, 0x80, 0x84], [0xE2, 0x80, 0x85], [0xE2, 0x80, 0x86],
    [0xE2, 0x80, 0x87], [0xE2, 0x80, 0x88], [0xE2, 0x80, 0x89], [0xE2, 0x80, 0x8A],
    [0xE2, 0x80, 0xA8], [0xE2, 0x80, 0xA9], [0xE2, 0x80, 0xAF], [0xE2, 0x81, 0x9F],
    [0xE3, 0x80, 0x80]] : List Bytes)

/-- `strings.TrimSpace`. -/
def trimSpace (s : Bytes) : Bytes :=
  let space (r : Rune) : Bool := isSpaceRune r.bytes
  (((runes s).dropWhile space).rdropWhile space).flatMap Rune.bytes

/-- `^[A-Za-z0-9+/=]+$` -/
def pemBodyRe (s : Bytes) : Bool := s ≠ [] && s.all isBase64

/-- `^(Proc-Type|DEK-Info):` -/
def pemHeaderLineRe (s : Bytes) : Bool :=
  (utf8 "Proc-Type:").isPrefixOf s || (utf8 "DEK-Info:").isPrefixOf s

def isPEMBodyLine (line : Bytes) : Bool :=
  let t := trimSpace line
  t = [] || pemBodyRe t || pemHeaderLineRe t

structure Redactor where
  inPEM : Bool
  pemLines : ℕ
  deriving DecidableEq

namespace Redactor

def start : Redactor := ⟨false, 0⟩

/-- Redact one line, carrying the PEM state forward: the new state, the text to serve and the number
of replacements. -/
def line (rd : Redactor) (s : Bytes) : Redactor × Bytes × ℕ :=
  if hasInfix pemHeaderPrefix s then (⟨true, 0⟩, redactedMarker, 1)
  else if rd.inPEM then
    let rd := { rd with pemLines := rd.pemLines + 1 }
    if hasInfix pemFooterPrefix s then ({ rd with inPEM := false }, redactedMarker, 1)
    else if isPEMBodyLine s && rd.pemLines ≤ maxPEMBodyLines then (rd, redactedMarker, 1)
    else ({ rd with inPEM := false }, redactTokens s)
  else (rd, redactTokens s)

/-- Advance the state for a line that is not redacted. -/
def observe (rd : Redactor) (raw : Bytes) : Redactor :=
  if hasInfix pemHeaderPrefix raw then ⟨true, 0⟩
  else if rd.inPEM then
    let rd := { rd with pemLines := rd.pemLines + 1 }
    if hasInfix pemFooterPrefix raw || rd.pemLines > maxPEMBodyLines then
      { rd with inPEM := false }
    else rd
  else rd

end Redactor

/-- `Redact`, the entry point for a single line. -/
def redact (line : Bytes) : Bytes × ℕ := (Redactor.start.line line).2

/-! ## Body lines -/

/-- What is known of a character of a base64 line. -/
theorem isBase64_spec {b : UInt8} (h : isBase64 b = true) :
    b < 0x80 ∧ b ≠ 0x2D ∧ isSpaceRune [b] = false := by
  have hall : ∀ n < 256, isBase64 (UInt8.ofNat n) = true →
      UInt8.ofNat n < 0x80 ∧ UInt8.ofNat n ≠ 0x2D ∧ isSpaceRune [UInt8.ofNat n] = false := by
    decide +kernel
  exact forall_byte (P := fun b => isBase64 b = true →
    b < 0x80 ∧ b ≠ 0x2D ∧ isSpaceRune [b] = false) hall b h

theorem ascii_of_pemBodyRe {s : Bytes} (h : pemBodyRe s = true) : ∀ b ∈ s, b < 0x80 := by
  intro b hb
  exact (isBase64_spec (List.all_eq_true.mp (Bool.and_eq_true _ _ ▸ h).2 b hb)).1

/-- There is nothing to trim off a line without spaces. -/
theorem trimSpace_eq_self {s : Bytes} (h : ∀ r ∈ runes s, isSpaceRune r.bytes = false) :
    trimSpace s = s := by
  have hfirst : (runes s).dropWhile (fun r => isSpaceRune r.bytes) = runes s := by
    cases hs : runes s with
    | nil => rfl
    | cons r rs => rw [List.dropWhile_cons_of_neg (by simp [h r (by simp [hs])])]
  have hlast : (runes s).rdropWhile (fun r => isSpaceRune r.bytes) = runes s :=
    List.rdropWhile_eq_self_iff.mpr fun hne => by simp [h _ (List.getLast_mem hne)]
  rw [trimSpace, hfirst, hlast, bytes_runes]

theorem isPEMBodyLine_of_pemBodyRe {s : Bytes} (h : pemBodyRe s = true) :
    isPEMBodyLine s = true := by
  have htrim : trimSpace s = s := by
    refine trimSpace_eq_self fun r hr => ?_
    rw [runes_ascii (ascii_of_pemBodyRe h), List.mem_pmap] at hr
    obtain ⟨b, hb, rfl⟩ := hr
    exact (isBase64_spec (List.all_eq_true.mp (Bool.and_eq_true _ _ ▸ h).2 b hb)).2.2
  rw [isPEMBodyLine, htrim, h, Bool.or_true, Bool.true_or]

/-- A body line has no marks of a block. -/
theorem hasInfix_of_pemBodyRe {s : Bytes} (h : pemBodyRe s = true) :
    hasInfix pemHeaderPrefix s = false ∧ hasInfix pemFooterPrefix s = false := by
  have hdash : 0x2D ∉ s := fun hm =>
    (isBase64_spec (List.all_eq_true.mp (Bool.and_eq_true _ _ ▸ h).2 _ hm)).2.1 rfl
  exact ⟨hasInfix_eq_false (by decide) hdash, hasInfix_eq_false (by decide) hdash⟩

/-! ## The latch -/

theorem plainWord_pemHeaderPrefix : PlainWord pemHeaderPrefix where
  head := by decide
  plain := by decide +kernel

theorem plainWord_pemFooterPrefix : PlainWord pemFooterPrefix where
  head := by decide
  plain := by decide +kernel

/-- Two texts that the latch cannot tell apart. -/
structure SameMarks (s t : Bytes) : Prop where
  header : hasInfix pemHeaderPrefix s = hasInfix pemHeaderPrefix t
  footer : hasInfix pemFooterPrefix s = hasInfix pemFooterPrefix t

namespace Redactor

/-- The line is served as the marker because of a PEM block. -/
def masks (rd : Redactor) (s : Bytes) : Bool :=
  hasInfix pemHeaderPrefix s || rd.inPEM &&
    (hasInfix pemFooterPrefix s || isPEMBodyLine s && rd.pemLines + 1 ≤ maxPEMBodyLines)

/-- A line is the marker because of a PEM block, or judged on its own. -/
theorem line_spec (rd : Redactor) (s : Bytes) :
    (rd.line s).2 = if rd.masks s then (redactedMarker, 1) else redactTokens s := by
  unfold line masks
  by_cases hb : hasInfix pemHeaderPrefix s <;> by_cases hin : rd.inPEM <;>
    by_cases he : hasInfix pemFooterPrefix s <;> simp only [hb, hin, he] <;> try rfl
  cases isPEMBodyLine s <;> cases decide (rd.pemLines + 1 ≤ maxPEMBodyLines) <;> rfl

/-- The state after a line that is shown. -/
theorem line_state (rd : Redactor) (s : Bytes) :
    (rd.line s).1 = if hasInfix pemHeaderPrefix s then ⟨true, 0⟩
      else if rd.inPEM then
        ⟨!hasInfix pemFooterPrefix s && isPEMBodyLine s && rd.pemLines + 1 ≤ maxPEMBodyLines,
          rd.pemLines + 1⟩
      else rd := by
  unfold line
  by_cases hb : hasInfix pemHeaderPrefix s <;> by_cases hin : rd.inPEM <;>
    by_cases he : hasInfix pemFooterPrefix s <;> simp only [hb, hin, he] <;> try rfl
  cases isPEMBodyLine s <;> cases decide (rd.pemLines + 1 ≤ maxPEMBodyLines) <;> rfl

/-- The state after a line that is skipped. -/
theorem observe_state (rd : Redactor) (s : Bytes) :
    rd.observe s = if hasInfix pemHeaderPrefix s then ⟨true, 0⟩
      else if rd.inPEM then
        ⟨!hasInfix pemFooterPrefix s && rd.pemLines + 1 ≤ maxPEMBodyLines, rd.pemLines + 1⟩
      else rd := by
  unfold observe
  by_cases hb : hasInfix pemHeaderPrefix s <;> by_cases hin : rd.inPEM <;>
    by_cases he : hasInfix pemFooterPrefix s <;> simp only [hb, hin, he] <;> try rfl
  by_cases hbound : rd.pemLines + 1 > maxPEMBodyLines
  · simp [hbound, Nat.not_le.mpr hbound]
  · simp [hbound, Nat.not_lt.mp hbound]

theorem observe_congr {s t : Bytes} (h : SameMarks s t) (rd : Redactor) :
    rd.observe s = rd.observe t := by
  unfold observe
  rw [h.header, h.footer]

/-- The latch is on wherever the other one is, and counts the same there. -/
def Covers (rd full : Redactor) : Prop :=
  full.inPEM = true → rd.inPEM = true ∧ rd.pemLines = full.pemLines

theorem Covers.refl (rd : Redactor) : rd.Covers rd := fun h => ⟨h, rfl⟩

theorem Covers.masks {rd full : Redactor} (h : rd.Covers full) {s : Bytes}
    (hm : full.masks s = true) : rd.masks s = true := by
  unfold Redactor.masks at hm ⊢
  cases hfull : full.inPEM with
  | true =>
    obtain ⟨hin, hlines⟩ := h hfull
    rw [hin, hlines]
    rwa [hfull] at hm
  | false =>
    rw [hfull, Bool.false_and, Bool.or_false] at hm
    rw [hm, Bool.true_or]

/-- Both redactors see the line. -/
theorem Covers.line {rd full : Redactor} (h : rd.Covers full) (s : Bytes) :
    (rd.line s).1.Covers (full.line s).1 := by
  rw [line_state, line_state]
  split_ifs with hb hin hfull hfull
  · exact .refl _
  · rw [(h hfull).2]
    exact .refl _
  · exact fun hf => absurd hf hfull
  · exact absurd (h hfull).1 hin
  · exact h

/-- The other redactor sees the line, this one only that it is there. -/
theorem Covers.observe {rd full : Redactor} (h : rd.Covers full) (s : Bytes) :
    (rd.observe s).Covers (full.line s).1 := by
  rw [observe_state, line_state]
  split_ifs with hb hin hfull hfull
  · exact .refl _
  · intro hf
    simp only [Bool.and_eq_true, (h hfull).2] at hf ⊢
    exact ⟨⟨hf.1.1, hf.2⟩, trivial⟩
  · exact fun hf => absurd hf hfull
  · exact absurd (h hfull).1 hin
  · exact h

end Redactor

end HaAddons.Runner
