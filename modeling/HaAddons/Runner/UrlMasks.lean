import HaAddons.Lib.Tokens
import HaAddons.Runner.Redact
import Mathlib.Data.List.TakeDrop

/-!
# What the URL pass masks

The pass over a line that masks the user and the password of each URL, as a relation between the
line and its result.

* `urlUserinfoRe_eq_some` — what the pattern matches, as parts of a text.
* `Masked` — the line and what the pass makes of it, one match after the other.
* `masked_spot_iff` — a URL with a user part is in the result exactly where it is in the line and no
  match covers it.
-/

namespace HaAddons.Runner

/-! ## Userinfo -/

/-- A URL with its scheme, user part and password, and what follows the `@`. -/
def urlText (S u p r : Bytes) : Bytes :=
  S ++ 0x3A :: 0x2F :: 0x2F :: (u ++ 0x3A :: (p ++ 0x40 :: r))

/-- The parts of a URL as the pattern takes them, but for a `/` in the user part. -/
structure Userinfo (S u p : Bytes) : Prop where
  letter : startsWithLetter S = true
  scheme : schemeRun S = (S, [])
  user_ne : u ≠ []
  user : ∀ c ∈ u, isBlank c = false ∧ c ≠ 0x3A ∧ c ≠ 0x40
  password_ne : p ≠ []
  password : ∀ c ∈ p, isBlank c = false ∧ c ≠ 0x40

theorem schemeRun_cons {b : UInt8}
    (hb : (isUpper b || isLower b || isDigit b || b ∈ utf8 "+.-") = true) (s : Bytes) :
    schemeRun (b :: s) = (b :: (schemeRun s).1, (schemeRun s).2) := by
  rw [schemeRun.eq_3, if_pos hb]
  · rintro t rfl
    exact absurd hb (by decide)
  · rintro t rfl
    exact absurd hb (by decide)

theorem schemeRun_split (s : Bytes) :
    s = (schemeRun s).1 ++ (schemeRun s).2 ∧
      schemeRun (schemeRun s).1 = ((schemeRun s).1, []) := by
  fun_induction schemeRun s with
  | case1 s r ih => exact ⟨by simp [← ih.1, r], by simp [schemeRun, r, ih.2]⟩
  | case2 s r ih => exact ⟨by simp [← ih.1, r], by simp [schemeRun, r, ih.2]⟩
  | case3 b s h1 h2 hb r ih => exact ⟨by simp [← ih.1, r], by simp [schemeRun_cons hb, r, ih.2]⟩
  | case4 b s h1 h2 hb => simp [schemeRun]
  | case5 => simp [schemeRun]

/-- A character that can stand in a scheme. -/
def InScheme (c : UInt8) : Prop :=
  isDelimiter c = false ∧ c ≠ 0x2F ∧ c ≠ 0x3C ∧ c ≠ 0x3E

theorem inScheme_ascii {b : UInt8}
    (hb : (isUpper b || isLower b || isDigit b || b ∈ utf8 "+.-") = true) : InScheme b := by
  have hall : ∀ n < 256, (isUpper (UInt8.ofNat n) || isLower (UInt8.ofNat n) ||
      isDigit (UInt8.ofNat n) || UInt8.ofNat n ∈ utf8 "+.-") = true →
      isDelimiter (UInt8.ofNat n) = false ∧ UInt8.ofNat n ≠ 0x2F ∧ UInt8.ofNat n ≠ 0x3C ∧
        UInt8.ofNat n ≠ 0x3E := by
    decide +kernel
  exact forall_byte (P := fun b => (isUpper b || isLower b || isDigit b || b ∈ utf8 "+.-") = true →
    isDelimiter b = false ∧ b ≠ 0x2F ∧ b ≠ 0x3C ∧ b ≠ 0x3E) hall b hb

theorem inScheme_of_mem {s : Bytes} : ∀ c ∈ (schemeRun s).1, InScheme c := by
  have hwide : InScheme 0xC5 ∧ InScheme 0xBF ∧ InScheme 0xE2 ∧ InScheme 0x84 ∧ InScheme 0xAA := by
    unfold InScheme
    decide
  fun_induction schemeRun s with
  | case1 s r ih =>
    intro c hc
    rcases List.mem_cons.mp hc with rfl | hc
    · exact hwide.1
    rcases List.mem_cons.mp hc with rfl | hc
    · exact hwide.2.1
    exact ih c hc
  | case2 s r ih =>
    intro c hc
    rcases List.mem_cons.mp hc with rfl | hc
    · exact hwide.2.2.1
    rcases List.mem_cons.mp hc with rfl | hc
    · exact hwide.2.2.2.1
    rcases List.mem_cons.mp hc with rfl | hc
    · exact hwide.2.2.2.2
    exact ih c hc
  | case3 b s h1 h2 hb r ih =>
    intro c hc
    rcases List.mem_cons.mp hc with rfl | hc
    · exact inScheme_ascii hb
    · exact ih c hc
  | case4 b s h1 h2 hb => simp
  | case5 => simp

theorem schemeRun_append_colon {S : Bytes} (h : schemeRun S = (S, [])) (z : Bytes) :
    schemeRun (S ++ 0x3A :: z) = (S, 0x3A :: z) := by
  fun_induction schemeRun S with
  | case1 s r ih =>
    have hr : schemeRun s = (s, []) := by
      obtain ⟨h1, h2⟩ := Prod.mk.inj h
      exact Prod.ext (by simpa [r] using h1) h2
    simp [schemeRun, ih hr]
  | case2 s r ih =>
    have hr : schemeRun s = (s, []) := by
      obtain ⟨h1, h2⟩ := Prod.mk.inj h
      exact Prod.ext (by simpa [r] using h1) h2
    simp [schemeRun, ih hr]
  | case3 b s h1 h2 hb r ih =>
    have hr : schemeRun s = (s, []) := by
      obtain ⟨h1, h2⟩ := Prod.mk.inj h
      exact Prod.ext (by simpa [r] using h1) h2
    rw [List.cons_append, schemeRun_cons hb, ih hr]
  | case4 b s h1 h2 hb => simp at h
  | case5 => rfl

namespace Userinfo

variable {S u p : Bytes}

theorem scheme_plain (h : Userinfo S u p) : ∀ c ∈ S, InScheme c := by
  intro c hc
  refine inScheme_of_mem (s := S) c ?_
  rw [h.scheme]
  exact hc

theorem scheme_ne (h : Userinfo S u p) : S ≠ [] := by
  rintro rfl
  cases h.letter

theorem with_password (h : Userinfo S u p) {p' : Bytes} (hne : p' ≠ [])
    (hp : ∀ c ∈ p', isBlank c = false ∧ c ≠ 0x40) : Userinfo S u p' :=
  { h with password_ne := hne, password := hp }

end Userinfo

theorem startsWithLetter_append_colon {S : Bytes} (hS : S ≠ []) (z : Bytes) :
    startsWithLetter (S ++ 0x3A :: z) = startsWithLetter S := by
  match S with
  | [a] =>
    by_cases h1 : a = 0xC5
    · subst h1; rfl
    by_cases h2 : a = 0xE2
    · subst h2; rfl
    simp [startsWithLetter, h1, h2]
  | [a, b] =>
    by_cases h1 : a = 0xC5
    · subst h1
      by_cases h3 : b = 0xBF
      · subst h3; rfl
      · simp [startsWithLetter, h3]
    by_cases h2 : a = 0xE2
    · subst h2
      by_cases h3 : b = 0x84
      · subst h3; rfl
      · simp [startsWithLetter, h3]
    simp [startsWithLetter, h1, h2]
  | a :: b :: c :: S =>
    by_cases h1 : a = 0xC5
    · subst h1
      by_cases h3 : b = 0xBF
      · subst h3; rfl
      · simp [startsWithLetter, h3]
    by_cases h2 : a = 0xE2
    · subst h2
      by_cases h3 : b = 0x84
      · subst h3
        by_cases h4 : c = 0xAA
        · subst h4; rfl
        · simp [startsWithLetter, h4]
      · simp [startsWithLetter, h3]
    simp [startsWithLetter, h1, h2]

theorem span_stop {f : UInt8 → Bool} {a b : Bytes} {c : UInt8} (ha : ∀ x ∈ a, f x = true)
    (hc : f c = false) : (a ++ c :: b).span f = (a, c :: b) := by
  rw [List.span_eq_takeWhile_dropWhile, List.takeWhile_append_of_pos ha,
    List.dropWhile_append_of_pos ha, List.takeWhile_cons_of_neg (by simp [hc]),
    List.dropWhile_cons_of_neg (by simp [hc]), List.append_nil]

/-- The pattern matches where the parts of a URL stand, if the user part has no `/`. -/
theorem urlUserinfoRe_of {prev : Option UInt8} {S u p r : Bytes} (h : Userinfo S u p)
    (hu : 0x2F ∉ u) (hb : wordBoundary prev (urlText S u p r) = true) :
    urlUserinfoRe prev (urlText S u p r) =
      some (S.length + 3, S.length + 3 + u.length + 1 + p.length + 1) := by
  have hscheme := schemeRun_append_colon h.scheme (0x2F :: 0x2F :: (u ++ 0x3A :: (p ++ 0x40 :: r)))
  have hletter := startsWithLetter_append_colon h.scheme_ne
    (0x2F :: 0x2F :: (u ++ 0x3A :: (p ++ 0x40 :: r)))
  have huser : (u ++ 0x3A :: (p ++ 0x40 :: r)).span (fun b => !isBlank b && b ∉ utf8 ":@/") =
      (u, 0x3A :: (p ++ 0x40 :: r)) := by
    refine span_stop (fun x hx => ?_) (by decide)
    obtain ⟨h1, h2, h3⟩ := h.user x hx
    have h4 : x ≠ 0x2F := fun he => hu (he ▸ hx)
    have hs : utf8 ":@/" = [0x3A, 0x40, 0x2F] := by decide
    simp [h1, h2, h3, h4, hs]
  have hpassword : (p ++ 0x40 :: r).span (fun b => !isBlank b && b != 0x40) = (p, 0x40 :: r) := by
    refine span_stop (fun x hx => ?_) (by decide)
    obtain ⟨h1, h2⟩ := h.password x hx
    simp [h1, h2]
  have hsep : (utf8 "://").isPrefixOf (0x3A :: 0x2F :: 0x2F :: (u ++ 0x3A :: (p ++ 0x40 :: r))) =
      true := by
    have hs : utf8 "://" = [0x3A, 0x2F, 0x2F] := by decide
    simp [hs]
  rw [← urlText] at hscheme hletter
  generalize urlText S u p r = s at hscheme hletter hb ⊢
  unfold urlUserinfoRe
  dsimp only
  split
  case isTrue =>
    simp only [hscheme, List.drop_succ_cons, List.drop_zero, huser, hpassword]
  case isFalse hn =>
    simp only [hscheme, List.drop_succ_cons, List.drop_zero, huser, hpassword] at hn
    exact absurd ⟨hb, hletter.trans h.letter, hsep, h.user_ne, rfl, h.password_ne, rfl⟩ hn

/-- **Where the pattern matches, the parts of a URL stand.** -/
theorem exists_of_urlUserinfoRe {prev : Option UInt8} {s : Bytes} {m : ℕ × ℕ}
    (h : urlUserinfoRe prev s = some m) :
    wordBoundary prev s = true ∧ ∃ S u p r, s = urlText S u p r ∧ Userinfo S u p ∧ 0x2F ∉ u := by
  unfold urlUserinfoRe at h
  simp only at h
  split at h
  case isFalse => cases h
  case isTrue hm =>
    obtain ⟨hb, hletter, hsep, hu, hcolon, hp, hat⟩ := hm
    obtain ⟨hs, hrun⟩ := schemeRun_split s
    obtain ⟨z, hz⟩ := List.isPrefixOf_iff_prefix.mp hsep
    have hsep : utf8 "://" = [0x3A, 0x2F, 0x2F] := by decide
    rw [hsep] at hz
    rw [← hz] at hs hu hcolon hp hat
    simp only [List.cons_append, List.nil_append, List.drop_succ_cons, List.drop_zero,
      List.span_eq_takeWhile_dropWhile] at hs hu hcolon hp hat
    obtain ⟨r1, hr1⟩ := List.head?_eq_some_iff.mp hcolon
    rw [hr1] at hp hat
    simp only [List.drop_succ_cons, List.drop_zero] at hp hat
    obtain ⟨r, hr⟩ := List.head?_eq_some_iff.mp hat
    refine ⟨hb, (schemeRun s).1, _, _, r, ?_, ⟨?_, hrun, hu, ?_, hp, ?_⟩, ?_⟩
    · rw [urlText, ← hr, List.takeWhile_append_dropWhile, ← hr1, List.takeWhile_append_dropWhile,
        ← hs]
    · rw [hs, startsWithLetter_append_colon] at hletter
      · exact hletter
      · intro hnil
        rw [hnil] at hs
        rw [hs] at hletter
        cases hletter
    · intro c hc
      have := List.mem_takeWhile_imp hc
      have hs : utf8 ":@/" = [0x3A, 0x40, 0x2F] := by decide
      simp [hs] at this
      exact ⟨this.1, this.2.1, this.2.2.1⟩
    · intro c hc
      simpa using List.mem_takeWhile_imp hc
    · intro hc
      have := List.mem_takeWhile_imp hc
      revert this
      decide

/-! ## The pass -/

/-- What the pass puts in the place of a URL. -/
def maskedUrl (S t : Bytes) : Bytes :=
  S ++ 0x3A :: 0x2F :: 0x2F :: (redactedMarker ++ 0x40 :: t)

theorem isWord_of_isDelimiter {b : UInt8} (h : isDelimiter b = true) : isWord b = false := by
  have hall : ∀ n < 256, isDelimiter (UInt8.ofNat n) = true → isWord (UInt8.ofNat n) = false := by
    decide +kernel
  exact forall_byte (P := fun b => isDelimiter b = true → isWord b = false) hall b h

/-- The open token tells whether the last character is one of a word. -/
theorem any_isWord_openToken (prev : Option UInt8) {tok : Bytes}
    (h : prev.any isWord = tok.getLast?.any isWord) (a : Bytes) :
    (a.getLast?.or prev).any isWord = (openToken isDelimiter tok a).getLast?.any isWord := by
  induction a using List.reverseRecOn with
  | nil => simpa [openToken] using h
  | append_singleton a b ih =>
    cases hb : isDelimiter b with
    | true => simp [openToken_concat_mark hb, isWord_of_isDelimiter hb]
    | false =>
      rw [openToken_append, openToken_plain (by simpa using hb)]
      simp

theorem urlUserinfoRe_congr {prev prev' : Option UInt8} (h : prev.any isWord = prev'.any isWord)
    (s : Bytes) : urlUserinfoRe prev s = urlUserinfoRe prev' s := by
  have hb : wordBoundary prev s = wordBoundary prev' s := by rw [wordBoundary, wordBoundary, h]
  unfold urlUserinfoRe
  rw [hb]

theorem replaceUserinfo_skip (z s : Bytes) (prev : Option UInt8) :
    replaceUserinfo z.length prev (z ++ s) = replaceUserinfo 0 (z.getLast?.or prev) s := by
  induction z generalizing prev with
  | nil => rfl
  | cons b z ih =>
    rw [List.length_cons, List.cons_append, replaceUserinfo, ih]
    cases z with
    | nil => rfl
    | cons c z =>
      rw [List.getLast?_cons_cons, List.getLast?_eq_some_getLast (List.cons_ne_nil c z)]
      rfl

theorem replaceUserinfo_keep {prev : Option UInt8} {b : UInt8} {s : Bytes}
    (h : urlUserinfoRe prev (b :: s) = none) :
    replaceUserinfo 0 prev (b :: s) =
      (b :: (replaceUserinfo 0 (some b) s).1, (replaceUserinfo 0 (some b) s).2) := by
  rw [replaceUserinfo, h]

theorem replaceUserinfo_mask {prev : Option UInt8} {S u p r : Bytes} (h : Userinfo S u p)
    (hu : 0x2F ∉ u) (hb : wordBoundary prev (urlText S u p r) = true) :
    replaceUserinfo 0 prev (urlText S u p r) =
      (maskedUrl S (replaceUserinfo 0 (some 0x40) r).1,
        (replaceUserinfo 0 (some 0x40) r).2 + 1) := by
  have hmatch := urlUserinfoRe_of h hu hb
  obtain ⟨c, S', rfl⟩ := List.exists_cons_of_ne_nil h.scheme_ne
  have hskip := replaceUserinfo_skip
    (S' ++ 0x3A :: 0x2F :: 0x2F :: (u ++ 0x3A :: (p ++ [0x40]))) r (some c)
  have hlast : (S' ++ 0x3A :: 0x2F :: 0x2F :: (u ++ 0x3A :: (p ++ [0x40]))).getLast? =
      some 0x40 := by
    simp [List.getLast?_append, List.getLast?_cons]
  have hlen : (S' ++ 0x3A :: 0x2F :: 0x2F :: (u ++ 0x3A :: (p ++ [0x40]))).length =
      (c :: S').length + 3 + u.length + 1 + p.length + 1 - 1 := by
    simp only [List.length_append, List.length_cons, List.length_nil]
    omega
  have htext : S' ++ 0x3A :: 0x2F :: 0x2F :: (u ++ 0x3A :: (p ++ [0x40])) ++ r =
      S' ++ 0x3A :: 0x2F :: 0x2F :: (u ++ 0x3A :: (p ++ 0x40 :: r)) := by simp
  rw [hlast, Option.some_or, hlen, htext] at hskip
  have hat : utf8 "@" = [0x40] := by decide
  rw [urlText, List.cons_append] at hmatch ⊢
  rw [replaceUserinfo, hmatch]
  simp only [hskip, hat]
  simp [maskedUrl, List.take_append]

/-- What the pass makes of the rest of a line, behind an open token. -/
inductive Masked : Bytes → Bytes → Bytes → Prop
  | nil {tok} : Masked tok [] []
  | keep {tok b s t} : urlUserinfoRe tok.getLast? (b :: s) = none →
      Masked (openToken isDelimiter tok [b]) s t → Masked tok (b :: s) (b :: t)
  | mask {tok S u p r t} : wordBoundary tok.getLast? (urlText S u p r) = true → Userinfo S u p →
      0x2F ∉ u → Masked [] r t → Masked tok (urlText S u p r) (maskedUrl S t)

theorem masked_replaceUserinfo (s : Bytes) {prev : Option UInt8} {tok : Bytes}
    (h : prev.any isWord = tok.getLast?.any isWord) : Masked tok s (replaceUserinfo 0 prev s).1 := by
  induction hn : s.length using Nat.strongRecOn generalizing s prev tok with
  | _ n ih =>
    cases s with
    | nil => exact .nil
    | cons b s =>
      cases hmatch : urlUserinfoRe prev (b :: s) with
      | none =>
        have hstep : (some b).any isWord = (openToken isDelimiter tok [b]).getLast?.any isWord := by
          simpa using any_isWord_openToken prev h [b]
        rw [replaceUserinfo_keep hmatch]
        rw [urlUserinfoRe_congr h] at hmatch
        exact .keep hmatch (ih s.length (by simp [← hn]) s hstep rfl)
      | some m =>
        obtain ⟨hb, S, u, p, r, htext, hinfo, hu⟩ := exists_of_urlUserinfoRe hmatch
        have hlen : r.length < n := by
          rw [← hn, htext, urlText]
          simp only [List.length_append, List.length_cons]
          omega
        rw [htext] at hb ⊢
        rw [replaceUserinfo_mask hinfo hu hb]
        have hb' : wordBoundary tok.getLast? (urlText S u p r) = true := by
          rwa [wordBoundary, ← h]
        exact .mask hb' hinfo hu (ih r.length hlen r (by decide) rfl)

/-- The cases of the pass, with the texts as equations. -/
theorem Masked.inv {tok s t : Bytes} (h : Masked tok s t) :
    (s = [] ∧ t = []) ∨
    (∃ b s' t', s = b :: s' ∧ t = b :: t' ∧ urlUserinfoRe tok.getLast? (b :: s') = none ∧
      Masked (openToken isDelimiter tok [b]) s' t') ∨
    (∃ S u p r t', s = urlText S u p r ∧ t = maskedUrl S t' ∧
      wordBoundary tok.getLast? (urlText S u p r) = true ∧ Userinfo S u p ∧ 0x2F ∉ u ∧
      Masked [] r t') := by
  cases h with
  | nil => exact .inl ⟨rfl, rfl⟩
  | keep hmatch h => exact .inr (.inl ⟨_, _, _, rfl, rfl, hmatch, h⟩)
  | mask hb hinfo hu h => exact .inr (.inr ⟨_, _, _, _, _, rfl, rfl, hb, hinfo, hu, h⟩)

/-! ## A URL on both sides -/

/-- The characters of a password. -/
def PasswordText (p : Bytes) : Prop := ∀ c ∈ p, isBlank c = false ∧ c ≠ 0x40

theorem passwordText_marker : PasswordText (0x3A :: 0x2F :: 0x2F :: redactedMarker) :=
  forall_mem_of_all (by decide)

theorem urlText_eq (S u p r : Bytes) :
    urlText S u p r = (S ++ 0x3A :: 0x2F :: 0x2F :: (u ++ 0x3A :: p)) ++ 0x40 :: r := by
  simp [urlText]

theorem maskedUrl_eq (S t : Bytes) :
    maskedUrl S t = (S ++ 0x3A :: 0x2F :: 0x2F :: redactedMarker) ++ 0x40 :: t := by
  simp [maskedUrl]

theorem not_inScheme {c : UInt8} (h : c = 0x3A ∨ c = 0x2F ∨ c = 0x40) : ¬InScheme c := by
  intro hc
  rcases h with rfl | rfl | rfl
  · exact absurd hc.1 (by decide)
  · exact hc.2.1 rfl
  · exact absurd hc.1 (by decide)

namespace Userinfo

variable {S u p r t : Bytes}

theorem colon_notMem (h : Userinfo S u p) : 0x3A ∉ S :=
  fun hc => not_inScheme (.inl rfl) (h.scheme_plain _ hc)

theorem at_notMem (h : Userinfo S u p) :
    0x40 ∉ S ++ 0x3A :: 0x2F :: 0x2F :: (u ++ 0x3A :: p) := by
  have hS : 0x40 ∉ S := fun hc => not_inScheme (.inr (.inr rfl)) (h.scheme_plain _ hc)
  have hu : 0x40 ∉ u := fun hc => (h.user _ hc).2.2 rfl
  have hp : 0x40 ∉ p := fun hc => (h.password _ hc).2 rfl
  simp [hS, hu, hp]

theorem at_notMem_masked (h : Userinfo S u p) :
    0x40 ∉ S ++ 0x3A :: 0x2F :: 0x2F :: redactedMarker := by
  have hS : 0x40 ∉ S := fun hc => not_inScheme (.inr (.inr rfl)) (h.scheme_plain _ hc)
  have hm : 0x40 ∉ redactedMarker := by decide
  simp [hS, hm]

theorem head_of_urlText (h : Userinfo S u p) {b : UInt8} {s : Bytes}
    (he : b :: s = urlText S u p r) : InScheme b := by
  obtain ⟨c, S', rfl⟩ := List.exists_cons_of_ne_nil h.scheme_ne
  obtain ⟨rfl, -⟩ := List.cons.inj he
  exact h.scheme_plain _ List.mem_cons_self

theorem head_of_maskedUrl (h : Userinfo S u p) {b : UInt8} {s : Bytes}
    (he : b :: s = maskedUrl S t) : InScheme b := by
  obtain ⟨c, S', rfl⟩ := List.exists_cons_of_ne_nil h.scheme_ne
  obtain ⟨rfl, -⟩ := List.cons.inj he
  exact h.scheme_plain _ List.mem_cons_self

end Userinfo

/-- What comes up to the first `:` or `@` behind a marker has none of them before. -/
theorem marker_ne {x s t : Bytes} (hx : ∀ c ∈ x, c ≠ 0x3A ∧ c ≠ 0x40) :
    0x2F :: 0x2F :: (redactedMarker ++ 0x40 :: t) ≠ x ++ 0x3A :: s := by
  intro h
  have hmarker : ∀ c ∈ 0x2F :: 0x2F :: redactedMarker, (c == 0x3A || c == 0x40) = false :=
    forall_mem_of_all (by decide)
  have hx : ∀ c ∈ x, (c == 0x3A || c == 0x40) = false := by
    intro c hc
    simp [hx c hc]
  obtain ⟨-, hc, -⟩ := cut_unique (f := fun c => c == 0x3A || c == 0x40) hmarker hx rfl rfl h
  exact absurd hc (by decide)

theorem user_ne_marker {u s t : Bytes} (hu : ∀ c ∈ u, c ≠ 0x3A ∧ c ≠ 0x40) :
    u ++ 0x3A :: s ≠ redactedMarker ++ 0x40 :: t := by
  intro h
  refine marker_ne (x := 0x2F :: 0x2F :: u) (s := s) (t := t) ?_ (by rw [← h]; rfl)
  intro c hc
  simp only [List.mem_cons] at hc
  rcases hc with rfl | rfl | hc
  · decide
  · decide
  · exact hu c hc

namespace Masked

variable {tok s t S u p r : Bytes} {b : UInt8}

/-- No match starts with a character that is none of a scheme. -/
theorem keep_inv (h : Masked tok (b :: s) t) (hb : ¬InScheme b) :
    ∃ t', t = b :: t' ∧ Masked (openToken isDelimiter tok [b]) s t' := by
  rcases h.inv with ⟨hnil, -⟩ | ⟨c, s', t', hs, ht, -, h⟩ | ⟨S, u, p, r, t', hs, -, -, hinfo, -⟩
  · cases hnil
  · obtain ⟨rfl, rfl⟩ := List.cons.inj hs
    exact ⟨t', ht, h⟩
  · exact absurd (hinfo.head_of_urlText hs) hb

theorem keep_inv_right (h : Masked tok s (b :: t)) (hb : ¬InScheme b) :
    ∃ s', s = b :: s' ∧ Masked (openToken isDelimiter tok [b]) s' t := by
  rcases h.inv with ⟨-, hnil⟩ | ⟨c, s', t', hs, ht, -, h⟩ | ⟨S, u, p, r, t', -, ht, -, hinfo, -⟩
  · cases hnil
  · obtain ⟨rfl, rfl⟩ := List.cons.inj ht
    exact ⟨s', hs, h⟩
  · exact absurd (hinfo.head_of_maskedUrl ht) hb

/-- A password stays or is masked at its end. -/
theorem password (h : Masked tok (p ++ 0x40 :: r) t) (hp : PasswordText p) :
    ∃ p' t', t = p' ++ 0x40 :: t' ∧ PasswordText p' ∧ (p ≠ [] → p' ≠ []) := by
  induction p generalizing tok t with
  | nil =>
    obtain ⟨t', rfl, -⟩ := h.keep_inv (not_inScheme (.inr (.inr rfl)))
    exact ⟨[], t', rfl, hp, fun hne => absurd rfl hne⟩
  | cons c p ih =>
    rcases h.inv with ⟨hnil, -⟩ | ⟨b, s', t', hs, rfl, -, h⟩ | ⟨S, u, p0, r0, t', hs, rfl, -, hinfo, -⟩
    · cases hnil
    · obtain ⟨rfl, rfl⟩ := List.cons.inj hs
      obtain ⟨p', t'', rfl, hp', -⟩ := ih h fun x hx => hp x (List.mem_cons_of_mem _ hx)
      refine ⟨c :: p', t'', rfl, ?_, fun _ => List.cons_ne_nil _ _⟩
      intro x hx
      rcases List.mem_cons.mp hx with rfl | hx
      · exact hp x List.mem_cons_self
      · exact hp' x hx
    · rw [urlText_eq] at hs
      obtain ⟨hcp, -⟩ := cut_unique_at (fun hc => (hp _ hc).2 rfl) hinfo.at_notMem hs
      refine ⟨_, t', maskedUrl_eq S t', ?_, fun _ => by simp⟩
      intro x hx
      rcases List.mem_append.mp hx with hx | hx
      · exact hp x (hcp ▸ List.mem_append_left _ hx)
      · exact passwordText_marker x hx

theorem password_right (h : Masked tok s (p ++ 0x40 :: t)) (hp : PasswordText p) :
    ∃ p' r, s = p' ++ 0x40 :: r ∧ PasswordText p' ∧ (p ≠ [] → p' ≠ []) := by
  induction p generalizing tok s with
  | nil =>
    obtain ⟨s', rfl, -⟩ := h.keep_inv_right (not_inScheme (.inr (.inr rfl)))
    exact ⟨[], s', rfl, hp, fun hne => absurd rfl hne⟩
  | cons c p ih =>
    rcases h.inv with ⟨-, hnil⟩ | ⟨b, s', t', rfl, ht, -, h⟩ | ⟨S, u, p0, r0, t', rfl, ht, -, hinfo, -⟩
    · cases hnil
    · obtain ⟨rfl, rfl⟩ := List.cons.inj ht
      obtain ⟨p', r, rfl, hp', -⟩ := ih h fun x hx => hp x (List.mem_cons_of_mem _ hx)
      refine ⟨c :: p', r, rfl, ?_, fun _ => List.cons_ne_nil _ _⟩
      intro x hx
      rcases List.mem_cons.mp hx with rfl | hx
      · exact hp x List.mem_cons_self
      · exact hp' x hx
    · rw [maskedUrl_eq] at ht
      obtain ⟨hcp, -⟩ := cut_unique_at (fun hc => (hp _ hc).2 rfl) hinfo.at_notMem_masked ht
      refine ⟨_, r0, urlText_eq S u p0 r0, ?_, fun _ => by simp⟩
      intro x hx
      rcases List.mem_append.mp hx with hS | hx
      · exact hp x (hcp ▸ List.mem_append_left _ hS)
      simp only [List.mem_cons, List.mem_append] at hx
      rcases hx with rfl | rfl | rfl | hx | rfl | hx
      · decide
      · decide
      · decide
      · exact ⟨(hinfo.user x hx).1, (hinfo.user x hx).2.2⟩
      · decide
      · exact hinfo.password x hx

/-- A user part stays: the pass masks what is behind its `:` at most. -/
theorem user (h : Masked tok (u ++ 0x3A :: (p ++ 0x40 :: r)) t) (hu : 0x3A ∉ u)
    (hp : PasswordText p) (hne : p ≠ []) :
    ∃ p' t', t = u ++ 0x3A :: (p' ++ 0x40 :: t') ∧ PasswordText p' ∧ p' ≠ [] := by
  induction u generalizing tok t with
  | nil =>
    obtain ⟨t', rfl, hrest⟩ := h.keep_inv (not_inScheme (.inl rfl))
    obtain ⟨p', t'', rfl, hp', hne'⟩ := hrest.password hp
    exact ⟨p', t'', rfl, hp', hne' hne⟩
  | cons c u ih =>
    rcases h.inv with ⟨hnil, -⟩ | ⟨b, s', t', hs, rfl, -, h⟩ | ⟨S, u0, p0, r0, t', hs, rfl, -, hinfo, -⟩
    · cases hnil
    · obtain ⟨rfl, rfl⟩ := List.cons.inj hs
      obtain ⟨p', t'', rfl, hp', hne'⟩ := ih h fun hc => hu (List.mem_cons_of_mem _ hc)
      exact ⟨p', t'', rfl, hp', hne'⟩
    · obtain ⟨rfl, -⟩ := cut_unique_at hu hinfo.colon_notMem hs
      refine ⟨0x2F :: 0x2F :: redactedMarker, t', rfl, ?_, List.cons_ne_nil _ _⟩
      exact fun x hx => passwordText_marker x (List.mem_cons_of_mem _ hx)

theorem user_right (h : Masked tok s (u ++ 0x3A :: (p ++ 0x40 :: t))) (hu : 0x3A ∉ u)
    (hp : PasswordText p) (hne : p ≠ []) :
    ∃ p' r, s = u ++ 0x3A :: (p' ++ 0x40 :: r) ∧ PasswordText p' ∧ p' ≠ [] := by
  induction u generalizing tok s with
  | nil =>
    obtain ⟨s', rfl, hrest⟩ := h.keep_inv_right (not_inScheme (.inl rfl))
    obtain ⟨p', r, rfl, hp', hne'⟩ := hrest.password_right hp
    exact ⟨p', r, rfl, hp', hne' hne⟩
  | cons c u ih =>
    rcases h.inv with ⟨-, hnil⟩ | ⟨b, s', t', rfl, ht, -, h⟩ | ⟨S, u0, p0, r0, t', rfl, ht, -, hinfo, -⟩
    · cases hnil
    · obtain ⟨rfl, rfl⟩ := List.cons.inj ht
      obtain ⟨p', r, rfl, hp', hne'⟩ := ih h fun hc => hu (List.mem_cons_of_mem _ hc)
      exact ⟨p', r, rfl, hp', hne'⟩
    · obtain ⟨rfl, -⟩ := cut_unique_at hu hinfo.colon_notMem ht
      refine ⟨0x2F :: 0x2F :: (u0 ++ 0x3A :: p0), r0, by simp [urlText], ?_,
        List.cons_ne_nil _ _⟩
      intro x hx
      simp only [List.mem_cons, List.mem_append] at hx
      rcases hx with rfl | rfl | hx | rfl | hx
      · decide
      · decide
      · exact ⟨(hinfo.user x hx).1, (hinfo.user x hx).2.2⟩
      · decide
      · exact hinfo.password x hx

/-- **A URL that the pattern does not match stays up to its password.** -/
theorem url (h : Masked tok (urlText S u p r) t) (hS : 0x3A ∉ S) (hu : 0x3A ∉ u)
    (hslash : 0x2F ∈ u) (hp : PasswordText p) (hne : p ≠ []) :
    ∃ p' t', t = urlText S u p' t' ∧ PasswordText p' ∧ p' ≠ [] := by
  induction S generalizing tok t with
  | nil =>
    obtain ⟨t1, rfl, h1⟩ := h.keep_inv (not_inScheme (.inl rfl))
    obtain ⟨t2, rfl, h2⟩ := h1.keep_inv (not_inScheme (.inr (.inl rfl)))
    obtain ⟨t3, rfl, h3⟩ := h2.keep_inv (not_inScheme (.inr (.inl rfl)))
    obtain ⟨p', t', rfl, hp', hne'⟩ := h3.user hu hp hne
    exact ⟨p', t', rfl, hp', hne'⟩
  | cons c S ih =>
    rcases h.inv with ⟨hnil, -⟩ | ⟨b, s', t', hs, rfl, -, h⟩ | ⟨S0, u0, p0, r0, t', hs, -, -, hinfo, h0, -⟩
    · cases hnil
    · obtain ⟨rfl, rfl⟩ := List.cons.inj hs
      obtain ⟨p', t'', rfl, hp', hne'⟩ := ih h fun hc => hS (List.mem_cons_of_mem _ hc)
      exact ⟨p', t'', rfl, hp', hne'⟩
    · obtain ⟨-, hrest⟩ := cut_unique_at hS hinfo.colon_notMem hs
      obtain ⟨-, hrest⟩ := List.cons.inj hrest
      obtain ⟨-, hrest⟩ := List.cons.inj hrest
      have hu0 : 0x3A ∉ u0 := fun hc => (hinfo.user _ hc).2.1 rfl
      obtain ⟨rfl, -⟩ := cut_unique_at hu hu0 hrest
      exact absurd hslash h0

/-- **A URL in the result is one in the line.** -/
theorem url_right (h : Masked tok s (urlText S u p t)) (hS : 0x3A ∉ S)
    (hu : ∀ c ∈ u, c ≠ 0x3A ∧ c ≠ 0x40) (hp : PasswordText p) (hne : p ≠ []) :
    ∃ p' r, s = urlText S u p' r ∧ PasswordText p' ∧ p' ≠ [] := by
  have hcolon : 0x3A ∉ u := fun hc => (hu _ hc).1 rfl
  induction S generalizing tok s with
  | nil =>
    obtain ⟨s1, rfl, h1⟩ := h.keep_inv_right (not_inScheme (.inl rfl))
    obtain ⟨s2, rfl, h2⟩ := h1.keep_inv_right (not_inScheme (.inr (.inl rfl)))
    obtain ⟨s3, rfl, h3⟩ := h2.keep_inv_right (not_inScheme (.inr (.inl rfl)))
    obtain ⟨p', r, rfl, hp', hne'⟩ := h3.user_right hcolon hp hne
    exact ⟨p', r, rfl, hp', hne'⟩
  | cons c S ih =>
    rcases h.inv with ⟨-, hnil⟩ | ⟨b, s', t', rfl, ht, -, h⟩ | ⟨S0, u0, p0, r0, t', -, ht, -, hinfo, -⟩
    · cases hnil
    · obtain ⟨rfl, rfl⟩ := List.cons.inj ht
      obtain ⟨p', r, rfl, hp', hne'⟩ := ih h fun hc => hS (List.mem_cons_of_mem _ hc)
      exact ⟨p', r, rfl, hp', hne'⟩
    · obtain ⟨-, hrest⟩ := cut_unique_at hS hinfo.colon_notMem ht
      obtain ⟨-, hrest⟩ := List.cons.inj hrest
      obtain ⟨-, hrest⟩ := List.cons.inj hrest
      exact absurd hrest (user_ne_marker hu)

end Masked

/-! ## Places -/

/-- A URL whose user part is of a kind starts here, behind an open token. -/
def Spot (K : Bytes → Bytes → Bytes → Prop) (tok s : Bytes) : Prop :=
  wordBoundary tok.getLast? s = true ∧
    ∃ S u p r, s = urlText S u p r ∧ Userinfo S u p ∧ K tok S u

/-- A match that starts in `a` or behind it reaches over the end of `a`. -/
def Covered (tok a s : Bytes) : Prop :=
  ∃ a1 a2 m, a = a1 ++ a2 ∧
    urlUserinfoRe (openToken isDelimiter tok a1).getLast? (a2 ++ s) = some m ∧ a2.length < m.2

variable {K : Bytes → Bytes → Bytes → Prop} {tok a b s t S u p r : Bytes} {c : UInt8}

theorem not_spot_nil : ¬Spot K tok [] := by
  rintro ⟨-, S, u, p, r, h, -⟩
  simpa [urlText] using congrArg List.length h

/-- How long a match is. -/
theorem match_length {prev : Option UInt8} {m : ℕ × ℕ} (ha : 0x40 ∉ a)
    (h : urlUserinfoRe prev (a ++ 0x40 :: s) = some m) : m.2 = a.length + 1 := by
  obtain ⟨hb, S, u, p, r, htext, hinfo, hu⟩ := exists_of_urlUserinfoRe h
  rw [htext] at hb h
  rw [urlUserinfoRe_of hinfo hu hb] at h
  rw [urlText_eq] at htext
  obtain ⟨rfl, -⟩ := cut_unique_at ha hinfo.at_notMem htext
  rw [← Option.some.inj h]
  simp only [List.length_append, List.length_cons]
  omega

theorem Masked.spot_here (h : Masked tok (c :: s) (c :: t))
    (hnone : urlUserinfoRe tok.getLast? (c :: s) = none) :
    Spot K tok (c :: t) ↔ Spot K tok (c :: s) := by
  constructor
  · rintro ⟨hb, S, u, p, r, ht, hinfo, hK⟩
    rw [ht] at h
    obtain ⟨p', r', hs, hp', hne⟩ := h.url_right hinfo.colon_notMem
      (fun c hc => (hinfo.user c hc).2) hinfo.password hinfo.password_ne
    exact ⟨hb, S, u, p', r', hs, hinfo.with_password hne hp', hK⟩
  · rintro ⟨hb, S, u, p, r, hs, hinfo, hK⟩
    have hslash : 0x2F ∈ u := by
      by_contra hu
      rw [hs] at hnone hb
      rw [urlUserinfoRe_of hinfo hu hb] at hnone
      cases hnone
    rw [hs] at h
    obtain ⟨p', r', ht, hp', hne⟩ := h.url hinfo.colon_notMem (fun hc => (hinfo.user _ hc).2.1 rfl)
      hslash hinfo.password hinfo.password_ne
    exact ⟨hb, S, u, p', r', ht, hinfo.with_password hne hp', hK⟩

/-- No URL starts within a masked one. -/
theorem not_spot_in_mask {p0 u0 : Bytes} (hinfo : Userinfo S u0 p0) (h : maskedUrl S t = b ++ s)
    (hlen : t.length < s.length) : ¬Spot K tok s := by
  rintro ⟨-, S1, u, p, r, rfl, h1, -⟩
  by_cases hb : 0x3A ∈ b
  · -- The URL would start behind the scheme.
    obtain ⟨b1, b2, rfl, hb1⟩ := List.eq_append_cons_of_mem hb
    rw [List.append_assoc, List.cons_append] at h
    obtain ⟨-, hrest⟩ := cut_unique_at hinfo.colon_notMem hb1 h
    have hat : 0x40 ∉ b2 := by
      intro hat
      obtain ⟨b3, b4, rfl, hb3⟩ := List.eq_append_cons_of_mem hat
      have hmarker : 0x40 ∉ 0x2F :: 0x2F :: redactedMarker := by decide
      rw [List.append_assoc, List.cons_append] at hrest
      obtain ⟨-, rfl⟩ := cut_unique_at hmarker hb3 hrest
      rw [List.length_append] at hlen
      omega
    have hcolon : 0x3A ∉ b2 := by
      intro hcolon
      obtain ⟨b3, b4, rfl, hb3⟩ := List.eq_append_cons_of_mem hcolon
      rw [List.append_assoc, List.cons_append] at hrest
      refine marker_ne (fun c hc => ⟨?_, ?_⟩) hrest
      · exact fun he => hb3 (he ▸ hc)
      · exact fun he => hat (he ▸ List.mem_append_left _ hc)
    rw [urlText, ← List.append_assoc] at hrest
    refine marker_ne (fun c hc => ?_) hrest
    rcases List.mem_append.mp hc with hc | hc
    · exact ⟨fun he => hcolon (he ▸ hc), fun he => hat (he ▸ hc)⟩
    · have hS := h1.scheme_plain c hc
      exact ⟨fun he => not_inScheme (.inl he) hS, fun he => not_inScheme (.inr (.inr he)) hS⟩
  · have hcut : S ++ 0x3A :: 0x2F :: 0x2F :: (redactedMarker ++ 0x40 :: t) =
        (b ++ S1) ++ 0x3A :: 0x2F :: 0x2F :: (u ++ 0x3A :: (p ++ 0x40 :: r)) := by
      rw [List.append_assoc]
      exact h
    have hbS : 0x3A ∉ b ++ S1 := by simp [hb, h1.colon_notMem]
    obtain ⟨-, hrest⟩ := cut_unique_at hinfo.colon_notMem hbS hcut
    exact user_ne_marker (fun c hc => (h1.user c hc).2)
      (List.cons.inj (List.cons.inj hrest).2).2.symm

theorem covered_cons (hnone : urlUserinfoRe tok.getLast? (c :: (a ++ s)) = none) :
    Covered tok (c :: a) s ↔ Covered (openToken isDelimiter tok [c]) a s := by
  constructor
  · rintro ⟨a1, a2, m, hsplit, hm, hlen⟩
    cases a1 with
    | nil =>
      obtain rfl : a2 = c :: a := by simpa using hsplit.symm
      rw [List.cons_append] at hm
      rw [show openToken isDelimiter tok [] = tok from rfl, hnone] at hm
      cases hm
    | cons x a1 =>
      obtain ⟨rfl, rfl⟩ := List.cons.inj hsplit
      exact ⟨a1, a2, m, rfl, hm, hlen⟩
  · rintro ⟨a1, a2, m, rfl, hm, hlen⟩
    exact ⟨c :: a1, a2, m, rfl, hm, hlen⟩

/-- A match does not reach over its `@`. -/
theorem covered_behind {z : Bytes} (hz : 0x40 ∉ z) :
    Covered tok (z ++ [0x40] ++ a) s ↔ Covered [] a s := by
  have hopen : ∀ x, openToken isDelimiter tok (z ++ [0x40] ++ x) = openToken isDelimiter [] x :=
    fun x => openToken_behind (by decide)
  constructor
  · rintro ⟨a1, a2, m, hsplit, hm, hlen⟩
    rcases append_split hsplit with ⟨x, rfl, rfl⟩ | ⟨y, hy, hz', rfl⟩
    · exact ⟨x, a2, m, rfl, hopen x ▸ hm, hlen⟩
    · -- The match starts before the `@` and ends with it.
      obtain ⟨y', l, rfl⟩ := List.eq_nil_or_concat y |>.resolve_left hy
      rw [List.concat_eq_append, ← List.append_assoc] at hz'
      obtain ⟨rfl, hl⟩ := List.append_inj' hz' rfl
      obtain rfl := (List.cons.inj hl).1
      have hy' : 0x40 ∉ y' := fun hc => hz (List.mem_append_right _ hc)
      have htext : y'.concat 0x40 ++ a ++ s = y' ++ 0x40 :: (a ++ s) := by simp
      have hlength := match_length hy' (htext ▸ hm)
      simp only [List.concat_eq_append, List.length_append, List.length_cons,
        List.length_nil] at hlen
      omega
  · rintro ⟨a1, a2, m, rfl, hm, hlen⟩
    exact ⟨z ++ [0x40] ++ a1, a2, m, by simp, (hopen a1).symm ▸ hm, hlen⟩

/-- **The URLs in the result are the ones of the line that no match covers.** -/
theorem Masked.spot_iff (h : Masked tok s t) :
    (∃ b t', t = b ++ t' ∧ Spot K (openToken isDelimiter tok b) t') ↔
      ∃ a s', s = a ++ s' ∧ Spot K (openToken isDelimiter tok a) s' ∧ ¬Covered tok a s' := by
  induction h with
  | nil =>
    constructor
    · rintro ⟨b, t', h, hspot⟩
      obtain ⟨rfl, rfl⟩ := List.append_eq_nil_iff.mp h.symm
      exact absurd hspot not_spot_nil
    · rintro ⟨a, s', h, hspot, -⟩
      obtain ⟨rfl, rfl⟩ := List.append_eq_nil_iff.mp h.symm
      exact absurd hspot not_spot_nil
  | @keep tok c s t hnone h ih =>
    have hhere := Masked.spot_here (K := K) (.keep hnone h) hnone
    constructor
    · rintro ⟨b, t', ht, hspot⟩
      cases b with
      | nil =>
        obtain rfl : c :: t = t' := ht
        refine ⟨[], c :: s, rfl, hhere.mp hspot, ?_⟩
        rintro ⟨a1, a2, m, hnil, hm, -⟩
        obtain ⟨rfl, rfl⟩ := List.append_eq_nil_iff.mp hnil.symm
        exact absurd (hnone.symm.trans hm) (by simp)
      | cons x b =>
        obtain ⟨rfl, rfl⟩ := List.cons.inj ht
        obtain ⟨a, s', rfl, hspot', hfree⟩ := ih.mp ⟨b, t', rfl, hspot⟩
        exact ⟨c :: a, s', rfl, hspot',
          mt (covered_cons hnone).mp hfree⟩
    · rintro ⟨a, s', hs, hspot, hfree⟩
      cases a with
      | nil =>
        obtain rfl : c :: s = s' := hs
        exact ⟨[], c :: t, rfl, hhere.mpr hspot⟩
      | cons x a =>
        obtain ⟨rfl, rfl⟩ := List.cons.inj hs
        obtain ⟨b, t', rfl, hspot'⟩ := ih.mpr ⟨a, s', rfl, hspot,
          mt (covered_cons hnone).mpr hfree⟩
        exact ⟨c :: b, t', rfl, hspot'⟩
  | @mask tok S u p r t hb hinfo hu h ih =>
    have htext : ∀ r, urlText S u p r =
        S ++ 0x3A :: 0x2F :: 0x2F :: (u ++ 0x3A :: p) ++ [0x40] ++ r := by simp [urlText]
    have hmask : ∀ t, maskedUrl S t =
        S ++ 0x3A :: 0x2F :: 0x2F :: redactedMarker ++ [0x40] ++ t := by simp [maskedUrl]
    have hopen : ∀ z x, openToken isDelimiter tok (z ++ [0x40] ++ x) = openToken isDelimiter [] x :=
      fun z x => openToken_behind (by decide)
    constructor
    · rintro ⟨b, t', ht, hspot⟩
      rcases append_split ((hmask t).symm.trans ht) with ⟨x, rfl, rfl⟩ | ⟨y, hy, -, rfl⟩
      · obtain ⟨a, s', rfl, hspot', hfree⟩ := ih.mp ⟨x, t', rfl, hopen _ x ▸ hspot⟩
        exact ⟨_, s', (htext _).trans (List.append_assoc _ a s').symm, (hopen _ a).symm ▸ hspot',
          mt (covered_behind hinfo.at_notMem).mp hfree⟩
      · refine absurd hspot (not_spot_in_mask hinfo ht ?_)
        have := List.length_pos_iff.mpr hy
        rw [List.length_append]
        omega
    · rintro ⟨a, s', hs, hspot, hfree⟩
      rcases append_split ((htext r).symm.trans hs) with ⟨x, rfl, rfl⟩ | ⟨y, hy, hz, rfl⟩
      · obtain ⟨b, t', rfl, hspot'⟩ := ih.mpr ⟨x, s', rfl, hopen _ x ▸ hspot,
          mt (covered_behind hinfo.at_notMem).mpr hfree⟩
        exact ⟨_, t', (hmask _).trans (List.append_assoc _ b t').symm, (hopen _ b).symm ▸ hspot'⟩
      · -- The place is within the match.
        refine absurd ⟨[], a, _, rfl, hs ▸ urlUserinfoRe_of hinfo hu hb, ?_⟩ hfree
        have hlen := congrArg List.length hz
        have := List.length_pos_iff.mpr hy
        simp only [List.length_append, List.length_cons, List.length_nil] at hlen
        simp only
        omega

/-! ## Nothing to mask -/

/-- A URL with a user and a password is in the line. -/
def HasUserinfo (line : Bytes) : Prop :=
  ∃ a s, line = a ++ s ∧ (urlUserinfoRe a.getLast? s).isSome = true

theorem replaceUserinfo_eq_self {prev : Option UInt8}
    (h : ∀ a s', s = a ++ s' → urlUserinfoRe (a.getLast?.or prev) s' = none) :
    replaceUserinfo 0 prev s = (s, 0) := by
  induction s generalizing prev with
  | nil => rfl
  | cons b s ih =>
    have hhere : urlUserinfoRe prev (b :: s) = none := by simpa using h [] (b :: s) rfl
    have hrest : replaceUserinfo 0 (some b) s = (s, 0) := ih fun a s' hs => by
      have := h (b :: a) s' (by rw [hs]; rfl)
      cases a with
      | nil => simpa using this
      | cons x a =>
        rw [List.getLast?_cons_cons] at this
        rw [List.getLast?_eq_some_getLast (List.cons_ne_nil x a)] at this ⊢
        exact this
    rw [replaceUserinfo_keep hhere, hrest]

theorem urlUserinfoRe_of_count {prev : Option UInt8} (h : (replaceUserinfo 0 prev s).2 = 0) :
    ∀ a s', s = a ++ s' → urlUserinfoRe (a.getLast?.or prev) s' = none := by
  induction s generalizing prev with
  | nil =>
    intro a s' hs
    obtain ⟨rfl, rfl⟩ := List.append_eq_nil_iff.mp hs.symm
    cases hm : urlUserinfoRe ([].getLast?.or prev) [] with
    | none => rfl
    | some m =>
      obtain ⟨-, S, u, p, r, htext, -⟩ := exists_of_urlUserinfoRe hm
      simpa [urlText] using congrArg List.length htext
  | cons b s ih =>
    cases hm : urlUserinfoRe prev (b :: s) with
    | some m =>
      obtain ⟨hb, S, u, p, r, htext, hinfo, hu⟩ := exists_of_urlUserinfoRe hm
      rw [htext] at hb h
      rw [replaceUserinfo_mask hinfo hu hb] at h
      exact absurd h (Nat.succ_ne_zero _)
    | none =>
      rw [replaceUserinfo_keep hm] at h
      intro a s' hs
      cases a with
      | nil =>
        obtain rfl : b :: s = s' := hs
        simpa using hm
      | cons x a =>
        obtain ⟨rfl, rfl⟩ := List.cons.inj hs
        have hrest := ih h a s' rfl
        cases a with
        | nil => simpa using hrest
        | cons y a =>
          rw [List.getLast?_cons_cons]
          rw [List.getLast?_eq_some_getLast (List.cons_ne_nil y a)] at hrest ⊢
          exact hrest

/-- **The pass counts nothing exactly where no URL has userinfo.** -/
theorem redactURLUserinfo_count {line : Bytes} :
    (redactURLUserinfo line).2 = 0 ↔ ¬HasUserinfo line := by
  have hiff : ¬HasUserinfo line ↔
      ∀ a s, line = a ++ s → urlUserinfoRe (a.getLast?.or none) s = none := by
    constructor
    · intro h a s hs
      rw [Option.or_none]
      by_contra hne
      exact h ⟨a, s, hs, Option.isSome_iff_ne_none.mpr hne⟩
    · rintro h ⟨a, s, hs, hm⟩
      have := h a s hs
      rw [Option.or_none] at this
      rw [this] at hm
      cases hm
  rw [hiff]
  constructor
  · exact urlUserinfoRe_of_count
  · intro h
    rw [redactURLUserinfo, replaceUserinfo_eq_self h]

theorem redactURLUserinfo_eq_self {line : Bytes} (h : ¬HasUserinfo line) :
    redactURLUserinfo line = (line, 0) := by
  refine replaceUserinfo_eq_self fun a s hs => ?_
  rw [Option.or_none]
  by_contra hne
  exact h ⟨a, s, hs, Option.isSome_iff_ne_none.mpr hne⟩

theorem masked_redactURLUserinfo (line : Bytes) : Masked [] line (redactURLUserinfo line).1 :=
  masked_replaceUserinfo line rfl

/-! ## No header -/

theorem Masked.isPrefixOf (h : Masked tok s t) {w : Bytes} (hw : 0x3A ∉ w)
    (hp : w.isPrefixOf t = true) : w.isPrefixOf s = true := by
  induction h generalizing w with
  | nil => exact hp
  | @keep tok b s t _ _ ih =>
    cases w with
    | nil => rfl
    | cons x w =>
      simp only [List.isPrefixOf, Bool.and_eq_true] at hp ⊢
      exact ⟨hp.1, ih (fun hc => hw (List.mem_cons_of_mem _ hc)) hp.2⟩
  | mask _ _ _ _ _ =>
    rw [maskedUrl, isPrefixOf_append_cons hw] at hp
    rwa [urlText, isPrefixOf_append_cons hw]

/-- The pass makes no header of a PEM block. -/
theorem Masked.hasInfix_header (h : Masked tok s t) (hp : hasInfix pemHeaderPrefix t = true) :
    hasInfix pemHeaderPrefix s = true := by
  induction h with
  | nil => exact hp
  | @keep tok b s t hnone h ih =>
    rw [hasInfix, Bool.or_eq_true] at hp ⊢
    refine hp.imp (fun hp => ?_) ih
    exact (Masked.keep hnone h).isPrefixOf (by decide) hp
  | @mask tok S u p r t _ _ _ _ ih =>
    have hne : pemHeaderPrefix ≠ [] := by decide
    have hmarker : redactedMarker = 0x3C :: (utf8 "redacted" ++ [0x3E]) := by decide
    have hword : hasInfix pemHeaderPrefix (utf8 "redacted") = false := by decide
    have hsplit : ∀ {c} (xs ys : Bytes), c ∉ pemHeaderPrefix →
        hasInfix pemHeaderPrefix (xs ++ c :: ys) =
          (hasInfix pemHeaderPrefix xs || hasInfix pemHeaderPrefix ys) :=
      fun xs ys hc => hasInfix_append_cons hne hc xs ys
    have hcons : ∀ {c} (ys : Bytes), c ∉ pemHeaderPrefix →
        hasInfix pemHeaderPrefix (c :: ys) = hasInfix pemHeaderPrefix ys :=
      fun ys hc => hsplit [] ys hc
    rw [maskedUrl, hsplit _ _ (by decide), hcons _ (by decide), hcons _ (by decide), hmarker,
      List.cons_append, hcons _ (by decide), List.append_assoc, List.cons_append, hsplit _ _ (by decide),
      List.nil_append, hcons _ (by decide), hword, Bool.false_or, Bool.or_eq_true] at hp
    rw [urlText, hsplit _ _ (by decide), hcons _ (by decide), hcons _ (by decide),
      hsplit _ _ (by decide), hsplit _ _ (by decide)]
    rcases hp with hp | hp
    · rw [hp, Bool.true_or]
    · rw [ih hp, Bool.or_true, Bool.or_true, Bool.or_true]

end HaAddons.Runner
