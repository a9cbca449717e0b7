import HaAddons.Runner.TokenMasks

/-!
# Redacting a second time

What the token pass returns may hold a URL with a user and a password that the URL pass, which came
before, could not see: a masked token hides the `/` that kept the pattern from matching.

* `hasSpot_redacted` — the URLs in what the token pass returns, as places of its text.
* `leavesNothing_iff` — a second pass finds nothing, but for a line with such a URL.
-/

namespace HaAddons.Runner

variable {K : Bytes → Bytes → Bytes → Prop} {a b s t S u p r : Bytes} {c d : UInt8}

/-! ## URLs anywhere -/

/-- A URL whose user part is of a kind is in the text. -/
def HasSpot (K : Bytes → Bytes → Bytes → Prop) (s : Bytes) : Prop :=
  ∃ a s', s = a ++ s' ∧ Spot K (openToken isDelimiter [] a) s'

/-- The user part has no `/`, as the pattern has it. -/
def Bare (_ _ u : Bytes) : Prop := 0x2F ∉ u

theorem Spot.head {tok : Bytes} (h : Spot K tok (c :: s)) : InScheme c := by
  obtain ⟨-, S, u, p, r, htext, hinfo, -⟩ := h
  exact hinfo.head_of_urlText htext

theorem Spot.not_atMark {tok : Bytes} (h : Spot K tok s) : ¬AtMark isDelimiter s := by
  intro hs
  cases s with
  | nil => exact not_spot_nil h
  | cons c s =>
    have hc := atMark_cons.mp hs
    rw [h.head.1] at hc
    cases hc

theorem not_hasSpot_nil : ¬HasSpot K [] := by
  rintro ⟨a, s, h, hspot⟩
  obtain ⟨rfl, rfl⟩ := List.append_eq_nil_iff.mp h.symm
  exact not_spot_nil hspot

theorem hasSpot_cons (hd : isDelimiter d = true) : HasSpot K (d :: s) ↔ HasSpot K s := by
  constructor
  · rintro ⟨a, s', h, hspot⟩
    cases a with
    | nil =>
      obtain rfl : d :: s = s' := h
      exact absurd (atMark_cons.mpr hd) hspot.not_atMark
    | cons x a =>
      obtain ⟨rfl, rfl⟩ := List.cons.inj h
      exact ⟨a, s', rfl, openToken_mark hd [] a ▸ hspot⟩
  · rintro ⟨a, s', rfl, hspot⟩
    exact ⟨d :: a, s', rfl, (openToken_mark hd [] a).symm ▸ hspot⟩

theorem hasSpot_dropWhile : HasSpot K (s.dropWhile isDelimiter) ↔ HasSpot K s := by
  induction s with
  | nil => rfl
  | cons c s ih =>
    by_cases hc : isDelimiter c = true
    · rw [List.dropWhile_cons_of_pos hc, hasSpot_cons hc, ih]
    · rw [List.dropWhile_cons_of_neg hc]

theorem wordBoundary_append {prev : Option UInt8} (hS : S ≠ []) (s : Bytes) :
    wordBoundary prev (S ++ s) = wordBoundary prev S := by
  obtain ⟨c, S, rfl⟩ := List.exists_cons_of_ne_nil hS
  rfl

/-- A URL starts within the first token, which ends with its scheme, or behind it. -/
theorem hasSpot_append (ht : IsToken isDelimiter t) (hs : AtMark isDelimiter s) :
    HasSpot K (t ++ s) ↔
      (∃ b S u p r, t = b ++ S ∧ s = urlText [] u p r ∧ Userinfo S u p ∧
        wordBoundary b.getLast? S = true ∧ K b S u) ∨ HasSpot K s := by
  constructor
  · rintro ⟨a, s', h, hspot⟩
    rcases append_split h with ⟨x, rfl, rfl⟩ | ⟨y, hy, rfl, rfl⟩
    · refine .inr ⟨x, s', rfl, ?_⟩
      cases x with
      | nil => exact absurd hs hspot.not_atMark
      | cons d x =>
        have hd := atMark_cons.mp hs
        rwa [openToken_append, openToken_mark hd, ← openToken_mark hd []] at hspot
    · obtain ⟨hb, S, u, p, r, htext, hinfo, hK⟩ := hspot
      have hplain : ∀ c ∈ a, isDelimiter c = false :=
        fun c hc => ht.plain c (List.mem_append_left _ hc)
      rw [openToken_plain hplain, List.nil_append] at hb hK
      have hmark : AtMark isDelimiter (urlText [] u p r) := atMark_cons.mpr (by decide)
      obtain ⟨rfl, rfl⟩ := IsToken.append_atMark_inj
        (fun c hc => ht.plain c (List.mem_append_right _ hc))
        (fun c hc => (hinfo.scheme_plain c hc).1) hs hmark htext
      rw [wordBoundary_append hinfo.scheme_ne] at hb
      exact .inl ⟨a, y, u, p, r, rfl, rfl, hinfo, hb, hK⟩
  · rintro (⟨b, S, u, p, r, rfl, rfl, hinfo, hb, hK⟩ | ⟨a, s', rfl, hspot⟩)
    · have hplain : ∀ c ∈ b, isDelimiter c = false :=
        fun c hc => ht.plain c (List.mem_append_left _ hc)
      refine ⟨b, urlText S u p r, List.append_assoc _ _ _, ?_⟩
      rw [openToken_plain hplain, List.nil_append]
      refine ⟨?_, S, u, p, r, rfl, hinfo, hK⟩
      rwa [urlText, wordBoundary_append hinfo.scheme_ne]
    · refine ⟨t ++ a, s', (List.append_assoc _ _ _).symm, ?_⟩
      cases a with
      | nil => exact absurd hs hspot.not_atMark
      | cons d a =>
        have hd := atMark_cons.mp hs
        rwa [openToken_append, openToken_mark hd, ← openToken_mark hd []]

theorem marker_suffix_ne (hinfo : Userinfo S u p) (h : redactedMarker = a ++ b) (hb : b ≠ []) :
    b ++ t ≠ urlText S u p r := by
  intro htext
  obtain ⟨b', l, rfl⟩ := (List.eq_nil_or_concat b).resolve_left hb
  have hmarker : redactedMarker = utf8 "<redacted" ++ [0x3E] := by decide
  rw [hmarker, List.concat_eq_append, ← List.append_assoc] at h
  obtain ⟨hab, hl⟩ := List.append_inj' h rfl
  obtain rfl := (List.cons.inj hl).1
  have hword : ∀ c ∈ utf8 "<redacted", (c == 0x3E || c == 0x3A) = false :=
    forall_mem_of_all (by decide)
  have hS : ∀ c ∈ S, (c == 0x3E || c == 0x3A) = false := by
    intro c hc
    have hplain := hinfo.scheme_plain c hc
    rw [Bool.or_eq_false_iff, beq_eq_false_iff_ne, beq_eq_false_iff_ne]
    exact ⟨hplain.2.2.2, fun he => not_inScheme (.inl he) hplain⟩
  rw [List.concat_eq_append, List.append_assoc, List.singleton_append] at htext
  obtain ⟨-, hc, -⟩ := cut_unique (f := fun c => c == 0x3E || c == 0x3A)
    (fun c hc => hword c (hab ▸ List.mem_append_right _ hc)) hS rfl rfl htext
  exact absurd hc (by decide)

/-- No URL starts within a marker. -/
theorem hasSpot_marker : HasSpot Bare (redactedMarker ++ t) ↔ HasSpot Bare t := by
  have hword : ∀ x, (openToken isDelimiter [] (redactedMarker ++ x)).getLast?.any isWord =
      (openToken isDelimiter [] x).getLast?.any isWord := by
    intro x
    rw [← any_isWord_openToken none rfl, ← any_isWord_openToken none rfl]
    cases x with
    | nil => decide
    | cons c x =>
      rw [List.getLast?_append, List.getLast?_eq_some_getLast (List.cons_ne_nil c x)]
      rfl
  have hspot : ∀ x s', Spot Bare (openToken isDelimiter [] (redactedMarker ++ x)) s' ↔
      Spot Bare (openToken isDelimiter [] x) s' := by
    intro x s'
    rw [Spot, Spot, wordBoundary, wordBoundary, hword]
    rfl
  constructor
  · rintro ⟨a, s', h, hs⟩
    rcases append_split h with ⟨x, rfl, rfl⟩ | ⟨y, hy, hsplit, rfl⟩
    · exact ⟨x, s', rfl, (hspot x s').mp hs⟩
    · obtain ⟨-, S, u, p, r, htext, hinfo, -⟩ := hs
      exact absurd htext (marker_suffix_ne hinfo hsplit hy)
  · rintro ⟨a, s', rfl, hs⟩
    exact ⟨redactedMarker ++ a, s', (List.append_assoc _ _ _).symm, (hspot a s').mpr hs⟩

/-! ## URLs that the token pass uncovers -/

/-- A user part that shows no `/` once its tokens are masked. Its start belongs to the token of the
`//` before, which has to stay. -/
def Shielded (u : Bytes) : Prop :=
  ∃ x w, u = x ++ w ∧ (∀ c ∈ x, isDelimiter c = false ∧ c ≠ 0x2F) ∧
    AtMark isDelimiter (w ++ [0x3A]) ∧ isSecret (0x2F :: 0x2F :: x) (w ++ [0x3A]) = false ∧
    EachToken isDelimiter Hidden (w ++ [0x3A])

/-- A scheme that stays, before a shielded user part. -/
def Uncoverable (tok S u : Bytes) : Prop := isCredential (tok ++ S) = false ∧ Shielded u

theorem marker_plain : ∀ c ∈ redactedMarker,
    isBlank c = false ∧ c ≠ 0x3A ∧ c ≠ 0x40 :=
  forall_mem_of_all (by decide)

theorem isBase64_plain {c : UInt8} (h : isBase64 c = true) :
    isBlank c = false ∧ c ≠ 0x3A ∧ c ≠ 0x40 := by
  have hall : ∀ n < 256, isBase64 (UInt8.ofNat n) = true →
      isBlank (UInt8.ofNat n) = false ∧ UInt8.ofNat n ≠ 0x3A ∧ UInt8.ofNat n ≠ 0x40 := by
    decide +kernel
  exact forall_byte (P := fun c => isBase64 c = true → isBlank c = false ∧ c ≠ 0x3A ∧ c ≠ 0x40)
    hall c h

theorem isToken_slashes {x : Bytes} (hx : ∀ c ∈ x, isDelimiter c = false) :
    IsToken isDelimiter (0x2F :: 0x2F :: x) := by
  refine ⟨List.cons_ne_nil _ _, fun c hc => ?_⟩
  simp only [List.mem_cons] at hc
  rcases hc with rfl | rfl | hc
  · decide
  · decide
  · exact hx c hc

theorem atMark_stop {w z : Bytes} (h : AtMark isDelimiter (w ++ [0x3A])) :
    AtMark isDelimiter (w ++ 0x3A :: z) := by
  cases w with
  | nil => exact atMark_cons.mpr (by decide)
  | cons c w => exact atMark_cons.mpr (atMark_cons.mp h)

/-- Behind the scheme, from the text to what the pass returns. -/
theorem uncovered_of_shielded (hinfo : Userinfo S u p) (h : Shielded u) :
    ∃ u' p' r', redacted (urlText [] u p r) = urlText [] u' p' r' ∧ Userinfo S u' p' ∧
      0x2F ∉ u' := by
  obtain ⟨x, w, rfl, hx, hmark, hsecret, hhidden⟩ := h
  obtain ⟨w', hw, hne, hmem, hslash⟩ := redacted_stop (c := 0x3A) (by decide) (by decide) w
    (p ++ 0x40 :: r)
  obtain ⟨p', hp, hpne, hpmem, -⟩ := redacted_stop (c := 0x40) (by decide) (by decide) p r
  have htoken := isToken_slashes fun c hc => (hx c hc).1
  have hkeep : isSecret (0x2F :: 0x2F :: x) (w ++ 0x3A :: (p ++ 0x40 :: r)) = false := by
    rw [isSecret_stop (by decide) (by decide), hsecret]
  have htext : redacted (urlText [] (x ++ w) p r) = urlText [] (x ++ w') p' (redacted r) := by
    have hcons := redacted_cons (d := 0x3A) (by decide)
      (0x2F :: 0x2F :: x ++ (w ++ 0x3A :: (p ++ 0x40 :: r)))
    rw [redacted_keep htoken (atMark_stop hmark) hkeep, hw, hp] at hcons
    simpa [urlText] using hcons
  refine ⟨x ++ w', p', redacted r, htext,
    ⟨hinfo.letter, hinfo.scheme, ?_, ?_, hpne hinfo.password_ne, ?_⟩, ?_⟩
  · intro hnil
    obtain ⟨rfl, hw'⟩ := List.append_eq_nil_iff.mp hnil
    exact hne hinfo.user_ne hw'
  · intro c hc
    rcases List.mem_append.mp hc with hc | hc
    · exact hinfo.user c (List.mem_append_left _ hc)
    · rcases hmem c hc with hc | hc
      · exact hinfo.user c (List.mem_append_right _ hc)
      · exact marker_plain c hc
  · intro c hc
    rcases hpmem c hc with hc | hc
    · exact hinfo.password c hc
    · exact ⟨(marker_plain c hc).1, (marker_plain c hc).2.2⟩
  · intro hc
    rcases List.mem_append.mp hc with hc | hc
    · exact (hx _ hc).2 rfl
    · exact hslash.mpr hhidden hc

/-- Behind the scheme, from what the pass returns to the text. -/
theorem shielded_of_uncovered (hmark : AtMark isDelimiter s)
    (hs : redacted s = urlText [] u p r) (hinfo : Userinfo S u p) (hslash : 0x2F ∉ u) :
    ∃ u' p' r', s = urlText [] u' p' r' ∧ Userinfo S u' p' ∧ Shielded u' := by
  obtain ⟨s1, rfl, hs1⟩ : ∃ s1, s = 0x3A :: s1 ∧
      redacted s1 = 0x2F :: 0x2F :: (u ++ 0x3A :: (p ++ 0x40 :: r)) := by
    cases s with
    | nil => cases hs
    | cons d s1 =>
      rw [redacted_cons (atMark_cons.mp hmark)] at hs
      obtain ⟨rfl, hs1⟩ := List.cons.inj hs
      exact ⟨s1, rfl, hs1⟩
  -- Behind the `:` starts a token that stays, as it starts with the slashes.
  have hnot : ¬AtMark isDelimiter s1 := by
    intro h
    have := atMark_redacted h
    rw [hs1] at this
    exact absurd (atMark_cons.mp this) (by decide)
  obtain ⟨t, s2, rfl, ht, hs2⟩ := exists_token s1 hnot
  have hmarker : ∀ z, redactedMarker ++ z ≠ 0x2F :: 0x2F :: (u ++ 0x3A :: (p ++ 0x40 :: r)) := by
    intro z hz
    exact absurd (List.cons.inj hz).1 (by decide)
  rcases redacted_token ht hs2 with ⟨hkeep, hr⟩ | ⟨-, hr⟩ | ⟨-, hr⟩
  · rw [hr] at hs1
    obtain ⟨x, w', hux, hx, hw'⟩ : ∃ x w', u = x ++ w' ∧ (∀ c ∈ x, isDelimiter c = false) ∧
        AtMark isDelimiter (w' ++ [0x3A]) := by
      by_cases hu : AtMark isDelimiter (u ++ [0x3A])
      · exact ⟨[], u, rfl, by simp, hu⟩
      · obtain ⟨x, w', hsplit, hx, hw'⟩ := exists_token u fun hu' => hu (by
          cases u with
          | nil => exact atMark_cons.mpr (by decide)
          | cons c u => exact atMark_cons.mpr (atMark_cons.mp hu'))
        refine ⟨x, w', hsplit, hx.plain, ?_⟩
        cases w' with
        | nil => exact atMark_cons.mpr (by decide)
        | cons c w' => exact atMark_cons.mpr (atMark_cons.mp hw')
    have hcut : t ++ redacted s2 =
        (0x2F :: 0x2F :: x) ++ (w' ++ 0x3A :: (p ++ 0x40 :: r)) := by
      rw [hs1, hux]
      simp
    obtain ⟨rfl, hs2'⟩ := IsToken.append_atMark_inj ht.plain (isToken_slashes hx).plain
      (atMark_redacted hs2) (atMark_stop hw') hcut
    obtain ⟨w, z, rfl, hz, hw⟩ := exists_of_redacted_stop (c := 0x3A) (by decide) hs2'
    obtain ⟨p', r', rfl, hr', hp'⟩ := exists_of_redacted_stop (c := 0x40) (by decide) hz
    obtain ⟨w'', hforward, hne, -, hiff⟩ := redacted_stop (c := 0x3A) (by decide) (by decide) w
      (p' ++ 0x40 :: r')
    obtain ⟨p'', hforward', hpne, -⟩ := redacted_stop (c := 0x40) (by decide) (by decide) p' r'
    have hww : w'' = w' := by
      rw [hforward, hz] at hs2'
      exact List.append_cancel_right hs2'
    have hpp : p'' = p := by
      rw [hforward', hr'] at hz
      exact List.append_cancel_right hz
    subst hww hpp hux
    refine ⟨x ++ w, p', r', by simp [urlText],
      ⟨hinfo.letter, hinfo.scheme, ?_, ?_, ?_, ?_⟩, x, w, rfl, ?_, ?_, ?_, ?_⟩
    · intro hnil
      obtain ⟨rfl, rfl⟩ := List.append_eq_nil_iff.mp hnil
      rw [List.nil_append, redacted_cons (by decide)] at hforward
      have hnil : [] = w'' := List.append_cancel_right hforward
      exact hinfo.user_ne hnil.symm
    · intro c hc
      rcases List.mem_append.mp hc with hc | hc
      · exact hinfo.user c (List.mem_append_left _ hc)
      · rcases hw c hc with hc | hc
        · exact hinfo.user c (List.mem_append_right _ hc)
        · exact isBase64_plain hc
    · rintro rfl
      rw [List.nil_append, redacted_cons (by decide)] at hforward'
      have hnil : [] = p'' := List.append_cancel_right hforward'
      exact hinfo.password_ne hnil.symm
    · intro c hc
      rcases hp' c hc with hc | hc
      · exact hinfo.password c hc
      · exact ⟨(isBase64_plain hc).1, (isBase64_plain hc).2.2⟩
    · exact fun c hc => ⟨hx c hc, fun he => hslash (he ▸ List.mem_append_left _ hc)⟩
    · cases w with
      | nil => exact atMark_cons.mpr (by decide)
      | cons c w => exact atMark_cons.mpr (atMark_cons.mp hs2)
    · rwa [isSecret_stop (by decide) (by decide)] at hkeep
    · exact hiff.mp fun hc => hslash (List.mem_append_right _ hc)
  · exact absurd (hr.symm.trans hs1) (hmarker _)
  · exact absurd (hr.symm.trans hs1) (hmarker _)

/-- **The URLs in what the token pass returns are the uncoverable ones of its text.** -/
theorem hasSpot_redacted (s : Bytes) : HasSpot Bare (redacted s) ↔ HasSpot Uncoverable s := by
  induction s using token_induction_behind (d := isDelimiter) with
  | nil => exact iff_of_false not_hasSpot_nil not_hasSpot_nil
  | mark d s hd ih => rw [redacted_cons hd, hasSpot_cons hd, hasSpot_cons hd, ih]
  | token t s ht hs ih ihrest =>
    have hnone : isCredential t = true ∨ isPadded t s = true →
        ¬∃ b S u p r, t = b ++ S ∧ s = urlText [] u p r ∧ Userinfo S u p ∧
          wordBoundary b.getLast? S = true ∧ Uncoverable b S u := by
      rintro (hcred | hpad) ⟨b, S, u, p, r, rfl, rfl, -, -, hK⟩
      · rw [hK.1] at hcred
        cases hcred
      · have hcolon := isPadded_stop (t := b ++ S) (c := 0x3A) (by decide) (by decide) []
          (0x2F :: 0x2F :: (u ++ 0x3A :: (p ++ 0x40 :: r)))
        have hfalse : isPadded (b ++ S) [0x3A] = false := rfl
        exact absurd (hpad.symm.trans (hcolon.trans hfalse)) (by decide)
    rcases redacted_token ht hs with ⟨hkeep, hr⟩ | ⟨hcred, hr⟩ | ⟨hpad, hr⟩
    · rw [hr, hasSpot_append ht (atMark_redacted hs), hasSpot_append ht hs, ih]
      refine or_congr_left ⟨?_, ?_⟩
      · rintro ⟨b, S, u, p, r, htext, hout, hinfo, hb, hbare⟩
        obtain ⟨u', p', r', hs', hinfo', hshield⟩ := shielded_of_uncovered hs hout hinfo hbare
        refine ⟨b, S, u', p', r', htext, hs', hinfo', hb, ?_, hshield⟩
        rw [← htext]
        exact (Bool.or_eq_false_iff.mp hkeep).2
      · rintro ⟨b, S, u, p, r, htext, rfl, hinfo, hb, -, hshield⟩
        obtain ⟨u', p', r', hs', hinfo', hbare⟩ := uncovered_of_shielded hinfo hshield
        exact ⟨b, S, u', p', r', htext, hs', hinfo', hb, hbare⟩
    · rw [hr, hasSpot_marker, ih, hasSpot_append ht hs, or_iff_right (hnone (.inl hcred))]
    · rw [hr, hasSpot_marker, ihrest, hasSpot_dropWhile, hasSpot_append ht hs,
        or_iff_right (hnone (.inr hpad))]

/-! ## The second pass -/

/-- A line holds userinfo where a URL without a `/` in its user part starts. -/
theorem hasUserinfo_iff {line : Bytes} : HasUserinfo line ↔ HasSpot Bare line := by
  have hprev : ∀ a : Bytes, a.getLast?.any isWord =
      (openToken isDelimiter [] a).getLast?.any isWord := by
    intro a
    rw [← any_isWord_openToken none rfl, Option.or_none]
  constructor
  · rintro ⟨a, s, rfl, hm⟩
    obtain ⟨m, hm⟩ := Option.isSome_iff_exists.mp hm
    rw [urlUserinfoRe_congr (hprev a)] at hm
    obtain ⟨hb, S, u, p, r, htext, hinfo, hu⟩ := exists_of_urlUserinfoRe hm
    exact ⟨a, s, rfl, hb, S, u, p, r, htext, hinfo, hu⟩
  · rintro ⟨a, s, rfl, hb, S, u, p, r, rfl, hinfo, hu⟩
    refine ⟨a, _, rfl, ?_⟩
    rw [urlUserinfoRe_congr (hprev a), urlUserinfoRe_of hinfo hu hb]
    rfl

/-- A URL that the pattern does not match on the line, with no match over its start, and whose user
part has its `/` only in tokens that are masked. -/
def Veiled (line : Bytes) : Prop :=
  ∃ a S u p r, line = a ++ urlText S u p r ∧ Userinfo S u p ∧
    wordBoundary a.getLast? (urlText S u p r) = true ∧
    Uncoverable (openToken isDelimiter [] a) S u ∧
    ∀ a1 a2 m, a = a1 ++ a2 →
      urlUserinfoRe a1.getLast? (a2 ++ urlText S u p r) = some m → m.2 ≤ a2.length

/-- What `Redact` leaves is clean: the line as it is exactly where it holds nothing to redact, else
a text without credentials that a second pass leaves alone. -/
def LeavesNothing (line : Bytes) : Prop :=
  (redact line = (line, 0) ↔
    hasInfix pemHeaderPrefix line = false ∧ ¬HasUserinfo line ∧ Clean line) ∧
  (redact line ≠ (line, 0) →
    (∀ seg ∈ splitTokens (redact line).1, seg.delim = false → isCredential seg.text = false) ∧
      redact (redact line).1 = ((redact line).1, 0))

theorem redact_of_header {line : Bytes} (h : hasInfix pemHeaderPrefix line = true) :
    redact line = (redactedMarker, 1) := by
  rw [redact, Redactor.line, if_pos h]

theorem redact_of_no_header {line : Bytes} (h : hasInfix pemHeaderPrefix line = false) :
    redact line = (redacted (redactURLUserinfo line).1,
      (redactURLUserinfo line).2 + (redactText (redactURLUserinfo line).1).2) := by
  rw [redact, Redactor.line, if_neg (by rw [h]; exact Bool.false_ne_true)]
  rfl

/-- A line is returned as it is exactly where there is nothing to redact. -/
theorem redact_eq_self {line : Bytes} : redact line = (line, 0) ↔
    hasInfix pemHeaderPrefix line = false ∧ ¬HasUserinfo line ∧ Clean line := by
  cases hpem : hasInfix pemHeaderPrefix line with
  | true =>
    rw [redact_of_header hpem]
    simp
  | false =>
    rw [redact_of_no_header hpem]
    constructor
    · intro h
      obtain ⟨hurl, htext⟩ := Nat.add_eq_zero_iff.mp (Prod.mk.inj h).2
      have hnone := redactURLUserinfo_count.mp hurl
      rw [redactURLUserinfo_eq_self hnone] at htext
      exact ⟨rfl, hnone, redactText_count.mp htext⟩
    · rintro ⟨-, hnone, hclean⟩
      rw [redactURLUserinfo_eq_self hnone, redacted, redactText_of_clean hclean]
      rfl

/-- What is returned for a line without a header has none. -/
theorem header_of_redact {line : Bytes} (h : hasInfix pemHeaderPrefix line = false) :
    hasInfix pemHeaderPrefix (redact line).1 = false := by
  rw [redact_of_no_header h]
  by_contra hne
  have hpre := hasInfix_header_redacted _ (eq_true_of_ne_false hne)
  rw [(masked_redactURLUserinfo line).hasInfix_header hpre] at h
  cases h

/-- **Redacting uncovers a URL exactly where one is veiled.** -/
theorem hasUserinfo_redact {line : Bytes} (h : hasInfix pemHeaderPrefix line = false) :
    HasUserinfo (redact line).1 ↔ Veiled line := by
  rw [redact_of_no_header h, hasUserinfo_iff, hasSpot_redacted, HasSpot,
    (masked_redactURLUserinfo line).spot_iff]
  have hprev : ∀ a s, urlUserinfoRe (openToken isDelimiter [] a).getLast? s =
      urlUserinfoRe a.getLast? s := by
    intro a s
    refine urlUserinfoRe_congr ?_ s
    rw [← any_isWord_openToken none rfl, Option.or_none]
  have hb : ∀ a s, wordBoundary (openToken isDelimiter [] a).getLast? s =
      wordBoundary a.getLast? s := by
    intro a s
    rw [wordBoundary, wordBoundary, ← any_isWord_openToken none rfl, Option.or_none]
  constructor
  · rintro ⟨a, s, rfl, ⟨hword, S, u, p, r, rfl, hinfo, hK⟩, hfree⟩
    refine ⟨a, S, u, p, r, rfl, hinfo, hb a _ ▸ hword, hK, fun a1 a2 m ha hm => ?_⟩
    by_contra hlen
    exact hfree ⟨a1, a2, m, ha, (hprev a1 _).trans hm, by omega⟩
  · rintro ⟨a, S, u, p, r, rfl, hinfo, hword, hK, hfree⟩
    refine ⟨a, _, rfl, ⟨(hb a _).trans hword, S, u, p, r, rfl, hinfo, hK⟩, ?_⟩
    rintro ⟨a1, a2, m, ha, hm, hlen⟩
    have := hfree a1 a2 m ha ((hprev a1 _).symm.trans hm)
    omega

/-- **A second pass finds nothing, exactly where no URL is veiled.** -/
theorem leavesNothing_iff (line : Bytes) :
    LeavesNothing line ↔ hasInfix pemHeaderPrefix line = true ∨ ¬Veiled line := by
  have htokens : ∀ {s}, Clean s →
      ∀ seg ∈ splitTokens s, seg.delim = false → isCredential seg.text = false := by
    intro s hs
    refine (eachToken_iff (P := fun t => isCredential t = false) s).mp fun a t b ht => ?_
    exact (Bool.or_eq_false_iff.mp (hs a t b ht)).2
  cases hpem : hasInfix pemHeaderPrefix line with
  | true =>
    have hmarker : Clean redactedMarker := by
      rw [Clean, ← List.append_nil redactedMarker, eachToken_append isToken_marker atMark_nil]
      exact ⟨isSecret_of_mem (by decide), eachToken_nil⟩
    have hself : redact redactedMarker = (redactedMarker, 0) := by decide +kernel
    refine iff_of_true ⟨redact_eq_self, fun _ => ?_⟩ (.inl rfl)
    rw [redact_of_header hpem]
    exact ⟨htokens hmarker, hself⟩
  | false =>
    have hclean : Clean (redact line).1 := by
      rw [redact_of_no_header hpem]
      exact clean_redacted _
    rw [or_iff_right Bool.false_ne_true]
    constructor
    · rintro ⟨-, hleft⟩ hveiled
      have hout := (hasUserinfo_redact hpem).mpr hveiled
      by_cases hself : redact line = (line, 0)
      · rw [hself] at hout
        exact (redact_eq_self.mp hself).2.1 hout
      · exact (redact_eq_self.mp (hleft hself).2).2.1 hout
    · intro hveiled
      refine ⟨redact_eq_self, fun _ => ⟨htokens hclean, ?_⟩⟩
      exact redact_eq_self.mpr
        ⟨header_of_redact hpem, mt (hasUserinfo_redact hpem).mp hveiled, hclean⟩

/-- The user part of this URL is a masked token, and its password is served. -/
theorem leaves_password : ¬LeavesNothing
    (utf8 "https://b=wJalrXUtnFEMI/K7MDENG/bPxRfiCYEXAMPLEKEY:p@h") := by
  intro h
  have hsecond := (h.2 (by decide +kernel)).2
  exact absurd hsecond (by decide +kernel)

end HaAddons.Runner
