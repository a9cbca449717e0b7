import HaAddons.Runner.UrlMasks

/-!
# What the token pass masks

The pass over the tokens of a line as a relation between the line and its result.

* `redactText_append` — what becomes of a token, by what it is and what is behind it.
* `clean_redacted` — no token of the result is a secret.
* `redacted_stop` — the result up to a delimiter, and where it shows a `/`.
-/

namespace HaAddons.Runner

/-! ## Secrets -/

/-- The token is a secret whose padding was split off it. -/
def isPadded (t b : Bytes) : Bool :=
  isEqualsRun (b.takeWhile isDelimiter) && awsSecretKeyRe (t ++ b.takeWhile isDelimiter)

/-- What the pass masks of a token, with what is behind it. -/
def isSecret (t b : Bytes) : Bool := isPadded t b || isCredential t

/-- The pass over the tokens of a text. -/
def redactText (s : Bytes) : Bytes × ℕ := redactSegments (splitTokens s)

/-! ## The loop, token by token -/

theorem splitTokens_append {x y : Bytes} {delim : Bool} (hx : x ≠ [])
    (hdelim : ∀ c ∈ x, isDelimiter c = delim) (hy : ∀ c ∈ y.head?, isDelimiter c = !delim) :
    splitTokens (x ++ y) = ⟨x, delim⟩ :: splitTokens y := by
  have hchain : x.IsChain fun a b => (isDelimiter a == isDelimiter b) = true := by
    refine List.Pairwise.isChain (List.pairwise_of_forall_mem_list fun a ha b hb => ?_)
    rw [hdelim a ha, hdelim b hb, beq_self_eq_true]
  have hany : x.any isDelimiter = delim := by
    obtain ⟨a, x, rfl⟩ := List.exists_cons_of_ne_nil hx
    cases delim with
    | true => simp [hdelim a]
    | false => simpa using hdelim
  rw [splitTokens, List.splitBy_append, List.splitBy_of_isChain hx hchain]
  · simp [splitTokens, hany]
  · intro a ha b hb
    rw [hdelim a (List.mem_of_getLast? ha), hy b hb]
    cases delim <;> rfl

theorem redactSegments_delim (x : Bytes) (segs : List Segment) :
    redactSegments (⟨x, true⟩ :: segs) =
      (x ++ (redactSegments segs).1, (redactSegments segs).2) := by
  cases segs <;> simp [redactSegments]

theorem redactText_run {x y : Bytes} (hx : ∀ c ∈ x, isDelimiter c = true)
    (hy : ∀ c ∈ y.head?, isDelimiter c = false) :
    redactText (x ++ y) = (x ++ (redactText y).1, (redactText y).2) := by
  by_cases hne : x = []
  · subst hne
    rfl
  · rw [redactText, splitTokens_append hne hx hy, redactSegments_delim]
    rfl

theorem head_dropWhile (s : Bytes) :
    ∀ c ∈ (s.dropWhile isDelimiter).head?, isDelimiter c = false := by
  intro c hc
  have := List.head?_dropWhile_not isDelimiter s
  rw [hc] at this
  simpa using this

theorem redactText_cons {d : UInt8} (hd : isDelimiter d = true) (s : Bytes) :
    redactText (d :: s) = (d :: (redactText s).1, (redactText s).2) := by
  have hrun : ∀ c ∈ s.takeWhile isDelimiter, isDelimiter c = true :=
    fun c hc => List.mem_takeWhile_imp hc
  have hs : s = s.takeWhile isDelimiter ++ s.dropWhile isDelimiter :=
    List.takeWhile_append_dropWhile.symm
  have hcons : redactText (d :: s.takeWhile isDelimiter ++ s.dropWhile isDelimiter) = _ :=
    redactText_run (by simpa [hd] using hrun) (head_dropWhile s)
  rw [List.cons_append, ← hs] at hcons
  have hself := redactText_run hrun (head_dropWhile s)
  rw [← hs] at hself
  rw [hcons, hself]
  rfl

/-- **What becomes of a token.** -/
theorem redactText_append {t s : Bytes} (ht : IsToken isDelimiter t) (hs : AtMark isDelimiter s) :
    redactText (t ++ s) =
      if isPadded t s then
        (redactedMarker ++ (redactText (s.dropWhile isDelimiter)).1,
          (redactText (s.dropWhile isDelimiter)).2 + 1)
      else if isCredential t then (redactedMarker ++ (redactText s).1, (redactText s).2 + 1)
      else (t ++ (redactText s).1, (redactText s).2) := by
  have hsplit : splitTokens (t ++ s) = ⟨t, false⟩ :: splitTokens s :=
    splitTokens_append ht.ne ht.plain (by simpa [AtMark] using hs)
  cases s with
  | nil =>
    have hpad : isPadded t [] = false := rfl
    rw [redactText, hsplit, hpad]
    simp [redactSegments, splitTokens, redactText]
  | cons c s =>
    have hc := atMark_cons.mp hs
    have hrun : ∀ x ∈ (c :: s).takeWhile isDelimiter, isDelimiter x = true :=
      fun x hx => List.mem_takeWhile_imp hx
    have hne : (c :: s).takeWhile isDelimiter ≠ [] := by
      rw [List.takeWhile_cons_of_pos hc]
      exact List.cons_ne_nil _ _
    have htext := splitTokens_append hne hrun (head_dropWhile (c :: s))
    rw [List.takeWhile_append_dropWhile] at htext
    have hself : redactText (c :: s) =
        redactSegments (⟨(c :: s).takeWhile isDelimiter, true⟩ ::
          splitTokens ((c :: s).dropWhile isDelimiter)) := by
      rw [redactText, htext]
    rw [redactText, hsplit, htext, redactSegments, hself]
    simp only [Bool.false_eq_true, if_false, Bool.true_and, isPadded]
    rfl

/-- A text is its delimiters in front and a rest that does not start with one. -/
theorem splitTokens_run (s : Bytes) (hs : s.takeWhile isDelimiter ≠ []) :
    splitTokens s = ⟨s.takeWhile isDelimiter, true⟩ :: splitTokens (s.dropWhile isDelimiter) := by
  have hsplit := splitTokens_append hs (fun c hc => List.mem_takeWhile_imp hc) (head_dropWhile s)
  rwa [List.takeWhile_append_dropWhile] at hsplit

/-- **The tokens are the segments of `splitTokens` that are no delimiters.** -/
theorem eachToken_iff {P : Bytes → Prop} (s : Bytes) :
    EachToken isDelimiter (fun t _ => P t) s ↔
      ∀ seg ∈ splitTokens s, seg.delim = false → P seg.text := by
  have hdrop : ∀ s : Bytes, (∀ seg ∈ splitTokens s, seg.delim = false → P seg.text) ↔
      ∀ seg ∈ splitTokens (s.dropWhile isDelimiter), seg.delim = false → P seg.text := by
    intro s
    by_cases hs : s.takeWhile isDelimiter = []
    · have hself := List.takeWhile_append_dropWhile (p := isDelimiter) (l := s)
      rw [hs, List.nil_append] at hself
      rw [hself]
    · rw [splitTokens_run s hs]
      simp
  induction s using token_induction (d := isDelimiter) with
  | nil => exact iff_of_true eachToken_nil (by simp [splitTokens])
  | mark d s hd ih =>
    refine (eachToken_cons hd).trans (Iff.trans ih ?_)
    rw [hdrop s, hdrop (d :: s), List.dropWhile_cons_of_pos hd]
  | token t s ht hs ih =>
    refine (eachToken_append ht hs).trans ((and_congr_right fun _ => ih).trans ?_)
    rw [splitTokens_append ht.ne ht.plain (by simpa [AtMark] using hs)]
    simp

variable {t s q : Bytes} {c d : UInt8}

/-- The text that the pass returns. -/
def redacted (s : Bytes) : Bytes := (redactText s).1

theorem redacted_cons (hd : isDelimiter d = true) (s : Bytes) :
    redacted (d :: s) = d :: redacted s := by
  rw [redacted, redactText_cons hd]
  rfl

theorem redacted_keep (ht : IsToken isDelimiter t) (hs : AtMark isDelimiter s)
    (h : isSecret t s = false) : redacted (t ++ s) = t ++ redacted s := by
  obtain ⟨hp, hc⟩ := Bool.or_eq_false_iff.mp h
  rw [redacted, redactText_append ht hs, hp, hc]
  rfl

theorem redacted_padded (ht : IsToken isDelimiter t) (hs : AtMark isDelimiter s)
    (h : isPadded t s = true) :
    redacted (t ++ s) = redactedMarker ++ redacted (s.dropWhile isDelimiter) := by
  rw [redacted, redactText_append ht hs, if_pos h]
  rfl

theorem redacted_credential (ht : IsToken isDelimiter t) (hs : AtMark isDelimiter s)
    (hp : isPadded t s = false) (h : isCredential t = true) :
    redacted (t ++ s) = redactedMarker ++ redacted s := by
  rw [redacted, redactText_append ht hs, hp, if_neg Bool.false_ne_true, if_pos h]
  rfl

/-! ## Nothing to mask -/

/-- A token is a secret or not. -/
def Clean (s : Bytes) : Prop := EachToken isDelimiter (fun t b => isSecret t b = false) s

theorem redactText_of_clean (h : Clean s) : redactText s = (s, 0) := by
  induction s using token_induction (d := isDelimiter) with
  | nil => rfl
  | mark d s hd ih => rw [redactText_cons hd, ih ((eachToken_cons hd).mp h)]
  | token t s ht hs ih =>
    obtain ⟨hsecret, h⟩ := (eachToken_append ht hs).mp h
    obtain ⟨hp, hc⟩ := Bool.or_eq_false_iff.mp hsecret
    rw [redactText_append ht hs, hp, hc, ih h]
    rfl

/-- **The pass counts nothing exactly where no token is a secret.** -/
theorem redactText_count : (redactText s).2 = 0 ↔ Clean s := by
  refine ⟨fun h => ?_, fun h => by rw [redactText_of_clean h]⟩
  induction s using token_induction (d := isDelimiter) with
  | nil => exact eachToken_nil
  | mark d s hd ih =>
    rw [redactText_cons hd] at h
    exact (eachToken_cons hd).mpr (ih h)
  | token t s ht hs ih =>
    rw [redactText_append ht hs] at h
    cases hp : isPadded t s with
    | true =>
      rw [if_pos hp] at h
      exact absurd h (Nat.succ_ne_zero _)
    | false =>
      rw [hp, if_neg Bool.false_ne_true] at h
      cases hc : isCredential t with
      | true =>
        rw [if_pos hc] at h
        exact absurd h (Nat.succ_ne_zero _)
      | false =>
        rw [hc, if_neg Bool.false_ne_true] at h
        refine (eachToken_append ht hs).mpr ⟨?_, ih h⟩
        rw [isSecret, hp, hc]
        rfl

/-! ## Nothing left to mask -/

theorem isBase64_of_isCredential (h : isCredential t = true) : ∀ c ∈ t, isBase64 c = true := by
  intro c hc
  simp only [isCredential, r2AccessKeyRe, awsSecretKeyRe, r2HexKeyRe, Bool.or_eq_true,
    Bool.and_eq_true, List.all_eq_true] at h
  rcases h with (⟨-, h⟩ | ⟨-, h⟩) | ⟨-, h⟩
  · rcases h c hc with hc | hc
    · simp [isBase64, hc]
    · simp [isBase64, hc]
  · exact h c hc
  · have hall : ∀ n < 256, isLowerHex (UInt8.ofNat n) = true → isBase64 (UInt8.ofNat n) = true := by
      decide +kernel
    exact forall_byte (P := fun c => isLowerHex c = true → isBase64 c = true) hall c (h c hc)

theorem isBase64_of_isPadded (h : isPadded t s = true) :
    (∀ c ∈ t, isBase64 c = true) ∧ ∀ c ∈ s.takeWhile isDelimiter, isBase64 c = true := by
  simp only [isPadded, awsSecretKeyRe, Bool.and_eq_true, List.all_eq_true] at h
  exact ⟨fun c hc => h.2.2 c (List.mem_append_left _ hc),
    fun c hc => h.2.2 c (List.mem_append_right _ hc)⟩

/-- What is longer than a marker alone is no secret. -/
theorem isSecret_of_mem (h : 0x3C ∈ t) : isSecret t s = false := by
  have hlt : isBase64 0x3C = false := by decide
  rw [isSecret, Bool.or_eq_false_iff]
  constructor
  · by_contra hne
    have := (isBase64_of_isPadded (eq_true_of_ne_false hne)).1 _ h
    rw [hlt] at this
    cases this
  · by_contra hne
    have := isBase64_of_isCredential (eq_true_of_ne_false hne) _ h
    rw [hlt] at this
    cases this

theorem isToken_marker : IsToken isDelimiter redactedMarker :=
  ⟨by decide, forall_mem_of_all (by decide)⟩

theorem takeWhile_of_token (ht : IsToken isDelimiter t) (s : Bytes) :
    (t ++ s).takeWhile isDelimiter = [] := by
  obtain ⟨c, t, rfl⟩ := List.exists_cons_of_ne_nil ht.ne
  rw [List.cons_append, List.takeWhile_cons_of_neg (by simp [ht.plain c])]

/-- The three ways a token goes. -/
theorem redacted_token (ht : IsToken isDelimiter t) (hs : AtMark isDelimiter s) :
    (isSecret t s = false ∧ redacted (t ++ s) = t ++ redacted s) ∨
    (isCredential t = true ∧ redacted (t ++ s) = redactedMarker ++ redacted s) ∨
    (isPadded t s = true ∧
      redacted (t ++ s) = redactedMarker ++ redacted (s.dropWhile isDelimiter)) := by
  cases hp : isPadded t s with
  | true => exact .inr (.inr ⟨rfl, redacted_padded ht hs hp⟩)
  | false =>
    cases hc : isCredential t with
    | true => exact .inr (.inl ⟨rfl, redacted_credential ht hs hp hc⟩)
    | false =>
      have hsecret : isSecret t s = false := by rw [isSecret, hp, hc]; rfl
      exact .inl ⟨hsecret, redacted_keep ht hs hsecret⟩

/-- The delimiters in front stay. -/
theorem takeWhile_redacted (s : Bytes) :
    (redacted s).takeWhile isDelimiter = s.takeWhile isDelimiter := by
  induction s using token_induction (d := isDelimiter) with
  | nil => rfl
  | mark d s hd ih =>
    rw [redacted_cons hd, List.takeWhile_cons_of_pos hd, List.takeWhile_cons_of_pos hd, ih]
  | token t s ht hs _ =>
    rw [takeWhile_of_token ht]
    rcases redacted_token ht hs with ⟨-, h⟩ | ⟨-, h⟩ | ⟨-, h⟩
    · rw [h, takeWhile_of_token ht]
    · rw [h, takeWhile_of_token isToken_marker]
    · rw [h, takeWhile_of_token isToken_marker]

theorem isSecret_congr {s' : Bytes} (h : s.takeWhile isDelimiter = s'.takeWhile isDelimiter)
    (t : Bytes) : isSecret t s = isSecret t s' := by
  rw [isSecret, isSecret, isPadded, isPadded, h]

theorem atMark_redacted (hs : AtMark isDelimiter s) : AtMark isDelimiter (redacted s) := by
  cases s with
  | nil => exact atMark_nil
  | cons c s =>
    have hc := atMark_cons.mp hs
    rw [redacted_cons hc]
    exact atMark_cons.mpr hc

/-- A text stays clean behind a marker and what was kept behind it. -/
theorem clean_redacted_behind (s : Bytes) :
    Clean (redacted s) ∧
      ∀ m, IsToken isDelimiter m → 0x3C ∈ m → Clean (m ++ redacted s) := by
  have hmarker : 0x3C ∈ redactedMarker := by decide
  have hjoin : ∀ {m t : Bytes}, IsToken isDelimiter m → IsToken isDelimiter t →
      IsToken isDelimiter (m ++ t) := by
    intro m t hm ht
    refine ⟨by simp [hm.ne], fun c hc => ?_⟩
    rcases List.mem_append.mp hc with hc | hc
    · exact hm.plain c hc
    · exact ht.plain c hc
  induction s using token_induction_behind (d := isDelimiter) with
  | nil =>
    refine ⟨eachToken_nil, fun m hm hlt => ?_⟩
    exact (eachToken_append hm atMark_nil).mpr ⟨isSecret_of_mem hlt, eachToken_nil⟩
  | mark d s hd ih =>
    rw [redacted_cons hd]
    have hclean : Clean (d :: redacted s) := (eachToken_cons hd).mpr ih.1
    refine ⟨hclean, fun m hm hlt => ?_⟩
    exact (eachToken_append hm (atMark_cons.mpr hd)).mpr ⟨isSecret_of_mem hlt, hclean⟩
  | token t s ht hs ih ihrest =>
    rcases redacted_token ht hs with ⟨hkeep, h⟩ | ⟨-, h⟩ | ⟨-, h⟩
    · rw [h]
      rw [← isSecret_congr (takeWhile_redacted s)] at hkeep
      refine ⟨(eachToken_append ht (atMark_redacted hs)).mpr ⟨hkeep, ih.1⟩, fun m hm hlt => ?_⟩
      rw [← List.append_assoc]
      exact ih.2 _ (hjoin hm ht) (List.mem_append_left _ hlt)
    · rw [h]
      refine ⟨ih.2 _ isToken_marker hmarker, fun m hm hlt => ?_⟩
      rw [← List.append_assoc]
      exact ih.2 _ (hjoin hm isToken_marker) (List.mem_append_left _ hlt)
    · rw [h]
      refine ⟨ihrest.2 _ isToken_marker hmarker, fun m hm hlt => ?_⟩
      rw [← List.append_assoc]
      exact ihrest.2 _ (hjoin hm isToken_marker) (List.mem_append_left _ hlt)

/-- **No token of what the pass returns is a secret.** -/
theorem clean_redacted (s : Bytes) : Clean (redacted s) := (clean_redacted_behind s).1

/-! ## No header -/

theorem hasInfix_header_cons {c : UInt8} (hc : c ∉ pemHeaderPrefix) (s : Bytes) :
    hasInfix pemHeaderPrefix (c :: s) = hasInfix pemHeaderPrefix s :=
  hasInfix_append_cons (by decide) hc [] s

theorem notMem_header_of_isDelimiter (hd : isDelimiter d = true) : d ∉ pemHeaderPrefix := by
  intro hmem
  have hplain : ∀ c ∈ pemHeaderPrefix, isDelimiter c = false := forall_mem_of_all (by decide)
  rw [hplain d hmem] at hd
  cases hd

theorem hasInfix_header_append (hs : AtMark isDelimiter s) :
    hasInfix pemHeaderPrefix (t ++ s) =
      (hasInfix pemHeaderPrefix t || hasInfix pemHeaderPrefix s) := by
  cases s with
  | nil =>
    have hnil : hasInfix pemHeaderPrefix [] = false := by decide
    rw [List.append_nil, hnil, Bool.or_false]
  | cons c s =>
    have hc := notMem_header_of_isDelimiter (atMark_cons.mp hs)
    rw [hasInfix_append_cons (by decide) hc, hasInfix_header_cons hc]

theorem hasInfix_header_marker (s : Bytes) :
    hasInfix pemHeaderPrefix (redactedMarker ++ s) = hasInfix pemHeaderPrefix s := by
  have hmarker : redactedMarker = utf8 "<redacted" ++ [0x3E] := by decide
  have hword : hasInfix pemHeaderPrefix (utf8 "<redacted") = false := by decide
  rw [hmarker, List.append_assoc, List.cons_append,
    hasInfix_append_cons (by decide) (by decide), hword, Bool.false_or, List.nil_append]

theorem hasInfix_header_dropWhile (s : Bytes) :
    hasInfix pemHeaderPrefix (s.dropWhile isDelimiter) = hasInfix pemHeaderPrefix s := by
  induction s with
  | nil => rfl
  | cons c s ih =>
    by_cases hc : isDelimiter c = true
    · rw [List.dropWhile_cons_of_pos hc, ih,
        hasInfix_header_cons (notMem_header_of_isDelimiter hc)]
    · rw [List.dropWhile_cons_of_neg hc]

/-- The pass makes no header of a PEM block. -/
theorem hasInfix_header_redacted (s : Bytes)
    (h : hasInfix pemHeaderPrefix (redacted s) = true) : hasInfix pemHeaderPrefix s = true := by
  induction s using token_induction_behind (d := isDelimiter) with
  | nil => exact h
  | mark d s hd ih =>
    have hmem := notMem_header_of_isDelimiter hd
    rw [redacted_cons hd, hasInfix_header_cons hmem] at h
    rw [hasInfix_header_cons hmem]
    exact ih h
  | token t s ht hs ih ihrest =>
    rw [hasInfix_header_append hs]
    rcases redacted_token ht hs with ⟨-, hr⟩ | ⟨-, hr⟩ | ⟨-, hr⟩
    · rw [hr, hasInfix_header_append (atMark_redacted hs), Bool.or_eq_true] at h
      rcases h with h | h
      · rw [h, Bool.true_or]
      · rw [ih h, Bool.or_true]
    · rw [hr, hasInfix_header_marker] at h
      rw [ih h, Bool.or_true]
    · rw [hr, hasInfix_header_marker] at h
      rw [← hasInfix_header_dropWhile s, ihrest h, Bool.or_true]

/-! ## Between two delimiters -/

/-- A token that shows no `/` once the pass is over. -/
def Hidden (t b : Bytes) : Prop := 0x2F ∈ t → isSecret t b = true

/-- A delimiter other than `=` ends every padding. -/
theorem isPadded_stop (hc : isDelimiter c = true) (hne : c ≠ 0x3D) (w z : Bytes) :
    isPadded t (w ++ c :: z) = isPadded t (w ++ [c]) := by
  have hrun : ∀ z', isEqualsRun (w ++ c :: z') = false := by
    intro z'
    rw [isEqualsRun, Bool.and_eq_false_iff]
    right
    simp [hne]
  rw [isPadded, isPadded, List.takeWhile_append, List.takeWhile_append,
    List.takeWhile_cons_of_pos hc, List.takeWhile_cons_of_pos hc]
  split
  · rw [hrun, hrun, Bool.false_and, Bool.false_and]
  · rfl

theorem isSecret_stop (hc : isDelimiter c = true) (hne : c ≠ 0x3D) (w z : Bytes) :
    isSecret t (w ++ c :: z) = isSecret t (w ++ [c]) := by
  rw [isSecret, isSecret, isPadded_stop hc hne]

theorem dropWhile_of_isPadded (hc : isDelimiter c = true) (hne : c ≠ 0x3D) {w z : Bytes}
    (h : isPadded t (w ++ c :: z) = true) (z' : Bytes) :
    (w ++ c :: z').dropWhile isDelimiter = w.dropWhile isDelimiter ++ c :: z' := by
  rw [List.dropWhile_append]
  split
  case isFalse => rfl
  case isTrue hempty =>
    have hall : w.takeWhile isDelimiter = w := by
      have := List.takeWhile_append_dropWhile (p := isDelimiter) (l := w)
      rwa [List.isEmpty_iff.mp hempty, List.append_nil] at this
    rw [isPadded, List.takeWhile_append, if_pos (by rw [hall]), List.takeWhile_cons_of_pos hc,
      isEqualsRun] at h
    simp [hne] at h

/-- **What the pass makes of a text up to a delimiter.** -/
theorem redacted_stop (hc : isDelimiter c = true) (hne : c ≠ 0x3D) (w z : Bytes) :
    ∃ w', redacted (w ++ c :: z) = w' ++ c :: redacted z ∧ (w ≠ [] → w' ≠ []) ∧
      (∀ x ∈ w', x ∈ w ∨ x ∈ redactedMarker) ∧
      (0x2F ∉ w' ↔ EachToken isDelimiter Hidden (w ++ [c])) := by
  have hslash : 0x2F ∉ redactedMarker := by decide
  have hmarker : redactedMarker ≠ [] := by decide
  induction w using token_induction_behind (d := isDelimiter) with
  | nil =>
    refine ⟨[], redacted_cons hc z, fun h => absurd rfl h, by simp, ?_⟩
    simp [eachToken_cons hc, eachToken_nil]
  | mark d w hd ih =>
    obtain ⟨w', hr, -, hmem, hiff⟩ := ih
    have hd' : d ≠ 0x2F := by
      rintro rfl
      exact absurd hd (by decide)
    refine ⟨d :: w', ?_, fun _ => List.cons_ne_nil _ _, ?_, ?_⟩
    · rw [List.cons_append, redacted_cons hd, hr, List.cons_append]
    · intro x hx
      rcases List.mem_cons.mp hx with rfl | hx
      · exact .inl List.mem_cons_self
      · exact (hmem x hx).imp_left (List.mem_cons_of_mem _)
    · rw [List.cons_append, eachToken_cons hd, ← hiff, List.mem_cons, not_or]
      exact and_iff_right hd'.symm
  | token t w ht hw ih ihrest =>
    obtain ⟨w', hr, -, hmem, hiff⟩ := ih
    have hmark : ∀ z, AtMark isDelimiter (w ++ c :: z) := by
      intro z
      cases w with
      | nil => exact atMark_cons.mpr hc
      | cons x w => exact atMark_cons.mpr (atMark_cons.mp hw)
    rw [List.append_assoc, List.append_assoc, eachToken_append ht (hmark [])]
    rcases redacted_token ht (hmark z) with ⟨hkeep, h⟩ | ⟨hcred, h⟩ | ⟨hpad, h⟩
    · refine ⟨t ++ w', by rw [h, hr, List.append_assoc], fun _ => by simp [ht.ne], ?_, ?_⟩
      · intro x hx
        rcases List.mem_append.mp hx with hx | hx
        · exact .inl (List.mem_append_left _ hx)
        · exact (hmem x hx).imp_left (List.mem_append_right _)
      · rw [isSecret_stop hc hne] at hkeep
        rw [List.mem_append, not_or, hiff, Hidden, hkeep]
        simp
    · refine ⟨redactedMarker ++ w', by rw [h, hr, List.append_assoc], fun _ => by simp [hmarker],
        ?_, ?_⟩
      · intro x hx
        rcases List.mem_append.mp hx with hx | hx
        · exact .inr hx
        · exact (hmem x hx).imp_left (List.mem_append_right _)
      · have hsecret : isSecret t (w ++ [c]) = true := by rw [isSecret, hcred, Bool.or_true]
        rw [List.mem_append, not_or, hiff, Hidden, hsecret]
        simp [hslash]
    · obtain ⟨w', hr, -, hmem, hiff⟩ := ihrest
      rw [dropWhile_of_isPadded hc hne hpad] at h
      refine ⟨redactedMarker ++ w', by rw [h, hr, List.append_assoc], fun _ => by simp [hmarker],
        ?_, ?_⟩
      · intro x hx
        rcases List.mem_append.mp hx with hx | hx
        · exact .inr hx
        · refine (hmem x hx).imp_left fun hx => List.mem_append_right _ ?_
          exact (List.dropWhile_sublist isDelimiter).subset hx
      · have hsecret : isSecret t (w ++ [c]) = true := by
          rw [isSecret, ← isPadded_stop hc hne w z, hpad, Bool.true_or]
        rw [List.mem_append, not_or, hiff, Hidden, hsecret, ← dropWhile_of_isPadded hc hne hpad,
          eachToken_dropWhile]
        simp [hslash]

theorem token_append_stop {m y w : Bytes} (hm : IsToken isDelimiter m)
    (hc : isDelimiter c = true) (h : m ++ y = w ++ c :: q) :
    ∃ w', w = m ++ w' ∧ y = w' ++ c :: q := by
  rcases append_split h with ⟨x, hw, hy⟩ | ⟨x, hx, hmw, hcq⟩
  · exact ⟨x, hw, hy⟩
  · obtain ⟨a, x, rfl⟩ := List.exists_cons_of_ne_nil hx
    obtain ⟨rfl, -⟩ := List.cons.inj hcq
    rw [hm.plain c (hmw ▸ List.mem_append_right _ List.mem_cons_self)] at hc
    cases hc

/-- A delimiter in what the pass returns is one of the text. -/
theorem exists_of_redacted_stop (hc : isDelimiter c = true) {w' : Bytes}
    (h : redacted s = w' ++ c :: q) :
    ∃ w z, s = w ++ c :: z ∧ redacted z = q ∧ ∀ x ∈ w, x ∈ w' ∨ isBase64 x = true := by
  induction s using token_induction_behind (d := isDelimiter) generalizing w' with
  | nil => simpa [redacted, redactText, splitTokens, redactSegments] using congrArg List.length h
  | mark d s hd ih =>
    rw [redacted_cons hd] at h
    cases w' with
    | nil =>
      obtain ⟨rfl, rfl⟩ := List.cons.inj h
      exact ⟨[], s, rfl, rfl, by simp⟩
    | cons x w' =>
      obtain ⟨rfl, hrest⟩ := List.cons.inj h
      obtain ⟨w, z, rfl, hz, hmem⟩ := ih hrest
      refine ⟨d :: w, z, rfl, hz, fun x hx => ?_⟩
      rcases List.mem_cons.mp hx with rfl | hx
      · exact .inl List.mem_cons_self
      · exact (hmem x hx).imp_left (List.mem_cons_of_mem _)
  | token t s ht hs ih ihrest =>
    rcases redacted_token ht hs with ⟨-, hr⟩ | ⟨hcred, hr⟩ | ⟨hpad, hr⟩
    · obtain ⟨w'', rfl, hrest⟩ := token_append_stop ht hc (hr.symm.trans h)
      obtain ⟨w, z, rfl, hz, hmem⟩ := ih hrest
      refine ⟨t ++ w, z, (List.append_assoc _ _ _).symm, hz, fun x hx => ?_⟩
      rcases List.mem_append.mp hx with hx | hx
      · exact .inl (List.mem_append_left _ hx)
      · exact (hmem x hx).imp_left (List.mem_append_right _)
    · obtain ⟨w'', rfl, hrest⟩ := token_append_stop isToken_marker hc (hr.symm.trans h)
      obtain ⟨w, z, rfl, hz, hmem⟩ := ih hrest
      refine ⟨t ++ w, z, (List.append_assoc _ _ _).symm, hz, fun x hx => ?_⟩
      rcases List.mem_append.mp hx with hx | hx
      · exact .inr (isBase64_of_isCredential hcred x hx)
      · exact (hmem x hx).imp_left (List.mem_append_right _)
    · obtain ⟨w'', rfl, hrest⟩ := token_append_stop isToken_marker hc (hr.symm.trans h)
      obtain ⟨w, z, hz', hz, hmem⟩ := ihrest hrest
      have hs' : s = s.takeWhile isDelimiter ++ (w ++ c :: z) := by
        rw [← hz', List.takeWhile_append_dropWhile]
      obtain ⟨hbase, hbase'⟩ := isBase64_of_isPadded hpad
      refine ⟨t ++ (s.takeWhile isDelimiter ++ w), z, by rw [List.append_assoc, List.append_assoc,
        ← hs'], hz, fun x hx => ?_⟩
      simp only [List.mem_append] at hx
      rcases hx with hx | hx | hx
      · exact .inr (hbase x hx)
      · exact .inr (hbase' x hx)
      · exact (hmem x hx).imp_left (List.mem_append_right _)

end HaAddons.Runner
