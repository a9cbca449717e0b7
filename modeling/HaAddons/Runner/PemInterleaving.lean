import HaAddons.Runner.RedactedWindow

/-!
# PEM blocks between the lines of the other stream

The two streams share a log and one latch. A line of the other stream that does not look like a line
of a PEM block drops the latch when it is shown, and the rest of the key is served as it is.

* `Tracks.pageState` — the latch is on exactly while a block is open.
* `body_masked_iff` — when a body line is served as the marker.
* `body_unmasked` — a key that is served in part.
-/

namespace HaAddons.Runner

/-! ## Blocks -/

/-- A stream prints a PEM block from line `h` to line `f`; the other one prints what it likes. -/
structure PemBlock (log : List OutputLine) (stream : Stream) (h f : ℕ) : Prop where
  lt : h < f
  header : ∃ r, log[h]? = some r ∧ r.stream = stream ∧ hasInfix pemHeaderPrefix r.line = true
  footer : ∃ r, log[f]? = some r ∧ r.stream = stream ∧ hasInfix pemFooterPrefix r.line = true
  body : ∀ i r, h < i → i < f → log[i]? = some r → r.stream = stream → pemBodyRe r.line = true
  few : ((log.drop (h + 1)).take (f - h - 1)).countP (·.stream = stream) ≤ maxPEMBodyLines

/-- Every body line of the block that is on the page is served as the marker. -/
def BodyMasked (log : List OutputLine) (stream : Stream) (h f : ℕ) (page pageSize : Int64) : Prop :=
  ∀ q r served, h < pageStart page pageSize + q → pageStart page pageSize + q < f →
    log[pageStart page pageSize + q]? = some r → r.stream = stream →
    (readOutput (logFile log) page pageSize).lines[q]? = some served → served = redactedMarker

/-- The block that line `k` opened has not been broken off before line `i`: no footer came, and every
line from `lo` on looks like a part of it. -/
structure OpenSince (log : List OutputLine) (lo k i : ℕ) : Prop where
  lt : k < i
  header : ∃ r, log[k]? = some r ∧ hasInfix pemHeaderPrefix r.text = true
  inside : ∀ j r, k < j → j < i → log[j]? = some r →
    hasInfix pemHeaderPrefix r.text = false ∧ hasInfix pemFooterPrefix r.text = false ∧
      (lo ≤ j → isPEMBodyLine r.text = true)

/-- The condition on a body line at `i`, on a page from `lo` on. -/
def KeptMasked (log : List OutputLine) (lo i : ℕ) (line : Bytes) : Prop :=
  (redactTokens line).1 = redactedMarker ∨ ∃ k, OpenSince log lo k i ∧ i ≤ k + maxPEMBodyLines

/-! ## The latch and the open block -/

theorem openSince_succ {log : List OutputLine} {lo k i : ℕ} {r : OutputLine}
    (hr : log[i]? = some r) :
    OpenSince log lo k (i + 1) ↔ k = i ∧ hasInfix pemHeaderPrefix r.text = true ∨
      OpenSince log lo k i ∧ hasInfix pemHeaderPrefix r.text = false ∧
        hasInfix pemFooterPrefix r.text = false ∧ (lo ≤ i → isPEMBodyLine r.text = true) := by
  refine ⟨fun h => ?_, fun h => ?_⟩
  · rcases Nat.lt_succ_iff_lt_or_eq.mp h.lt with hlt | rfl
    · refine .inr ⟨⟨hlt, h.header, fun j r hk hj => h.inside j r hk (by omega)⟩, ?_⟩
      exact h.inside i r hlt (Nat.lt_succ_self i) hr
    · obtain ⟨r', hr', hheader⟩ := h.header
      obtain rfl := Option.some.inj (hr.symm.trans hr')
      exact .inl ⟨rfl, hheader⟩
  · rcases h with ⟨rfl, hheader⟩ | ⟨hopen, hlast⟩
    · exact ⟨Nat.lt_succ_self k, ⟨r, hr, hheader⟩, fun j _ hk hj => absurd hj (by omega)⟩
    · refine ⟨Nat.lt_succ_of_lt hopen.lt, hopen.header, fun j r' hk hj hr' => ?_⟩
      rcases Nat.lt_succ_iff_lt_or_eq.mp hj with hlt | rfl
      · exact hopen.inside j r' hk hlt hr'
      · obtain rfl := Option.some.inj (hr.symm.trans hr')
        exact hlast

/-- The latch is on exactly while a block is open, and counts the lines since its header. -/
structure Tracks (log : List OutputLine) (lo i : ℕ) (rd : Redactor) : Prop where
  sound : rd.inPEM = true →
    ∃ k, OpenSince log lo k i ∧ rd.pemLines + k + 1 = i ∧ rd.pemLines ≤ maxPEMBodyLines
  complete : ∀ k, OpenSince log lo k i → i ≤ k + maxPEMBodyLines + 1 →
    rd.inPEM = true ∧ rd.pemLines + k + 1 = i

theorem tracks_start (log : List OutputLine) (lo : ℕ) : Tracks log lo 0 .start where
  sound h := absurd h (by decide)
  complete k h := absurd h.lt (Nat.not_lt_zero k)

/-- One line, shown or skipped; `keep` is what the line has to look like for the block to go on. -/
theorem Tracks.step {log : List OutputLine} {lo i : ℕ} {rd : Redactor} (h : Tracks log lo i rd)
    {r : OutputLine} (hr : log[i]? = some r) {keep : Bool}
    (hkeep : keep = true ↔ lo ≤ i → isPEMBodyLine r.text = true) :
    Tracks log lo (i + 1) (if hasInfix pemHeaderPrefix r.text then ⟨true, 0⟩
      else if rd.inPEM then
        ⟨!hasInfix pemFooterPrefix r.text && keep && rd.pemLines + 1 ≤ maxPEMBodyLines,
          rd.pemLines + 1⟩
      else rd) := by
  split_ifs with hheader hin
  · refine ⟨fun _ => ⟨i, (openSince_succ hr).mpr (.inl ⟨rfl, hheader⟩), by simp, by simp⟩, ?_⟩
    intro k hk _
    rcases (openSince_succ hr).mp hk with ⟨rfl, -⟩ | ⟨-, hno, -⟩
    · exact ⟨rfl, by simp⟩
    · rw [hheader] at hno
      cases hno
  · simp only [Bool.not_eq_true] at hheader
    refine ⟨fun hon => ?_, fun k hk hnear => ?_⟩
    · simp only [Bool.and_eq_true, Bool.not_eq_true', decide_eq_true_eq] at hon
      obtain ⟨⟨hfooter, hbody⟩, hfew⟩ := hon
      obtain ⟨k, hopen, hcount, -⟩ := h.sound hin
      have hnext : OpenSince log lo k (i + 1) :=
        (openSince_succ hr).mpr (.inr ⟨hopen, hheader, hfooter, hkeep.mp hbody⟩)
      exact ⟨k, hnext, by dsimp only; omega, hfew⟩
    · rcases (openSince_succ hr).mp hk with ⟨-, hyes⟩ | ⟨hopen, -, hfooter, hbody⟩
      · rw [hheader] at hyes
        cases hyes
      · obtain ⟨-, hcount⟩ := h.complete k hopen (by omega)
        have hfew : rd.pemLines + 1 ≤ maxPEMBodyLines := by omega
        refine ⟨?_, by dsimp only; omega⟩
        simp only [hfooter, hkeep.mpr hbody, hfew, Bool.not_false, decide_true, Bool.and_self]
  · simp only [Bool.not_eq_true] at hheader
    refine ⟨fun hon => absurd hon hin, fun k hk hnear => ?_⟩
    rcases (openSince_succ hr).mp hk with ⟨-, hyes⟩ | ⟨hopen, -⟩
    · rw [hheader] at hyes
      cases hyes
    · exact absurd (h.complete k hopen (by omega)).1 hin

theorem Tracks.observe {log : List OutputLine} {lo i : ℕ} {rd : Redactor} (h : Tracks log lo i rd)
    {r : OutputLine} (hr : log[i]? = some r) (hi : i < lo) :
    Tracks log lo (i + 1) (rd.observe r.text) := by
  have hstep := @Tracks.step log lo i rd h r hr true (by simp [Nat.not_le.mpr hi])
  simpa only [Redactor.observe_state, Bool.and_true] using hstep

theorem Tracks.line {log : List OutputLine} {lo i : ℕ} {rd : Redactor} (h : Tracks log lo i rd)
    {r : OutputLine} (hr : log[i]? = some r) (hi : lo ≤ i) :
    Tracks log lo (i + 1) (rd.line r.text).1 := by
  rw [Redactor.line_state]
  exact h.step hr (by simp [hi])

theorem tracks_afterSkipped (log : List OutputLine) {lo i : ℕ} (hi : i ≤ lo)
    (hlen : i ≤ log.length) : Tracks log lo i (afterSkipped .start (log.take i)) := by
  induction i with
  | zero => exact tracks_start log lo
  | succ i ih =>
    have hr : log[i]? = some log[i] := List.getElem?_eq_getElem hlen
    rw [List.take_succ_eq_append_getElem hlen, afterSkipped, List.foldl_append]
    exact (ih (by omega) (by omega)).observe hr hi

/-- The latch at a line of the page. -/
theorem Tracks.pageState (log : List OutputLine) (lo q : ℕ) (hlen : lo + q ≤ log.length) :
    Tracks log lo (lo + q) (pageState log lo q) := by
  induction q with
  | zero => exact tracks_afterSkipped log (Nat.le_refl lo) hlen
  | succ q ih =>
    have hlt : q < (log.drop lo).length := by
      rw [List.length_drop]
      omega
    have hr : log[lo + q]? = some (log.drop lo)[q] := by
      rw [← List.getElem?_drop]
      exact List.getElem?_eq_getElem hlt
    have hstep := (ih (by omega)).line hr (Nat.le_add_right lo q)
    rw [Runner.pageState, List.take_succ_eq_append_getElem hlt, afterLines, List.foldl_append]
    exact hstep

/-! ## Body lines -/

theorem text_of_pemBodyRe {r : OutputLine} (h : pemBodyRe r.line = true) : r.text = r.line :=
  toValid_ascii (ascii_of_pemBodyRe h)

/-- A body line is masked exactly while its block is open. -/
theorem masks_iff {log : List OutputLine} {lo i : ℕ} {rd : Redactor} (h : Tracks log lo i rd)
    {s : Bytes} (hs : pemBodyRe s = true) :
    rd.masks s = true ↔ ∃ k, OpenSince log lo k i ∧ i ≤ k + maxPEMBodyLines := by
  obtain ⟨hheader, hfooter⟩ := hasInfix_of_pemBodyRe hs
  have hmask : rd.masks s = (rd.inPEM && decide (rd.pemLines + 1 ≤ maxPEMBodyLines)) := by
    rw [Redactor.masks, hheader, hfooter, isPEMBodyLine_of_pemBodyRe hs, Bool.false_or,
      Bool.false_or, Bool.true_and]
  rw [hmask, Bool.and_eq_true, decide_eq_true_eq]
  refine ⟨fun ⟨hin, hfew⟩ => ?_, fun ⟨k, hopen, hnear⟩ => ?_⟩
  · obtain ⟨k, hopen, hcount, -⟩ := h.sound hin
    exact ⟨k, hopen, by omega⟩
  · obtain ⟨hin, hcount⟩ := h.complete k hopen (by omega)
    exact ⟨hin, by omega⟩

/-- One body line on a page. -/
theorem served_body_iff {log : List OutputLine} {page pageSize : Int64} {q : ℕ} {r : OutputLine}
    {served : Bytes} (hr : log[pageStart page pageSize + q]? = some r)
    (hbody : pemBodyRe r.line = true)
    (hserved : (readOutput (logFile log) page pageSize).lines[q]? = some served) :
    served = redactedMarker ↔
      KeptMasked log (pageStart page pageSize) (pageStart page pageSize + q) r.line := by
  obtain ⟨r', hr', hline⟩ := exists_of_served hserved
  obtain rfl := Option.some.inj (hr.symm.trans hr')
  have hlen : pageStart page pageSize + q ≤ log.length :=
    (List.getElem?_eq_some_iff.mp hr).1.le
  have hmask := masks_iff (Tracks.pageState log (pageStart page pageSize) q hlen) hbody
  rw [text_of_pemBodyRe hbody, Redactor.line_spec] at hline
  rw [KeptMasked, ← hmask, ← hline]
  split_ifs with h <;> simp [h]

theorem exists_served {log : List OutputLine} {page pageSize : Int64}
    (hguard : ¬ clampPage page > maxInt / clampPageSize pageSize) {q : ℕ}
    (hq : q < (clampPageSize pageSize).toInt.toNat) {r : OutputLine}
    (hr : log[pageStart page pageSize + q]? = some r) :
    ∃ served, (readOutput (logFile log) page pageSize).lines[q]? = some served := by
  have hrecord : (pageRecords log page pageSize)[q]? = some r := by
    rw [pageRecords, List.getElem?_take, if_pos hq, List.getElem?_drop, hr]
  rw [readOutput_logFile log hguard, List.getElem?_map, pageServed, serve_getElem?, hrecord]
  exact ⟨_, rfl⟩

/-- **When a key stays masked.** The body lines of a block on a page are all served as the marker
exactly when every one of them is masked for its own shape or follows its header without a line in
between, on the page or not, that breaks the block off. -/
theorem body_masked_iff {log : List OutputLine} {stream : Stream} {h f : ℕ}
    (hblock : PemBlock log stream h f) (page pageSize : Int64) :
    BodyMasked log stream h f page pageSize ↔
      (¬ clampPage page > maxInt / clampPageSize pageSize →
        ∀ q < (clampPageSize pageSize).toInt.toNat, ∀ r, h < pageStart page pageSize + q →
          pageStart page pageSize + q < f → log[pageStart page pageSize + q]? = some r →
          r.stream = stream →
          KeptMasked log (pageStart page pageSize) (pageStart page pageSize + q) r.line) := by
  refine ⟨fun hmasked hguard q hq r hlt hle hr hstream => ?_,
    fun hkept q r served hlt hle hr hstream hserved => ?_⟩
  · have hbody := hblock.body _ r hlt hle hr hstream
    obtain ⟨served, hserved⟩ := exists_served hguard hq hr
    exact (served_body_iff hr hbody hserved).mp (hmasked q r served hlt hle hr hstream hserved)
  · have hbody := hblock.body _ r hlt hle hr hstream
    obtain ⟨hguard, hq⟩ := window_of_served hserved
    exact (served_body_iff hr hbody hserved).mpr (hkept hguard q hq r hlt hle hr hstream)

/-- A warning on `stderr` while `stdout` prints a key. -/
def warnedKey : List OutputLine :=
  [written .stdout "-----BEGIN KEY-----", written .stdout "QUJD", written .stderr "Warning: x y",
    written .stdout "REVG", written .stdout "-----END KEY-----"]

theorem pemBlock_warnedKey : PemBlock warnedKey .stdout 0 4 where
  lt := by decide
  header := ⟨_, rfl, rfl, by decide⟩
  footer := ⟨_, rfl, rfl, by decide⟩
  body i r hlo hhi hr hs := by
    obtain rfl | rfl | rfl : i = 1 ∨ i = 2 ∨ i = 3 := by omega
    · obtain rfl := Option.some.inj hr
      decide
    · obtain rfl := Option.some.inj hr
      cases hs
    · obtain rfl := Option.some.inj hr
      decide
  few := by decide

/-- **A key that is served in part.** -/
theorem body_unmasked : ¬ ∀ log stream h f page pageSize, PemBlock log stream h f →
    BodyMasked log stream h f page pageSize := by
  intro hall
  have hserved : (readOutput (logFile warnedKey) 1 100).lines[3]? = some (utf8 "REVG") := by
    decide +kernel
  have hstart : pageStart 1 100 + 3 = 3 := by decide
  have hmarker := hall _ _ _ _ 1 100 pemBlock_warnedKey 3 (written .stdout "REVG") _
    (by rw [hstart]; decide) (by rw [hstart]; decide) (by rw [hstart]; rfl) rfl hserved
  exact absurd hmarker (by decide)

/-- On a page that starts after the warning, the rest of the key is masked. -/
theorem body_masked_iff_after : BodyMasked warnedKey .stdout 0 4 2 3 := by
  refine (body_masked_iff pemBlock_warnedKey 2 3).mpr fun _ q hq r hlo hhi hr hs => ?_
  have hstart : pageStart 2 3 = 3 := by decide
  rw [hstart] at hhi ⊢
  obtain rfl : q = 0 := by omega
  refine .inr ⟨0, ⟨by decide, ⟨_, rfl, by decide⟩, fun j r hj hlt hr => ?_⟩, by decide⟩
  obtain rfl | rfl : j = 1 ∨ j = 2 := by omega
  · obtain rfl := Option.some.inj hr
    exact ⟨by decide, by decide, fun h => absurd h (by decide)⟩
  · obtain rfl := Option.some.inj hr
    exact ⟨by decide, by decide, fun h => absurd h (by decide)⟩

end HaAddons.Runner
