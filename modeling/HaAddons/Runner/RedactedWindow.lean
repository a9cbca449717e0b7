import HaAddons.Runner.Output

/-!
# A page never shows more than the whole log does

The lines before a page only move the latch, by a cheaper rule than the lines of the page do. The
latch of a page is on wherever that of a pass over the whole log is.

* `window_refines_fullPass` — a line of a page is the marker or the line of the full pass, and the
  marker where the full pass masks the line because of a PEM block.
-/

namespace HaAddons.Runner

/-- What one redactor over the whole log serves. -/
def fullPass (log : List OutputLine) : List Bytes := (serve .start log).map Prod.fst

/-- The full pass serves the line as the marker because of a PEM block. -/
def pemMasked (log : List OutputLine) (i : ℕ) : Bool :=
  (log[i]?).any fun r => (afterLines .start (log.take i)).masks r.text

/-! ## Single lines of a pass -/

theorem serve_getElem? (rd : Redactor) (log : List OutputLine) (i : ℕ) :
    (serve rd log)[i]? = (log[i]?).map fun r => ((afterLines rd (log.take i)).line r.text).2 := by
  induction log generalizing rd i with
  | nil => rfl
  | cons r log ih =>
    cases i with
    | zero => rfl
    | succ i =>
      rw [serve, List.getElem?_cons_succ, List.getElem?_cons_succ, ih, List.take_succ_cons]
      rfl

theorem fullPass_getElem? (log : List OutputLine) (i : ℕ) :
    (fullPass log)[i]? =
      (log[i]?).map fun r => ((afterLines .start (log.take i)).line r.text).2.1 := by
  rw [fullPass, List.getElem?_map, serve_getElem?, Option.map_map]
  rfl

/-- The state in which a page starting at `k` reaches line `k + q`. -/
def pageState (log : List OutputLine) (k q : ℕ) : Redactor :=
  afterLines (afterSkipped .start (log.take k)) ((log.drop k).take q)

/-- A line is served only past the guard and inside the window. -/
theorem window_of_served {log : List OutputLine} {page pageSize : Int64} {q : ℕ} {served : Bytes}
    (h : (readOutput (logFile log) page pageSize).lines[q]? = some served) :
    ¬ clampPage page > maxInt / clampPageSize pageSize ∧
      q < (clampPageSize pageSize).toInt.toNat := by
  by_cases hguard : clampPage page > maxInt / clampPageSize pageSize
  · unfold readOutput at h
    dsimp only at h
    rw [if_pos hguard] at h
    cases h
  refine ⟨hguard, ?_⟩
  rw [readOutput_logFile log hguard, List.getElem?_map, pageServed, serve_getElem?,
    pageRecords, List.getElem?_take] at h
  by_contra hq
  rw [if_neg hq] at h
  cases h

/-- A line of a page is a line of the log, redacted in the state that the page reaches it in. -/
theorem exists_of_served {log : List OutputLine} {page pageSize : Int64} {q : ℕ} {served : Bytes}
    (h : (readOutput (logFile log) page pageSize).lines[q]? = some served) :
    ∃ r, log[pageStart page pageSize + q]? = some r ∧
      ((pageState log (pageStart page pageSize) q).line r.text).2.1 = served := by
  obtain ⟨hguard, hq⟩ := window_of_served h
  rw [readOutput_logFile log hguard, List.getElem?_map, pageServed, serve_getElem?,
    Option.map_map, pageRecords, List.getElem?_take, if_pos hq, List.getElem?_drop,
    List.take_take, Nat.min_eq_left hq.le] at h
  exact Option.map_eq_some_iff.mp h

/-! ## The two latches -/

theorem covers_afterSkipped {rd full : Redactor} (h : rd.Covers full) (log : List OutputLine) :
    (afterSkipped rd log).Covers (afterLines full log) := by
  induction log generalizing rd full with
  | nil => exact h
  | cons r log ih => exact ih (h.observe r.text)

theorem covers_afterLines {rd full : Redactor} (h : rd.Covers full) (log : List OutputLine) :
    (afterLines rd log).Covers (afterLines full log) := by
  induction log generalizing rd full with
  | nil => exact h
  | cons r log ih => exact ih (h.line r.text)

theorem covers_pageState (log : List OutputLine) (k q : ℕ) :
    (pageState log k q).Covers (afterLines .start (log.take (k + q))) := by
  have hfull : afterLines .start (log.take (k + q)) =
      afterLines (afterLines .start (log.take k)) ((log.drop k).take q) := by
    rw [List.take_add, afterLines, List.foldl_append]
    rfl
  rw [hfull]
  exact covers_afterLines (covers_afterSkipped (.refl _) _) _

/-- **A page never shows more than the whole log does.** -/
theorem window_refines_fullPass (log : List OutputLine) (page pageSize : Int64) (q : ℕ)
    (served : Bytes)
    (h : (readOutput (logFile log) page pageSize).lines[q]? = some served) :
    (served = redactedMarker ∨ (fullPass log)[pageStart page pageSize + q]? = some served) ∧
      (pemMasked log (pageStart page pageSize + q) = true → served = redactedMarker) := by
  obtain ⟨r, hr, hserved⟩ := exists_of_served h
  have hcovers := covers_pageState log (pageStart page pageSize) q
  rw [Redactor.line_spec] at hserved
  rw [fullPass_getElem?, hr, Option.map_some, Redactor.line_spec, pemMasked, hr]
  by_cases hmask : (pageState log (pageStart page pageSize) q).masks r.text = true
  · rw [if_pos hmask] at hserved
    exact ⟨.inl hserved.symm, fun _ => hserved.symm⟩
  · have hfull := mt hcovers.masks hmask
    rw [if_neg hmask] at hserved
    rw [if_neg hfull, hserved]
    exact ⟨.inr rfl, fun hm => absurd hm hfull⟩

/-- A record at some instant. -/
def written (stream : Stream) (line : String) : OutputLine :=
  ⟨⟨utf8 "2026-01-01T00:00:00Z", by decide +kernel⟩, stream, utf8 line⟩

/-- The head of a key. -/
def keyHead : List OutputLine := [written .stdout "-----BEGIN KEY-----", written .stdout "QUJD"]

/-- A page that starts inside a key. -/
theorem window_refines_fullPass_inside :
    ∃ served, (readOutput (logFile keyHead) 2 1).lines[0]? = some served ∧
      served = redactedMarker := by
  have hserved : (readOutput (logFile keyHead) 2 1).lines[0]? = some (utf8 "<redacted>") := by
    decide +kernel
  have hmasked : pemMasked keyHead (pageStart 2 1 + 0) = true := by decide +kernel
  exact ⟨_, hserved, (window_refines_fullPass keyHead 2 1 0 _ hserved).2 hmasked⟩

end HaAddons.Runner
