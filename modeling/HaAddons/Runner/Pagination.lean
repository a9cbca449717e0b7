import HaAddons.Runner.Output

/-!
# Pages partition the log

* `flatMap_window` — consecutive windows of one size put the list together again.
* `pagination` — so do the pages of a log; no page repeats or misses a record, and it makes no
  difference which of the two readers the file is read with.
-/

namespace HaAddons.Runner

/-- A log in a file; sizes of files are signed numbers of 64 bits. -/
structure Log where
  records : List OutputLine
  fits : (logFile records).length < 2 ^ 63

/-! ## Windows of one size -/

theorem flatMap_window {α : Type*} (l : List α) (s n : ℕ) :
    ((List.range n).flatMap fun k => (l.drop (k * s)).take s) = l.take (n * s) := by
  induction n with
  | zero => simp
  | succ n ih =>
    rw [List.range_succ, List.flatMap_append, ih, List.flatMap_singleton, Nat.succ_mul,
      List.take_add]

/-! ## Pages past the guard, and pages before it -/

theorem two_le_length_encode (r : OutputLine) : 2 ≤ r.encode.length := by
  have hkey : (utf8 "\x7b\"ts\":\"").length = 7 := by decide
  simp only [OutputLine.encode, OutputLine.marshal, List.length_append, hkey]
  omega

theorem length_le_logFile (log : List OutputLine) : 2 * log.length ≤ (logFile log).length := by
  rw [logFile_eq]
  induction log with
  | nil => simp
  | cons r log ih =>
    have := two_le_length_encode r
    rw [List.flatMap_cons, List.length_append, List.length_cons]
    omega

/-- What the guard holds back is past the end. -/
theorem length_le_pageStart (log : Log) {page pageSize : Int64}
    (h : clampPage page > maxInt / clampPageSize pageSize) :
    log.records.length ≤ pageStart page pageSize := by
  obtain ⟨hpos, hle⟩ := clampPageSize_bounds pageSize
  have hover := (guard_iff hpos).mp h
  have hstart := pageStart_eq page pageSize
  rw [Int.sub_mul, Int.one_mul] at hstart
  have hlen := length_le_logFile log.records
  have hfits := log.fits
  omega

theorem pageRecords_eq_nil {log : List OutputLine} {page pageSize : Int64}
    (h : log.length ≤ pageStart page pageSize) : pageRecords log page pageSize = [] := by
  rw [pageRecords, List.drop_eq_nil_of_le h, List.take_nil]

/-- A page serves its records, wherever it is. -/
theorem lines_eq (log : Log) (page pageSize : Int64) :
    (readOutput (logFile log.records) page pageSize).lines =
      (pageServed log.records page pageSize).map Prod.fst := by
  by_cases h : clampPage page > maxInt / clampPageSize pageSize
  · rw [pageServed, pageRecords_eq_nil (length_le_pageStart log h)]
    unfold readOutput
    dsimp only
    rw [if_pos h]
    rfl
  · rw [readOutput_logFile _ h]

/-- The pages that are asked for by their numbers from 1 on. -/
theorem pageStart_ofNat {k : ℕ} (h : k + 1 < 2 ^ 63) (pageSize : Int64) :
    pageStart (Int64.ofNat (k + 1)) pageSize = k * (clampPageSize pageSize).toInt.toNat := by
  have hk : (Int64.ofNat (k + 1)).toInt = k + 1 := by
    rw [Int64.toInt_ofNat_of_lt h]
    rfl
  have hclamp : clampPage (Int64.ofNat (k + 1)) = Int64.ofNat (k + 1) := by
    refine if_neg fun hlt => ?_
    have := Int64.lt_iff_toInt_lt.mp hlt
    rw [hk] at this
    have hone : (1 : Int64).toInt = 1 := rfl
    omega
  rw [pageStart, hclamp, hk, Int.add_sub_cancel, Int.toNat_natCast]

/-! ## The partition -/

/-- What the pages of a log promise to whoever walks through them. -/
structure Partitioned (log : Log) (pageSize : Int64) : Prop where
  /-- The pages hold every record once and in order. -/
  windows : ∀ n < 2 ^ 63, log.records.length ≤ n * (clampPageSize pageSize).toInt.toNat →
    ((List.range n).flatMap fun k => pageRecords log.records (Int64.ofNat (k + 1)) pageSize) =
      log.records
  /-- A page has one line for each of its records, made from it. -/
  served : ∀ page, (readOutput (logFile log.records) page pageSize).lines =
    (serve (afterSkipped .start (log.records.take (pageStart page pageSize)))
      (pageRecords log.records page pageSize)).map Prod.fst
  past : ∀ page, log.records.length ≤ pageStart page pageSize →
    (readOutput (logFile log.records) page pageSize).lines = []
  total : ∀ page, ¬ clampPage page > maxInt / clampPageSize pageSize →
    (readOutput (logFile log.records) page pageSize).totalLines = log.records.length
  /-- The guard holds back the pages whose end does not fit into 64 bits, and only these. -/
  guard : ∀ page, clampPage page > maxInt / clampPageSize pageSize ↔
    2 ^ 63 - 1 < (clampPage page).toInt * (clampPageSize pageSize).toInt
  offsets : ∀ page, ¬ clampPage page > maxInt / clampPageSize pageSize →
    ((clampPage page - 1) * clampPageSize pageSize).toInt =
        ((clampPage page).toInt - 1) * (clampPageSize pageSize).toInt ∧
      (clampPage page * clampPageSize pageSize).toInt =
        (clampPage page).toInt * (clampPageSize pageSize).toInt
  /-- Where the scanner gets through the file, it feeds the collector what the reader does. -/
  passes : ∀ file, file <+: logFile log.records →
    (∀ line ∈ readStrings file, tooLong line = false) →
    ∃ raws : List Bytes, ∀ c, collectScanner c (readStrings file) = (raws.foldl .add c, false) ∧
      collectReader c (readStrings file) = raws.foldl .add c
  /-- Where it does not, the page is the one that the reader alone makes. -/
  fallback : ∀ file, file <+: logFile log.records → ∀ lo hi,
    (let r := collectScanner (.start lo hi) (readStrings file)
      if r.2 then collectReader r.1.reset (readStrings file) else r.1) =
      collectReader (.start lo hi) (readStrings file)

/-- **Pages partition the log.** -/
theorem pagination (log : Log) (pageSize : Int64) : Partitioned log pageSize where
  windows n hn hlen := by
    have hpages : ∀ k ∈ List.range n, pageRecords log.records (Int64.ofNat (k + 1)) pageSize =
        (log.records.drop (k * (clampPageSize pageSize).toInt.toNat)).take
          (clampPageSize pageSize).toInt.toNat := by
      intro k hk
      have hlt := List.mem_range.mp hk
      rw [pageRecords, pageStart_ofNat (by omega)]
    rw [List.flatMap_congr hpages, flatMap_window, List.take_of_length_le hlen]
  served page := lines_eq log page pageSize
  past page h := by
    rw [lines_eq, pageServed, pageRecords_eq_nil h]
    rfl
  total page h := by rw [readOutput_logFile _ h]
  guard page := guard_iff (clampPageSize_bounds pageSize).1
  offsets page h := by
    obtain ⟨hlo, hhi⟩ := window_offsets h
    have hpos := (clampPageSize_bounds pageSize).1
    rw [hlo, hhi, pageStart_eq, Int.toNat_of_nonneg (by omega)]
    refine ⟨rfl, ?_⟩
    rw [Int.sub_mul, Int.one_mul, Int.sub_add_cancel]
  passes file hfile hshort := by
    refine ⟨(readStrings file).map scanToken, fun c => ⟨?_, ?_⟩⟩
    · exact collectScanner_eq (List.any_eq_false.mpr fun l hl => by simp [hshort l hl]) c
    · rw [collectReader_eq, token_eq_trimRight hfile]
  fallback file hfile lo hi := by
    rw [fallback_eq (token_eq_trimRight hfile), collectReader_eq, token_eq_trimRight hfile]

end HaAddons.Runner
