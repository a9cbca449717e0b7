import HaAddons.Runner.Redact
import Mathlib.Algebra.Group.Nat.Defs
import Mathlib.Algebra.Group.Int.Defs
import Mathlib.Algebra.GroupWithZero.Nat

/-!
# Captured output and its pages

The `output.log` of a run: one JSON record a line, written as the lines are captured, and read back
page by page, redacted.

* `unmarshal_encode` — a record that was written is read back, with its invalid bytes replaced.
* `readOutput_eq` — what a page consists of, in terms of the records.
-/

namespace HaAddons.Runner

/-! ## The log -/

/-- An instant as `Format(time.RFC3339)` writes it in UTC. -/
structure Timestamp where
  text : Bytes
  plain : ∀ c ∈ text, c ∈ utf8 "0123456789-:TZ"

inductive Stream where
  | stdout
  | stderr
  deriving DecidableEq

def Stream.name : Stream → Bytes
  | stdout => utf8 "stdout"
  | stderr => utf8 "stderr"

structure OutputLine where
  ts : Timestamp
  stream : Stream
  line : Bytes

/-- `json.Marshal` of a record. -/
def OutputLine.marshal (r : OutputLine) : Bytes :=
  utf8 "\x7b\"ts\":\"" ++ (escape r.ts.text ++ 0x22 :: (utf8 ",\"stream\":\"" ++
    (escape r.stream.name ++ 0x22 :: (utf8 ",\"line\":\"" ++ (escape r.line ++ 0x22 :: utf8 "\x7d")))))

/-- What `json.Encoder.Encode` appends to the file for a record. -/
def OutputLine.encode (r : OutputLine) : Bytes := r.marshal ++ [0x0A]

/-- `WriteLine`, on the content of the file. -/
def writeLine (file : Bytes) (r : OutputLine) : Bytes := file ++ r.encode

/-- The file after a log was written to it. -/
def logFile (log : List OutputLine) : Bytes := log.foldl writeLine []

/-- One member of a record. -/
def member (key raw : Bytes) : Option (Bytes × Bytes) :=
  (raw.dropPrefix? key).bind fun s => scan (s.length + 1) s

/-- The `line` of `json.Unmarshal`, for records of the form they are written in; everything that is
cut off within such a record is an error. -/
def unmarshal (raw : Bytes) : Option Bytes :=
  (member (utf8 "\x7b\"ts\":\"") raw).bind fun ts =>
    (member (utf8 ",\"stream\":\"") ts.2).bind fun stream =>
      (member (utf8 ",\"line\":\"") stream.2).bind fun line =>
        if line.2 = utf8 "\x7d" then some line.1 else none

/-! ## Pages -/

def defaultOutputPageSize : Int64 := 100
def maxOutputPageSize : Int64 := 1000
def maxScanLineBytes : ℕ := 8 * 1024 * 1024

/-- `math.MaxInt` -/
def maxInt : Int64 := 9223372036854775807

structure OutputPage where
  lines : List Bytes
  page : Int64
  pageSize : Int64
  totalLines : ℕ
  redactions : ℕ
  deriving DecidableEq

structure WindowCollector where
  lo : Int64
  hi : Int64
  lines : List Bytes
  total : ℕ
  redactions : ℕ
  red : Redactor

namespace WindowCollector

def start (lo hi : Int64) : WindowCollector := ⟨lo, hi, [], 0, 0, .start⟩

/-- Take in one physical line. -/
def add (c : WindowCollector) (raw : Bytes) : WindowCollector :=
  let i : ℤ := c.total
  let c := { c with total := c.total + 1 }
  if i < c.lo.toInt ∨ i ≥ c.hi.toInt then { c with red := c.red.observe raw }
  else
    let text := (unmarshal raw).getD raw
    let (red, redacted, n) := c.red.line text
    { c with red := red, redactions := c.redactions + n, lines := c.lines ++ [redacted] }

def reset (c : WindowCollector) : WindowCollector :=
  { c with lines := [], total := 0, redactions := 0, red := .start }

end WindowCollector

/-- The results of calling `ReadString('\n')` until the end of the file. -/
def readStrings : Bytes → List Bytes
  | [] => []
  | b :: s =>
    if b = 0x0A then [b] :: readStrings s
    else
      match readStrings s with
      | [] => [[b]]
      | t :: ts => (b :: t) :: ts

/-- The token of `bufio.ScanLines` for a line: without its newline, and without a carriage return
before that. -/
def scanToken (line : Bytes) : Bytes :=
  let drop (c : UInt8) (s : Bytes) : Bytes := if s.getLast? = some c then s.dropLast else s
  drop 0x0D (drop 0x0A line)

/-- `strings.TrimRight(s, "\r\n")` -/
def trimRight (line : Bytes) : Bytes := line.rdropWhile fun b => b = 0x0D || b = 0x0A

/-- The buffer is full before the line's newline is in it. -/
def tooLong (line : Bytes) : Bool := (line.takeWhile (· ≠ 0x0A)).length ≥ maxScanLineBytes

/-- The scanner's pass over the lines; the flag is `bufio.ErrTooLong`. -/
def collectScanner (c : WindowCollector) : List Bytes → WindowCollector × Bool
  | [] => (c, false)
  | line :: rest => if tooLong line then (c, true) else collectScanner (c.add (scanToken line)) rest

/-- The reader's pass over the lines. -/
def collectReader (c : WindowCollector) : List Bytes → WindowCollector
  | [] => c
  | line :: rest => collectReader (c.add (trimRight line)) rest

def clampPage (page : Int64) : Int64 := if page < 1 then 1 else page

def clampPageSize (pageSize : Int64) : Int64 :=
  let pageSize := if pageSize ≤ 0 then defaultOutputPageSize else pageSize
  if pageSize > maxOutputPageSize then maxOutputPageSize else pageSize

/-- `ReadOutput`, on the content of the file; a missing file is read as an empty one. -/
def readOutput (file : Bytes) (page pageSize : Int64) : OutputPage :=
  let page := clampPage page
  let pageSize := clampPageSize pageSize
  if page > maxInt / pageSize then ⟨[], page, pageSize, 0, 0⟩
  else
    let c := WindowCollector.start ((page - 1) * pageSize) (page * pageSize)
    let r := collectScanner c (readStrings file)
    let c := if r.2 then collectReader r.1.reset (readStrings file) else r.1
    ⟨c.lines, page, pageSize, c.total, c.redactions⟩

/-! ## Records -/

/-- What the line of a record reads as. -/
def OutputLine.text (r : OutputLine) : Bytes := toValid r.line

theorem dropPrefix?_append (p s : Bytes) : (p ++ s).dropPrefix? p = some s := by
  induction p with
  | nil => cases s <;> rfl
  | cons b p ih => simp [List.dropPrefix?, ih]

theorem member_escape (key s t : Bytes) :
    member key (key ++ (escape s ++ 0x22 :: t)) = some (toValid s, t) := by
  unfold member
  rw [dropPrefix?_append, Option.bind_some]
  exact scan_escape (by grind) t

/-- **Round trip.** A record that was written is read back. -/
theorem unmarshal_marshal (r : OutputLine) : unmarshal r.marshal = some r.text := by
  unfold unmarshal OutputLine.marshal
  rw [member_escape, Option.bind_some, member_escape, Option.bind_some, member_escape,
    Option.bind_some]
  rfl

theorem marshal_printable (r : OutputLine) : ∀ c ∈ r.marshal, 0x20 ≤ c := by
  have hfixed : ∀ c ∈ utf8 "\x7b\"ts\":\"" ++ utf8 ",\"stream\":\"" ++ utf8 ",\"line\":\"" ++
      utf8 "\x7d" ++ [0x22], 0x20 ≤ c := by decide +kernel
  intro c hc
  simp only [OutputLine.marshal, List.mem_append, List.mem_cons] at hc
  simp only [List.mem_append, List.mem_singleton] at hfixed
  rcases hc with h | h | h | h | h | h | h | h | h | h
  all_goals first
    | exact escape_printable _ c h
    | exact hfixed c (by simp only [h, true_or, or_true])

/-- A plain word occurs in a member only where it occurs in its value. -/
theorem hasInfix_member {p k : Bytes} (hp : PlainWord p) (hquote : 0x22 ∉ p)
    (hk : hasInfix p k = false) (s t : Bytes) :
    hasInfix p (k ++ [0x22] ++ (escape s ++ 0x22 :: t)) = (hasInfix p s || hasInfix p t) := by
  have hne : p ≠ [] := fun h => by
    have := hp.head
    rw [h] at this
    cases this
  rw [List.append_assoc, List.singleton_append, hasInfix_append_cons hne hquote,
    hasInfix_append_cons hne hquote, hk, Bool.false_or, hasInfix_escape hp]

/-- Only the line of a record has the marks of a PEM block. -/
theorem hasInfix_marshal {p : Bytes} (hp : PlainWord p) (hquote : 0x22 ∉ p) {c : UInt8}
    (hc : c ∈ p) (hstamp : c ∉ utf8 "0123456789-:TZ") (hstdout : c ∉ utf8 "stdout")
    (hstderr : c ∉ utf8 "stderr") (hkeys : c ∉ utf8 "\x7b\"ts\":,\"stream\":,\"line\":\x7d")
    (r : OutputLine) : hasInfix p r.marshal = hasInfix p r.text := by
  have hts : c ∉ r.ts.text := fun h => hstamp (r.ts.plain c h)
  have hstream : c ∉ r.stream.name := by
    cases r.stream with
    | stdout => exact hstdout
    | stderr => exact hstderr
  have hkey : ∀ k : Bytes, k ⊆ utf8 "\x7b\"ts\":,\"stream\":,\"line\":\x7d" → hasInfix p k = false :=
    fun k hk => hasInfix_eq_false hc fun h => hkeys (hk h)
  show hasInfix p (utf8 "\x7b\"ts\":" ++ [0x22] ++ (escape r.ts.text ++ 0x22 ::
    (utf8 ",\"stream\":" ++ [0x22] ++ (escape r.stream.name ++ 0x22 ::
      (utf8 ",\"line\":" ++ [0x22] ++ (escape r.line ++ 0x22 :: utf8 "\x7d")))))) = _
  rw [hasInfix_member hp hquote (hkey _ (by decide)), hasInfix_member hp hquote (hkey _ (by decide)),
    hasInfix_member hp hquote (hkey _ (by decide)), hasInfix_eq_false hc hts,
    hasInfix_eq_false hc hstream, hkey (utf8 "\x7d") (by decide), OutputLine.text,
    hasInfix_toValid hp]
  simp

theorem sameMarks_marshal (r : OutputLine) : SameMarks r.marshal r.text where
  header := hasInfix_marshal plainWord_pemHeaderPrefix (by decide) (c := 0x42) (by decide)
    (by decide) (by decide) (by decide) (by decide) r
  footer := hasInfix_marshal plainWord_pemFooterPrefix (by decide) (c := 0x45) (by decide)
    (by decide) (by decide) (by decide) (by decide) r

/-! ## Lines of the file -/

theorem readStrings_append {s : Bytes} (h : 0x0A ∉ s) (t : Bytes) :
    readStrings (s ++ 0x0A :: t) = (s ++ [0x0A]) :: readStrings t := by
  induction s with
  | nil => rfl
  | cons b s ih =>
    obtain ⟨hb, hs⟩ := not_or.mp (mt List.mem_cons.mpr h)
    simp [readStrings, Ne.symm hb, ih hs]

/-- A line has its newline at its end, if it has one. -/
theorem mem_readStrings {s line : Bytes} (h : line ∈ readStrings s) :
    ∃ content ⊆ s, 0x0A ∉ content ∧ (line = content ++ [0x0A] ∨ line = content) := by
  induction s generalizing line with
  | nil => cases h
  | cons b s ih =>
    have hgrow : ∀ content : Bytes, content ⊆ s → content ⊆ b :: s :=
      fun content hsub => List.subset_cons_of_subset b hsub
    rw [readStrings] at h
    split at h
    · rename_i hb
      rcases List.mem_cons.mp h with rfl | hrest
      · exact ⟨[], List.nil_subset _, by simp, .inl (by rw [hb]; rfl)⟩
      · obtain ⟨content, hsub, hline⟩ := ih hrest
        exact ⟨content, hgrow content hsub, hline⟩
    · rename_i hb
      split at h
      · obtain rfl := List.mem_singleton.mp h
        exact ⟨[b], by simp, by simpa using Ne.symm hb, .inr rfl⟩
      · rename_i first rest hsplit
        rw [hsplit] at ih
        rcases List.mem_cons.mp h with rfl | hrest
        · obtain ⟨content, hsub, hfree, hline⟩ := ih List.mem_cons_self
          refine ⟨b :: content, List.cons_subset_cons b hsub, by simp [Ne.symm hb, hfree], ?_⟩
          rcases hline with rfl | rfl
          · exact .inl rfl
          · exact .inr rfl
        · obtain ⟨content, hsub, hline⟩ := ih (List.mem_cons_of_mem _ hrest)
          exact ⟨content, hgrow content hsub, hline⟩

/-- Where there are no carriage returns, both passes take the same text out of a line. -/
theorem token_of_clean {content : Bytes} (hlf : 0x0A ∉ content) (hcr : 0x0D ∉ content)
    {line : Bytes} (h : line = content ++ [0x0A] ∨ line = content) :
    scanToken line = content ∧ trimRight line = content := by
  have hlast : ∀ c : UInt8, c ∉ content → content.getLast? ≠ some c :=
    fun c hc hh => hc (List.mem_of_getLast? hh)
  have htrim : trimRight content = content := by
    refine List.rdropWhile_eq_self_iff.mpr fun hne hend => ?_
    have hmem := List.getLast_mem hne
    simp only [Bool.or_eq_true, decide_eq_true_eq] at hend
    rcases hend with he | he
    · exact hcr (he ▸ hmem)
    · exact hlf (he ▸ hmem)
  rcases h with rfl | rfl
  · refine ⟨?_, ?_⟩
    · simp [scanToken, hlast _ hcr]
    · rw [trimRight, List.rdropWhile_concat_pos _ _ _ (by decide)]
      exact htrim
  · exact ⟨by simp [scanToken, hlast _ hcr, hlast _ hlf], htrim⟩

theorem logFile_eq (log : List OutputLine) : logFile log = log.flatMap OutputLine.encode := by
  have hfold : ∀ (log : List OutputLine) (file : Bytes),
      log.foldl writeLine file = file ++ log.flatMap OutputLine.encode := by
    intro log
    induction log with
    | nil => simp
    | cons r log ih =>
      intro file
      rw [List.foldl_cons, ih, List.flatMap_cons, ← List.append_assoc]
      rfl
  exact hfold log []

theorem newline_not_mem_marshal (r : OutputLine) : 0x0A ∉ r.marshal :=
  fun h => absurd (marshal_printable r _ h) (by decide)

theorem return_not_mem_marshal (r : OutputLine) : 0x0D ∉ r.marshal :=
  fun h => absurd (marshal_printable r _ h) (by decide)

/-- The lines of the file are the records. -/
theorem readStrings_logFile (log : List OutputLine) :
    readStrings (logFile log) = log.map OutputLine.encode := by
  rw [logFile_eq]
  induction log with
  | nil => rfl
  | cons r log ih =>
    rw [List.flatMap_cons, OutputLine.encode, List.append_assoc, List.singleton_append,
      readStrings_append (newline_not_mem_marshal r), ih]
    rfl

theorem return_not_mem_logFile (log : List OutputLine) : 0x0D ∉ logFile log := by
  rw [logFile_eq]
  intro h
  obtain ⟨r, -, hr⟩ := List.mem_flatMap.mp h
  rcases List.mem_append.mp hr with hm | hm
  · exact return_not_mem_marshal r hm
  · exact absurd hm (by decide)

/-- However much of a log is in the file, both passes take the same text out of its lines. -/
theorem token_eq_trimRight {log : List OutputLine} {file : Bytes} (h : file <+: logFile log) :
    (readStrings file).map trimRight = (readStrings file).map scanToken := by
  refine List.map_congr_left fun line hline => ?_
  obtain ⟨content, hsub, hlf, hcase⟩ := mem_readStrings hline
  have hcr : 0x0D ∉ content := fun hc => return_not_mem_logFile log (h.subset (hsub hc))
  obtain ⟨hscan, htrim⟩ := token_of_clean hlf hcr hcase
  rw [hscan, htrim]

theorem map_scanToken_logFile (log : List OutputLine) :
    (readStrings (logFile log)).map scanToken = log.map OutputLine.marshal := by
  rw [readStrings_logFile, List.map_map]
  refine List.map_congr_left fun r _ => ?_
  exact (token_of_clean (newline_not_mem_marshal r) (return_not_mem_marshal r) (.inl rfl)).1

/-! ## The two passes -/

theorem collectReader_eq (lines : List Bytes) (c : WindowCollector) :
    collectReader c lines = (lines.map trimRight).foldl WindowCollector.add c := by
  induction lines generalizing c with
  | nil => rfl
  | cons line rest ih => exact ih _

theorem collectScanner_tooLong (lines : List Bytes) (c : WindowCollector) :
    (collectScanner c lines).2 = lines.any tooLong := by
  induction lines generalizing c with
  | nil => rfl
  | cons line rest ih =>
    rw [collectScanner, List.any_cons]
    split_ifs with h
    · rw [h, Bool.true_or]
    · rw [ih, Bool.eq_false_iff.mpr h, Bool.false_or]

theorem collectScanner_eq {lines : List Bytes} (h : lines.any tooLong = false)
    (c : WindowCollector) :
    collectScanner c lines = ((lines.map scanToken).foldl WindowCollector.add c, false) := by
  induction lines generalizing c with
  | nil => rfl
  | cons line rest ih =>
    rw [List.any_cons, Bool.or_eq_false_iff] at h
    rw [collectScanner, if_neg (by simp [h.1]), ih h.2]
    rfl

theorem reset_add (c : WindowCollector) (raw : Bytes) : (c.add raw).reset = c.reset := by
  unfold WindowCollector.add
  dsimp only
  split_ifs <;> rfl

/-- A pass that was given up leaves nothing behind. -/
theorem reset_collectScanner (lines : List Bytes) (c : WindowCollector) :
    (collectScanner c lines).1.reset = c.reset := by
  induction lines generalizing c with
  | nil => rfl
  | cons line rest ih =>
    rw [collectScanner]
    split_ifs
    · rfl
    · rw [ih, reset_add]

/-- Which of the two passes is the one that counts makes no difference, where both take the same
text out of the lines. -/
theorem fallback_eq {lines : List Bytes} (h : lines.map trimRight = lines.map scanToken)
    (lo hi : Int64) :
    (let r := collectScanner (.start lo hi) lines
      if r.2 then collectReader r.1.reset lines else r.1) =
      (lines.map scanToken).foldl WindowCollector.add (.start lo hi) := by
  dsimp only
  cases hlong : lines.any tooLong with
  | true =>
    rw [collectScanner_tooLong, if_pos hlong, reset_collectScanner, collectReader_eq, h]
    rfl
  | false =>
    rw [collectScanner_eq hlong]
    rfl

/-! ## Windows -/

/-- What a redactor makes of the lines, one after the other: the texts with their replacements. -/
def serve (rd : Redactor) : List OutputLine → List (Bytes × ℕ)
  | [] => []
  | r :: log => (rd.line r.text).2 :: serve (rd.line r.text).1 log

def afterLines (rd : Redactor) (log : List OutputLine) : Redactor :=
  log.foldl (fun rd r => (rd.line r.text).1) rd

def afterSkipped (rd : Redactor) (log : List OutputLine) : Redactor :=
  log.foldl (fun rd r => rd.observe r.text) rd

theorem add_skip {c : WindowCollector} (h : c.total < c.lo.toInt ∨ c.hi.toInt ≤ c.total)
    (r : OutputLine) :
    c.add r.marshal = { c with total := c.total + 1, red := c.red.observe r.text } := by
  unfold WindowCollector.add
  dsimp only
  rw [if_pos h, Redactor.observe_congr (sameMarks_marshal r)]

theorem add_show {c : WindowCollector} (hlo : c.lo.toInt ≤ c.total) (hhi : c.total < c.hi.toInt)
    (r : OutputLine) :
    c.add r.marshal = { c with
      total := c.total + 1
      red := (c.red.line r.text).1
      lines := c.lines ++ [(c.red.line r.text).2.1]
      redactions := c.redactions + (c.red.line r.text).2.2 } := by
  unfold WindowCollector.add
  dsimp only
  rw [if_neg (by omega), unmarshal_marshal]
  rfl

/-- A stretch of the log outside the window. -/
theorem foldl_skip (log : List OutputLine) (c : WindowCollector)
    (h : ∀ i < log.length, c.total + i < c.lo.toInt ∨ c.hi.toInt ≤ c.total + i) :
    (log.map OutputLine.marshal).foldl WindowCollector.add c =
      { c with total := c.total + log.length, red := afterSkipped c.red log } := by
  induction log generalizing c with
  | nil => rfl
  | cons r log ih =>
    have hhead := h 0 (by simp)
    have htail : ∀ i < log.length, ((c.total + 1 : ℕ) : ℤ) + i < c.lo.toInt ∨
        c.hi.toInt ≤ ((c.total + 1 : ℕ) : ℤ) + i := by
      intro i hi
      have := h (i + 1) (by simpa using hi)
      omega
    rw [List.map_cons, List.foldl_cons, add_skip (by omega), ih _ htail]
    simp only [List.length_cons, Nat.add_assoc, Nat.add_comm 1]
    rfl

/-- A stretch of the log inside the window. -/
theorem foldl_show (log : List OutputLine) (c : WindowCollector)
    (h : ∀ i < log.length, c.lo.toInt ≤ c.total + i ∧ c.total + i < c.hi.toInt) :
    (log.map OutputLine.marshal).foldl WindowCollector.add c = { c with
      total := c.total + log.length
      red := afterLines c.red log
      lines := c.lines ++ (serve c.red log).map Prod.fst
      redactions := c.redactions + ((serve c.red log).map Prod.snd).sum } := by
  induction log generalizing c with
  | nil => simp [serve, afterLines]
  | cons r log ih =>
    have hhead := h 0 (by simp)
    have htail : ∀ i < log.length, c.lo.toInt ≤ ((c.total + 1 : ℕ) : ℤ) + i ∧
        ((c.total + 1 : ℕ) : ℤ) + i < c.hi.toInt := by
      intro i hi
      have := h (i + 1) (by simpa using hi)
      omega
    rw [List.map_cons, List.foldl_cons, add_show (by omega) (by omega), ih _ htail]
    simp only [List.length_cons, Nat.add_assoc, Nat.add_comm 1, serve, List.map_cons,
      List.sum_cons, List.append_assoc, List.singleton_append]
    rfl

/-- The collector after the whole log, for a window of `n` lines from `k` on. -/
theorem foldl_window (log : List OutputLine) {lo hi : Int64} {k n : ℕ} (hlo : lo.toInt = k)
    (hhi : hi.toInt = k + n) :
    let served := serve (afterSkipped .start (log.take k)) ((log.drop k).take n)
    let c := (log.map OutputLine.marshal).foldl WindowCollector.add (.start lo hi)
    c.lines = served.map Prod.fst ∧ c.total = log.length ∧
      c.redactions = (served.map Prod.snd).sum := by
  intro served c
  have hsplit : log.take k ++ ((log.drop k).take n ++ (log.drop k).drop n) = log := by
    rw [List.take_append_drop, List.take_append_drop]
  have hfold : c = (List.map OutputLine.marshal
      (log.take k ++ ((log.drop k).take n ++ (log.drop k).drop n))).foldl
        WindowCollector.add (.start lo hi) := by
    rw [hsplit]
  rw [List.map_append, List.map_append, List.foldl_append, List.foldl_append,
    foldl_skip (log.take k), foldl_show ((log.drop k).take n), foldl_skip] at hfold
  · rw [hfold]
    refine ⟨List.nil_append _, ?_, Nat.zero_add _⟩
    show 0 + _ + _ + _ = _
    rw [Nat.zero_add, Nat.add_assoc, ← List.length_append, ← List.length_append, hsplit]
  · intro i hi
    simp only [WindowCollector.start, List.length_take, List.length_drop] at hi ⊢
    omega
  · intro i hi
    simp only [WindowCollector.start, List.length_take, List.length_drop] at hi ⊢
    omega
  · intro i hi
    simp only [WindowCollector.start, List.length_take] at hi ⊢
    omega

/-! ## The arithmetic of pages -/

theorem toInt_maxInt : maxInt.toInt = 2 ^ 63 - 1 := by decide

theorem clampPage_pos (page : Int64) : 1 ≤ (clampPage page).toInt := by
  unfold clampPage
  split_ifs with h
  · decide
  · exact Int64.le_iff_toInt_le.mp (Int64.not_lt.mp h)

theorem clampPageSize_bounds (pageSize : Int64) :
    1 ≤ (clampPageSize pageSize).toInt ∧ (clampPageSize pageSize).toInt ≤ 1000 := by
  unfold clampPageSize
  dsimp only
  split_ifs with h1 h2 h2
  · decide
  · decide
  · decide
  · have hpos := Int64.lt_iff_toInt_lt.mp (Int64.not_le.mp h1)
    have hle := Int64.le_iff_toInt_le.mp (Int64.not_lt.mp h2)
    exact ⟨hpos, hle⟩

theorem toInt_maxInt_div {s : Int64} (hs : 1 ≤ s.toInt) :
    (maxInt / s).toInt = (2 ^ 63 - 1) / s.toInt := by
  rw [Int64.toInt_div, toInt_maxInt, Int.tdiv_eq_ediv_of_nonneg (by decide)]
  have hle : (2 ^ 63 - 1) / s.toInt ≤ 2 ^ 63 - 1 := Int.ediv_le_self _ (by decide)
  have hpos : 0 ≤ (2 ^ 63 - 1) / s.toInt := Int.ediv_nonneg (by decide) (by omega)
  exact Int.bmod_eq_of_le (by omega) (by omega)

/-- The guard holds back exactly the pages whose end does not fit. -/
theorem guard_iff {p s : Int64} (hs : 1 ≤ s.toInt) :
    p > maxInt / s ↔ 2 ^ 63 - 1 < p.toInt * s.toInt := by
  rw [gt_iff_lt, Int64.lt_iff_toInt_lt, toInt_maxInt_div hs, Int.ediv_lt_iff_lt_mul (by omega)]

/-- The first record of a page. -/
def pageStart (page pageSize : Int64) : ℕ :=
  ((clampPage page).toInt - 1).toNat * (clampPageSize pageSize).toInt.toNat

theorem pageStart_eq (page pageSize : Int64) :
    (pageStart page pageSize : ℤ) =
      ((clampPage page).toInt - 1) * (clampPageSize pageSize).toInt := by
  have hp := clampPage_pos page
  have hs := (clampPageSize_bounds pageSize).1
  rw [pageStart, Int.natCast_mul, Int.toNat_of_nonneg (by omega), Int.toNat_of_nonneg (by omega)]

/-- **No offset overflows.** Past the guard, both ends of the window are what they are meant to be. -/
theorem window_offsets {page pageSize : Int64}
    (h : ¬ clampPage page > maxInt / clampPageSize pageSize) :
    ((clampPage page - 1) * clampPageSize pageSize).toInt = pageStart page pageSize ∧
      (clampPage page * clampPageSize pageSize).toInt =
        pageStart page pageSize + (clampPageSize pageSize).toInt.toNat := by
  have hp := clampPage_pos page
  obtain ⟨hs, -⟩ := clampPageSize_bounds pageSize
  have hend : (clampPage page).toInt * (clampPageSize pageSize).toInt ≤ 2 ^ 63 - 1 :=
    Int.not_lt.mp (mt (guard_iff hs).mpr h)
  rw [pageStart_eq, Int.toNat_of_nonneg (by omega), Int64.toInt_mul, Int64.toInt_mul,
    Int64.toInt_sub]
  have hone : (1 : Int64).toInt = 1 := rfl
  have hsub : ((clampPage page).toInt - 1).bmod (2 ^ 64) = (clampPage page).toInt - 1 := by
    have := (clampPage page).toInt_lt
    exact Int.bmod_eq_of_le (by omega) (by omega)
  have hstart : 0 ≤ ((clampPage page).toInt - 1) * (clampPageSize pageSize).toInt :=
    Int.mul_nonneg (by omega) (by omega)
  have hdist : ((clampPage page).toInt - 1) * (clampPageSize pageSize).toInt +
      (clampPageSize pageSize).toInt = (clampPage page).toInt * (clampPageSize pageSize).toInt := by
    rw [Int.sub_mul, Int.one_mul, Int.sub_add_cancel]
  rw [hone, hsub, hdist]
  exact ⟨Int.bmod_eq_of_le (by omega) (by omega), Int.bmod_eq_of_le (by omega) (by omega)⟩

/-- The records of a page. -/
def pageRecords (log : List OutputLine) (page pageSize : Int64) : List OutputLine :=
  (log.drop (pageStart page pageSize)).take (clampPageSize pageSize).toInt.toNat

/-- What a page makes of its records. -/
def pageServed (log : List OutputLine) (page pageSize : Int64) : List (Bytes × ℕ) :=
  serve (afterSkipped .start (log.take (pageStart page pageSize))) (pageRecords log page pageSize)

/-- **What a page is.** Past the guard, it serves its records. -/
theorem readOutput_logFile (log : List OutputLine) {page pageSize : Int64}
    (h : ¬ clampPage page > maxInt / clampPageSize pageSize) :
    readOutput (logFile log) page pageSize =
      { lines := (pageServed log page pageSize).map Prod.fst
        page := clampPage page
        pageSize := clampPageSize pageSize
        totalLines := log.length
        redactions := ((pageServed log page pageSize).map Prod.snd).sum } := by
  obtain ⟨hlo, hhi⟩ := window_offsets h
  obtain ⟨hlines, htotal, hred⟩ := foldl_window log hlo hhi
  have hpass := fallback_eq (token_eq_trimRight (List.prefix_refl (logFile log)))
    ((clampPage page - 1) * clampPageSize pageSize) (clampPage page * clampPageSize pageSize)
  rw [map_scanToken_logFile] at hpass
  dsimp only at hpass
  unfold readOutput
  dsimp only
  rw [if_neg h, hpass, hlines, htotal, hred]
  rfl

end HaAddons.Runner
