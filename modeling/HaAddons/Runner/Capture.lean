import HaAddons.Runner.Output

/-!
# Capture of a child's output

`scanLines` reads a pipe with a `bufio.Scanner`, whose buffer grows up to a ceiling, and passes
every line to `emit`. A read returns as much as there is room for and as the pipe holds at that time.

* `scanLoop_eq` — however the stream arrives, the scanner takes its lines one by one, up to the
  first one that the buffer cannot hold.
* `drains_iff` — the stream is read to its end exactly where no line is too long, and then every
  line is passed on as it is, unless it ends in a carriage return.
-/

namespace HaAddons.Runner

/-! ## The scanner -/

def initialScanBufBytes : ℕ := 64 * 1024

/-- A `bufio.Scanner` and the pipe it reads. -/
structure Scanner where
  /-- `len(s.buf)` -/
  size : ℕ
  start : ℕ
  /-- `s.buf[s.start:s.end]` -/
  data : Bytes
  /-- `s.err == io.EOF` -/
  eof : Bool
  /-- What is still to come through the pipe. -/
  rest : Bytes
  /-- How much of it is there at each of the next reads. -/
  arrivals : List ℕ
  fits : start + data.length ≤ size

/-- `dropCR` -/
def dropCR (s : Bytes) : Bytes := if s.getLast? = some 0x0D then s.dropLast else s

/-- The split function `bufio.ScanLines`: how far to advance, and the token. -/
def splitLine (data : Bytes) (atEOF : Bool) : Option (ℕ × Bytes) :=
  if atEOF && data = [] then none
  else
    match data.idxOf? 0x0A with
    | some i => some (i + 1, dropCR (data.take i))
    | none => if atEOF then some (data.length, dropCR data) else none

namespace Scanner

def onPipe (stream : Bytes) (arrivals : List ℕ) : Scanner :=
  ⟨initialScanBufBytes, 0, [], false, stream, arrivals, Nat.zero_le _⟩

def advance (s : Scanner) (n : ℕ) (h : n ≤ s.data.length) : Scanner :=
  { s with
    start := s.start + n
    data := s.data.drop n
    fits := by
      have := s.fits
      rw [List.length_drop]
      omega }

/-- Move the data to the beginning of the buffer, if there is much empty space or none is left. -/
def shift (s : Scanner) : Scanner :=
  if s.start > 0 && (s.start + s.data.length = s.size || s.start > s.size / 2) then
    { s with start := 0, fits := by have := s.fits; omega }
  else s

def grow (s : Scanner) (h : s.size < maxScanLineBytes) : Scanner :=
  { s with
    size := min (if s.size = 0 then 4096 else s.size * 2) maxScanLineBytes
    start := 0
    fits := by
      have := s.fits
      have hmax : s.size ≤ min (if s.size = 0 then 4096 else s.size * 2) maxScanLineBytes := by
        split_ifs <;> omega
      omega }

/-- One `Read` into the free part of the buffer. -/
def read (s : Scanner) : Scanner :=
  let n := min (s.size - (s.start + s.data.length)) (max 1 (s.arrivals.headD s.rest.length))
  if s.rest = [] then { s with eof := true, arrivals := s.arrivals.tail }
  else
    { s with
      data := s.data ++ s.rest.take n
      rest := s.rest.drop n
      arrivals := s.arrivals.tail
      fits := by
        have := s.fits
        rw [List.length_append, List.length_take]
        omega }

/-- Read more, with a larger buffer where it is full; `none` is `ErrTooLong`. -/
def fill (s : Scanner) : Option Scanner :=
  let s := s.shift
  if s.start + s.data.length = s.size then
    if h : s.size < maxScanLineBytes then some (s.grow h).read else none
  else some s.read

/-- What is left to do. -/
def todo (s : Scanner) : ℕ := 2 * s.rest.length + s.data.length + if s.eof then 0 else 1

end Scanner

theorem splitLine_le {data token : Bytes} {eof : Bool} {n : ℕ}
    (h : splitLine data eof = some (n, token)) : 0 < n ∧ n ≤ data.length := by
  rw [splitLine] at h
  split at h
  · cases h
  · rename_i hempty
    cases hi : data.idxOf? 0x0A with
    | some i =>
      rw [hi] at h
      obtain ⟨rfl, -⟩ := Prod.mk.inj (Option.some.inj h)
      have := (List.findIdx?_eq_some_iff_getElem.mp hi).1
      omega
    | none =>
      rw [hi] at h
      dsimp only at h
      split_ifs at h with heof
      obtain ⟨rfl, -⟩ := Prod.mk.inj (Option.some.inj h)
      refine ⟨List.length_pos_iff.mpr fun hdata => hempty ?_, le_refl _⟩
      simp [heof, hdata]

/-- A line with its newline, or all that is left at the end. -/
theorem splitLine_some {data token : Bytes} {eof : Bool} {n : ℕ}
    (h : splitLine data eof = some (n, token)) :
    (∃ content, data = content ++ 0x0A :: data.drop n ∧ 0x0A ∉ content ∧ token = dropCR content) ∨
      eof = true ∧ data ≠ [] ∧ 0x0A ∉ data ∧ token = dropCR data ∧ data.drop n = [] := by
  have hpos := splitLine_le h
  rw [splitLine] at h
  split at h
  · cases h
  cases hi : data.idxOf? 0x0A with
  | some i =>
    rw [hi] at h
    obtain ⟨rfl, rfl⟩ := Prod.mk.inj (Option.some.inj h)
    obtain ⟨hlt, hat, hbefore⟩ := List.findIdx?_eq_some_iff_getElem.mp hi
    refine .inl ⟨data.take i, ?_, fun hmem => ?_, rfl⟩
    · conv_lhs => rw [← List.take_append_drop i data, List.drop_eq_getElem_cons hlt]
      rw [eq_of_beq hat]
    · obtain ⟨j, hj, heq⟩ := List.mem_take_iff_getElem.mp hmem
      exact hbefore j (by omega) (by simp [heq])
  | none =>
    rw [hi] at h
    dsimp only at h
    split_ifs at h with heof
    obtain ⟨rfl, rfl⟩ := Prod.mk.inj (Option.some.inj h)
    exact .inr ⟨heof, List.length_pos_iff.mp hpos.1, List.idxOf?_eq_none_iff.mp hi, rfl,
      List.drop_length⟩

theorem splitLine_none {data : Bytes} {eof : Bool} (h : splitLine data eof = none) :
    0x0A ∉ data ∧ (eof = true → data = []) := by
  rw [splitLine] at h
  split at h
  · rename_i hempty
    obtain ⟨-, hdata⟩ := Bool.and_eq_true_iff.mp hempty
    obtain rfl := of_decide_eq_true hdata
    exact ⟨List.not_mem_nil, fun _ => rfl⟩
  cases hi : data.idxOf? 0x0A with
  | some i =>
    rw [hi] at h
    cases h
  | none =>
    rw [hi] at h
    refine ⟨List.idxOf?_eq_none_iff.mp hi, fun heof => ?_⟩
    rw [heof] at h
    cases h

namespace Scanner

variable {s s' : Scanner}

theorem shift_spec (s : Scanner) : s.shift.size = s.size ∧ s.shift.data = s.data ∧
    s.shift.eof = s.eof ∧ s.shift.rest = s.rest ∧
      (s.shift.start + s.data.length = s.size → s.shift.start = 0) := by
  unfold shift
  split_ifs with h
  · exact ⟨rfl, rfl, rfl, rfl, fun _ => rfl⟩
  · refine ⟨rfl, rfl, rfl, rfl, fun hfull => ?_⟩
    simp only [hfull, decide_true, Bool.true_or, Bool.and_true, decide_eq_true_eq] at h
    omega

/-- What a read leaves of the stream, where there is room for it. -/
structure Read (s s' : Scanner) : Prop where
  stream : s'.data ++ s'.rest = s.data ++ s.rest
  less : s'.todo < s.todo
  bound : s.size ≤ maxScanLineBytes → s'.size ≤ maxScanLineBytes
  ended : s'.eof = true → s'.rest = [] ∧ s'.data.length < s'.size

theorem read_spec (s : Scanner) (hroom : s.start + s.data.length < s.size)
    (heof : s.eof = false) : s.Read s.read := by
  unfold Scanner.read
  dsimp only
  split_ifs with hrest
  · refine ⟨rfl, ?_, id, fun _ => ⟨hrest, ?_⟩⟩
    · simp [todo, heof]
    · show s.data.length < s.size
      omega
  · have hpos := List.length_pos_iff.mpr hrest
    refine ⟨?_, ?_, id, fun h => ?_⟩
    · simp
    · simp only [todo, heof, List.length_append, List.length_take, List.length_drop]
      omega
    · rw [show s.eof = true from h] at heof
      cases heof

/-- More of the stream, or a full buffer that may not grow. -/
theorem fill_spec (s : Scanner) (heof : s.eof = false) :
    match s.fill with
    | some s' => s.Read s'
    | none => maxScanLineBytes ≤ s.data.length := by
  obtain ⟨hsize, hdata, heof', hrest, hstart⟩ := s.shift_spec
  have hfits := s.shift.fits
  have hread : ∀ t : Scanner, t.data = s.data → t.rest = s.rest → t.eof = s.eof →
      t.start + t.data.length < t.size →
        (s.size ≤ maxScanLineBytes → t.size ≤ maxScanLineBytes) → s.Read t.read := by
    intro t htd htr hte hroom htb
    have h := t.read_spec hroom (hte ▸ heof)
    have htodo : t.todo = s.todo := by rw [todo, todo, htd, htr, hte]
    exact ⟨by rw [h.stream, htd, htr], htodo ▸ h.less, fun hs => h.bound (htb hs), h.ended⟩
  unfold fill
  dsimp only
  rw [hdata] at hfits ⊢
  split_ifs with hfull hgrow
  · refine hread _ hdata hrest heof' ?_ fun _ => min_le_right _ _
    have hzero := hstart (hsize ▸ hfull)
    show 0 + s.shift.data.length < min _ _
    rw [hdata]
    split_ifs <;> omega
  · have := hstart (hsize ▸ hfull)
    show maxScanLineBytes ≤ s.data.length
    omega
  · refine hread _ hdata hrest heof' ?_ fun hs => hsize ▸ hs
    rw [hdata]
    omega

theorem advance_todo {n : ℕ} (hpos : 0 < n) (h : n ≤ s.data.length) :
    (s.advance n h).todo < s.todo := by
  have : (s.data.drop n).length < s.data.length := by
    rw [List.length_drop]
    omega
  show 2 * s.rest.length + (s.data.drop n).length + (if s.eof then 0 else 1) <
    2 * s.rest.length + s.data.length + if s.eof then 0 else 1
  omega

end Scanner

/-- The loop over `Scan`: the tokens, and whether the end of the stream was reached. -/
def scanLoop (s : Scanner) : List Bytes × Bool :=
  match hsplit : splitLine s.data s.eof with
  | some (n, token) =>
    let r := scanLoop (s.advance n (splitLine_le hsplit).2)
    (token :: r.1, r.2)
  | none =>
    if _heof : s.eof then ([], true)
    else
      match _hfill : s.fill with
      | none => ([], false)
      | some s' => scanLoop s'
termination_by s.todo
decreasing_by
  · exact Scanner.advance_todo (splitLine_le hsplit).1 _
  · have h := s.fill_spec (Bool.eq_false_iff.mpr _heof)
    rw [_hfill] at h
    exact h.less

def captureStopped : Bytes :=
  utf8 "[iac-runner] output capture stopped: bufio.Scanner: token too long"

/-- What is passed to `emit`, if there is one, and whether the stream was read to its end. -/
def scanLines (emit : Bool) (stream : Bytes) (arrivals : List ℕ) : List Bytes × Bool :=
  if emit then
    let r := scanLoop (.onPipe stream arrivals)
    if r.2 then r else (r.1 ++ [captureStopped], false)
  else ([], true)

/-! ## What the loop does -/

/-- The lines up to the first one that is too long, and whether there is none such. -/
def takeLines (stream : Bytes) : List Bytes × Bool :=
  let lines := (readStrings stream).takeWhile fun line => !tooLong line
  (lines.map scanToken, !(readStrings stream).any tooLong)

theorem not_newline {s : Bytes} (h : 0x0A ∉ s) : ∀ b ∈ s, decide (b ≠ 0x0A) = true :=
  fun _ hb => decide_eq_true fun he => h (he ▸ hb)

theorem readStrings_prefix {s : Bytes} (hs : s ≠ []) (h : 0x0A ∉ s) (t : Bytes) :
    ∃ u rest, readStrings (s ++ t) = (s ++ u) :: rest := by
  induction s with
  | nil => exact absurd rfl hs
  | cons b s ih =>
    obtain ⟨hb, hfree⟩ := not_or.mp (mt List.mem_cons.mpr h)
    rw [List.cons_append, readStrings, if_neg (Ne.symm hb)]
    by_cases hempty : s = []
    · subst hempty
      cases readStrings ([] ++ t) with
      | nil => exact ⟨[], [], rfl⟩
      | cons u rest => exact ⟨u, rest, rfl⟩
    · obtain ⟨u, rest, hu⟩ := ih hempty hfree
      exact ⟨u, rest, by rw [hu]; rfl⟩

theorem takeWhile_line {content : Bytes} (h : 0x0A ∉ content) (t : Bytes) :
    (content ++ 0x0A :: t).takeWhile (· ≠ 0x0A) = content := by
  rw [List.takeWhile_append_of_pos (not_newline h)]
  simp

theorem readStrings_last {s : Bytes} (hs : s ≠ []) (h : 0x0A ∉ s) : readStrings s = [s] := by
  induction s with
  | nil => exact absurd rfl hs
  | cons b s ih =>
    obtain ⟨hb, hfree⟩ := not_or.mp (mt List.mem_cons.mpr h)
    rw [readStrings, if_neg (Ne.symm hb)]
    by_cases hempty : s = []
    · rw [hempty]
      rfl
    · rw [ih hempty hfree]

theorem takeLines_cons {content : Bytes} (h : 0x0A ∉ content)
    (hlen : content.length < maxScanLineBytes) (t : Bytes) :
    takeLines (content ++ 0x0A :: t) =
      (dropCR content :: (takeLines t).1, (takeLines t).2) := by
  have hshort : tooLong (content ++ [0x0A]) = false := by
    rw [tooLong, takeWhile_line h]
    exact decide_eq_false (Nat.not_le.mpr hlen)
  have htoken : scanToken (content ++ [0x0A]) = dropCR content := by
    simp [scanToken, dropCR]
  simp [takeLines, readStrings_append h, hshort, htoken]

theorem takeLines_last {s : Bytes} (hs : s ≠ []) (h : 0x0A ∉ s)
    (hlen : s.length < maxScanLineBytes) : takeLines s = ([dropCR s], true) := by
  have hshort : tooLong s = false := by
    rw [tooLong, List.takeWhile_eq_self_iff.mpr (not_newline h)]
    exact decide_eq_false (Nat.not_le.mpr hlen)
  have htoken : scanToken s = dropCR s := by
    have hlast : s.getLast? ≠ some 0x0A := fun hl => h (List.mem_of_getLast? hl)
    simp [scanToken, dropCR, hlast]
  simp [takeLines, readStrings_last hs h, hshort, htoken]

theorem takeLines_tooLong {s : Bytes} (h : 0x0A ∉ s) (hlen : maxScanLineBytes ≤ s.length)
    (t : Bytes) : takeLines (s ++ t) = ([], false) := by
  have hs : s ≠ [] := by
    rintro rfl
    exact absurd hlen (by decide)
  obtain ⟨u, rest, hu⟩ := readStrings_prefix hs h t
  have hlong : tooLong (s ++ u) = true := by
    rw [tooLong, List.takeWhile_append_of_pos (not_newline h)]
    refine decide_eq_true ?_
    rw [List.length_append]
    omega
  simp [takeLines, hu, hlong]

/-- **However the stream arrives**, its lines are taken one by one. -/
theorem scanLoop_eq (s : Scanner) (hbound : s.size ≤ maxScanLineBytes)
    (heof : s.eof = true → s.rest = [] ∧ s.data.length < s.size) :
    scanLoop s = takeLines (s.data ++ s.rest) := by
  fun_induction scanLoop s with
  | case1 s n token hsplit r ih =>
    have hfits := s.fits
    have hnext : r = takeLines (s.data.drop n ++ s.rest) := by
      refine ih hbound fun h => ⟨(heof h).1, ?_⟩
      have := (heof h).2
      show (s.data.drop n).length < s.size
      rw [List.length_drop]
      omega
    rw [hnext]
    rcases splitLine_some hsplit with ⟨content, hdata, hfree, rfl⟩ | ⟨hend, hs, hfree, rfl, hdrop⟩
    · have hlen : content.length < maxScanLineBytes := by
        have := congrArg List.length hdata
        rw [List.length_append, List.length_cons] at this
        omega
      conv_rhs => rw [hdata, List.append_assoc, List.cons_append]
      rw [takeLines_cons hfree hlen]
    · have hlen := (heof hend).2
      rw [(heof hend).1, List.append_nil, List.append_nil, hdrop,
        takeLines_last hs hfree (by omega)]
      rfl
  | case2 s hsplit heof' =>
    rw [(splitLine_none hsplit).2 heof', (heof heof').1]
    rfl
  | case3 s hsplit heof' hfill =>
    have h := s.fill_spec (Bool.eq_false_iff.mpr heof')
    rw [hfill] at h
    rw [takeLines_tooLong (splitLine_none hsplit).1 h]
  | case4 s hsplit heof' s' hfill ih =>
    have h := s.fill_spec (Bool.eq_false_iff.mpr heof')
    rw [hfill] at h
    rw [ih (h.bound hbound) h.ended, h.stream]

/-! ## What is captured -/

/-- A line without its newline. -/
def lineText (line : Bytes) : Bytes := line.takeWhile (· ≠ 0x0A)

theorem scanToken_eq_dropCR {stream line : Bytes} (h : line ∈ readStrings stream) :
    scanToken line = dropCR (lineText line) := by
  obtain ⟨content, -, hfree, hline⟩ := mem_readStrings h
  rcases hline with rfl | rfl
  · rw [lineText, takeWhile_line hfree]
    simp [scanToken, dropCR]
  · rw [lineText, List.takeWhile_eq_self_iff.mpr (not_newline hfree)]
    have hlast : line.getLast? ≠ some 0x0A := fun hl => hfree (List.mem_of_getLast? hl)
    simp [scanToken, dropCR, hlast]

theorem dropCR_eq_self {s : Bytes} : dropCR s = s ↔ s.getLast? ≠ some 0x0D := by
  constructor
  · intro h hlast
    rw [dropCR, if_pos hlast] at h
    have hne : s ≠ [] := by
      rintro rfl
      cases hlast
    have := congrArg List.length h
    rw [List.length_dropLast] at this
    have := List.length_pos_iff.mpr hne
    omega
  · intro h
    rw [dropCR, if_neg h]

theorem scanLoop_onPipe (stream : Bytes) (arrivals : List ℕ) :
    scanLoop (.onPipe stream arrivals) = takeLines stream :=
  scanLoop_eq (.onPipe stream arrivals)
    (by decide : initialScanBufBytes ≤ maxScanLineBytes) fun h => Bool.noConfusion h

/-- What `ReadOutput` does with its scanner is what this scanner does with the file. -/
theorem collectScanner_scanLoop (c : WindowCollector) (file : Bytes) (arrivals : List ℕ) :
    collectScanner c (readStrings file) =
      ((scanLoop (.onPipe file arrivals)).1.foldl WindowCollector.add c,
        !(scanLoop (.onPipe file arrivals)).2) := by
  rw [scanLoop_onPipe, takeLines]
  induction readStrings file generalizing c with
  | nil => rfl
  | cons line rest ih =>
    cases hlong : tooLong line with
    | true => simp [collectScanner, hlong]
    | false =>
      rw [collectScanner, hlong, if_neg Bool.false_ne_true, ih]
      simp [hlong]

/-- **What drains the pipe.** -/
theorem drains_iff (stream : Bytes) (arrivals : List ℕ) :
    ((scanLines true stream arrivals).2 = true ↔
      ∀ line ∈ readStrings stream, tooLong line = false) ∧
    (scanLines true stream arrivals = ((readStrings stream).map lineText, true) ↔
      ∀ line ∈ readStrings stream,
        tooLong line = false ∧ (lineText line).getLast? ≠ some 0x0D) := by
  rw [scanLines, if_pos rfl, scanLoop_onPipe, takeLines]
  cases hany : (readStrings stream).any tooLong with
  | true =>
    obtain ⟨line, hline, hlong⟩ := List.any_eq_true.mp hany
    refine ⟨⟨fun h => Bool.noConfusion h, fun h => ?_⟩, ⟨fun h => ?_, fun h => ?_⟩⟩
    · rw [h line hline] at hlong
      cases hlong
    · exact Bool.noConfusion (congrArg Prod.snd h)
    · rw [(h line hline).1] at hlong
      cases hlong
  | false =>
    have hshort : ∀ line ∈ readStrings stream, tooLong line = false := fun line hline =>
      Bool.eq_false_iff.mpr fun h =>
        Bool.eq_false_iff.mp hany (List.any_eq_true.mpr ⟨line, hline, h⟩)
    have hall : (readStrings stream).takeWhile (fun line => !tooLong line) = readStrings stream :=
      List.takeWhile_eq_self_iff.mpr fun line hline => by rw [hshort line hline]; rfl
    refine ⟨⟨fun _ => hshort, fun _ => rfl⟩, ?_⟩
    show (((readStrings stream).takeWhile fun line => !tooLong line).map scanToken, true) = _ ↔ _
    rw [hall, Prod.mk.injEq, List.map_inj_left]
    refine ⟨fun h line hline => ⟨hshort line hline, ?_⟩, fun h => ⟨fun line hline => ?_, rfl⟩⟩
    · rw [← dropCR_eq_self, ← scanToken_eq_dropCR hline]
      exact h.1 line hline
    · rw [scanToken_eq_dropCR hline]
      exact dropCR_eq_self.mpr (h line hline).2

/-- A line of 8 MiB, and one more line that is never read. -/
theorem not_drained : ¬ ∀ stream arrivals,
    scanLines true stream arrivals = ((readStrings stream).map lineText, true) := by
  intro h
  let long : Bytes := List.replicate maxScanLineBytes 0x78
  have hfree : 0x0A ∉ long := fun hm => absurd (List.eq_of_mem_replicate hm) (by decide)
  have hlines : readStrings (long ++ 0x0A :: utf8 "done
") =
      (long ++ [0x0A]) :: readStrings (utf8 "done
") := readStrings_append hfree _
  have hdrained := ((drains_iff (long ++ 0x0A :: utf8 "done
") []).2.mp (h _ _) _
    (hlines ▸ List.mem_cons_self)).1
  rw [tooLong, takeWhile_line hfree, List.length_replicate] at hdrained
  exact absurd hdrained (by decide)

end HaAddons.Runner
