import Mathlib.Data.List.DropRight
import HaAddons.Lib.Lines

/-!
# The incident scan

The app shows the last incidents of the host log. It reads the file in blocks, from the end, keeps
the part of a line that stands at the start of a block for the next one, and stops after enough
hits or at the scan cap. `decode` is `bytes.decode("utf-8", errors="replace")`.

* `Scan.step_ok` — what one block keeps: the lines after the first one of what has been read were
  all looked at, and the first one is held back.
* `lastIncidents_eq` — the scan returns what a plain one over all lines does.
-/

namespace HaAddons.HaosMonitor.Incidents

open HaAddons.Lib

abbrev Bytes := List UInt8
abbrev Text := List Char

/-- `b" INCIDENT "` -/
def marker : Bytes := [0x20, 0x49, 0x4e, 0x43, 0x49, 0x44, 0x45, 0x4e, 0x54, 0x20]

def newline : UInt8 := 0x0a

/-! ## One line -/

/-- `_CONTROL_RE`: control characters other than the tab. -/
def isControl (c : Char) : Bool :=
  c.toNat ≤ 0x08 || 0x0a ≤ c.toNat && c.toNat ≤ 0x1f || 0x7f ≤ c.toNat && c.toNat ≤ 0x9f

/-- `text[:n]`, where a negative `n` counts from the end. -/
def sliceTo (text : Text) (n : ℤ) : Text :=
  if n < 0 then text.take (text.length + n).toNat else text.take n.toNat

section Scan

variable (decode : Bytes → Text) (limit : ℕ) (maxLine : ℤ)

/-- `_clean` -/
def clean (raw : Bytes) : Text :=
  let text := decode raw
  let text := if text.getLast? = some '\r' then text.dropLast else text
  sliceTo (text.filter fun c => !isControl c) maxLine

/-- `MARKER in line` -/
def isIncident (line : Bytes) : Bool := decide (marker <:+: line)

/-- The `for` loop over the whole lines of a block. -/
def collect (found : List Text) : List Bytes → List Text
  | [] => found
  | line :: rest =>
    if isIncident line then
      let found := found ++ [clean decode maxLine line]
      if limit ≤ found.length then found else collect found rest
    else collect found rest

/-! ## The loop -/

/-- Where the scan is, the partial line at the start of the data read so far, and the hits. -/
structure Scan where
  pos : ℕ
  tail : Bytes
  found : List Text

variable (content : Bytes) (block floor : ℕ)

/-- The body of the `while` loop. -/
def Scan.step (s : Scan) : Scan :=
  let size := min block (s.pos - floor)
  let pos := s.pos - size
  let lines := ((content.drop pos).take size ++ s.tail).splitOn newline
  { pos := pos
    tail := lines.headD []
    found := collect decode limit maxLine s.found lines.tail.reverse }

/-- The `while` loop; none if it has not ended after `fuel` rounds. -/
def Scan.loop : ℕ → Scan → Option Scan
  | fuel, s =>
    if floor < s.pos ∧ s.found.length < limit then
      match fuel with
      | 0 => none
      | fuel + 1 => Scan.loop fuel (s.step decode limit maxLine content block floor)
    else some s

/-- The `else` branch of the loop. No `break` leaves the loop, so it runs always. -/
def Scan.atStart (s : Scan) : List Text :=
  if s.pos = 0 ∧ s.found.length < limit ∧ isIncident s.tail then
    s.found ++ [clean decode maxLine s.tail]
  else s.found

variable (maxScan : ℤ)

/-- `last_incidents`; `file` is none where it cannot be read, and the result is none where the scan
has not ended after `fuel` rounds. -/
def lastIncidents (fuel : ℕ) (file : Option Bytes) : Option (List Text) :=
  match file with
  | none => some []
  | some content =>
    let floor := (content.length - maxScan).toNat
    let start : Scan := { pos := content.length, tail := [], found := [] }
    (start.loop decode limit maxLine content block floor fuel).map fun s =>
      (s.atStart decode limit maxLine).reverse

/-! ## The plain scan -/

/-- A line counts if it is an incident and starts at the start of a file within the cap, or right
after a newline in the last `maxScan` bytes. -/
def counts (p : ℕ × Bytes) : Bool :=
  isIncident p.2 &&
    if p.1 = 0 then decide (content.length ≤ maxScan)
    else decide (content.length - maxScan ≤ (p.1 : ℤ) - 1)

/-- The incidents, by going over all lines of the file. -/
def plainIncidents : List Text :=
  ((((linesFrom 0 (content.splitOn newline)).filter (counts content maxScan)).rtake limit).map
    fun p => clean decode maxLine p.2)

/-! ## What the loop keeps -/

/-- The hits are the last ones, newest first, of all lines that start after `pos`. -/
structure Scan.Ok (s : Scan) : Prop where
  pos_le : s.pos ≤ content.length
  floor_le : floor ≤ s.pos ∨ s.pos = content.length
  lines : ∃ ls, (content.drop s.pos).splitOn newline = s.tail :: ls ∧
    s.found = (((ls.filter isIncident).map (clean decode maxLine)).reverse).take limit

variable {limit content block floor maxScan decode maxLine}

theorem collect_eq {found : List Text} (h : found.length < limit) (lines : List Bytes) :
    collect decode limit maxLine found lines =
      (found ++ (lines.filter isIncident).map (clean decode maxLine)).take limit := by
  induction lines generalizing found with
  | nil => simp [collect, List.take_of_length_le h.le]
  | cons line rest ih =>
    rw [collect]
    by_cases hi : isIncident line
    · rw [if_pos hi, List.filter_cons_of_pos hi, List.map_cons,
        List.append_cons found _ (List.map _ _)]
      by_cases hl : limit ≤ (found ++ [clean decode maxLine line]).length
      · have hlen : (found ++ [clean decode maxLine line]).length = limit := by
          rw [List.length_append, List.length_singleton] at hl ⊢
          omega
        simp only [if_pos hl]
        rw [← hlen, List.take_left]
      · simp only [if_neg hl]
        exact ih (not_le.mp hl)
    · rw [if_neg hi, List.filter_cons_of_neg hi, ih h]

theorem start_ok :
    Scan.Ok decode limit maxLine content floor
      { pos := content.length, tail := [], found := [] } where
  pos_le := le_rfl
  floor_le := Or.inr rfl
  lines := ⟨[], by simp⟩

theorem Scan.step_ok {s : Scan} (hs : s.Ok decode limit maxLine content floor)
    (hpos : floor < s.pos) (hfound : s.found.length < limit) :
    (s.step decode limit maxLine content block floor).Ok decode limit maxLine content floor := by
  obtain ⟨ls, hsplit, hls⟩ := hs.lines
  set size := min block (s.pos - floor) with hsize
  have hdrop : content.drop (s.pos - size) =
      (content.drop (s.pos - size)).take size ++ content.drop s.pos := by
    conv_lhs => rw [← List.take_append_drop size (content.drop (s.pos - size))]
    rw [List.drop_drop]
    congr 2
    omega
  obtain ⟨t', ls', hdata, hall⟩ := splitOn_prepend hsplit ((content.drop (s.pos - size)).take size)
  refine ⟨?_, ?_, ls' ++ ls, ?_, ?_⟩
  · exact (Nat.sub_le ..).trans hs.pos_le
  · left
    simp only [Scan.step, ← hsize]
    omega
  · simp only [Scan.step, ← hsize, hdata, List.headD_cons]
    rw [hdrop, hall]
  · simp only [Scan.step, ← hsize, hdata, List.tail_cons]
    rw [hls, List.length_take] at hfound
    replace hfound :
        (((ls.filter isIncident).map (clean decode maxLine)).reverse).length < limit := by
      omega
    rw [hls, List.take_of_length_le hfound.le, collect_eq hfound, List.filter_append,
      List.map_append, List.reverse_append, List.filter_reverse, List.map_reverse]

theorem Scan.loop_ok (hblock : 1 ≤ block) {s : Scan} {fuel : ℕ}
    (hs : s.Ok decode limit maxLine content floor) (hfuel : s.pos < fuel) :
    ∃ s', s.loop decode limit maxLine content block floor fuel = some s' ∧
      s'.Ok decode limit maxLine content floor ∧ (s'.pos ≤ floor ∨ limit ≤ s'.found.length) := by
  induction fuel generalizing s with
  | zero => exact absurd hfuel (Nat.not_lt_zero _)
  | succ fuel ih =>
    rw [Scan.loop]
    by_cases hc : floor < s.pos ∧ s.found.length < limit
    · rw [if_pos hc]
      apply ih (Scan.step_ok hs hc.1 hc.2)
      simp only [Scan.step]
      omega
    · rw [if_neg hc]
      refine ⟨s, rfl, hs, ?_⟩
      omega

/-! ## What it returns -/

/-- Lines that start after a byte of the last `maxScan` ones count by the marker alone. -/
theorem filter_counts {off : ℕ} (hoff : (content.length - maxScan).toNat < off) (ls : List Bytes) :
    ((linesFrom off ls).filter (counts content maxScan)).map (fun p => clean decode maxLine p.2) =
      (ls.filter isIncident).map (clean decode maxLine) := by
  have hcounts : ∀ p ∈ linesFrom off ls, counts content maxScan p = isIncident p.2 := by
    intro p hp
    have hle := le_of_mem_linesFrom hp
    rw [counts, if_neg (by omega), decide_eq_true (by omega), Bool.and_true]
  rw [List.filter_congr hcounts]
  conv_rhs => rw [← map_snd_linesFrom off ls, List.filter_map, List.map_map]
  rfl

/-- A line that starts no later than the scan went does not count, apart from the first one. -/
theorem counts_before {p : ℕ × Bytes} {pos : ℕ} (hp : p.1 ≤ pos)
    (hpos : pos ≤ (content.length - maxScan).toNat) (h0 : pos ≠ 0) :
    counts content maxScan p = false := by
  rw [counts]
  by_cases hp0 : p.1 = 0
  · rw [if_pos hp0, decide_eq_false (by omega), Bool.and_false]
  · rw [if_neg hp0, decide_eq_false (by omega), Bool.and_false]

/-- The lines before the partial one, that line, and the hits of the scan. -/
theorem plainIncidents_eq {s : Scan} {ls : List Bytes}
    (hs : s.Ok decode limit maxLine content (content.length - maxScan).toNat)
    (hsplit : (content.drop s.pos).splitOn newline = s.tail :: ls) :
    ∃ first pre, (∀ p ∈ pre, p.1 ≤ s.pos) ∧ (s.pos = 0 → first = s.tail ∧ pre = []) ∧
      plainIncidents decode limit maxLine content maxScan =
        ((((0, first) :: pre).filter (counts content maxScan)).map
            (fun p => clean decode maxLine p.2) ++
          (ls.filter isIncident).map (clean decode maxLine)).rtake limit := by
  obtain ⟨first, pre, hlines, hpre, hfirst⟩ := linesFrom_prepend hsplit 0 (content.take s.pos)
  rw [List.take_append_drop, List.length_take_of_le hs.pos_le, Nat.zero_add] at hlines
  rw [List.length_take_of_le hs.pos_le, Nat.zero_add] at hpre
  have hrest : ((linesFrom (s.pos + s.tail.length + 1) ls).filter (counts content maxScan)).map
      (fun p => clean decode maxLine p.2) = (ls.filter isIncident).map (clean decode maxLine) := by
    cases hs.floor_le with
    | inl hle => exact filter_counts (by omega) ls
    | inr heq =>
      rw [heq, List.drop_length, List.splitOn_nil, List.cons.injEq] at hsplit
      rw [← hsplit.2]
      rfl
  refine ⟨first, pre, hpre, ?_, ?_⟩
  · intro h0
    exact hfirst (by rw [h0, List.take_zero])
  · rw [plainIncidents, hlines, ← List.cons_append, List.rtake, List.map_drop, ← hrest,
      ← List.map_append, ← List.filter_append, List.rtake, List.length_map]

/-- The partial line at the start of the file. -/
theorem counts_tail {s : Scan} {ls : List Bytes}
    (hs : s.Ok decode limit maxLine content (content.length - maxScan).toNat)
    (hsplit : (content.drop s.pos).splitOn newline = s.tail :: ls) (h0 : s.pos = 0) :
    counts content maxScan (0, s.tail) = isIncident s.tail := by
  rw [counts, if_pos rfl]
  by_cases hcap : (content.length : ℤ) ≤ maxScan
  · rw [decide_eq_true hcap, Bool.and_true]
  · have hlen : s.pos = content.length := hs.floor_le.resolve_left (by omega)
    rw [hlen, List.drop_length, List.splitOn_nil, List.cons.injEq] at hsplit
    rw [← hsplit.1]
    rfl

theorem rtake_of_length_le {α : Type} {l : List α} {n : ℕ} (h : l.length ≤ n) : l.rtake n = l := by
  rw [List.rtake, Nat.sub_eq_zero_of_le h, List.drop_zero]

theorem atStart_reverse {s : Scan}
    (hs : s.Ok decode limit maxLine content (content.length - maxScan).toNat)
    (hend : s.pos ≤ (content.length - maxScan).toNat ∨ limit ≤ s.found.length) :
    (s.atStart decode limit maxLine).reverse =
      plainIncidents decode limit maxLine content maxScan := by
  obtain ⟨ls, hsplit, hls⟩ := hs.lines
  obtain ⟨first, pre, hpre, hfirst, hplain⟩ := plainIncidents_eq hs hsplit
  rw [hplain]
  set hits := (ls.filter isIncident).map (clean decode maxLine) with hhits
  by_cases hfull : limit ≤ s.found.length
  · have hlen : limit ≤ hits.reverse.length := by
      rw [hls, List.length_take] at hfull
      omega
    rw [Scan.atStart, if_neg (by omega), hls, List.rtake_eq_reverse_take_reverse,
      List.reverse_append, List.take_append_of_le_length hlen]
  · have hlen : hits.length < limit := by
      rw [hls, List.length_take, List.length_reverse] at hfull
      omega
    have hfound : s.found = hits.reverse := by
      rw [hls, List.take_of_length_le (by rw [List.length_reverse]; exact hlen.le)]
    have hpos := hend.resolve_right hfull
    by_cases h0 : s.pos = 0
    · obtain ⟨rfl, rfl⟩ := hfirst h0
      have hcounts := counts_tail hs hsplit h0
      by_cases hi : isIncident s.tail
      · rw [Scan.atStart, if_pos ⟨h0, not_le.mp hfull, hi⟩, hfound,
          List.filter_cons_of_pos (hcounts.trans hi), List.filter_nil,
          rtake_of_length_le (by simp only [List.map_cons, List.length_append,
            List.map_nil, List.length_singleton]; omega), List.reverse_append,
          List.reverse_reverse]
        rfl
      · rw [Scan.atStart, if_neg (by simp [hi]), hfound,
          List.filter_cons_of_neg (by rwa [hcounts]), List.filter_nil, List.map_nil,
          List.nil_append, List.reverse_reverse, rtake_of_length_le hlen.le]
    · have hnone : ((0, first) :: pre).filter (counts content maxScan) = [] := by
        rw [List.filter_eq_nil_iff]
        intro p hp
        have hle : p.1 ≤ s.pos := by
          cases List.mem_cons.mp hp with
          | inl h => rw [h]; exact Nat.zero_le _
          | inr h => exact hpre p h
        rw [counts_before hle hpos h0]
        exact Bool.false_ne_true
      rw [Scan.atStart, if_neg (by simp [h0]), hfound, hnone, List.map_nil, List.nil_append,
        List.reverse_reverse, rtake_of_length_le hlen.le]

/-- **The backward scan is the plain one**, for every file, limit, line cap, block size and scan
cap. -/
theorem lastIncidents_eq (hblock : 1 ≤ block) {fuel : ℕ} (hfuel : content.length < fuel) :
    lastIncidents decode limit maxLine block maxScan fuel (some content) =
      some (plainIncidents decode limit maxLine content maxScan) := by
  have hstart : Scan.Ok decode limit maxLine content (content.length - maxScan).toNat _ := start_ok
  obtain ⟨s, hloop, hs, hend⟩ := Scan.loop_ok hblock hstart hfuel
  simp only [lastIncidents, hloop, Option.map_some, atStart_reverse hs hend]

end Scan

/-- One byte a character, as for plain ASCII. -/
def ascii (raw : Bytes) : Text := raw.map fun b => Char.ofNat b.toNat

def twoLines : Bytes :=
  "a INCIDENT start\nb INCIDENT end\n".toList.map fun c => UInt8.ofNat c.toNat

/-- In blocks of five bytes, which cut both lines and a marker. -/
theorem lastIncidents_eq_twoLines :
    lastIncidents ascii 2 9 5 64 33 (some twoLines) =
      some (plainIncidents ascii 2 9 twoLines 64) ∧
    plainIncidents ascii 2 9 twoLines 64 = ["a INCIDEN".toList, "b INCIDEN".toList] :=
  ⟨lastIncidents_eq (by decide) (by decide), by decide⟩

end HaAddons.HaosMonitor.Incidents
