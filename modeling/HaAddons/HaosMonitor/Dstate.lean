import HaAddons.HaosMonitor.Status
import HaAddons.Lib.Lines

/-!
# Blocked tasks

A sample is a SAMPLE line and the DISK and DSTATE lines after it. The monitor appends them one at a
time, while the incident marker, MQTT and the web page run `status.sh` on their own schedules, and
its count of blocked tasks starts anew at each SAMPLE line.

* `awk_dstate` — the count is that of the newest group, as far as it is written.
* `one_le_dstate_iff` — when a run reports a blocked task.
* `blocked_visible` — over whole runs: what is reported, and which incidents are logged.
-/

namespace HaAddons.HaosMonitor

/-! ## Groups of lines -/

def isSample (line : Text) : Bool := field line 2 == "SAMPLE".toList

/-- A DSTATE line that counts. -/
def isTask (line : Text) : Bool := field line 2 == "DSTATE".toList && countsTask line

/-- The lines after the last SAMPLE line. -/
def newestGroup : List Text → Option (List Text)
  | [] => none
  | l :: ls =>
    match newestGroup ls with
    | some g => some g
    | none => if isSample l then some ls else none

/-- The newest group of the state file has its SAMPLE line among the last 3000 lines, and one of the
lines that were written after it is that of a task that counts. -/
def Caught (file : List Text) : Prop :=
  ∃ before s g, file = before ++ s :: g ∧ (passes s = true ∧ isSample s = true) ∧
    (∀ l ∈ g, ¬(passes l = true ∧ isSample l = true)) ∧
    (∃ l ∈ g, passes l = true ∧ isTask l = true) ∧ g.length < 3000

section Groups

variable {ls g : List Text}

theorem newestGroup_eq_none_iff : newestGroup ls = none ↔ ∀ l ∈ ls, isSample l = false := by
  induction ls with
  | nil => simp [newestGroup]
  | cons l ls ih =>
    rw [newestGroup, List.forall_mem_cons]
    cases h : newestGroup ls with
    | none =>
      have hls := ih.mp h
      cases hl : isSample l <;> simp_all
    | some g =>
      have hls : ¬∀ l ∈ ls, isSample l = false := fun hall => by
        rw [ih.mpr hall] at h
        cases h
      simp [hls]

theorem newestGroup_eq_some_iff :
    newestGroup ls = some g ↔
      ∃ before s, ls = before ++ s :: g ∧ isSample s = true ∧ ∀ l ∈ g, isSample l = false := by
  induction ls with
  | nil => simp [newestGroup]
  | cons l ls ih =>
    rw [newestGroup]
    cases h : newestGroup ls with
    | none =>
      have hnone := newestGroup_eq_none_iff.mp h
      constructor
      · intro hsome
        cases hl : isSample l with
        | true =>
          rw [hl] at hsome
          cases hsome
          exact ⟨[], l, rfl, hl, hnone⟩
        | false =>
          rw [hl] at hsome
          cases hsome
      · rintro ⟨before, s, hsplit, hs, hg⟩
        cases before with
        | nil =>
          cases hsplit
          simp [hs]
        | cons b before =>
          cases hsplit
          have := hnone s (by simp)
          simp [hs] at this
    | some g' =>
      rw [h] at ih
      constructor
      · intro hg
        obtain ⟨before, s, rfl, hs, hall⟩ := ih.mp hg
        exact ⟨l :: before, s, rfl, hs, hall⟩
      · rintro ⟨before, s, hsplit, hs, hg⟩
        cases before with
        | nil =>
          cases hsplit
          rw [newestGroup_eq_none_iff.mpr hg] at h
          cases h
        | cons b before =>
          cases hsplit
          exact ih.mpr ⟨before, s, rfl, hs, hg⟩

theorem length_tail3000_le (file : List Text) : (tail3000 file).length ≤ 3000 := by
  rw [tail3000, List.length_drop]
  omega

/-- What is read holds the end of the file, and no more than 3000 lines of it. -/
theorem tail3000_append {before after : List Text} (h : after.length ≤ 3000) :
    ∃ b, tail3000 (before ++ after) = b ++ after := by
  refine ⟨before.drop ((before ++ after).length - 3000), ?_⟩
  rw [tail3000, List.drop_append_of_le_length]
  rw [List.length_append]
  omega

/-- The newest group of the lines that are read. -/
theorem caught_iff (file : List Text) :
    Caught file ↔
      ∃ g, newestGroup ((tail3000 file).filter passes) = some g ∧ ∃ l ∈ g, isTask l = true := by
  constructor
  · rintro ⟨before, s, g, rfl, hs, hg, ⟨l, hl, htask⟩, hlen⟩
    obtain ⟨b, hb⟩ := @tail3000_append before (s :: g) hlen
    refine ⟨g.filter passes, ?_, l, List.mem_filter.mpr ⟨hl, htask.1⟩, htask.2⟩
    rw [newestGroup_eq_some_iff, hb]
    refine ⟨b.filter passes, s, ?_, hs.2, ?_⟩
    · rw [List.filter_append, List.filter_cons_of_pos hs.1]
    · intro k hk
      rw [List.mem_filter] at hk
      have := hg k hk.1
      simpa [hk.2] using this
  · rintro ⟨g, hnewest, l, hl, htask⟩
    obtain ⟨before, s, hsplit, hs, hg⟩ := newestGroup_eq_some_iff.mp hnewest
    obtain ⟨b, t, htail, -, ht⟩ := List.filter_eq_append_iff.mp hsplit
    obtain ⟨b', g', rfl, hb', hps, hg'⟩ := List.filter_eq_cons_iff.mp ht
    have hlen := length_tail3000_le file
    rw [htail] at hlen
    simp only [List.length_append, List.length_cons] at hlen
    refine ⟨file.take (file.length - 3000) ++ b ++ b', s, g', ?_, ⟨hps, hs⟩, ?_, ?_, by omega⟩
    · rw [List.append_assoc, List.append_assoc, ← htail, tail3000, List.take_append_drop]
    · intro k hk hks
      have := hg k (by rw [← hg']; exact List.mem_filter.mpr ⟨hk, hks.1⟩)
      rw [hks.2] at this
      cases this
    · rw [← hg', List.mem_filter] at hl
      exact ⟨l, hl.1, hl.2, htask⟩

end Groups

/-! ## One run of `status.sh` -/

section Run

variable {F : Type} (a : Machine F) (s : Awk F) {l : Text}

theorem field_one_ne_nil (h : field l 2 ≠ []) : field l 1 ≠ [] := by
  have hall : ∀ f ∈ fields l, f ≠ [] := fun f hf => by simpa using (List.mem_filter.mp hf).2
  unfold field at h ⊢
  cases hf : fields l with
  | nil => simp [hf] at h
  | cons f fs =>
    rw [hf] at hall
    exact hall f List.mem_cons_self

@[simp] theorem rebootCheck_sts (u : Text) : (rebootCheck a s u).sts = s.sts := by
  unfold rebootCheck
  split <;> rfl

@[simp] theorem rebootCheck_dstate (u : Text) : (rebootCheck a s u).dstate = s.dstate := by
  unfold rebootCheck
  split <;> rfl

/-- A SAMPLE line starts the count anew. -/
theorem awkLine_sample (h : isSample l = true) :
    (awkLine a s l).sts = field l 1 ∧ (awkLine a s l).dstate = 0 := by
  have hkind : field l 2 = "SAMPLE".toList := by simpa [isSample] using h
  simp [awkLine, hkind, sample]

theorem probePort_keeps (kv : List Text) :
    (probePort s kv).sts = s.sts ∧ (probePort s kv).dstate = s.dstate := by
  unfold probePort
  simp only
  split_ifs <;> exact ⟨rfl, rfl⟩

theorem probe_keeps (l : Text) : (probe s l).sts = s.sts ∧ (probe s l).dstate = s.dstate := by
  have hfold : ∀ (kvs : List Text) (s : Awk F),
      (kvs.foldl (fun s kv => probePort s (kv.splitOn '=')) s).sts = s.sts ∧
        (kvs.foldl (fun s kv => probePort s (kv.splitOn '=')) s).dstate = s.dstate := by
    intro kvs
    induction kvs with
    | nil => exact fun s => ⟨rfl, rfl⟩
    | cons kv kvs ih =>
      intro s
      have hone := probePort_keeps s (kv.splitOn '=')
      rw [List.foldl_cons, (ih _).1, (ih _).2]
      exact hone
  exact hfold _ _

/-- Every other line keeps the sample, and a task that counts is one more. -/
theorem awkLine_other (h : isSample l = false) :
    (awkLine a s l).sts = s.sts ∧
      (awkLine a s l).dstate = s.dstate + if isTask l then 1 else 0 := by
  have hkind : field l 2 ≠ "SAMPLE".toList := by simpa [isSample] using h
  unfold awkLine isTask
  rw [if_neg hkind]
  by_cases hd : field l 2 = "DSTATE".toList
  · have h1 : ¬field l 2 = "SYNC".toList := by rw [hd]; decide
    have h2 : ¬field l 2 = "BOOT".toList := by rw [hd]; decide
    have h3 : ¬field l 2 = "KERR".toList := by rw [hd]; decide
    have h4 : ¬field l 2 = "DISK".toList := by rw [hd]; decide
    rw [if_neg h1, if_neg h2, if_neg h3, if_neg h4, if_pos hd, dstate]
    cases hc : countsTask l <;> simp [hd]
  · have hne : (field l 2 == "DSTATE".toList) = false := by simpa using hd
    rw [if_neg hd, hne, Bool.false_and]
    simp only [Bool.false_eq_true, if_false, Nat.add_zero]
    split_ifs
    · unfold sync
      simp only
      split_ifs <;> exact ⟨rfl, rfl⟩
    · simp
    · unfold kerr
      simp only
      split_ifs <;> exact ⟨rfl, rfl⟩
    · unfold disk
      split_ifs <;> exact ⟨rfl, rfl⟩
    · exact probe_keeps s l
    · exact ⟨rfl, rfl⟩

/-- **The count after the lines** is that of the newest group. -/
theorem foldl_awkLine (data : List Text) :
    (newestGroup data = none → (data.foldl (awkLine a) s).sts = s.sts ∧
        (data.foldl (awkLine a) s).dstate = s.dstate + data.countP isTask) ∧
      ∀ g, newestGroup data = some g → (data.foldl (awkLine a) s).sts ≠ [] ∧
        (data.foldl (awkLine a) s).dstate = g.countP isTask := by
  induction data generalizing s with
  | nil => simp [newestGroup]
  | cons l ls ih =>
    obtain ⟨hnone, hsome⟩ := ih (awkLine a s l)
    rw [List.foldl_cons]
    cases hg : newestGroup ls with
    | some g => simpa [newestGroup, hg] using hsome g hg
    | none =>
      obtain ⟨hsts, hcount⟩ := hnone hg
      rw [hsts, hcount]
      cases hl : isSample l with
      | true =>
        obtain ⟨hone, hzero⟩ := awkLine_sample a s hl
        have hkind : field l 2 ≠ [] := by
          have : field l 2 = "SAMPLE".toList := by simpa [isSample] using hl
          rw [this]
          decide
        simp [newestGroup, hg, hl, hone, hzero, field_one_ne_nil hkind]
      | false =>
        obtain ⟨hone, hd⟩ := awkLine_other a s hl
        simp [newestGroup, hg, hl, hone, hd, List.countP_cons]
        omega

theorem awk_dstate (data : List Text) :
    (awk a data).dstate = (newestGroup data).elim (-1) fun g => (g.countP isTask : ℤ) := by
  obtain ⟨hnone, hsome⟩ := foldl_awkLine a Awk.init data
  unfold awk awkEnd
  cases hg : newestGroup data with
  | none =>
    have hsts : (data.foldl (awkLine a) Awk.init).sts = [] := (hnone hg).1
    simp [hsts]
  | some g => simp [(hsome g hg).1, (hsome g hg).2]

/-- **When a run reports a blocked task.** -/
theorem one_le_dstate_iff (t : Thresholds) (epoch : Text → Option ℤ) (now : ℤ) (f : Logs)
    {file : List Text} (hf : f.state = some file) :
    1 ≤ (status a t epoch now f).vars.dstate ↔ Caught file := by
  have hdata : f.data = (tail3000 file).filter passes := by rw [Logs.data, hf]
  rw [status, awk_dstate, hdata, caught_iff]
  cases hg : newestGroup ((tail3000 file).filter passes) with
  | none => simp
  | some g =>
    have hpos : (1 : ℤ) ≤ g.countP isTask ↔ 0 < g.countP isTask := by omega
    simp [hpos, List.countP_pos_iff]

end Run

/-! ## The monitor and its readers -/

/-- The lines of the incident marker. -/
inductive Marker where
  | start (r : Report)
  | change (reasons : Text)
  | finish (duration : ℤ)

def Marker.isStart : Marker → Bool
  | .start _ => true
  | _ => false

def Marker.isEnd : Marker → Bool
  | .finish _ => true
  | _ => false

/-- The state file, the variables of `incidents` and the markers it logged. -/
structure World where
  file : List Text
  /-- `$LOG.state.tmp`, while `trim_state` is at work -/
  tmp : Option (List Text)
  prev : Bool
  reasonsPrev : Text
  since : ℤ
  markers : List Marker

inductive Event where
  /-- `log` mirrors a line into the state file -/
  | append (line : Text)
  /-- `tail -n 3000` of `trim_state` -/
  | trimRead
  /-- `mv` of `trim_state` -/
  | trimMove
  /-- MQTT or the web page runs `status.sh` -/
  | status (now : ℤ)
  /-- a round of `incidents`; it is given up where the status cannot be read -/
  | incidents (now : ℤ) (readable : Bool)

/-- When an event runs `status.sh`. -/
def Event.runsAt : Event → Option ℤ
  | .status now => some now
  | .incidents now _ => some now
  | _ => none

section System

variable {F : Type} (a : Machine F) (t : Thresholds) (epoch : Text → Option ℤ)

/-- A run of `status.sh`; where there is a state file, the log is not read. -/
def report (now : ℤ) (file : List Text) : Report := status a t epoch now ⟨some file, [], []⟩

/-- The rest of a round of `incidents`. -/
def World.mark (w : World) (now : ℤ) (r : Report) : World :=
  let w' := { w with prev := r.problem, reasonsPrev := r.reasons }
  if r.problem && !w.prev then { w' with since := now, markers := w.markers ++ [.start r] }
  else if r.problem && r.reasons != w.reasonsPrev then
    { w' with markers := w.markers ++ [.change r.reasons] }
  else if !r.problem && w.prev then { w' with markers := w.markers ++ [.finish (now - w.since)] }
  else w'

def World.step (w : World) : Event → World
  | .append line => { w with file := w.file ++ [line] }
  | .trimRead => { w with tmp := some (tail3000 w.file) }
  | .trimMove => { w with file := w.tmp.getD w.file, tmp := none }
  | .status _ => w
  | .incidents now readable => if readable then w.mark now (report a t epoch now w.file) else w

/-- The time of each run of `status.sh` and the state file it finds. -/
def World.runs (w : World) : List Event → List (ℤ × List Text)
  | [] => []
  | e :: es => (e.runsAt.toList.map fun now => (now, w.file)) ++ (w.step a t epoch e).runs es

/-- What the runs report. -/
def World.reports (w : World) (es : List Event) : List Report :=
  (w.runs a t epoch es).map fun r => report a t epoch r.1 r.2

def World.exec (w : World) (es : List Event) : World := es.foldl (World.step a t epoch) w

theorem report_problem (now : ℤ) {file : List Text} (ht : t.problemDstate = 1)
    (h : Caught file) : (report a t epoch now file).problem = true := by
  have hd := (one_le_dstate_iff a t epoch now ⟨some file, [], []⟩ rfl).mpr h
  have hr : (report a t epoch now file).rDstate = true := by
    rw [report, status_rDstate, ht]
    exact decide_eq_true hd
  rw [Report.problem, hr]
  simp

/-- One step with a blocked task in sight: it logs no end, and a start only after none. -/
theorem step_markers {w : World} {e : Event} (ht : t.problemDstate = 1)
    (h : ∀ now, e.runsAt = some now → Caught w.file) :
    ∃ new, (w.step a t epoch e).markers = w.markers ++ new ∧ (∀ m ∈ new, m.isEnd = false) ∧
      new.countP Marker.isStart + w.prev.toNat ≤ (w.step a t epoch e).prev.toNat := by
  cases e with
  | append line => exact ⟨[], by simp [World.step]⟩
  | trimRead => exact ⟨[], by simp [World.step]⟩
  | trimMove => exact ⟨[], by simp [World.step]⟩
  | status now => exact ⟨[], by simp [World.step]⟩
  | incidents now readable =>
    cases readable with
    | false => exact ⟨[], by simp [World.step]⟩
    | true =>
      have hp := report_problem a t epoch now ht (h now rfl)
      simp only [World.step, if_true, World.mark, hp, Bool.true_and, Bool.not_true, Bool.false_and,
        Bool.false_eq_true, if_false]
      cases hprev : w.prev with
      | false =>
        exact ⟨[.start (report a t epoch now w.file)], by simp [Marker.isEnd, Marker.isStart]⟩
      | true =>
        simp only [Bool.not_true, Bool.false_eq_true, if_false]
        split
        · exact ⟨[.change (report a t epoch now w.file).reasons],
            by simp [Marker.isEnd, Marker.isStart]⟩
        · exact ⟨[], by simp⟩

theorem exec_markers {w : World} {es : List Event} (ht : t.problemDstate = 1)
    (h : ∀ r ∈ w.runs a t epoch es, Caught r.2) :
    ∃ new, (w.exec a t epoch es).markers = w.markers ++ new ∧ (∀ m ∈ new, m.isEnd = false) ∧
      new.countP Marker.isStart + w.prev.toNat ≤ (w.exec a t epoch es).prev.toNat := by
  induction es generalizing w with
  | nil => exact ⟨[], by simp [World.exec]⟩
  | cons e es ih =>
    rw [World.runs, List.forall_mem_append] at h
    have hnow : ∀ now, e.runsAt = some now → Caught w.file := by
      intro now hr
      exact h.1 (now, w.file) (by simp [hr])
    obtain ⟨new, hnew, hend, hcount⟩ := step_markers a t epoch ht hnow
    obtain ⟨new', hnew', hend', hcount'⟩ := ih h.2
    refine ⟨new ++ new', ?_, ?_, ?_⟩
    · rw [World.exec, List.foldl_cons, ← World.exec, hnew', hnew, List.append_assoc]
    · rw [List.forall_mem_append]
      exact ⟨hend, hend'⟩
    · rw [World.exec, List.foldl_cons, ← World.exec, List.countP_append]
      omega

/-- **A blocked task is visible in every run** that finds it in the newest group, over every
interleaving: then the problem flag is set, and no end and no second start of an incident is
logged. -/
theorem blocked_visible (w : World) (es : List Event) (ht : t.problemDstate = 1) :
    ((∀ r ∈ w.reports a t epoch es, 1 ≤ r.vars.dstate) ↔
        ∀ r ∈ w.runs a t epoch es, Caught r.2) ∧
      ((∀ r ∈ w.runs a t epoch es, Caught r.2) →
        (∀ r ∈ w.reports a t epoch es, r.problem = true) ∧
        ∃ new, (w.exec a t epoch es).markers = w.markers ++ new ∧ (∀ m ∈ new, m.isEnd = false) ∧
          new.countP Marker.isStart ≤ if w.prev then 0 else 1) := by
  refine ⟨?_, ?_⟩
  · rw [World.reports, List.forall_mem_map]
    exact forall₂_congr fun r _ => one_le_dstate_iff a t epoch r.1 ⟨some r.2, [], []⟩ rfl
  · intro h
    refine ⟨?_, ?_⟩
    · rw [World.reports, List.forall_mem_map]
      exact fun r hr => report_problem a t epoch r.1 ht (h r hr)
    · obtain ⟨new, hnew, hend, hcount⟩ := exec_markers a t epoch ht h
      refine ⟨new, hnew, hend, ?_⟩
      have hle := (w.exec a t epoch es).prev.toNat_le
      cases hprev : w.prev with
      | false =>
        rw [if_neg (by simp)]
        omega
      | true =>
        rw [hprev, Bool.toNat_true] at hcount
        rw [if_pos rfl]
        omega

end System

/-! ### A task that stays blocked -/

/-- The groups of a log, each as the lines after its SAMPLE line. -/
def groups : List Text → List (List Text)
  | [] => []
  | l :: ls => if isSample l then ls.takeWhile (!isSample ·) :: groups ls else groups ls

def number (s : Text) : ℤ :=
  if s = minusOne then -1 else s.foldl (fun n c => 10 * n + (c.toNat - '0'.toNat : ℤ)) 0

/-- An awk whose numbers are integers, for lines that hold no others. -/
def intAwk : Machine ℤ where
  num := number
  int := id
  add := (· + ·)
  sub := (· - ·)
  div := (· / ·)
  lt x y := decide (x < y)
  atLeast s n := decide (n ≤ number s)
  forIn := id

def defaults : Thresholds := ⟨60, 30, 8, 1, 1⟩

/-- `date -d` on the one timestamp below. -/
def noonEpoch (_ : Text) : Option ℤ := some 1782907200

def noon : ℤ := 1782907200

def sampleLine : Text := "2026-07-01T12:00:00Z SAMPLE up=4711".toList

def ddLine : Text := "2026-07-01T12:00:00Z DSTATE 7 (dd) wchan=io_schedule".toList

def World.empty : World := ⟨[], none, false, [], 0, []⟩

/-- A sample with a blocked task, a round of `incidents`, and the same once more. -/
def wholeSamples : List Event :=
  [.append sampleLine, .append ddLine, .incidents noon true,
    .append sampleLine, .append ddLine, .incidents noon true]

theorem caught_dd (before : List Text) : Caught (before ++ [sampleLine, ddLine]) :=
  ⟨before, sampleLine, [ddLine], rfl, by decide, by decide, by decide, by decide⟩

/-- Both rounds see the task. -/
theorem blocked_visible_wholeSamples :
    (∀ r ∈ World.empty.reports intAwk defaults noonEpoch wholeSamples,
        1 ≤ r.vars.dstate ∧ r.problem = true) ∧
      ∃ new, (World.empty.exec intAwk defaults noonEpoch wholeSamples).markers = [] ++ new ∧
        (∀ m ∈ new, m.isEnd = false) ∧ new.countP Marker.isStart ≤ 1 := by
  have hruns : ∀ r ∈ World.empty.runs intAwk defaults noonEpoch wholeSamples, Caught r.2 := by
    have hfiles : (World.empty.runs intAwk defaults noonEpoch wholeSamples).map (·.2) =
        [[sampleLine, ddLine], [sampleLine, ddLine, sampleLine, ddLine]] := by decide +kernel
    intro r hr
    have hmem := List.mem_map_of_mem (f := (·.2)) hr
    rw [hfiles, List.mem_pair] at hmem
    cases hmem with
    | inl h => exact h ▸ caught_dd []
    | inr h => exact h ▸ caught_dd [sampleLine, ddLine]
  have h := blocked_visible intAwk defaults noonEpoch World.empty wholeSamples rfl
  exact ⟨fun r hr => ⟨h.1.mpr hruns r hr, (h.2 hruns).1 r hr⟩, (h.2 hruns).2⟩

/-- One round more, after the SAMPLE line of the second sample. -/
def halfSample : List Event :=
  [.append sampleLine, .append ddLine, .incidents noon true,
    .append sampleLine, .incidents noon true, .append ddLine, .incidents noon true]

/-- Every group holds the blocked task; the round in between reports none, logs the end of the
incident, and the next one a second start. -/
theorem blocked_visible_halfSample :
    ((groups (World.empty.exec intAwk defaults noonEpoch halfSample).file).all
        fun g => g.any isTask) = true ∧
      (World.empty.reports intAwk defaults noonEpoch halfSample).map (·.vars.dstate) = [1, 0, 1] ∧
      ((World.empty.exec intAwk defaults noonEpoch halfSample).markers.map
        fun m => (m.isStart, m.isEnd)) = [(true, false), (false, true), (true, false)] := by
  decide +kernel

end HaAddons.HaosMonitor
