import HaAddons.SecretsSync.Supervisor
import HaAddons.SecretsSync.SyncLoop

/-!
# The health endpoint

`GET /api/health` answers 200 if the state file says `ok` and not `stale`. Age and staleness are
computed when the file is written; a write that fails is swallowed, and the answer does not look at
how old the file is.

The loop of `SyncLoop` runs here in real time: a cycle or a probe ends within a given duration,
`_wake.wait` within its timeout, and everything else takes no time. The clock may show anything.
-/

namespace HaAddons.SecretsSync

/-! ## The state file -/

/-- The fields of `StateStore` that decide the answer. -/
structure StateStore where
  startedAt : ℚ
  status : Status := .starting
  lastSuccessAt : Option ℚ := none
  deriving DecidableEq

/-- The part of `state.json` that `health` reads. -/
structure Saved where
  status : Status
  ageSeconds : Option ℤ
  interval : ℤ
  stale : Bool
  deriving DecidableEq

/-- `int(x)` -/
def truncated (x : ℚ) : ℤ := if x < 0 then x.ceil else x.floor

def StateStore.render (st : StateStore) (interval : ℕ) (now : ℚ) : Saved :=
  let age := st.lastSuccessAt.map fun last => truncated (now - last)
  { status := st.status
    ageSeconds := age
    interval := interval
    stale := (age.elim (now - st.startedAt) fun a => (a : ℚ)) > 2 * interval }

/-- `_is_stale` -/
def Saved.isStale (state : Saved) : Bool :=
  state.stale || state.ageSeconds.any fun age => age > 2 * state.interval

/-- `health(read_state(path))`, up to the body. -/
def health (file : Option Saved) : ℕ :=
  match file with
  | none => 503
  | some state => if state.status = .ok ∧ !state.isStale then 200 else 503

/-! ## Ends of a cycle -/

/-- How a cycle ends: a write with all providers, a write without some of them or with files left
out, no write, a config that cannot be used, or an exception, before or after `last_success_at` is
set. -/
inductive CycleEnd where
  | ok
  | partly
  | failed
  | unusable
  | raised (advanced : Bool)
  deriving DecidableEq, Repr

/-- What `_cycle` and `_finish` leave in the state; `now` is the start of the cycle. -/
def StateStore.finish (st : StateStore) (now : ℚ) : CycleEnd → StateStore
  | .ok => { st with status := .ok, lastSuccessAt := some now }
  | .partly => { st with status := .degraded, lastSuccessAt := some now }
  | .failed => { st with status := if st.lastSuccessAt.isSome then .degraded else .error }
  | .unusable => { st with status := .error }
  | .raised advanced =>
    let last := if advanced then some now else st.lastSuccessAt
    { st with status := if last.any (· ≠ 0) then .degraded else .error, lastSuccessAt := last }

/-! ## The loop in real time -/

/-- Options, and the longest time that `run_once` or `run_check` takes. -/
structure HealthConfig where
  interval : ℕ
  checkInterval : ℕ
  longest : ℚ
  longest_nonneg : 0 ≤ longest

def HealthConfig.timing (cfg : HealthConfig) : Timing := ⟨cfg.interval, cfg.checkInterval⟩

/-- Seconds between state refreshes while idle. -/
def heartbeat : ℚ := 30

structure Answer where
  time : ℚ
  code : ℕ
  /-- when the last cycle with status `ok` had begun -/
  okSince : Option ℚ

/-- The supervisor, its state file and the time. The last five fields are kept for the statements:
what the clock was ahead of the time, when the last cycle began, when the last one with status `ok`
began, and the answers so far. -/
structure Watched where
  sync : LoopState := {}
  store : StateStore
  file : Option Saved
  begun : Bool := false
  /-- `now` in `_cycle` -/
  cycleNow : ℚ := 0
  /-- `now` in `_sleep` -/
  sleepNow : ℚ := 0
  time : ℚ
  /-- when the loop moves on at the latest -/
  due : ℚ
  ahead : ℚ
  cycleSince : ℚ := 0
  okSince : Option ℚ := none
  answers : List Answer := []

/-- The time, and what the clock shows. -/
structure Instant where
  time : ℚ
  clock : ℚ

/-- What a move of the loop meets. `saves` is whether a write of the state file succeeds. -/
structure Meets where
  ending : CycleEnd := .ok
  changed : Bool := false
  timedOut : Bool := false
  saves : Bool := true

inductive HealthMove where
  | begin (i : Instant) (saves : Bool)
  | loop (i : Instant) (m : Meets)
  | trigger (force : Bool) (i : Instant)
  | signal
  | request (time : ℚ)

namespace Watched

/-- The places where the state is saved: `_finish`, the end of a wait, and the end of `run_check`. -/
def savesAt (loop : LoopAt) (m : Meets) : Bool :=
  match loop with
  | .cycling _ => true
  | .blocked => m.timedOut
  | .checked => true
  | _ => false

/-- `state.save()` -/
def save (cfg : HealthConfig) (s : Watched) (now : ℚ) (saves : Bool) : Option Saved :=
  if saves then some (s.store.render cfg.interval now) else s.file

/-- The longest wait of `_sleep`. -/
def timeout (cfg : HealthConfig) (s : Watched) : ℚ :=
  let until' := s.sync.control.nextAt - s.sleepNow
  let remaining :=
    match s.sync.control.nextProbe with
    | some probeAt => if 0 < cfg.checkInterval then min until' (probeAt - s.sleepNow) else until'
    | none => until'
  min remaining heartbeat

/-- When the loop has to move on, once it stands at `loop`. -/
def dueAt (cfg : HealthConfig) (s : Watched) (time : ℚ) (loop : LoopAt) : ℚ :=
  match loop with
  | .starting _ | .checking => time + cfg.longest
  | .cycling _ | .probing | .signalling | .checked => s.due
  | .blocked => time + s.timeout cfg
  | .top | .cycled | .sleeping | .waiting | .clearing => time

/-- The clock reading that the loop works with. -/
def reading (s : Watched) (i : Instant) (m : Meets) : ℚ :=
  match s.sync.loop, m.ending with
  | .cycling _, .raised _ => i.clock
  | .cycling _, _ => s.cycleNow
  | _, _ => i.clock

/-- What the loop notes down before it saves. -/
def note (s : Watched) (i : Instant) (m : Meets) : Watched :=
  match s.sync.loop with
  | .starting _ => { s with cycleNow := i.clock, cycleSince := i.time }
  | .cycling _ =>
    { s with
      store := s.store.finish s.cycleNow m.ending
      okSince := if m.ending = .ok then some s.cycleSince else s.okSince }
  | .sleeping => { s with sleepNow := i.clock }
  | _ => s

/-- A move of the loop. -/
def loopMove (cfg : HealthConfig) (s : Watched) (i : Instant) (m : Meets) : Option Watched :=
  let reads : Reads := ⟨s.reading i m, m.ending = .ok, m.changed, m.timedOut⟩
  (s.sync.move cfg.timing reads).map fun sync =>
    let noted := s.note i m
    { noted with
      sync := sync
      file := if savesAt s.sync.loop m then noted.save cfg i.clock m.saves else s.file
      time := i.time
      due := s.dueAt cfg i.time sync.loop
      ahead := i.clock - i.time }

def next (cfg : HealthConfig) (s : Watched) : HealthMove → Option Watched
  | .begin i saves =>
    if s.begun ∨ i.time ≠ s.time then none
    else
      some
        { s with
          begun := true, file := s.save cfg i.clock saves
          due := i.time, ahead := i.clock - i.time }
  | .loop i m => if s.begun ∧ s.time ≤ i.time ∧ i.time ≤ s.due then s.loopMove cfg i m else none
  | .trigger force i =>
    if s.time ≤ i.time ∧ i.time ≤ s.due then
      (s.sync.next cfg.timing (.trigger force i.clock)).map fun sync =>
        { s with sync := sync, time := i.time, ahead := i.clock - i.time }
    else none
  | .signal => (s.sync.next cfg.timing .signal).map fun sync => { s with sync := sync }
  | .request time =>
    if s.time ≤ time ∧ time ≤ s.due then
      some { s with time := time, answers := ⟨time, health s.file, s.okSince⟩ :: s.answers }
    else none

end Watched

/-- The supervisor from its start on, with any file of an earlier run. -/
def healthLoop (cfg : HealthConfig) : System Watched HealthMove where
  init s := ∃ store file time ahead, store.status = .starting ∧
    s = { store := store, file := file, time := time, due := time, ahead := ahead }
  next := Watched.next cfg

end HaAddons.SecretsSync
