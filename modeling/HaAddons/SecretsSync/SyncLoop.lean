import HaAddons.Lib.System
import Mathlib.Algebra.Order.Field.Rat

/-!
# The sync loop

The loop thread of `Supervisor` (`run_forever`, `run_once`, `_sleep`, `run_check`) and the calls of
`trigger_sync` from other threads, one critical section or one access to the wake event a move.
A run ends where `stop` is called.

Of a cycle only its schedule is kept, of a probe only whether it has found a change. Clock readings
are free.
-/

namespace HaAddons.SecretsSync

/-! ## Shared fields -/

/-- `interval` and `check_interval`. -/
structure Timing where
  interval : ℚ
  checkInterval : ℚ

def manualMinGap : ℚ := 10

def backoffStart : ℚ := 30

/-- The fields of `Supervisor` that the loop and `trigger_sync` share, and those of its schedule. -/
structure Control where
  running : Bool := false
  pending : Bool := false
  force : Bool := false
  wake : Bool := false
  lastAttempt : ℚ := 0
  fails : ℕ := 0
  nextAt : ℚ := 0
  nextProbe : Option ℚ := none
  deriving DecidableEq

namespace Control

def accepts (c : Control) (now : ℚ) : Bool :=
  !(c.running || c.pending || decide (now - c.lastAttempt < manualMinGap))

/-- The critical section of `trigger_sync`. -/
def triggerSync (c : Control) (force : Bool) (now : ℚ) : Option Control :=
  if c.accepts now then some { c with pending := true, force := force } else none

/-- The schedule that `_finish` sets. -/
def finish (cfg : Timing) (c : Control) (now : ℚ) (ok : Bool) : Control :=
  let fails := if ok then 0 else c.fails + 1
  let delay :=
    if fails = 0 then cfg.interval else min (backoffStart * 2 ^ (fails - 1)) cfg.interval
  { c with
    fails := fails
    nextAt := now + delay
    nextProbe :=
      if c.nextProbe = none ∧ 0 < cfg.checkInterval then some (now + cfg.checkInterval)
      else c.nextProbe }

def probeDue (cfg : Timing) (c : Control) (now : ℚ) : Bool :=
  match c.nextProbe with
  | some probeAt => 0 < cfg.checkInterval ∧ probeAt ≤ now
  | none => false

end Control

/-! ## The loop -/

/-- Where the loop thread stands. `starting` and `cycling` know the argument of `run_once`. -/
inductive LoopAt where
  | top
  | starting (force : Bool)
  | cycling (force : Bool)
  | cycled
  | sleeping
  | checking
  | probing
  | signalling
  | checked
  | waiting
  | blocked
  | clearing
  deriving DecidableEq, Repr

/-- The loop, and how many callers have been accepted and have still to set the wake event. -/
structure LoopState where
  control : Control := {}
  loop : LoopAt := .top
  callers : ℕ := 0
  deriving DecidableEq

/-- What a move of the loop meets. -/
structure Reads where
  now : ℚ := 0
  ok : Bool := true
  changed : Bool := false
  timedOut : Bool := false

inductive SyncMove where
  | trigger (force : Bool) (now : ℚ)
  | signal
  | loop (r : Reads)

namespace LoopState

/-- A probe calls `trigger_sync` where it has found a change and no cycle has failed last. -/
def probed (c : Control) (r : Reads) : Option Control :=
  if r.changed && c.fails = 0 then c.triggerSync false r.now else none

def move (cfg : Timing) (s : LoopState) (r : Reads) : Option LoopState :=
  let c := s.control
  match s.loop with
  -- `run_forever`
  | .top => some { s with control := { c with force := false }, loop := .starting c.force }
  -- `run_once`
  | .starting force =>
    some
      { s with
        control := { c with running := true, pending := false, lastAttempt := r.now }
        loop := .cycling force }
  | .cycling _ => some { s with control := c.finish cfg r.now r.ok, loop := .cycled }
  | .cycled => some { s with control := { c with running := false }, loop := .sleeping }
  -- `_sleep`
  | .sleeping =>
    if c.nextAt ≤ r.now then some { s with loop := .top }
    else if c.probeDue cfg r.now then some { s with loop := .checking }
    else some { s with loop := .waiting }
  -- `run_check`
  | .checking =>
    some
      { s with
        control := { c with nextProbe := some (r.now + cfg.checkInterval) }
        loop := .probing }
  | .probing =>
    match probed c r with
    | some c => some { s with control := c, loop := .signalling }
    | none => some { s with loop := .checked }
  | .signalling => some { s with control := { c with wake := true }, loop := .checked }
  | .checked => some { s with loop := if c.pending then .clearing else .sleeping }
  -- `_wake.wait`: the event is looked at first, and then waited for.
  | .waiting => some { s with loop := if c.wake then .clearing else .blocked }
  | .blocked =>
    if r.timedOut then some { s with loop := .sleeping }
    else if c.wake then some { s with loop := .clearing }
    else none
  | .clearing => some { s with control := { c with wake := false }, loop := .top }

def next (cfg : Timing) (s : LoopState) : SyncMove → Option LoopState
  | .trigger force now =>
    match s.control.triggerSync force now with
    | some c => some { s with control := c, callers := s.callers + 1 }
    | none => some s
  | .signal =>
    if s.callers = 0 then none
    else some { s with control := { s.control with wake := true }, callers := s.callers - 1 }
  | .loop r => s.move cfg r

end LoopState

def syncLoop (cfg : Timing) : System LoopState SyncMove where
  init s := s = {}
  next := LoopState.next cfg

end HaAddons.SecretsSync
