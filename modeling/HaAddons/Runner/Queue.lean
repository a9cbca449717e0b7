import HaAddons.Runner.Job
import HaAddons.Lib.Lock

/-!
# The job queue and what runs beside it

Every call of the runner that can overlap another is a thread of one pool: `Queue.Submit` and
the worker it starts, `POST /v1/repos/{name}/pull`, and retention's `Rotate`. A thread moves in
the steps the source makes atomic: a channel operation, a critical section, a store call, one
command.

The shared state has two halves that no step touches together: the gates (`Gate`: the global
semaphore, the pending counters, the per-repo locks) and the disk (`Disk`).

`acquire` starts a goroutine that outlives a timed-out wait, and on the timeout a second one.
Both belong to the worker's entry and move on their own (`GateAct.waiter`, `GateAct.handoff`).
-/

namespace HaAddons.Runner

/-! ## The gates -/

/-- `New`'s defaults and clamp for `max_parallel_jobs`. -/
def maxParallelJobs (n : ℤ) : ℕ := if n ≤ 0 then 4 else if 32 < n then 32 else n.toNat

structure Gate where
  sem : ℕ
  pending : String → Option ℕ
  locks : LockTable String

namespace Gate

def initial : Gate := ⟨0, fun _ => none, .empty⟩

/-- `sem <- struct{}{}`; `none` while the channel is full. -/
def send (cap : ℕ) (g : Gate) : Option Gate :=
  if g.sem < cap then some { g with sem := g.sem + 1 } else none

/-- `<-sem`; `none` while the channel is empty. -/
def recv (g : Gate) : Option Gate :=
  if 0 < g.sem then some { g with sem := g.sem - 1 } else none

/-- A missing map entry reads as zero. -/
def pendingOf (g : Gate) (repo : String) : ℕ := (g.pending repo).getD 0

def reservePending (maxPending : ℕ) (g : Gate) (repo : String) : Gate × Bool :=
  if maxPending ≤ g.pendingOf repo then (g, false)
  else ({ g with pending := Function.update g.pending repo (some (g.pendingOf repo + 1)) }, true)

def releasePending (g : Gate) (repo : String) : Gate :=
  if g.pendingOf repo ≤ 1 then { g with pending := Function.update g.pending repo none }
  else { g with pending := Function.update g.pending repo (some (g.pendingOf repo - 1)) }

end Gate

/-- The shared state. -/
structure Shared where
  gate : Gate
  disk : Disk

/-! ## Workers -/

/-- The goroutine a timed-out `acquire` leaves behind: `<-acquired; lock.Unlock()`. -/
inductive Handoff where
  | none
  | receiving
  | unlocking
  | done
  deriving DecidableEq, Repr

inductive WorkerPc where
  | handBack
  | lookup
  | create
  | acquire
  | waiting
  | failLock
  | slot
  | failSlot
  | job (pc : JobPc)
  | releaseSlot
  | unlock
  | recover
  | releasePending
  | done
  deriving DecidableEq, Repr

structure Worker where
  job : Job
  pc : WorkerPc := .handBack
  lock : ℕ := 0
  waiter : Waiter := .idle
  handoff : Handoff := .none
  panicking : Bool := false
  deriving DecidableEq, Repr

/-- A worker's own next step on the gates, a timer that fires, or one of its goroutines. -/
inductive GateAct where
  | step
  | timeout
  | waiter
  | handoff
  deriving DecidableEq, Repr

namespace Worker

/-- `work`, `lockFor`, `acquire` and `acquireSlot`, as far as they touch the gates. -/
def ownStep (cap : ℕ) (g : Gate) (w : Worker) : Option (Gate × Worker) :=
  match w.pc with
  | .handBack => g.recv.map fun g => (g, { w with pc := .lookup })
  | .lookup =>
    match g.locks.locks w.job.repo with
    | some l => some (g, { w with pc := .acquire, lock := l })
    | none => some (g, { w with pc := .create })
  | .create =>
    let r := g.locks.getOrCreate w.job.repo
    some ({ g with locks := r.1 }, { w with pc := .acquire, lock := r.2 })
  | .acquire => some (g, { w with pc := .waiting, waiter := .locking })
  | .waiting => w.waiter.recv.map fun v => (g, { w with pc := .slot, waiter := v })
  | .slot => (g.send cap).map fun g => (g, { w with pc := .job .markRunning })
  | .releaseSlot => g.recv.map fun g => (g, { w with pc := .unlock })
  | .unlock =>
    (g.locks.unlock w.lock).map fun T =>
      ({ g with locks := T }, { w with pc := if w.panicking then .recover else .releasePending })
  | .releasePending => some (g.releasePending w.job.repo, { w with pc := .done })
  | _ => none

/-- The two waits that a timer bounds. -/
def timeoutStep (g : Gate) (w : Worker) : Option (Gate × Worker) :=
  match w.pc with
  | .waiting => some (g, { w with pc := .failLock, handoff := .receiving })
  | .slot => some (g, { w with pc := .failSlot })
  | _ => none

def waiterStep (g : Gate) (w : Worker) : Option (Gate × Worker) :=
  (w.waiter.step g.locks w.lock).map fun r => ({ g with locks := r.1 }, { w with waiter := r.2 })

def handoffStep (g : Gate) (w : Worker) : Option (Gate × Worker) :=
  match w.handoff with
  | .receiving => w.waiter.recv.map fun v => (g, { w with waiter := v, handoff := .unlocking })
  | .unlocking =>
    (g.locks.unlock w.lock).map fun T => ({ g with locks := T }, { w with handoff := .done })
  | _ => none

def gateStep (cap : ℕ) (g : Gate) (w : Worker) : GateAct → Option (Gate × Worker)
  | .step => w.ownStep cap g
  | .timeout => w.timeoutStep g
  | .waiter => w.waiterStep g
  | .handoff => w.handoffStep g

/-- Write a terminal state from outside the job. -/
def close (d : Disk) (w : Worker) (mutate : Meta → Meta) (ok : Bool) : Disk :=
  { d with
    runs := (d.runs.update w.job.runID mutate ok).1
    closed := Function.update d.closed w.job.runID true }

/-- The worker after a step of its job. -/
def after (w : Worker) (j : Job) : JobNext → Worker
  | .goto pc => { w with job := j, pc := .job pc }
  | .leave => { w with job := j, pc := .releaseSlot }
  | .panicked => { w with job := j, pc := .releaseSlot, panicking := true }

@[simp] theorem after_job (w : Worker) (j : Job) (next : JobNext) : (w.after j next).job = j := by
  cases next <;> rfl

@[simp] theorem after_lock (w : Worker) (j : Job) (next : JobNext) :
    (w.after j next).lock = w.lock := by
  cases next <;> rfl

@[simp] theorem after_goto_pc (w : Worker) (j : Job) (pc : JobPc) :
    (w.after j (.goto pc)).pc = .job pc := rfl

@[simp] theorem after_leave_pc (w : Worker) (j : Job) :
    (w.after j .leave).pc = .releaseSlot := rfl

@[simp] theorem after_panicked_pc (w : Worker) (j : Job) :
    (w.after j .panicked).pc = .releaseSlot := rfl

/-- The steps that touch the disk: the job, and the terminal states written around it. -/
def diskStep (q : Config) (d : Disk) (w : Worker) (a : JobAct) : Option (Disk × Worker) :=
  match w.pc with
  | .failLock =>
    match a with
    | .update now ok =>
      some (w.close d (failMeta errCodeApplyAlreadyRunning now) ok, { w with pc := .releasePending })
    | _ => none
  | .failSlot =>
    match a with
    | .update now ok =>
      some (w.close d (failMeta errCodeApplyCapacityExhausted now) ok, { w with pc := .unlock })
    | _ => none
  | .recover =>
    match a with
    | .update now ok =>
      some (w.close d (finishMeta ⟨-1, false⟩ w.job.kind "" true now) ok,
        { w with pc := .releasePending })
    | _ => none
  | .job pc =>
    (w.job.step q d pc a).map fun r => (r.1, w.after r.2.1 r.2.2)
  | _ => none

end Worker

/-! ## Submissions -/

structure RepoConfig where
  name : String
  ref : String
  deriving DecidableEq, Repr

def isAlnum (c : Char) : Bool :=
  ('a' ≤ c && c ≤ 'z') || ('A' ≤ c && c ≤ 'Z') || ('0' ≤ c && c ≤ '9')

/-- `repoNameRe`: `^[a-zA-Z0-9][a-zA-Z0-9._-]{0,63}$`. -/
def repoNameRe (name : String) : Bool :=
  match name.toList with
  | [] => false
  | c :: cs =>
    isAlnum c && cs.length ≤ 63 && cs.all fun c => isAlnum c || c = '.' || c = '_' || c = '-'

/-- The configured repos. `NewManager` refuses an invalid name and a duplicate one. -/
structure Manager where
  reposDir : String
  repos : List RepoConfig
  valid : ∀ r ∈ repos, repoNameRe r.name = true
  distinct : (repos.map (·.name)).Nodup

/-- `Manager.Repo`. -/
def Manager.repo (m : Manager) (name : String) : Option RepoConfig :=
  m.repos.find? (·.name = name)

theorem Manager.repo_ne_empty (m : Manager) {name : String} (h : (m.repo name).isSome = true) :
    name ≠ "" := by
  rintro rfl
  obtain ⟨r, hr⟩ := Option.isSome_iff_exists.mp h
  have hname : r.name = "" := by simpa using List.find?_some hr
  have hv := m.valid r (List.mem_of_find?_eq_some hr)
  simp [hname, repoNameRe] at hv

/-- `unicode.IsSpace`. -/
def isSpace (c : Char) : Bool :=
  c.toNat ∈ [0x09, 0x0a, 0x0b, 0x0c, 0x0d, 0x20, 0x85, 0xa0, 0x1680, 0x2028, 0x2029, 0x202f,
    0x205f, 0x3000] || (0x2000 ≤ c.toNat && c.toNat ≤ 0x200a)

/-- `RepoConfig.Pinned`: the ref is not blank. -/
def RepoConfig.pinned (r : RepoConfig) : Bool := !r.ref.toList.all isSpace

structure Request where
  repo : String
  dir : String
  kind : RunKind
  deriving DecidableEq, Repr

inductive SubmitError where
  | git (e : GitError)
  | capacityExhausted
  | runID
  | create
  deriving DecidableEq, Repr

def unknownRepoError (name : String) : GitError where
  code := errCodeRunUnknownRepo
  message := "unknown repo " ++ name
  hint := "add it to the `repos` Options list"

/-- The error of `EnsureCloned` on a missing or empty working tree. -/
def cloneMissingError (reposDir name : String) : GitError where
  code := errCodeGitCloneMissing
  message := "repo " ++ name ++ " has no working tree at " ++ reposDir ++ "/" ++ name
  hint := "the startup clone failed — check the add-on log for git_clone_failed and " ++
    "POST /v1/repos/" ++ name ++ "/pull after fixing the deploy key or url"

/-- Steps 1 to 4 of `Submit`: the cleaned directory, or the refusal. -/
def checkRequest (q : Config) (m : Manager) (cloned : Bool) (req : Request) :
    Except GitError String :=
  match m.repo req.repo with
  | none => .error (unknownRepoError req.repo)
  | some _ =>
    match validateDir req.dir with
    | none => .error
      { code := errCodeRunInvalidDir
        message := invalidDirMessage
        hint := "set `dir` to a path relative to the repo root, or omit it for the repo root" }
    | some dir =>
      if cloned = false then .error (cloneMissingError m.reposDir req.repo)
      else if q.tofuPath = "" then .error
        { code := errCodeRunTofuNotFound
          message := "the tofu binary could not be resolved on PATH"
          hint := "the tofu binary is missing from the image — check GET /healthz" }
      else .ok dir

inductive SubmitPc where
  | check
  | takeToken
  | reserve
  | newRunID
  | create (id : String)
  | writeMeta (id : String)
  | start (id : String)
  | releasePending (e : SubmitError) (stillborn : Option String)
  | giveBack (e : SubmitError) (stillborn : Option String)
  | cleanup (e : SubmitError) (id : String)
  | refused (e : SubmitError)
  deriving DecidableEq, Repr

structure SubmitCall where
  req : Request
  dir : String := ""
  pc : SubmitPc := .check
  deriving DecidableEq, Repr

/-- What the environment decides in `Submit`. -/
inductive SubmitAct where
  | check (cloned : Bool)
  | newRunID (id : Option String)
  | io (now : Time) (ok : Bool)
  | step
  deriving DecidableEq, Repr

/-! ## Pulls -/

inductive PullAnswer where
  | pulled (mode : String) (head : Commit)
  | error (status : ℕ) (e : GitError)
  /-- A git command failed; the code comes from its stderr. -/
  | gitFailed (fallback : String)
  deriving DecidableEq, Repr

inductive PullPc where
  | lookup
  | fetch
  | checkout
  | pull
  | resolve (mode : String)
  | answered (a : PullAnswer)
  deriving DecidableEq, Repr

structure PullCall where
  name : String
  ffOnly : Bool
  pc : PullPc := .lookup
  deriving DecidableEq, Repr

/-- What the environment decides in a pull: the precondition check, and for each git command
whether it succeeds and which commit the working tree is on afterwards. -/
inductive PullAct where
  | lookup (cloned : Bool)
  | git (ok : Bool) (tip : Commit)
  deriving DecidableEq, Repr

def refPullIncompatibleError (cfg : RepoConfig) : GitError where
  code := errCodeGitRefPullIncompatible
  message := "repo " ++ cfg.name ++ " is pinned to ref " ++ cfg.ref ++
    "; a fast-forward pull is not applicable"
  hint := "drop ff_only from the request, or clear the `ref` Options field to track the " ++
    "`branch` instead"

/-- The working tree of `repo` lands on a commit. -/
def Disk.land (d : Disk) (repo : String) (tip : Commit) : Disk :=
  { d with trail := Function.update d.trail repo (tip :: d.trail repo) }

/-- `reposPullHandler` with `Manager.Pull`. No step takes the repo's lock. -/
def PullCall.step (m : Manager) (d : Disk) (p : PullCall) :
    PullAct → Option (Disk × PullCall)
  | .lookup cloned =>
    if p.pc ≠ .lookup then none
    else
      match m.repo p.name with
      | none => some (d, { p with pc := .answered (.error 404
          { code := errCodeRunUnknownRepo
            message := "unknown repo \"" ++ p.name ++ "\""
            hint := "add it to the `repos` Options list" }) })
      | some cfg =>
        if cloned = false then
          some (d, { p with pc := .answered (.error 404 (cloneMissingError m.reposDir p.name)) })
        else if p.ffOnly && cfg.pinned then
          some (d, { p with pc := .answered (.error 400 (refPullIncompatibleError cfg)) })
        else some (d, { p with pc := if cfg.pinned then .fetch else .pull })
  | .git ok tip =>
    match p.pc with
    | .fetch => some (d, { p with
        pc := if ok then .checkout else .answered (.gitFailed errCodeGitRefNotFound) })
    | .checkout => some (d.land p.name tip, { p with
        pc := if ok then .resolve "ref" else .answered (.gitFailed errCodeGitRefNotFound) })
    | .pull => some (d.land p.name tip, { p with
        pc := if ok then .resolve "ff-only" else .answered (.gitFailed errCodeGitNonFastForward) })
    | .resolve mode =>
      some (d, { p with pc := .answered (.pulled mode (if ok then d.head p.name else "")) })
    | _ => none

/-! ## Retention -/

inductive RotatePc where
  | readDir
  | load (now : Time) (todo : List String)
  | remove (id : String) (now : Time) (todo : List String)
  | done
  deriving DecidableEq, Repr

structure RotateCall where
  maxAge : ℤ
  pc : RotatePc := .readDir
  deriving DecidableEq, Repr

/-- What the environment decides in `Rotate`; `stale` is the age of a directory without
readable metadata. -/
inductive RotateAct where
  | readDir (now : Time)
  | load (stale : Bool)
  | remove (ok : Bool)
  deriving DecidableEq, Repr

/-- Whether `Rotate` deletes a run: it is neither queued nor running, and past its age. -/
def overAge (now : Time) (maxAge : ℤ) (m : Meta) : Bool :=
  m.status ≠ .queued && m.status ≠ .running &&
    decide (maxAge < now - m.finishedAt.getD m.startedAt)

def RotateCall.step (q : Config) (d : Disk) (r : RotateCall) :
    RotateAct → Option (Disk × RotateCall)
  | .readDir now =>
    if r.pc = .readDir then
      some (d, { r with pc := .load now ((d.runs.map (·.name)).filter isValidRunID) })
    else none
  | .load stale =>
    match r.pc with
    | .load _ [] => some (d, { r with pc := .done })
    | .load now (id :: todo) =>
      let doomed := match d.runs.load id with
        | none => stale
        | some m => overAge now r.maxAge m
      some (d, { r with pc := if doomed then .remove id now todo else .load now todo })
    | _ => none
  | .remove ok =>
    match r.pc with
    | .remove id now todo =>
      some (if ok then
          { d with
            runs := d.runs.removeAll id
            plans := Function.update d.plans (planArtifact q.runsDir id) false }
        else d, { r with pc := .load now todo })
    | _ => none

/-! ## The pool -/

inductive Thread where
  | submit (c : SubmitCall)
  | worker (w : Worker)
  | pull (p : PullCall)
  | rotate (r : RotateCall)
  deriving DecidableEq, Repr

inductive Call where
  | submit (req : Request)
  | pull (name : String) (ffOnly : Bool)
  | rotate (maxAge : ℤ)
  deriving DecidableEq, Repr

inductive Act where
  | submit (a : SubmitAct)
  | gate (a : GateAct)
  | job (a : JobAct)
  | pull (a : PullAct)
  | rotate (a : RotateAct)
  deriving DecidableEq, Repr

namespace SubmitCall

/-- The metadata of an admitted run. -/
def queuedMeta (c : SubmitCall) (id : String) (now : Time) : Meta where
  runID := id
  repo := c.req.repo
  dir := c.dir
  kind := c.req.kind
  status := .queued
  exitCode := none
  startedAt := now
  finishedAt := none
  errorCode := ""
  planFile := ""
  headSHA := ""

/-- One step of `Submit`. The last one starts the worker and returns the run id. -/
def step (q : Config) (m : Manager) (s : Shared) (c : SubmitCall) :
    SubmitPc → SubmitAct → Option (Shared × Thread)
  | .check, .check cloned =>
    match checkRequest q m cloned c.req with
    | .error e => some (s, .submit { c with pc := .refused (.git e) })
    | .ok dir => some (s, .submit { c with dir := dir, pc := .takeToken })
  | .takeToken, .step =>
    match s.gate.send (maxParallelJobs q.maxParallel) with
    | some g => some ({ s with gate := g }, .submit { c with pc := .reserve })
    | none => some (s, .submit { c with pc := .refused .capacityExhausted })
  | .reserve, .step =>
    let r := s.gate.reservePending (maxParallelJobs q.maxParallel) c.req.repo
    some ({ s with gate := r.1 },
      .submit { c with pc := if r.2 then .newRunID else .giveBack .capacityExhausted none })
  | .newRunID, .newRunID none => some (s, .submit { c with pc := .releasePending .runID none })
  | .newRunID, .newRunID (some id) =>
    -- crypto/rand: a new id is well formed and was never handed out before.
    if isValidRunID id = true ∧ s.disk.issued id = none then
      some ({ s with disk := { s.disk with
          issued := Function.update s.disk.issued id (some c.req.repo) } },
        .submit { c with pc := .create id })
    else none
  | .create id, .io _ ok =>
    if ok then
      some ({ s with disk := { s.disk with runs := s.disk.runs.mkdir id } },
        .submit { c with pc := .writeMeta id })
    else some (s, .submit { c with pc := .releasePending .create (some id) })
  | .writeMeta id, .io now ok =>
    if ok && s.disk.runs.any (·.name = id) then
      some ({ s with disk := { s.disk with runs := s.disk.runs.writeMeta (c.queuedMeta id now) } },
        .submit { c with pc := .start id })
    else some (s, .submit { c with pc := .releasePending .create (some id) })
  | .start id, .step =>
    some (s, .worker { job := { runID := id, repo := c.req.repo, dir := c.dir, kind := c.req.kind } })
  | .releasePending e stillborn, .step =>
    some ({ s with gate := s.gate.releasePending c.req.repo },
      .submit { c with pc := .giveBack e stillborn })
  | .giveBack e stillborn, .step =>
    s.gate.recv.map fun g => ({ s with gate := g }, .submit { c with
      pc := match stillborn with
        | some id => .cleanup e id
        | none => .refused e })
  | .cleanup e id, .io _ ok =>
    some (if ok then { s with disk := { s.disk with runs := s.disk.runs.removeAll id } } else s,
      .submit { c with pc := .refused e })
  | _, _ => none

end SubmitCall

/-- One step of a thread. -/
def Thread.step (q : Config) (m : Manager) (s : Shared) :
    Thread → Act → Option (Shared × Thread)
  | .submit c, .submit a => c.step q m s c.pc a
  | .worker w, .gate a =>
    (w.gateStep (maxParallelJobs q.maxParallel) s.gate a).map fun r =>
      ({ s with gate := r.1 }, .worker r.2)
  | .worker w, .job a =>
    (w.diskStep q s.disk a).map fun r => ({ s with disk := r.1 }, .worker r.2)
  | .pull p, .pull a =>
    (p.step m s.disk a).map fun r => ({ s with disk := r.1 }, .pull r.2)
  | .rotate r, .rotate a =>
    (r.step q s.disk a).map fun x => ({ s with disk := x.1 }, .rotate x.2)
  | _, _ => none

/-- A state of the runner: the shared state and the calls and workers so far. -/
abbrev State := HaAddons.Config Shared Thread

/-- Whether the label lets every file-system call of its step succeed. -/
def Act.ioOk : Act → Bool
  | .submit (.io _ ok) => ok
  | .job (.update _ ok) | .job (.openOutput ok) | .job (.list ok) | .job (.remove ok) => ok
  | .rotate (.remove ok) => ok
  | _ => true

/-- The label lets every file-system call succeed. -/
def Move.ioOk (_ : State) : Move Call Act → Bool
  | .call _ => true
  | .move _ a => a.ioOk

/-- The runner, started on a disk that satisfies `D`. -/
def pool (q : Config) (m : Manager) (D : Disk → Prop) :
    Pool Shared Thread Call Act where
  init s := s.gate = .initial ∧ D s.disk
  start
    | .submit req => .submit { req := req }
    | .pull name ffOnly => .pull { name := name, ffOnly := ffOnly }
    | .rotate maxAge => .rotate { maxAge := maxAge }
  step := Thread.step q m

/-! ## A small deployment

Two slots, one repo and an empty store, for runs on given labels. -/

def twoSlots : Config where
  maxParallel := 2
  tofuPath := "/usr/bin/tofu"
  runsDir := "/data/runs"
  useLockfile := false

def oneRepo : Manager where
  reposDir := "/data/repos"
  repos := [⟨"infra", ""⟩]
  valid := by decide
  distinct := by decide

/-- No runs, and the working tree of every repo on `c0`. -/
def freshDisk : Disk where
  runs := []
  plans _ := false
  built _ := []
  trail _ := ["c0"]
  issued _ := none
  closed _ := false

abbrev small := (pool twoSlots oneRepo (· = freshDisk)).system

def smallStart : State := ⟨⟨.initial, freshDisk⟩, []⟩

theorem small_init : small.init smallStart := ⟨⟨rfl, rfl⟩, rfl⟩

/-- `Submit` on thread `i`, through to the start of the worker. -/
def submitting (i : ℕ) (kind : RunKind) (id : String) (now : Time) : List (Move Call Act) :=
  .call (.submit ⟨"infra", "", kind⟩) ::
    [.check true, .step, .step, .newRunID (some id), .io now true, .io now true, .step].map
      fun a => .move i (.submit a)

/-- Steps of the worker of thread `i` on the gates. -/
def gating (i : ℕ) (as : List GateAct) : List (Move Call Act) := as.map fun a => .move i (.gate a)

/-- Steps of the job of thread `i`. -/
def working (i : ℕ) (as : List JobAct) : List (Move Call Act) := as.map fun a => .move i (.job a)

/-- The worker of thread `i` from its start into the job; `known` says whether the lookup finds
the repo's mutex. -/
def entering (i : ℕ) (known : Bool) : List (Move Call Act) :=
  gating i [.step, .step] ++ (if known then [] else gating i [.step]) ++
    gating i [.step, .waiter, .waiter, .step, .step]

/-- The worker of thread `i` from the end of its job to its own end. -/
def leaving (i : ℕ) : List (Move Call Act) := gating i [.step, .step, .step]

/-- A plan job that succeeds, up to its last step; every I/O call succeeds. -/
def planning (i : ℕ) (now : Time) : List (Move Call Act) :=
  working i [.update now true, .openOutput true, .exec (.exit 0 false) false, .head true,
    .update now true, .start true, .exec (.exit 0 false) true, .update now true]

/-- An apply job up to the start of `tofu apply`. -/
def toApply (i : ℕ) (now : Time) : List (Move Call Act) :=
  working i [.update now true, .openOutput true, .exec (.exit 0 false) false, .list true,
    .head true, .pick, .start true]

end HaAddons.Runner
