import HaAddons.Runner.Store
import Mathlib.Logic.Function.Basic

/-!
# One job

What a worker does while it holds its repo's lock and an execution slot: mark the run running,
`tofu init`, then `tofu plan` or `tofu apply`, then the terminal state. This is `runJob` with
`recordPlanHead`, `priorPlanFile` and `consumePlanArtifact`, and `finish` and `fail`.

A job moves in steps so that pulls, retention and the jobs of other repos can come between any
two of them. `tofu plan` and `tofu apply` start in one step and end in another.

The disk carries what no program reads, for the statements about runs:

* `built` keeps, for every plan artifact, the commits its working tree was on while tofu built
  it,
* `trail` keeps every commit a working tree has been on, the current one first,
* `issued` and `closed` keep, for every run id, the repo it was made for and whether its job
  has written its terminal state.
-/

namespace HaAddons.Runner

/-- The parts of `Deps` and `Options` that the queue reads. -/
structure Config where
  maxParallel : ℤ
  tofuPath : String
  runsDir : String
  useLockfile : Bool

/-- What the jobs, the pulls and retention share on disk: the run store, and which plan artifacts
exist. -/
structure Disk where
  runs : Store
  plans : String → Bool
  built : String → List Commit
  trail : String → List Commit
  issued : String → Option String
  closed : String → Bool

namespace Disk

/-- The commit the working tree of `repo` is on. -/
def head (d : Disk) (repo : String) : Commit := (d.trail repo).headD ""

/-- The commits the working tree has been on since its trail had length `mark`, the one it was
on then included. -/
def since (d : Disk) (repo : String) (mark : ℕ) : List Commit :=
  (d.trail repo).take ((d.trail repo).length + 1 - mark)

end Disk

structure ExecResult where
  exitCode : ℤ
  timedOut : Bool
  deriving DecidableEq, Repr

/-- How the execution of one command ends. -/
inductive Outcome where
  | exit (code : ℤ) (timedOut : Bool)
  | startError
  | panic
  deriving DecidableEq, Repr

/-! ## Command lines -/

def initArgs (useLockfile : Bool) : List String :=
  ["init", "-input=false", "-no-color"] ++
    if useLockfile then ["-backend-config=use_lockfile=true"] else []

def planArgs (planFile : String) : List String :=
  ["plan", "-no-color", "-input=false", "-out=" ++ planFile]

def applyArgs (prior : String) : List String :=
  ["apply", "-no-color", "-input=false", "-auto-approve"] ++ if prior = "" then [] else [prior]

/-- A tofu process that was started: its arguments, the commit the working tree was on, and for
an apply of a saved plan the commits the plan was built on. -/
structure TofuCall where
  args : List String
  onCommit : Commit
  builtOn : List Commit
  deriving DecidableEq, Repr

/-- The plan-file argument of a `tofu apply`. -/
def TofuCall.planFileArg (c : TofuCall) : Option String :=
  if c.args[0]? = some "apply" then c.args[4]? else none

/-! ## The state of a job -/

/-- The identity of a job, the variables of `runJob`, and the tofu processes started so far. -/
structure Job where
  runID : String
  repo : String
  dir : String
  kind : RunKind
  res : ExecResult := ⟨0, false⟩
  planFile : String := ""
  runErr : Bool := false
  prior : String := ""
  priorRunID : String := ""
  mark : ℕ := 0
  ran : List TofuCall := []
  deriving DecidableEq, Repr

inductive JobPc where
  | markRunning
  | openOutput
  | init
  | planHead
  | planRecord (head : Commit)
  | planStart
  | planRun
  | priorList
  | priorHead (metas : List Meta)
  | priorPick (metas : List Meta) (head : Commit)
  | applyStart
  | applyRun
  | consumeRemove
  | consumeClear
  | finish
  | fail (code : String)
  deriving DecidableEq, Repr

/-- What the environment decides at a step: clock readings, and which calls succeed. -/
inductive JobAct where
  | update (now : Time) (ok : Bool)
  | openOutput (ok : Bool)
  | head (ok : Bool)
  | list (ok : Bool)
  | pick
  | start (ok : Bool)
  | exec (o : Outcome) (wrote : Bool)
  | remove (ok : Bool)
  deriving DecidableEq, Repr

/-- Where a step leads: on, out of the job, or out of it with a panic. -/
inductive JobNext where
  | goto (pc : JobPc)
  | leave
  | panicked
  deriving DecidableEq, Repr

/-! ## Terminal states -/

/-- The status and error code `finish` writes. -/
def terminal (res : ExecResult) (kind : RunKind) (runErr : Bool) : RunStatus × String :=
  if res.timedOut then
    (.failed, if kind = .plan then errCodePlanTimeout else errCodeApplyTimeout)
  else if runErr then (.failed, errCodeApplyFailed)
  else if res.exitCode ≠ 0 then (.failed, errCodeApplyFailed)
  else (.succeeded, "")

/-- The change `finish` makes to the run's metadata. -/
def finishMeta (res : ExecResult) (kind : RunKind) (planFile : String) (runErr : Bool)
    (now : Time) (m : Meta) : Meta :=
  let status := (terminal res kind runErr).1
  { m with
    status := status
    exitCode := some res.exitCode
    errorCode := (terminal res kind runErr).2
    finishedAt := some now
    planFile := if status = .succeeded ∧ kind = .plan then planFile else m.planFile }

/-- `finish` leaves the run's plan file or replaces it with the artifact of a succeeded plan. -/
theorem finishMeta_planFile (res : ExecResult) (kind : RunKind) (planFile : String) (runErr : Bool)
    (now : Time) (m : Meta) :
    (finishMeta res kind planFile runErr now m).planFile = m.planFile ∨
      (finishMeta res kind planFile runErr now m).planFile = planFile := by
  simp only [finishMeta]
  split
  · exact .inr rfl
  · exact .inl rfl

/-- The change `fail` makes to the run's metadata. -/
def failMeta (code : String) (now : Time) (m : Meta) : Meta :=
  { m with status := .failed, errorCode := code, finishedAt := some now }

/-! ## The prior plan -/

/-- The query of `priorPlanFile`. -/
def priorFilter (repo dir : String) : ListFilter where
  repo := repo
  status := some .succeeded
  kind := some .plan
  dir := dir
  dirSet := true
  limit := 1

/-- The loop of `priorPlanFile`: the first run that names an artifact, was built on `head`, and
whose artifact is on disk. The empty pair asks for an inline apply. -/
def pickPlan (onDisk : String → Bool) (head : Commit) : List Meta → String × String
  | [] => ("", "")
  | m :: metas =>
    if m.planFile = "" then pickPlan onDisk head metas
    else if m.headSHA ≠ head then pickPlan onDisk head metas
    else if onDisk m.planFile then (m.planFile, m.runID)
    else pickPlan onDisk head metas

/-- What `pickPlan` picks: nothing, or a listed run that is fresh and whose artifact exists. -/
theorem pickPlan_spec (onDisk : String → Bool) (head : Commit) (metas : List Meta) :
    pickPlan onDisk head metas = ("", "") ∨
      ∃ m ∈ metas, pickPlan onDisk head metas = (m.planFile, m.runID) ∧ m.planFile ≠ "" ∧
        m.headSHA = head ∧ onDisk m.planFile = true := by
  induction metas with
  | nil => exact .inl rfl
  | cons m metas ih =>
    have skip : pickPlan onDisk head metas = ("", "") ∨
        ∃ m' ∈ m :: metas, pickPlan onDisk head metas = (m'.planFile, m'.runID) ∧
          m'.planFile ≠ "" ∧ m'.headSHA = head ∧ onDisk m'.planFile = true :=
      ih.imp_right fun ⟨m', hm', h⟩ => ⟨m', List.mem_cons_of_mem m hm', h⟩
    unfold pickPlan
    split_ifs with h1 h2 h3
    · exact skip
    · exact skip
    · exact .inr ⟨m, List.mem_cons_self, rfl, h1, by simpa using h2, h3⟩
    · exact skip

/-! ## Steps -/

variable (q : Config)

namespace Job

/-- `tofu init` is over: its outcome ends the job or leads into the plan or the apply. -/
def afterInit (d : Disk) (j : Job) : Outcome → Disk × Job × JobNext
  | .startError => (d, { j with res := ⟨-1, false⟩, runErr := true }, .goto .finish)
  | .panic => (d, j, .panicked)
  | .exit code timedOut =>
    let j := { j with
      res := ⟨code, timedOut⟩
      ran := ⟨initArgs q.useLockfile, d.head j.repo, []⟩ :: j.ran }
    if code ≠ 0 ∨ timedOut = true then (d, j, .goto .finish)
    else
      match j.kind with
      | .plan => (d, { j with planFile := planArtifact q.runsDir j.runID }, .goto .planHead)
      | .apply => (d, j, .goto .priorList)
      | .other _ => (d, { j with res := ⟨-1, false⟩, runErr := true }, .goto .finish)

/-- `tofu plan` ends. The artifact appears when tofu wrote it, whatever its exit code. -/
def afterPlan (d : Disk) (j : Job) (wrote : Bool) : Outcome → Option (Disk × Job × JobNext)
  | .startError => none
  | o =>
    let d := if wrote then
      { d with
        plans := Function.update d.plans j.planFile true
        built := Function.update d.built j.planFile (d.since j.repo j.mark) } else d
    match o with
    | .exit code timedOut => some (d, { j with res := ⟨code, timedOut⟩ }, .goto .finish)
    | _ => some (d, j, .panicked)

/-- `tofu apply` ends. Only a clean success consumes the saved plan. -/
def afterApply (d : Disk) (j : Job) : Outcome → Option (Disk × Job × JobNext)
  | .startError => none
  | .panic => some (d, j, .panicked)
  | .exit code timedOut =>
    some (d, { j with res := ⟨code, timedOut⟩ },
      .goto (if j.prior ≠ "" ∧ code = 0 ∧ timedOut = false then .consumeRemove else .finish))

/-- One step of the job. -/
def step (d : Disk) (j : Job) : JobPc → JobAct → Option (Disk × Job × JobNext)
  | .markRunning, .update now ok =>
    let r := d.runs.update j.runID (fun m => { m with status := .running, startedAt := now }) ok
    some ({ d with runs := r.1 }, j,
      .goto (if r.2 then .openOutput else .fail errCodeApplyFailed))
  | .openOutput, .openOutput ok =>
    some (d, j, .goto (if ok then .init else .fail errCodeApplyFailed))
  | .init, .exec o _ => some (j.afterInit q d o)
  | .planHead, .head ok =>
    let head := if ok then d.head j.repo else ""
    some (d, j, .goto (if head = "" then .planStart else .planRecord head))
  | .planRecord head, .update _ ok =>
    some ({ d with runs := (d.runs.update j.runID (fun m => { m with headSHA := head }) ok).1 }, j,
      .goto .planStart)
  | .planStart, .start true =>
    some (d, { j with
      mark := (d.trail j.repo).length
      ran := ⟨planArgs j.planFile, d.head j.repo, []⟩ :: j.ran }, .goto .planRun)
  | .planStart, .start false =>
    some (d, { j with res := ⟨-1, false⟩, planFile := "", runErr := true }, .goto .finish)
  | .planRun, .exec o wrote => j.afterPlan d wrote o
  | .priorList, .list true =>
    some (d, j, .goto (.priorHead (d.runs.list (priorFilter j.repo j.dir))))
  | .priorList, .list false => some (d, j, .goto .applyStart)
  | .priorHead metas, .head ok =>
    let head := if ok then d.head j.repo else ""
    some (d, j, .goto (if head = "" then .applyStart else .priorPick metas head))
  | .priorPick metas head, .pick =>
    let r := pickPlan d.plans head metas
    some (d, { j with prior := r.1, priorRunID := r.2 }, .goto .applyStart)
  | .applyStart, .start true =>
    some (d, { j with
      ran := ⟨applyArgs j.prior, d.head j.repo, d.built j.prior⟩ :: j.ran },
      .goto .applyRun)
  | .applyStart, .start false =>
    some (d, { j with res := ⟨-1, false⟩, runErr := true }, .goto .finish)
  | .applyRun, .exec o _ => j.afterApply d o
  | .consumeRemove, .remove ok =>
    some (if ok then { d with plans := Function.update d.plans j.prior false } else d, j,
      .goto (if j.priorRunID = "" then .finish else .consumeClear))
  | .consumeClear, .update _ ok =>
    some ({ d with runs := (d.runs.update j.priorRunID (fun m => { m with planFile := "" }) ok).1 },
      j, .goto .finish)
  | .finish, .update now ok =>
    some ({ d with
      runs := (d.runs.update j.runID (finishMeta j.res j.kind j.planFile j.runErr now) ok).1
      closed := Function.update d.closed j.runID true }, j, .leave)
  | .fail code, .update now ok =>
    some ({ d with
      runs := (d.runs.update j.runID (failMeta code now) ok).1
      closed := Function.update d.closed j.runID true }, j, .leave)
  | _, _ => none

/-! ### The job keeps its identity -/

/-- The fields `work` was started with are the same. -/
structure SameRun (j j' : Job) : Prop where
  runID : j'.runID = j.runID
  repo : j'.repo = j.repo
  dir : j'.dir = j.dir
  kind : j'.kind = j.kind

theorem SameRun.rfl {j : Job} : SameRun j j := ⟨Eq.refl _, Eq.refl _, Eq.refl _, Eq.refl _⟩

variable {q}

/-- `tofu init` leaves the disk alone. -/
theorem afterInit_disk (d : Disk) (j : Job) (o : Outcome) : (j.afterInit q d o).1 = d := by
  cases o with
  | exit code timedOut =>
    simp only [afterInit]
    split_ifs
    · rfl
    · cases j.kind <;> rfl
  | startError | panic => rfl

theorem afterInit_sameRun (d : Disk) (j : Job) (o : Outcome) :
    SameRun j (j.afterInit q d o).2.1 := by
  cases o with
  | exit code timedOut =>
    simp only [afterInit]
    split_ifs
    · exact ⟨Eq.refl _, Eq.refl _, Eq.refl _, Eq.refl _⟩
    · cases hk : j.kind <;> simp only <;> exact ⟨Eq.refl _, Eq.refl _, Eq.refl _, hk.symm⟩
  | startError | panic => exact ⟨Eq.refl _, Eq.refl _, Eq.refl _, Eq.refl _⟩

theorem afterPlan_sameRun {d : Disk} {j : Job} {wrote : Bool} {o : Outcome}
    {r : Disk × Job × JobNext} (h : j.afterPlan d wrote o = some r) : SameRun j r.2.1 := by
  cases o with
  | startError => cases h
  | exit code timedOut | panic =>
    cases h
    exact ⟨Eq.refl _, Eq.refl _, Eq.refl _, Eq.refl _⟩

theorem afterApply_sameRun {d : Disk} {j : Job} {o : Outcome} {r : Disk × Job × JobNext}
    (h : j.afterApply d o = some r) : SameRun j r.2.1 := by
  cases o with
  | startError => cases h
  | exit code timedOut | panic =>
    cases h
    exact ⟨Eq.refl _, Eq.refl _, Eq.refl _, Eq.refl _⟩

theorem step_sameRun {d : Disk} {j : Job} {pc : JobPc} {a : JobAct} {r : Disk × Job × JobNext}
    (h : j.step q d pc a = some r) : SameRun j r.2.1 := by
  unfold step at h
  split at h
  case h_3 =>
    cases h
    exact afterInit_sameRun ..
  case h_8 => exact afterPlan_sameRun h
  case h_15 => exact afterApply_sameRun h
  case h_20 => cases h
  all_goals
    cases h
    exact ⟨Eq.refl _, Eq.refl _, Eq.refl _, Eq.refl _⟩

end Job

end HaAddons.Runner
