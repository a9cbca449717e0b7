import HaAddons.Runner.Provenance

/-!
# The life of a run

A run's status is what its `meta.json` says. Workers write it, retention deletes it, and
`consumePlanArtifact` rewrites the metadata of somebody else's run.

* `Stage` — what is persisted of a run while its worker is at a given place.
* `Touch` — what one step can do to the persisted status of any run.
* `Spares` — retention has not picked the directory of a run that is still open.
-/

namespace HaAddons.Runner

/-! ## What is persisted of a run -/

/-- The status and the `FinishedAt` of a run's metadata; `none` without readable metadata. -/
def Disk.persisted (d : Disk) (id : String) : Option (RunStatus × Option Time) :=
  (d.runs.load id).map fun m => (m.status, m.finishedAt)

/-- The status changes a run goes through. -/
inductive RunStatus.Next : RunStatus → RunStatus → Prop
  | start : Next .queued .running
  | refuse : Next .queued .failed
  | succeed : Next .running .succeeded
  | fail : Next .running .failed

/-- A run that has ended. -/
def Finished (p : RunStatus × Option Time) : Prop :=
  (p.1 = .succeeded ∨ p.1 = .failed) ∧ p.2.isSome = true

/-- How far a run is. -/
inductive Stage where
  | queued
  | running
  | closed
  deriving DecidableEq

/-- What is persisted in each stage. The directory of a closed run may be gone. -/
def Stage.Shows : Stage → Option (RunStatus × Option Time) → Prop
  | .queued, p => p = some (.queued, none)
  | .running, p => p = some (.running, none)
  | .closed, p => ∀ x ∈ p, Finished x

def JobPc.stage : JobPc → Stage
  | .markRunning => .queued
  | _ => .running

def JobNext.stage : JobNext → Stage
  | .goto pc => pc.stage
  | .leave => .closed
  | .panicked => .running

/-- Behind the job: the deferred calls of `work`. -/
def WorkerPc.unwinding : WorkerPc → Bool
  | .releaseSlot | .unlock | .recover | .releasePending | .done => true
  | _ => false

def Worker.stage (w : Worker) : Stage :=
  match w.pc with
  | .handBack | .lookup | .create | .acquire | .waiting | .failLock | .slot | .failSlot => .queued
  | .job pc => pc.stage
  | .releaseSlot | .unlock => if w.panicking then .running else .closed
  | .recover => .running
  | .releasePending | .done => .closed

namespace Disk

variable {d d' : Disk} {id id' : String} {f : Meta → Meta}

theorem persisted_congr (h : d'.runs = d.runs) (id : String) : d'.persisted id = d.persisted id := by
  rw [persisted, persisted, h]

theorem persisted_of_load {m : Meta} (h : d.runs.load id = some m) :
    d.persisted id = some (m.status, m.finishedAt) := by
  rw [persisted, h]
  rfl

theorem load_of_persisted {x : RunStatus × Option Time} (h : d.persisted id = some x) :
    ∃ m, d.runs.load id = some m ∧ x = (m.status, m.finishedAt) := by
  obtain ⟨m, hm, hx⟩ := Option.map_eq_some_iff.mp h
  exact ⟨m, hm, hx.symm⟩

/-- An update of another run. -/
theorem persisted_update_ne (hd : d.runs.Named) (hf : ∀ m, (f m).runID = m.runID) {ok : Bool}
    (hr : d'.runs = (d.runs.update id f ok).1) (h : id' ≠ id) :
    d'.persisted id' = d.persisted id' := by
  rw [persisted, persisted, hr, Store.load_update_ne hd hf ok h]

/-- An update that goes through. -/
theorem persisted_update (hd : d.runs.Named) (hf : ∀ m, (f m).runID = m.runID)
    (hr : d'.runs = (d.runs.update id f true).1) {x : RunStatus × Option Time}
    (hx : d.persisted id = some x) :
    ∃ m, x = (m.status, m.finishedAt) ∧
      d'.persisted id = some ((f m).status, (f m).finishedAt) := by
  obtain ⟨m, hm, hx⟩ := load_of_persisted hx
  obtain ⟨hu, hload⟩ := Store.load_update_self hd (hf m) hm
  exact ⟨m, hx, persisted_of_load (by rw [hr, hu]; exact hload)⟩

/-- An update that changes neither the status nor `FinishedAt`, of whatever run. -/
theorem persisted_update_same (hd : d.runs.Named) (hf : ∀ m, (f m).runID = m.runID) {ok : Bool}
    (hs : ∀ m, (f m).status = m.status ∧ (f m).finishedAt = m.finishedAt)
    (hr : d'.runs = (d.runs.update id f ok).1) (id' : String) :
    d'.persisted id' = d.persisted id' := by
  by_cases h : id' = id
  · subst h
    rcases @Store.load_update d.runs hd id' f hf ok with h | ⟨m, hm, h⟩
    · rw [persisted, persisted, hr, h]
    · rw [persisted_of_load hm, persisted_of_load (by rw [hr]; exact h), (hs m).1, (hs m).2]
  · exact persisted_update_ne hd hf hr h

end Disk

/-! ## The job -/

section Job

variable {q : Config} {d d' : Disk} {j j' : Job} {pc : JobPc} {a : JobAct} {next : JobNext}

/-- The label lets an update of the run's own metadata succeed. -/
def JobAct.ownUpdateOk (pc : WorkerPc) : JobAct → Bool
  | .update _ ok => ok || pc = .job .consumeClear
  | _ => true

/-- What the step of a job does to the run it is for. -/
structure Advances (d d' : Disk) (id : String) (stage : Stage) : Prop where
  shows : stage.Shows (d'.persisted id)
  next : d'.persisted id = d.persisted id ∨ ∃ s s' t', d.persisted id = some (s, none) ∧
    d'.persisted id = some (s', t') ∧ s.Next s'

theorem Advances.of_eq {id : String} {x : Stage} (hs : x.Shows (d.persisted id))
    (h : d'.persisted id = d.persisted id) : Advances d d' id x :=
  ⟨by rwa [h], .inl h⟩

/-- A terminal state is written. -/
theorem Advances.close (hd : d.runs.Named) {id : String} {f : Meta → Meta}
    (hf : ∀ m, (f m).runID = m.runID) (hr : d'.runs = (d.runs.update id f true).1)
    {s r : RunStatus} {t : Time} (hp : d.persisted id = some (s, none)) (hn : s.Next r)
    (hs : ∀ m, (f m).status = r ∧ (f m).finishedAt = some t)
    (ht : r = .succeeded ∨ r = .failed) : Advances d d' id .closed := by
  obtain ⟨m, -, h⟩ := Disk.persisted_update hd hf hr hp
  rw [(hs m).1, (hs m).2] at h
  refine ⟨?_, .inr ⟨s, r, some t, hp, h, hn⟩⟩
  rw [h]
  intro x hx
  obtain rfl : (r, some t) = x := by simpa using hx
  exact ⟨ht, rfl⟩

theorem terminal_status (res : ExecResult) (kind : RunKind) (runErr : Bool) :
    (terminal res kind runErr).1 = .succeeded ∨ (terminal res kind runErr).1 = .failed := by
  unfold terminal
  split_ifs <;> simp

theorem Job.afterInit_stage (d : Disk) (j : Job) (o : Outcome) :
    (j.afterInit q d o).2.2.stage = .running := by
  cases o with
  | exit code timedOut =>
    simp only [afterInit]
    split_ifs
    · rfl
    · cases j.kind <;> rfl
  | startError | panic => rfl

theorem Job.afterPlan_stage {wrote : Bool} {o : Outcome}
    (h : j.afterPlan d wrote o = some (d', j', next)) :
    next.stage = .running ∧ d'.runs = d.runs := by
  cases o with
  | startError => cases h
  | exit code timedOut | panic =>
    cases h
    exact ⟨rfl, by cases wrote <;> rfl⟩

theorem Job.afterApply_stage {o : Outcome} (h : j.afterApply d o = some (d', j', next)) :
    next.stage = .running ∧ d'.runs = d.runs := by
  cases o with
  | startError => cases h
  | panic =>
    cases h
    exact ⟨rfl, rfl⟩
  | exit code timedOut =>
    cases h
    refine ⟨?_, rfl⟩
    simp only [JobNext.stage]
    split <;> rfl

/-- **The job moves its run along.** As long as its updates of the run's metadata succeed, each
step leaves the persisted status where the job is next. -/
theorem Job.step_advances (h : j.step q d pc a = some (d', j', next)) (hd : d.runs.Named)
    (hs : pc.stage.Shows (d.persisted j.runID)) (hok : a.ownUpdateOk (.job pc) = true) :
    Advances d d' j.runID next.stage := by
  cases pc with
  | markRunning =>
    cases a with
    | update now ok =>
      obtain rfl : ok = true := by simpa [JobAct.ownUpdateOk] using hok
      have hp : d.persisted j.runID = some (.queued, none) := hs
      obtain ⟨m₀, hm₀, -⟩ := Disk.load_of_persisted hp
      obtain ⟨hu, -⟩ := @Store.load_update_self d.runs hd j.runID
        (fun m => { m with status := .running, startedAt := now }) m₀ rfl hm₀
      cases h
      rw [hu]
      obtain ⟨m, hm, h⟩ := @Disk.persisted_update d { d with runs := d.runs.writeMeta _ } j.runID
        (fun m => { m with status := .running, startedAt := now }) hd (fun _ => rfl)
        (by rw [hu]) _ hp
      have hfin : m.finishedAt = none := (Prod.mk.inj hm).2.symm
      simp only [hfin] at h
      exact ⟨h, .inr ⟨_, _, _, hp, h, .start⟩⟩
    | _ => cases h
  | openOutput =>
    cases a with
    | openOutput ok =>
      cases h
      cases ok <;> exact .of_eq hs rfl
    | _ => cases h
  | init =>
    cases a with
    | exec o wrote =>
      have heq : j.afterInit q d o = (d', j', next) := Option.some.inj h
      have hn := afterInit_stage (q := q) d j o
      have hd' := afterInit_disk (q := q) d j o
      rw [heq] at hn hd'
      rw [hn]
      exact .of_eq hs (Disk.persisted_congr (congrArg Disk.runs hd') _)
    | _ => cases h
  | planHead =>
    cases a with
    | head ok =>
      cases h
      refine .of_eq (x := JobNext.stage _) ?_ rfl
      simp only [JobNext.stage]
      split_ifs <;> exact hs
    | _ => cases h
  | planRecord head =>
    cases a with
    | update now ok =>
      cases h
      exact .of_eq hs (Disk.persisted_update_same (f := fun m => { m with headSHA := head }) hd
        (fun _ => rfl) (fun _ => ⟨rfl, rfl⟩) rfl _)
    | _ => cases h
  | planStart =>
    cases a with
    | start ok => cases ok <;> cases h <;> exact .of_eq hs rfl
    | _ => cases h
  | planRun =>
    cases a with
    | exec o wrote =>
      obtain ⟨hn, hr⟩ := afterPlan_stage h
      rw [hn]
      exact .of_eq hs (Disk.persisted_congr hr _)
    | _ => cases h
  | priorList =>
    cases a with
    | list ok => cases ok <;> cases h <;> exact .of_eq hs rfl
    | _ => cases h
  | priorHead metas =>
    cases a with
    | head ok =>
      cases h
      refine .of_eq (x := JobNext.stage _) ?_ rfl
      simp only [JobNext.stage]
      split_ifs <;> exact hs
    | _ => cases h
  | priorPick metas head =>
    cases a with
    | pick =>
      cases h
      exact .of_eq hs rfl
    | _ => cases h
  | applyStart =>
    cases a with
    | start ok => cases ok <;> cases h <;> exact .of_eq hs rfl
    | _ => cases h
  | applyRun =>
    cases a with
    | exec o wrote =>
      obtain ⟨hn, hr⟩ := afterApply_stage h
      rw [hn]
      exact .of_eq hs (Disk.persisted_congr hr _)
    | _ => cases h
  | consumeRemove =>
    cases a with
    | remove ok =>
      cases h
      refine .of_eq (x := JobNext.stage _) ?_ (Disk.persisted_congr (by cases ok <;> rfl) _)
      simp only [JobNext.stage]
      split <;> exact hs
    | _ => cases h
  | consumeClear =>
    cases a with
    | update now ok =>
      cases h
      exact .of_eq hs (Disk.persisted_update_same (f := fun m => { m with planFile := "" }) hd
        (fun _ => rfl) (fun _ => ⟨rfl, rfl⟩) rfl _)
    | _ => cases h
  | finish =>
    cases a with
    | update now ok =>
      obtain rfl : ok = true := by simpa [JobAct.ownUpdateOk] using hok
      cases h
      have ht := terminal_status j.res j.kind j.runErr
      exact .close hd (f := finishMeta j.res j.kind j.planFile j.runErr now) (fun _ => rfl) rfl
        (r := (terminal j.res j.kind j.runErr).1) (t := now) hs
        (by rcases ht with ht | ht <;> rw [ht] <;> constructor) (fun _ => ⟨rfl, rfl⟩) ht
    | _ => cases h
  | fail code =>
    cases a with
    | update now ok =>
      obtain rfl : ok = true := by simpa [JobAct.ownUpdateOk] using hok
      cases h
      exact .close hd (f := failMeta code now) (fun _ => rfl) rfl (t := now) hs .fail
        (fun _ => ⟨rfl, rfl⟩) (.inr rfl)
    | _ => cases h

/-- A job writes metadata of its own run, or of another one without touching its status. -/
theorem Job.step_runs (h : j.step q d pc a = some (d', j', next)) :
    d'.runs = d.runs ∨ ∃ (id : String) (f : Meta → Meta) (ok : Bool),
      d'.runs = (d.runs.update id f ok).1 ∧ (∀ m, (f m).runID = m.runID) ∧
        (id = j.runID ∨ ∀ m, (f m).status = m.status ∧ (f m).finishedAt = m.finishedAt) := by
  unfold step at h
  split at h
  case h_1 | h_5 | h_18 | h_19 =>
    cases h
    exact .inr ⟨_, _, _, rfl, fun _ => rfl, .inl rfl⟩
  case h_17 =>
    cases h
    exact .inr ⟨_, _, _, rfl, fun _ => rfl, .inr fun _ => ⟨rfl, rfl⟩⟩
  case h_3 o _ =>
    have hd' := afterInit_disk (q := q) d j o
    rw [Option.some.inj h] at hd'
    exact .inl (congrArg Disk.runs hd')
  case h_8 => exact .inl (afterPlan_stage h).2
  case h_15 => exact .inl (afterApply_stage h).2
  case h_16 ok =>
    cases h
    exact .inl (by cases ok <;> rfl)
  case h_20 => cases h
  all_goals
    cases h
    exact .inl rfl

end Job

/-! ## Threads and the directories they rely on -/

namespace Thread

/-- The run whose directory has to stay: it is being created, or its worker has not closed it. -/
def keeps : Thread → Option String
  | .submit c => match c.pc with
    | .create id | .writeMeta id | .start id => some id
    | _ => none
  | .worker w => if w.stage = .closed then none else some w.job.runID
  | _ => none

/-- The run directory the thread is about to make. -/
def creates : Thread → Option String
  | .submit c => match c.pc with
    | .create id => some id
    | _ => none
  | _ => none

/-- A `Submit` call between making the directory and writing its metadata. -/
def fills (id : String) : Thread → Bool
  | .submit c => c.pc = .writeMeta id
  | _ => false

/-- The run whose directory retention is about to delete. -/
def dooms : Thread → Option String
  | .rotate r => match r.pc with
    | .remove id _ _ => some id
    | _ => none
  | _ => none

/-- The directory retention looks at next. -/
def looksAt : Thread → Option String
  | .rotate r => match r.pc with
    | .load _ todo => todo.head?
    | _ => none
  | _ => none

/-- The directories retention has still to look at. -/
def listed : Thread → List String
  | .rotate r => match r.pc with
    | .load _ todo | .remove _ _ todo => todo
    | _ => []
  | _ => []

/-- The failed submission whose directory is about to be deleted. -/
def cleans : Thread → Option String
  | .submit c => match c.pc with
    | .cleanup _ id => some id
    | _ => none
  | _ => none

/-- What is known of a thread's run, or of the directories retention looks at. -/
def Living (d : Disk) : Thread → Prop
  | .submit c => match c.pc with
    | .create id => isValidRunID id = true ∧ ∀ e ∈ d.runs, e.name ≠ id
    | .writeMeta id => isValidRunID id = true ∧ d.persisted id = none
    | .start id => d.persisted id = some (.queued, none)
    | _ => True
  | .worker w => w.stage.Shows (d.persisted w.job.runID) ∧
      (w.pc.unwinding = false → w.panicking = false)
  | .rotate r => (∀ id ∈ (Thread.rotate r).listed, d.issued id ≠ none) ∧
      ∀ id, (Thread.rotate r).dooms = some id → d.issued id ≠ none ∧
        ∀ x ∈ d.persisted id, x.1 ≠ .queued ∧ x.1 ≠ .running
  | .pull _ => True

/-- Retention (`t`) is not about to delete a directory that `u` relies on, and has not listed the
one that `u` is about to make. -/
def Spares (t u : Thread) : Prop :=
  (∀ id, t.dooms = some id → u.keeps ≠ some id) ∧ ∀ id ∈ t.listed, u.creates ≠ some id

theorem runID_of_keeps {t : Thread} {id : String} (h : t.keeps = some id) : t.runID = some id := by
  cases t with
  | submit c =>
    obtain ⟨req, dir, pc⟩ := c
    cases pc with
    | create | writeMeta | start => exact h
    | _ => cases h
  | worker w =>
    simp only [keeps] at h
    split at h
    · cases h
    · exact h
  | pull p | rotate r => cases h

theorem mem_listed_of_looksAt {t : Thread} {id : String} (h : t.looksAt = some id) :
    id ∈ t.listed := by
  cases t with
  | rotate r =>
    obtain ⟨maxAge, pc⟩ := r
    cases pc with
    | load now todo => exact List.mem_of_head? h
    | _ => cases h
  | submit c | worker w | pull p => cases h

theorem runID_of_cleans {t : Thread} {id : String} (h : t.cleans = some id) :
    t.runID = some id := by
  cases t with
  | submit c =>
    obtain ⟨req, dir, pc⟩ := c
    cases pc with
    | cleanup => exact h
    | _ => cases h
  | worker w | pull p | rotate r => cases h

theorem keeps_of_creates {t : Thread} {id : String} (h : t.creates = some id) :
    t.keeps = some id := by
  cases t with
  | submit c =>
    obtain ⟨req, dir, pc⟩ := c
    cases pc with
    | create => exact h
    | _ => cases h
  | worker w | pull p | rotate r => cases h

end Thread

/-- What a step of thread `t` can do to the run directories. -/
structure Touch (d d' : Disk) (t : Thread) : Prop where
  names : ∀ e ∈ d'.runs, (∃ e₀ ∈ d.runs, e₀.name = e.name) ∨ t.creates = some e.name
  persisted : ∀ id, d'.persisted id = d.persisted id ∨ t.keeps = some id ∨
    (t.dooms = some id ∨ t.cleans = some id) ∧ d'.persisted id = none

theorem Touch.of_runs {d d' : Disk} {t : Thread} (h : d'.runs = d.runs) : Touch d d' t where
  names e he := .inl ⟨e, h ▸ he, rfl⟩
  persisted id := .inl (Disk.persisted_congr h id)

/-- Metadata is updated: of the run the thread keeps, or without a change of status. -/
theorem Touch.update {d d' : Disk} {t : Thread} (hd : d.runs.Named) {id : String} {f : Meta → Meta}
    {ok : Bool} (hr : d'.runs = (d.runs.update id f ok).1) (hf : ∀ m, (f m).runID = m.runID)
    (hk : t.keeps = some id ∨ ∀ m, (f m).status = m.status ∧ (f m).finishedAt = m.finishedAt) :
    Touch d d' t where
  names e he := .inl (Store.name_of_mem_update (hr ▸ he))
  persisted id' := by
    rcases hk with hk | hs
    · by_cases h : id' = id
      · exact .inr (.inl (h ▸ hk))
      · exact .inl (Disk.persisted_update_ne hd hf hr h)
    · exact .inl (Disk.persisted_update_same hd hf hs hr id')

/-- A directory is deleted. -/
theorem Touch.removeAll {d d' : Disk} {t : Thread} {id : String} (hr : d'.runs = d.runs.removeAll id)
    (ht : t.dooms = some id ∨ t.cleans = some id) : Touch d d' t where
  names e he := by
    rw [hr] at he
    exact .inl ⟨e, List.mem_of_mem_filter he, rfl⟩
  persisted id' := by
    by_cases h : id' = id
    · subst h
      refine .inr (.inr ⟨ht, ?_⟩)
      rw [Disk.persisted, hr, Store.load_removeAll_self]
      rfl
    · refine .inl ?_
      rw [Disk.persisted, Disk.persisted, hr, Store.load_removeAll_ne h]

/-! ## What each thread does to its run -/

section Threads

variable {q : Config} {m : Manager} {d d' : Disk} {w w' : Worker}

theorem Worker.keeps_of_stage {stage : Stage} (h : w.stage = stage) (hs : stage ≠ .closed) :
    (Thread.worker w).keeps = some w.job.runID := by
  simp [Thread.keeps, h, hs]

theorem Worker.after_stage (hp : w.panicking = false) (j : Job) (next : JobNext) :
    (w.after j next).stage = next.stage := by
  cases next with
  | goto pc => rfl
  | leave => simp [stage, after, hp, JobNext.stage]
  | panicked => simp [stage, after, JobNext.stage]

/-- **A worker moves its run along**, in its job and around it. -/
theorem Worker.diskStep_advances {a : JobAct} (h : w.diskStep q d a = some (d', w'))
    (hd : d.runs.Named) (hw : (Thread.worker w).Living d) (hok : a.ownUpdateOk w.pc = true) :
    Advances d d' w.job.runID w'.stage ∧ (w'.pc.unwinding = false → w'.panicking = false) := by
  obtain ⟨hs, hp⟩ := hw
  cases hpc : w.pc with
  | failLock =>
    simp only [diskStep, hpc] at h
    cases a with
    | update now ok =>
      obtain rfl : ok = true := by simpa [JobAct.ownUpdateOk, hpc] using hok
      cases h
      refine ⟨.close hd (f := failMeta errCodeApplyAlreadyRunning now) (fun _ => rfl) rfl
        (s := .queued) (t := now) ?_ .refuse (fun _ => ⟨rfl, rfl⟩) (.inr rfl),
        by simp [WorkerPc.unwinding]⟩
      simpa [stage, hpc, Stage.Shows] using hs
    | _ => cases h
  | failSlot =>
    simp only [diskStep, hpc] at h
    cases a with
    | update now ok =>
      obtain rfl : ok = true := by simpa [JobAct.ownUpdateOk, hpc] using hok
      have hp : w.panicking = false := hp (by rw [hpc]; rfl)
      cases h
      have hstage : Worker.stage { w with pc := .unlock } = .closed := by simp [stage, hp]
      rw [hstage]
      refine ⟨.close hd (f := failMeta errCodeApplyCapacityExhausted now) (fun _ => rfl) rfl
        (s := .queued) (t := now) ?_ .refuse (fun _ => ⟨rfl, rfl⟩) (.inr rfl), fun _ => hp⟩
      simpa [stage, hpc, Stage.Shows] using hs
    | _ => cases h
  | recover =>
    simp only [diskStep, hpc] at h
    cases a with
    | update now ok =>
      obtain rfl : ok = true := by simpa [JobAct.ownUpdateOk, hpc] using hok
      cases h
      refine ⟨.close hd (f := finishMeta ⟨-1, false⟩ w.job.kind "" true now) (fun _ => rfl) rfl
        (s := .running) (r := .failed) (t := now) ?_ .fail (fun _ => ⟨rfl, rfl⟩) (.inr rfl),
        by simp [WorkerPc.unwinding]⟩
      simpa [stage, hpc, Stage.Shows] using hs
    | _ => cases h
  | job pc =>
    simp only [diskStep, hpc] at h
    obtain ⟨⟨d₁, j, next⟩, hj, h⟩ := Option.map_eq_some_iff.mp h
    have hp : w.panicking = false := hp (by rw [hpc]; rfl)
    have hs : pc.stage.Shows (d.persisted w.job.runID) := by simpa [stage, hpc] using hs
    have hadv := Job.step_advances hj hd hs (by rwa [hpc] at hok)
    cases h
    refine ⟨by rwa [after_stage hp], fun hu => ?_⟩
    cases next with
    | goto pc' => exact hp
    | leave => exact hp
    | panicked => cases hu
  | _ => simp [diskStep, hpc] at h

theorem Worker.keeps_of_diskStep {a : JobAct} (h : w.diskStep q d a = some (d', w')) :
    (Thread.worker w).keeps = some w.job.runID := by
  refine keeps_of_stage rfl fun hs => ?_
  cases hpc : w.pc with
  | failLock | failSlot | recover => simp [stage, hpc] at hs
  | job pc =>
    simp only [stage, hpc] at hs
    cases pc <;> cases hs
  | _ => simp [diskStep, hpc] at h

theorem Worker.diskStep_touch {a : JobAct} (h : w.diskStep q d a = some (d', w'))
    (hd : d.runs.Named) : Touch d d' (.worker w) := by
  have hk := keeps_of_diskStep h
  cases hpc : w.pc with
  | failLock | failSlot | recover =>
    simp only [diskStep, hpc] at h
    cases a with
    | update now ok =>
      cases h
      exact .update hd rfl (fun _ => rfl) (.inl hk)
    | _ => cases h
  | job pc =>
    simp only [diskStep, hpc] at h
    obtain ⟨⟨d₁, j, next⟩, hj, h⟩ := Option.map_eq_some_iff.mp h
    cases h
    rcases Job.step_runs hj with hr | ⟨id, f, ok, hr, hf, rfl | hs⟩
    · exact .of_runs hr
    · exact .update hd hr hf (.inl hk)
    · exact .update hd hr hf (.inr hs)
  | _ => simp [diskStep, hpc] at h

/-- The gates do not move a run along. -/
theorem Worker.gateStep_stage {cap : ℕ} {g g' : Gate} {a : GateAct}
    (h : w.gateStep cap g a = some (g', w')) :
    w'.stage = w.stage ∧ ((w.pc.unwinding = false → w.panicking = false) →
      w'.pc.unwinding = false → w'.panicking = false) := by
  obtain ⟨job, pc, l, waiter, handoff, panicking⟩ := w
  cases a with
  | step =>
    cases pc with
    | handBack | waiting | slot =>
      obtain ⟨x, -, h⟩ := Option.map_eq_some_iff.mp h
      cases h
      exact ⟨rfl, fun hp _ => hp rfl⟩
    | releaseSlot =>
      obtain ⟨x, -, h⟩ := Option.map_eq_some_iff.mp h
      cases h
      exact ⟨rfl, fun _ hu => by cases hu⟩
    | lookup =>
      simp only [gateStep, ownStep] at h
      split at h <;> cases h <;> exact ⟨rfl, fun hp _ => hp rfl⟩
    | create | acquire =>
      cases h
      exact ⟨rfl, fun hp _ => hp rfl⟩
    | releasePending =>
      cases h
      exact ⟨rfl, fun _ hu => by cases hu⟩
    | unlock =>
      obtain ⟨x, -, h⟩ := Option.map_eq_some_iff.mp h
      cases h
      cases panicking with
      | true => exact ⟨rfl, fun _ hu => by cases hu⟩
      | false => exact ⟨rfl, fun _ _ => rfl⟩
    | failLock | failSlot | job | recover | done => cases h
  | timeout =>
    cases pc with
    | waiting | slot =>
      cases h
      exact ⟨rfl, fun hp _ => hp rfl⟩
    | _ => cases h
  | waiter =>
    obtain ⟨x, -, h⟩ := Option.map_eq_some_iff.mp h
    cases h
    exact ⟨rfl, id⟩
  | handoff =>
    cases handoff with
    | receiving | unlocking =>
      obtain ⟨x, -, h⟩ := Option.map_eq_some_iff.mp h
      cases h
      exact ⟨rfl, id⟩
    | none | done => cases h

/-- What a step of thread `t`, then `t'`, does to the run directories, and what is known of it
afterwards. -/
structure Thread.Lives (s s' : Shared) (t t' : Thread) : Prop where
  living : t'.Living s'.disk
  touch : Touch s.disk s'.disk t
  keeps : ∀ id, t'.keeps = some id → t.keeps = some id ∨ s.disk.issued id = none
  creates : ∀ id, t'.creates = some id → s.disk.issued id = none

/-- A step that leaves the run directories alone and moves to a place where nothing is kept. -/
theorem Thread.Lives.plain {s s' : Shared} {t t' : Thread} (hr : s'.disk.runs = s.disk.runs)
    (hl : t'.Living s'.disk) (hk : t'.keeps = none) : t.Lives s s' t' where
  living := hl
  touch := .of_runs hr
  keeps id h := by
    rw [hk] at h
    cases h
  creates id h := by
    rw [Thread.keeps_of_creates h] at hk
    cases hk

theorem SubmitCall.step_lives {s s' : Shared} {c : SubmitCall} {t : Thread} {a : SubmitAct}
    (h : c.step q m s c.pc a = some (s', t)) (hn : ∀ e ∈ s.disk.runs, s.disk.issued e.name ≠ none)
    (hc : (Thread.submit c).Living s.disk) : (Thread.submit c).Lives s s' t := by
  obtain ⟨req, dir, pc⟩ := c
  cases pc with
  | check =>
    cases a with
    | check cloned =>
      simp only [step] at h
      split at h <;> cases h <;> exact .plain rfl trivial rfl
    | _ => cases h
  | takeToken =>
    cases a with
    | step =>
      simp only [step] at h
      split at h <;> cases h <;> exact .plain rfl trivial rfl
    | _ => cases h
  | reserve =>
    cases a with
    | step =>
      cases h
      cases hb : (s.gate.reservePending (maxParallelJobs q.maxParallel) req.repo).2 <;>
        exact .plain rfl trivial rfl
    | _ => cases h
  | newRunID =>
    cases a with
    | newRunID id =>
      cases id with
      | none =>
        cases h
        exact .plain rfl trivial rfl
      | some id =>
        simp only [step] at h
        split at h
        · rename_i hnew
          cases h
          refine ⟨⟨hnew.1, fun e he hname => hn e he (hname ▸ hnew.2)⟩, .of_runs rfl,
            fun id' hid => .inr ?_, fun id' hid => ?_⟩
          · obtain rfl : id = id' := by simpa [Thread.keeps] using hid
            exact hnew.2
          · obtain rfl : id = id' := by simpa [Thread.creates] using hid
            exact hnew.2
        · cases h
    | _ => cases h
  | create id =>
    cases a with
    | io now ok =>
      simp only [step] at h
      split at h
      · cases h
        obtain ⟨hv, hno⟩ := hc
        have hload : ∀ id', (s.disk.runs.mkdir id).load id' = s.disk.runs.load id' :=
          Store.load_mkdir _ _
        have hnone : s.disk.runs.load id = none := by
          have hfind : s.disk.runs.find? (·.name = id) = none := by simpa using hno
          simp [Store.load, hfind]
        refine ⟨⟨hv, ?_⟩, ⟨fun e he => ?_, fun id' => .inl ?_⟩, fun id' hid => .inl hid,
          fun id' hid => (by cases hid)⟩
        · simp [Disk.persisted, hload, hnone]
        · rcases Store.mem_mkdir he with he | he
          · exact .inl ⟨e, he, rfl⟩
          · exact .inr (by rw [he]; rfl)
        · simp [Disk.persisted, hload]
      · cases h
        exact .plain rfl trivial rfl
    | _ => cases h
  | writeMeta id =>
    cases a with
    | io now ok =>
      simp only [step] at h
      split at h
      · rename_i hok
        cases h
        obtain ⟨hv, hnone⟩ := hc
        have hany : s.disk.runs.any (·.name = id) = true := by
          rw [Bool.and_eq_true] at hok
          exact hok.2
        have hself := Store.load_writeMeta_self (s := s.disk.runs)
          (m := SubmitCall.queuedMeta ⟨req, dir, .writeMeta id⟩ id now) hv hany
        refine ⟨?_, ⟨fun e he => .inl (Store.name_of_mem_writeMeta he), fun id' => ?_⟩, fun id' hid => .inl hid, fun id' hid => (by cases hid)⟩
        · show Disk.persisted _ id = some (.queued, none)
          exact congrArg (Option.map fun m => (m.status, m.finishedAt)) hself
        · by_cases he : id' = id
          · exact .inr (.inl (by rw [he]; rfl))
          · refine .inl ?_
            rw [Disk.persisted, Disk.persisted]
            rw [Store.load_writeMeta_ne (by exact he)]
      · cases h
        exact .plain rfl trivial rfl
    | _ => cases h
  | start id =>
    cases a with
    | step =>
      cases h
      exact ⟨⟨hc, fun _ => rfl⟩, .of_runs rfl, fun id' hid => .inl hid, fun id' hid => (by cases hid)⟩
    | _ => cases h
  | releasePending e stillborn =>
    cases a with
    | step =>
      cases h
      exact .plain rfl trivial rfl
    | _ => cases h
  | giveBack e stillborn =>
    cases a with
    | step =>
      obtain ⟨g, -, h⟩ := Option.map_eq_some_iff.mp h
      cases h
      cases stillborn <;> exact .plain rfl trivial rfl
    | _ => cases h
  | cleanup e id =>
    cases a with
    | io now ok =>
      cases h
      cases ok with
      | false => exact .plain rfl trivial rfl
      | true =>
        exact ⟨trivial, .removeAll rfl (.inr rfl), fun id' hid => (by cases hid),
          fun id' hid => (by cases hid)⟩
    | _ => cases h
  | refused e => cases a <;> cases h

/-- What a step of `Rotate` does to the run directories, and what it leaves known of the call. A
directory it picks has no metadata and is over-age, or that of a run neither queued nor running. -/
structure RotateCall.Lives (d d' : Disk) (a : RotateAct) (r r' : RotateCall) : Prop where
  touch : Touch d d' (.rotate r)
  listed : ∀ id ∈ (Thread.rotate r').listed, id ∈ (Thread.rotate r).listed ∨
    ∃ e ∈ d.runs, e.name = id
  dooms : ∀ id, (Thread.rotate r').dooms = some id → (Thread.rotate r).looksAt = some id ∧
    d'.runs = d.runs ∧ (∀ x ∈ d.persisted id, x.1 ≠ .queued ∧ x.1 ≠ .running) ∧
    (d.persisted id = none → a = .load true)

theorem overAge_status {now : Time} {maxAge : ℤ} {x : Meta} (h : overAge now maxAge x = true) :
    x.status ≠ .queued ∧ x.status ≠ .running := by
  simp only [overAge, Bool.and_eq_true, decide_eq_true_eq] at h
  exact ⟨by simpa using h.1.1, by simpa using h.1.2⟩

theorem RotateCall.step_lives {r r' : RotateCall} {a : RotateAct}
    (h : r.step q d a = some (d', r')) : Lives d d' a r r' := by
  obtain ⟨maxAge, pc⟩ := r
  cases a with
  | readDir now =>
    simp only [step] at h
    split_ifs at h with hpc
    cases h
    refine ⟨.of_runs rfl, fun id hid => .inr ?_, fun id hid => (by cases hid)⟩
    obtain ⟨e, he, hname⟩ := List.mem_map.mp (List.mem_of_mem_filter hid)
    exact ⟨e, he, hname⟩
  | load stale =>
    cases pc with
    | load now todo =>
      cases todo with
      | nil =>
        cases h
        exact ⟨.of_runs rfl, fun id hid => (by cases hid), fun id hid => (by cases hid)⟩
      | cons id todo =>
        cases h
        refine ⟨.of_runs rfl, fun id' hid => .inl (List.mem_cons_of_mem _ ?_), fun id' hid => ?_⟩
        · split_ifs at hid <;> exact hid
        · split_ifs at hid with hdoomed
          · obtain rfl : id = id' := by simpa [Thread.dooms] using hid
            refine ⟨rfl, rfl, fun y hy => ?_, fun hnone => ?_⟩
            · obtain ⟨x, hx, rfl⟩ := Disk.load_of_persisted (Option.mem_def.mp hy)
              simp only [hx] at hdoomed
              exact overAge_status hdoomed
            · simp only [Option.map_eq_none_iff.mp hnone] at hdoomed
              rw [hdoomed]
          · cases hid
    | _ => cases h
  | remove ok =>
    cases pc with
    | remove id now todo =>
      cases h
      refine ⟨?_, fun id' hid => .inl hid, fun id' hid => (by cases hid)⟩
      cases ok with
      | false => exact .of_runs rfl
      | true => exact .removeAll rfl (.inl rfl)
    | _ => cases h

/-- The label lets the thread's updates of its own run succeed. -/
def Thread.ownUpdateOk (t : Thread) : Act → Bool
  | .job a => match t with
    | .worker w => a.ownUpdateOk w.pc
    | _ => true
  | _ => true

theorem Thread.step_lives {s s' : Shared} {t t' : Thread} {a : Act}
    (h : t.step q m s a = some (s', t')) (hd : s.disk.Sane q)
    (hn : ∀ e ∈ s.disk.runs, s.disk.issued e.name ≠ none) (ht : t.Living s.disk)
    (hok : t.ownUpdateOk a = true) : t.Lives s s' t' := by
  cases t with
  | submit c =>
    cases a with
    | submit a => exact SubmitCall.step_lives h hn ht
    | _ => cases h
  | worker w =>
    cases a with
    | gate a =>
      obtain ⟨⟨g, w'⟩, hg, h⟩ := Option.map_eq_some_iff.mp h
      cases h
      obtain ⟨hstage, hu⟩ := Worker.gateStep_stage hg
      have hjob := (Worker.gateStep_job hg).1
      refine ⟨⟨?_, hu ht.2⟩, .of_runs rfl, fun id hid => .inl ?_, fun id hid => (by cases hid)⟩
      · rw [hstage, hjob]
        exact ht.1
      · simpa only [keeps, hstage, hjob] using hid
    | job a =>
      obtain ⟨⟨d, w'⟩, hw, h⟩ := Option.map_eq_some_iff.mp h
      cases h
      obtain ⟨hadv, hu⟩ := Worker.diskStep_advances hw hd.named ht hok
      have hid := (Worker.diskStep_sameRun hw).runID
      refine ⟨⟨by rw [hid]; exact hadv.shows, hu⟩, Worker.diskStep_touch hw hd.named,
        fun id h => .inl ?_, fun id h => (by cases h)⟩
      have hrun : w'.job.runID = id := by simpa [runID] using runID_of_keeps h
      rw [Worker.keeps_of_diskStep hw, ← hid, hrun]
    | _ => cases h
  | pull p =>
    cases a with
    | pull a =>
      obtain ⟨⟨d, p'⟩, hp, h⟩ := Option.map_eq_some_iff.mp h
      cases h
      rcases PullCall.step_disk hp with rfl | ⟨ok, tip, -, -, rfl⟩ <;> exact .plain rfl trivial rfl
    | _ => cases h
  | rotate r =>
    cases a with
    | rotate a =>
      obtain ⟨⟨d, r'⟩, hr, h⟩ := Option.map_eq_some_iff.mp h
      cases h
      have hlives := RotateCall.step_lives hr
      have hissued : ∀ id, s.disk.issued id ≠ none → d.issued id ≠ none := by
        rcases RotateCall.step_disk hr with rfl | ⟨id, rfl⟩ <;> exact fun _ h => h
      refine ⟨⟨fun id hid => hissued id ?_, fun id hid => ?_⟩, hlives.touch,
        fun id hid => (by cases hid), fun id hid => (by cases hid)⟩
      · rcases hlives.listed id hid with hid | ⟨e, he, rfl⟩
        · exact ht.1 id hid
        · exact hn e he
      · obtain ⟨hlooks, hruns, hx, -⟩ := hlives.dooms id hid
        refine ⟨hissued id (ht.1 id (mem_listed_of_looksAt hlooks)), fun x hx' => hx x ?_⟩
        rwa [Disk.persisted_congr hruns] at hx'
    | _ => cases h

end Threads

/-! ## Every state -/

section Runs

variable {q : Config} {m : Manager} {D : Disk → Prop} {c : State}

/-- The label lets the updates of a run's own metadata succeed, and retention does not find a
directory over-age that `Submit` has made and not yet filled. -/
def steady (c : State) : Move Call Act → Bool
  | .move i a => c.threads[i]?.all fun t => t.ownUpdateOk a &&
    match a with
    | .rotate (.load stale) => !stale || t.looksAt.all fun id => !c.threads.any (Thread.fills id)
    | _ => true
  | _ => true

/-- What holds of a thread's run survives the steps of the others. -/
theorem Thread.Living.frame {d d' : Disk} {t u : Thread} (hu : u.Living d) (ht : Touch d d' t)
    (hi : ∀ id, d.issued id ≠ none → d'.issued id ≠ none)
    (hk : ∀ id, t.runID = some id → u.runID ≠ some id) (hs : t.Spares u ∧ u.Spares t) :
    u.Living d' := by
  have hkeep : ∀ id, u.keeps = some id → d'.persisted id = d.persisted id := by
    intro id hid
    rcases ht.persisted id with h | h | ⟨h | h, -⟩
    · exact h
    · exact absurd (runID_of_keeps hid) (hk id (runID_of_keeps h))
    · exact absurd hid (hs.1.1 id h)
    · exact absurd (runID_of_keeps hid) (hk id (runID_of_cleans h))
  cases u with
  | submit c =>
    obtain ⟨req, dir, pc⟩ := c
    cases pc with
    | create id =>
      refine ⟨hu.1, fun e he hname => ?_⟩
      rcases ht.names e he with ⟨e₀, he₀, hname₀⟩ | h
      · exact hu.2 e₀ he₀ (hname₀.trans hname)
      · rw [hname] at h
        exact hk id (runID_of_keeps (keeps_of_creates h)) rfl
    | writeMeta id => exact ⟨hu.1, by rw [hkeep id rfl]; exact hu.2⟩
    | start id =>
      show d'.persisted id = _
      rw [hkeep id rfl]
      exact hu
    | _ => trivial
  | worker w =>
    refine ⟨?_, hu.2⟩
    by_cases hstage : w.stage = .closed
    · rw [hstage]
      intro x hx
      have hclosed : ∀ x ∈ d.persisted w.job.runID, Finished x := by
        have := hu.1
        rwa [hstage] at this
      rcases ht.persisted w.job.runID with h | h | ⟨-, h⟩
      · exact hclosed x (h ▸ hx)
      · exact absurd rfl (hk _ (runID_of_keeps h))
      · rw [h] at hx
        cases hx
    · rw [hkeep _ (Worker.keeps_of_stage rfl hstage)]
      exact hu.1
  | rotate r =>
    refine ⟨fun id hid => hi id (hu.1 id hid), fun id hid => ⟨hi id (hu.2 id hid).1, fun x hx => ?_⟩⟩
    rcases ht.persisted id with h | h | ⟨-, h⟩
    · exact (hu.2 id hid).2 x (h ▸ hx)
    · exact absurd h (hs.2.1 id hid)
    · rw [h] at hx
      cases hx
  | pull p => trivial

/-- What is persisted of a run whose directory has to stay. -/
theorem Thread.Living.of_keeps {d : Disk} {u : Thread} (hu : u.Living d) {id : String}
    (h : u.keeps = some id) :
    (∃ s, d.persisted id = some (s, none) ∧ (s = .queued ∨ s = .running)) ∨
      u.creates = some id ∨ u.fills id = true ∧ d.persisted id = none := by
  cases u with
  | submit c =>
    obtain ⟨req, dir, pc⟩ := c
    cases pc with
    | create id' => exact .inr (.inl h)
    | writeMeta id' =>
      obtain rfl : id' = id := by simpa [keeps] using h
      exact .inr (.inr ⟨by simp [fills], hu.2⟩)
    | start id' =>
      obtain rfl : id' = id := by simpa [keeps] using h
      exact .inl ⟨.queued, hu, .inl rfl⟩
    | _ => cases h
  | worker w =>
    obtain rfl : w.job.runID = id := by simpa [runID] using runID_of_keeps h
    have hs := hu.1
    cases hstage : w.stage with
    | closed => simp [keeps, hstage] at h
    | queued => exact .inl ⟨.queued, by rwa [hstage] at hs, .inl rfl⟩
    | running => exact .inl ⟨.running, by rwa [hstage] at hs, .inr rfl⟩
  | pull p | rotate r => cases h

/-- The directories retention works on belong to runs that were issued. -/
theorem Thread.Living.issued {d : Disk} {u : Thread} (hu : u.Living d) {id : String}
    (h : u.dooms = some id ∨ id ∈ u.listed) : d.issued id ≠ none := by
  cases u with
  | rotate r =>
    rcases h with h | h
    · exact (hu.2 id h).1
    · exact hu.1 id h
  | submit c | worker w | pull p => rcases h with h | h <;> cases h

/-- Only `Rotate` picks directories. -/
theorem SubmitCall.step_retains {s s' : Shared} {c : SubmitCall} {t : Thread} {a : SubmitAct}
    (h : c.step q m s c.pc a = some (s', t)) : t.dooms = none ∧ t.listed = [] := by
  unfold SubmitCall.step at h
  split at h
  case h_1 | h_2 | h_5 | h_6 | h_7 => split at h <;> cases h <;> exact ⟨rfl, rfl⟩
  case h_3 | h_4 | h_8 | h_9 =>
    cases h
    exact ⟨rfl, rfl⟩
  case h_10 =>
    obtain ⟨g, -, h⟩ := Option.map_eq_some_iff.mp h
    cases h
    exact ⟨rfl, rfl⟩
  case h_11 =>
    cases h
    exact ⟨rfl, rfl⟩
  case h_12 => cases h

/-- Retention picks a directory that it listed and that holds no open run, or no metadata and is
over-age. -/
theorem Thread.step_dooms {s s' : Shared} {t t' : Thread} {a : Act}
    (h : t.step q m s a = some (s', t')) :
    (∀ id, t'.dooms = some id → t.looksAt = some id ∧
      (∀ x ∈ s.disk.persisted id, x.1 ≠ .queued ∧ x.1 ≠ .running) ∧
      (s.disk.persisted id = none → a = .rotate (.load true))) ∧
    ∀ id ∈ t'.listed, id ∈ t.listed ∨ ∃ e ∈ s.disk.runs, e.name = id := by
  cases t with
  | submit c =>
    cases a with
    | submit a =>
      obtain ⟨hd, hl⟩ := SubmitCall.step_retains h
      refine ⟨fun id hid => ?_, fun id hid => ?_⟩
      · rw [hd] at hid
        cases hid
      · rw [hl] at hid
        cases hid
    | _ => cases h
  | worker w | pull p =>
    cases a <;> first | cases h | skip
    all_goals
      obtain ⟨x, -, h⟩ := Option.map_eq_some_iff.mp h
      cases h
      exact ⟨fun id hid => (by cases hid), fun id hid => (by cases hid)⟩
  | rotate r =>
    cases a with
    | rotate a =>
      obtain ⟨⟨d, r'⟩, hr, h⟩ := Option.map_eq_some_iff.mp h
      cases h
      have hlives := RotateCall.step_lives hr
      refine ⟨fun id hid => ?_, hlives.listed⟩
      obtain ⟨hlooks, -, hx, hstale⟩ := hlives.dooms id hid
      exact ⟨hlooks, hx, fun hnone => congrArg Act.rotate (hstale hnone)⟩
    | _ => cases h

/-- **Retention spares open runs.** A step keeps a thread's directory out of what `Rotate` deletes,
whichever of the two moves. -/
theorem Thread.Spares.step {c : State} {i j : ℕ} {a : Act} {t t' u : Thread} {s' : Shared}
    (hR : t.Spares u ∧ u.Spares t) (hm : (pool q m D).Moves c i a t s' t')
    (hok : steady c (.move i a) = true) (hj : c.threads[j]? = some u)
    (hlives : t.Lives c.shared s' t') (hu : u.Living c.shared.disk) :
    t'.Spares u ∧ u.Spares t' := by
  obtain ⟨hdooms, hlisted⟩ := Thread.step_dooms hm.step
  refine ⟨⟨fun id hid hk => ?_, fun id hid hcr => ?_⟩, fun id hid hk => ?_, fun id hid hcr => ?_⟩
  · obtain ⟨hlooks, hx, hstale⟩ := hdooms id hid
    rcases hu.of_keeps hk with ⟨st, hp, hst⟩ | hcr | ⟨hfills, hnone⟩
    · rcases hst with rfl | rfl
      · exact (hx _ hp).1 rfl
      · exact (hx _ hp).2 rfl
    · exact hR.1.2 id (mem_listed_of_looksAt hlooks) hcr
    · obtain rfl := hstale hnone
      have hany : c.threads.any (Thread.fills id) = true :=
        List.any_eq_true.mpr ⟨u, List.mem_of_getElem? hj, hfills⟩
      simp [steady, hm.at_, hlooks, hany] at hok
  · rcases hlisted id hid with hid | ⟨e, he, hname⟩
    · exact hR.1.2 id hid hcr
    · cases u with
      | submit c =>
        obtain ⟨req, dir, pc⟩ := c
        cases pc with
        | create id' =>
          obtain rfl : id' = id := by simpa [creates] using hcr
          exact hu.2 e he hname
        | _ => cases hcr
      | worker w | pull p | rotate r => cases hcr
  · rcases hlives.keeps id hk with hk | hnone
    · exact hR.2.1 id hid hk
    · exact hu.issued (.inl hid) hnone
  · exact hu.issued (.inr hid) (hlives.creates id hcr)

theorem Thread.lives_of_moves {c : State} {i : ℕ} {a : Act} {t t' : Thread} {s' : Shared}
    (hm : (pool q m D).Moves c i a t s' t') (hok : steady c (.move i a) = true)
    (hd : c.shared.disk.Sane q) (hn : ∀ e ∈ c.shared.disk.runs, c.shared.disk.issued e.name ≠ none)
    (ht : t.Living c.shared.disk) : t.Lives c.shared s' t' := by
  refine Thread.step_lives hm.step hd hn ht ?_
  simp only [steady, hm.at_, Option.all_some, Bool.and_eq_true] at hok
  exact hok.1

/-- A run id stays issued. -/
theorem Effect.still_issued {d d' : Disk} {t : Thread} (he : Effect d d' t) {id : String}
    (h : d.issued id ≠ none) : d'.issued id ≠ none := by
  obtain ⟨r, hr⟩ := Option.ne_none_iff_exists'.mp h
  simp [he.issued id r hr]

theorem pool_living (hD : ∀ d, D d → d.Sane q ∧ ∀ e ∈ d.runs, d.issued e.name ≠ none) :
    (pool q m D).Sound (fun c a => steady c a = true)
      (Pool.Holds (fun s => s.disk.Sane q) (fun s t => t.Sane q m s.disk)
        (Pool.KeysDiffer Thread.runID))
      (fun s => ∀ e ∈ s.disk.runs, s.disk.issued e.name ≠ none)
      (fun s t => t.Living s.disk) (fun t u => t.Spares u ∧ u.Spares t) where
  init s hs := (hD _ hs.2).2
  start s k _ := by
    cases k with
    | submit req | pull name ffOnly => trivial
    | rotate maxAge => exact ⟨fun id hid => (by cases hid), fun id hid => (by cases hid)⟩
  symm _ _ h := ⟨h.2, h.1⟩
  startPair k u := by
    have hkeeps : ((pool q m D).start k).keeps = none := by cases k <;> rfl
    have hdooms : ((pool q m D).start k).dooms = none := by cases k <;> rfl
    have hlisted : ((pool q m D).start k).listed = [] := by cases k <;> rfl
    refine ⟨⟨fun id hid => ?_, fun id hid => ?_⟩, fun id _ hk => ?_, fun id _ hcr => ?_⟩
    · rw [hdooms] at hid
      cases hid
    · rw [hlisted] at hid
      cases hid
    · rw [hkeeps] at hk
      cases hk
    · have hk := Thread.keeps_of_creates hcr
      rw [hkeeps] at hk
      cases hk
  shared := by
    intro c i a t s' t' hm hI hok hJ hQ e he
    have ht := hI.thread t (List.mem_of_getElem? hm.at_)
    have heffect := (Thread.step_sane hm.step hI.shared ht).2.2
    refine heffect.still_issued ?_
    rcases (Thread.lives_of_moves hm hok hI.shared hJ hQ).touch.names e he with ⟨e₀, he₀, hname⟩ | hcr
    · exact hname ▸ hJ e₀ he₀
    · cases t with
      | submit c =>
        have hrun := Thread.runID_of_keeps (Thread.keeps_of_creates hcr)
        simp [(ht.issued e.name hrun).1]
      | worker w | pull p | rotate r => cases hcr
  own hm hI hok hJ hQ := (Thread.lives_of_moves hm hok hI.shared hJ hQ).living
  frame := by
    intro c i a t s' t' j u hm hI hok hJ hQ hij hj hR hu
    have ht := hI.thread t (List.mem_of_getElem? hm.at_)
    exact hu.frame (Thread.lives_of_moves hm hok hI.shared hJ hQ).touch
      (fun id => (Thread.step_sane hm.step hI.shared ht).2.2.still_issued)
      (hI.pair i j t u (Ne.symm hij) hm.at_ hj) hR
  pair hm hI hok hJ hQ _ hj hu hR :=
    Thread.Spares.step hR hm hok hj (Thread.lives_of_moves hm hok hI.shared hJ hQ) hu

theorem living (hD : ∀ d, D d → d.Sane q ∧ ∀ e ∈ d.runs, d.issued e.name ≠ none)
    (h : (pool q m D).system.Reach (fun c a => steady c a = true) c) :
    Pool.Holds (fun s => ∀ e ∈ s.disk.runs, s.disk.issued e.name ≠ none)
      (fun s t => t.Living s.disk) (fun t u => t.Spares u ∧ u.Spares t) c :=
  (pool_living hD).holds (fun _ hc => sane (fun d hd => (hD d hd).1) hc) h

/-! ## How a run changes -/

/-- What a step may do to the persisted status of a run: nothing, the next status, or delete it
after its end. -/
inductive Changes : Option (RunStatus × Option Time) → Option (RunStatus × Option Time) → Prop
  | same {p : Option (RunStatus × Option Time)} : Changes p p
  | next {s s' : RunStatus} {t' : Option Time} : s.Next s' → Changes (some (s, none)) (some (s', t'))
  | deleted {x : RunStatus × Option Time} : Finished x → Changes (some x) none

/-- The end of a run is final. -/
theorem Changes.of_finished {x : RunStatus × Option Time} {p : Option (RunStatus × Option Time)}
    (h : Changes (some x) p) (hx : Finished x) : p = some x ∨ p = none := by
  cases h with
  | same => exact .inl rfl
  | deleted _ => exact .inr rfl
  | next hn => exact absurd hx.2 (by simp)

/-- What is deleted stays deleted. -/
theorem Changes.of_none {p : Option (RunStatus × Option Time)} (h : Changes none p) : p = none := by
  cases h
  rfl

theorem Advances.changes {d d' : Disk} {id : String} {stage : Stage} (h : Advances d d' id stage) :
    Changes (d.persisted id) (d'.persisted id) := by
  rcases h.next with h | ⟨s, s', t', hs, hs', hn⟩
  · rw [h]
    exact .same
  · rw [hs, hs']
    exact .next hn

/-- **One step of a run.** Whatever thread moves, the run of a worker changes along its lifecycle,
and only retention deletes it. -/
theorem changes_of_move {i : ℕ} {a : Act} {t t' : Thread} {s' : Shared}
    (hm : (pool q m D).Moves c i a t s' t') (hok : steady c (.move i a) = true)
    (hI : Pool.Holds (fun s => s.disk.Sane q) (fun s t => t.Sane q m s.disk)
      (Pool.KeysDiffer Thread.runID) c)
    (hc : Pool.Holds (fun s => ∀ e ∈ s.disk.runs, s.disk.issued e.name ≠ none)
      (fun s t => t.Living s.disk) (fun t u => t.Spares u ∧ u.Spares t) c)
    {w : Worker} (hw : .worker w ∈ c.threads) :
    Changes (c.shared.disk.persisted w.job.runID) (s'.disk.persisted w.job.runID) ∧
      (s'.disk.persisted w.job.runID = none → c.shared.disk.persisted w.job.runID ≠ none →
        t.dooms = some w.job.runID ∧ a = .rotate (.remove true)) := by
  have hmem := List.mem_of_getElem? hm.at_
  obtain ⟨j, hj⟩ := List.getElem?_of_mem hw
  by_cases hij : i = j
  · obtain rfl : t = .worker w := by
      have := hm.at_
      rw [hij, hj] at this
      exact (Option.some.inj this).symm
    have hstep := hm.step
    cases a with
    | gate a =>
      obtain ⟨x, -, h⟩ := Option.map_eq_some_iff.mp hstep
      cases h
      exact ⟨.same, fun h h' => absurd h h'⟩
    | job a =>
      obtain ⟨⟨d, w'⟩, hd, h⟩ := Option.map_eq_some_iff.mp hstep
      cases h
      have hokw : a.ownUpdateOk w.pc = true := by
        simp only [steady, hm.at_, Option.all_some, Bool.and_true] at hok
        exact hok
      have hadv := (Worker.diskStep_advances hd hI.shared.named (hc.thread _ hw) hokw).1
      refine ⟨hadv.changes, fun h h' => ?_⟩
      rcases hadv.next with he | ⟨s, s₁, t₁, -, hs, -⟩
      · exact absurd (he ▸ h) h'
      · exact absurd h (by simp [hs])
    | _ => cases hstep
  · have hkeys := hI.pair i j _ _ hij hm.at_ hj
    rcases (Thread.lives_of_moves hm hok hI.shared hc.shared (hc.thread t hmem)).touch.persisted
      w.job.runID with h | h | ⟨h | h, hnone⟩
    · rw [h]
      exact ⟨.same, fun h h' => absurd h h'⟩
    · exact absurd rfl (hkeys _ (Thread.runID_of_keeps h))
    · cases hp : c.shared.disk.persisted w.job.runID with
      | none =>
        rw [hnone]
        exact ⟨.same, fun _ h' => absurd rfl h'⟩
      | some x =>
        have hne : x.1 ≠ .queued ∧ x.1 ≠ .running := by
          have ht := hc.thread t hmem
          cases t with
          | rotate r => exact (ht.2 _ h).2 x hp
          | submit _ | worker _ | pull _ => cases h
        have hshows := (hc.thread _ hw).1
        have hfin : Finished x := by
          rw [hp] at hshows
          cases hstage : w.stage with
          | closed =>
            rw [hstage] at hshows
            exact hshows x rfl
          | queued | running =>
            rw [hstage] at hshows
            obtain rfl := Option.some.inj hshows
            first
              | exact absurd rfl hne.1
              | exact absurd rfl hne.2
        rw [hnone]
        refine ⟨.deleted hfin, fun _ _ => ⟨h, ?_⟩⟩
        have hstep := hm.step
        cases t with
        | rotate r =>
          obtain ⟨maxAge, pc⟩ := r
          cases pc with
          | remove id now todo =>
            cases a with
            | rotate a =>
              obtain ⟨x', hx', h'⟩ := Option.map_eq_some_iff.mp hstep
              cases a with
              | remove ok =>
                cases ok with
                | true => rfl
                | false =>
                  cases hx'
                  cases h'
                  exact absurd (hp.symm.trans hnone) (by simp)
              | _ => cases hx'
            | _ => cases hstep
          | _ => cases h
        | submit _ | worker _ | pull _ => cases h
    · exact absurd rfl (hkeys _ (Thread.runID_of_cleans h))

end Runs

end HaAddons.Runner
