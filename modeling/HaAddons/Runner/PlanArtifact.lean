import HaAddons.Runner.Provenance

/-!
# Saved plans are handed to tofu once

An apply consumes the saved plan it used: the artifact is removed and the plan run forgets it. The
source does this only after a clean success, so a plan survives an apply that fails, and the next
apply is given the same file (`failed_apply_reuses_plan`).

* `plan_handed_once` — in every run in which each apply of a saved plan exits with 0 in time and
  its artifact can be removed, no two jobs are given the same plan file.

The proof keeps two facts. A plan file that was handed to tofu is off the disk, or the job that
was given it is still in its apply or about to remove it. And no job has picked a file that
another one was given: at the pick the file is on disk, so its user would have to be in the
execution window of the same repo.
-/

namespace HaAddons.Runner

namespace Thread

/-- The thread has started `tofu apply` with the plan file `p`. -/
def handed (p : String) : Thread → Prop
  | .worker w => w.job.handed p
  | _ => False

/-- The thread has started `tofu apply` with `p`, or is about to. -/
def claims (p : String) : Thread → Prop
  | .worker w => w.job.handed p ∨ w.pc = .job .applyStart ∧ w.job.prior = p ∧ p ≠ ""
  | _ => False

/-- What the thread handed to tofu is spent, or the thread is about to remove it. -/
def Spent (d : Disk) : Thread → Prop
  | .worker w => ∀ p, w.job.handed p →
      w.pc = .job .applyRun ∨ w.pc = .job .consumeRemove ∨ d.plans p = false
  | _ => True

/-- Neither thread claims what the other one was given. -/
def Apart (t u : Thread) : Prop :=
  ∀ p, (t.claims p → ¬u.handed p) ∧ (u.claims p → ¬t.handed p)

instance (p : String) (t : Thread) : Decidable (t.handed p) :=
  match t with
  | .worker w => inferInstanceAs (Decidable (∃ call ∈ w.job.ran, call.planFileArg = some p))
  | .submit _ | .pull _ | .rotate _ => .isFalse id

theorem claims_of_handed {t : Thread} {p : String} (h : t.handed p) : t.claims p := by
  cases t with
  | worker w => exact .inl h
  | submit c | pull p | rotate r => cases h

end Thread

/-- The label lets an apply of a saved plan end only in a clean success, and lets the removal of
its artifact succeed. -/
def consumesPlan (c : State) : Move Call Act → Bool
  | .move i (.job (.exec o _)) =>
    match c.threads[i]? with
    | some (.worker w) =>
      if w.pc = .job .applyRun ∧ w.job.prior ≠ "" then o = .exit 0 false else true
    | _ => true
  | .move _ (.job (.remove ok)) => ok
  | _ => true

/-! ## What a job hands over -/

section Job

variable {q : Config} {m : Manager} {d d' : Disk} {j j' : Job} {pc : JobPc} {a : JobAct}
  {next : JobNext} {p : String}

/-- A step starts no tofu process, or one without a plan file, or the apply. -/
theorem Job.step_ran (h : j.step q d pc a = some (d', j', next)) :
    j'.ran = j.ran ∨ ∃ call : TofuCall, j'.ran = call :: j.ran ∧ (call.planFileArg = none ∨
      pc = .applyStart ∧ next = .goto .applyRun ∧ d' = d ∧ j'.prior = j.prior ∧
        call = ⟨applyArgs j.prior, d.head j.repo, d.built j.prior⟩) := by
  cases pc with
  | init =>
    cases a with
    | exec o wrote =>
      cases o with
      | startError | panic =>
        cases h
        exact .inl rfl
      | exit code timedOut =>
        simp only [step, afterInit, Option.some.injEq] at h
        have hran : j'.ran = ⟨initArgs q.useLockfile, d.head j.repo, []⟩ :: j.ran := by
          split_ifs at h
          · cases h
            rfl
          · cases hk : j.kind <;> simp only [hk] at h <;> cases h <;> rfl
        exact .inr ⟨_, hran, .inl rfl⟩
    | _ => cases h
  | planStart =>
    cases a with
    | start ok =>
      cases ok with
      | false =>
        cases h
        exact .inl rfl
      | true =>
        cases h
        exact .inr ⟨_, rfl, .inl rfl⟩
    | _ => cases h
  | applyStart =>
    cases a with
    | start ok =>
      cases ok with
      | false =>
        cases h
        exact .inl rfl
      | true =>
        cases h
        exact .inr ⟨_, rfl, .inr ⟨rfl, rfl, rfl, rfl, rfl⟩⟩
    | _ => cases h
  | planRun | applyRun =>
    cases a with
    | exec o wrote => cases o <;> cases h <;> exact .inl rfl
    | _ => cases h
  | priorList =>
    cases a with
    | list ok => cases ok <;> cases h <;> exact .inl rfl
    | _ => cases h
  | markRunning | openOutput | planHead | planRecord head | priorHead metas | priorPick metas head
  | consumeRemove | consumeClear | finish | fail code =>
    cases a <;> cases h
    exact .inl rfl

/-- A plan file is handed over by the start of the apply, and by nothing else. -/
theorem Job.step_handed (h : j.step q d pc a = some (d', j', next)) (hp : j'.handed p) :
    j.handed p ∨ pc = .applyStart ∧ next = .goto .applyRun ∧ j.prior = p ∧ p ≠ "" := by
  obtain ⟨c, hc, hcp⟩ := hp
  rcases Job.step_ran h with hran | ⟨call, hran, hcall⟩
  · exact .inl ⟨c, hran ▸ hc, hcp⟩
  · rw [hran] at hc
    rcases List.mem_cons.mp hc with rfl | hc
    · rcases hcall with hnone | ⟨hpc, hnext, -, -, rfl⟩
      · simp [hnone] at hcp
      · exact .inr ⟨hpc, hnext, planFileArg_apply hcp⟩
    · exact .inl ⟨c, hc, hcp⟩

/-- A job that reaches the start of the apply with a plan has just found it on disk. -/
theorem Job.step_applyStart (h : j.step q d pc a = some (d', j', .goto .applyStart))
    (hj : pc.beforePick = true → j.prior = "") (hp : j'.prior ≠ "") :
    d.plans j'.prior = true := by
  cases pc with
  | priorPick metas head =>
    cases a with
    | pick =>
      cases h
      rcases pickPlan_spec d.plans head metas with h | ⟨m, -, h, -, -, hdisk⟩
      · simp [h] at hp
      · simpa [h] using hdisk
    | _ => cases h
  | priorList =>
    cases a with
    | list ok =>
      cases ok <;> cases h
      exact absurd (hj rfl) hp
    | _ => cases h
  | priorHead metas =>
    cases a with
    | head ok =>
      have hj := hj rfl
      simp only [step, Option.some.injEq, Prod.mk.injEq] at h
      rw [← h.2.1] at hp
      exact absurd hj hp
    | _ => cases h
  | init =>
    cases a with
    | exec o wrote =>
      cases o with
      | startError | panic => cases h
      | exit code timedOut =>
        simp only [step, afterInit, Option.some.injEq] at h
        split_ifs at h
        · cases h
        · cases hk : j.kind <;> simp only [hk] at h <;> cases h
    | _ => cases h
  | applyRun | planRun =>
    cases a with
    | exec o wrote =>
      cases o <;> simp only [step, afterApply, afterPlan, Option.some.injEq, Prod.mk.injEq,
        JobNext.goto.injEq, reduceCtorEq, and_false] at h
      all_goals split_ifs at h <;> simp at h
    | _ => cases h
  | applyStart | planStart =>
    cases a with
    | start ok => cases ok <;> cases h
    | _ => cases h
  | markRunning | openOutput | planHead | planRecord head | consumeRemove | consumeClear | finish
  | fail code =>
    cases a <;> simp only [step, Option.some.injEq, Prod.mk.injEq, JobNext.goto.injEq,
      reduceCtorEq, and_false] at h
    all_goals split_ifs at h <;> simp at h

end Job

/-! ## Workers -/

theorem WorkerPc.eq_job_of_jobPc {pc : WorkerPc} {jpc : JobPc} (h : pc.jobPc = some jpc)
    (hne : jpc ≠ .markRunning) : pc = .job jpc := by
  cases pc <;> simp_all [WorkerPc.jobPc]

section Worker

variable {q : Config} {m : Manager} {D : Disk → Prop} {s s' : Shared} {w : Worker} {t : Thread}
  {a : Act} {p : String}

/-- What a worker is newly handed it claimed before. -/
theorem Thread.step_handed (h : Thread.step q m s (.worker w) a = some (s', t))
    (hp : t.handed p) : w.job.handed p ∨
      w.pc = .job .applyStart ∧ w.job.prior = p ∧ p ≠ "" ∧
        ∃ w', t = .worker w' ∧ w'.pc = .job .applyRun := by
  obtain ⟨job, pc, l, waiter, handoff, panicking⟩ := w
  cases a with
  | gate a =>
    obtain ⟨⟨g, w'⟩, hg, h⟩ := Option.map_eq_some_iff.mp h
    cases h
    have hjob := (Worker.gateStep_job hg).1
    exact .inl (hjob ▸ hp)
  | job a =>
    obtain ⟨⟨d, w'⟩, hd, h⟩ := Option.map_eq_some_iff.mp h
    cases h
    cases pc with
    | failLock | failSlot | recover =>
      cases a with
      | update now ok =>
        cases hd
        exact .inl hp
      | _ => cases hd
    | job pc =>
      obtain ⟨⟨d₁, j, next⟩, hj, hd⟩ := Option.map_eq_some_iff.mp hd
      have hhanded : j.handed p := by cases next <;> cases hd <;> exact hp
      rcases Job.step_handed hj hhanded with h | ⟨rfl, rfl, hprior, hne⟩
      · exact .inl h
      · cases hd
        exact .inr ⟨rfl, hprior, hne, _, rfl, rfl⟩
    | _ => cases hd
  | _ => cases h

/-- A worker's claims grow only when it picks a plan, which is on disk then. -/
theorem Thread.step_claims (h : Thread.step q m s (.worker w) a = some (s', t))
    (hw : w.Sane q m s.disk) (hp : t.claims p) :
    (Thread.worker w).claims p ∨ s.disk.plans p = true ∧ w.pc.inWindow = true ∧
      ∃ w', t = .worker w' ∧ w'.job.prior = p ∧ p ≠ "" := by
  cases t with
  | submit c | pull r | rotate r => cases hp
  | worker w' =>
    rcases hp with hp | ⟨hpc', hprior, hne⟩
    · rcases Thread.step_handed h hp with hh | ⟨hpc, hprior, hne, -⟩
      · exact .inl (.inl hh)
      · exact .inl (.inr ⟨hpc, hprior, hne⟩)
    · obtain ⟨job, pc, l, waiter, handoff, panicking⟩ := w
      cases a with
      | gate a =>
        obtain ⟨⟨g, w₁⟩, hg, h⟩ := Option.map_eq_some_iff.mp h
        cases h
        obtain ⟨hjob, hpc⟩ := Worker.gateStep_job hg
        have hpc := hpc .applyStart (by rw [hpc']; rfl)
        exact .inl (.inr ⟨WorkerPc.eq_job_of_jobPc hpc (by simp), hjob ▸ hprior, hne⟩)
      | job a =>
        obtain ⟨⟨d, w₁⟩, hd, h⟩ := Option.map_eq_some_iff.mp h
        cases h
        cases pc with
        | job pc =>
          obtain ⟨⟨d₁, j, next⟩, hj, hd⟩ := Option.map_eq_some_iff.mp hd
          cases next with
          | leave | panicked =>
            cases hd
            cases hpc'
          | goto pc' =>
            cases hd
            cases hpc'
            have hprior : j.prior = p := hprior
            have hdisk := Job.step_applyStart hj (hw.atPc pc rfl).unpicked (hprior ▸ hne)
            exact .inr ⟨hprior ▸ hdisk, rfl, _, rfl, hprior, hne⟩
        | failLock | failSlot | recover =>
          cases a with
          | update now ok =>
            cases hd
            cases hpc'
          | _ => cases hd
        | _ => cases hd
      | _ => cases h

/-- A worker inside its job stays where it is while its goroutines move. -/
theorem Worker.gateStep_pc {cap : ℕ} {g g' : Gate} {w w' : Worker} {a : GateAct} {pc : JobPc}
    (h : w.gateStep cap g a = some (g', w')) (hpc : w.pc = .job pc) : w'.pc = .job pc := by
  cases a with
  | step | timeout =>
    simp only [gateStep, ownStep, timeoutStep, hpc] at h
    cases h
  | waiter =>
    obtain ⟨x, -, h⟩ := Option.map_eq_some_iff.mp h
    cases h
    exact hpc
  | handoff =>
    simp only [gateStep, handoffStep] at h
    split at h
    · obtain ⟨x, -, h⟩ := Option.map_eq_some_iff.mp h
      cases h
      exact hpc
    · obtain ⟨x, -, h⟩ := Option.map_eq_some_iff.mp h
      cases h
      exact hpc
    · cases h

/-- Nobody builds a plan file that was handed to tofu: its run is over. -/
theorem Thread.not_builds {d : Disk} {t : Thread} {w : Worker} (ht : t.Sane q m d)
    (hw : w.Sane q m d) (hp : w.job.handed p) : ¬t.builds p := by
  intro hb
  obtain ⟨hprior, hne⟩ := hw.traced.handed _ hp
  obtain ⟨id, hid, hclosed, -⟩ := hw.traced.prior.resolve_left (hprior ▸ hne)
  rw [← hprior, hid] at hb
  simp [(ht.of_builds hb).2] at hclosed

theorem Thread.Spent.frame {d d' : Disk} {t u : Thread} (hs : u.Spent d) (hu : u.Sane q m d)
    (ht : t.Sane q m d) (he : Effect d d' t) : u.Spent d' := by
  cases u with
  | worker w =>
    intro p hp
    refine (hs p hp).imp_right fun h => h.imp_right fun h => ?_
    by_contra hn
    rcases he.plans p (by simpa using hn) with hon | hb
    · simp [h] at hon
    · exact not_builds ht hu hp hb
  | submit c | pull r | rotate r => trivial

/-- The worker `Submit` starts has run nothing yet. -/
theorem SubmitCall.step_worker {c : SubmitCall} {a : SubmitAct}
    (h : c.step q m s c.pc a = some (s', .worker w)) : w.job.ran = [] ∧ w.pc = .handBack := by
  unfold SubmitCall.step at h
  split at h
  case h_8 =>
    cases h
    exact ⟨rfl, rfl⟩
  case h_10 =>
    obtain ⟨g, -, h⟩ := Option.map_eq_some_iff.mp h
    cases h
  all_goals first | cases h | (split at h <;> cases h)

/-- **Consumption.** A step that lets an apply of a saved plan end only in success keeps what was
handed to tofu spent. -/
theorem Thread.step_spent {c : State} {i : ℕ} {t' : Thread}
    (hm : (pool q m D).Moves c i a (.worker w) s' t') (hok : consumesPlan c (.move i a) = true)
    (hd : c.shared.disk.Sane q) (hw : w.Sane q m c.shared.disk)
    (hs : (Thread.worker w).Spent c.shared.disk) : t'.Spent s'.disk := by
  have he := (Thread.step_sane hm.step hd hw).2.2
  -- A file that was spent before stays spent: the worker itself is past its plan.
  have hkeep : ∀ p, w.job.handed p → c.shared.disk.plans p = false → s'.disk.plans p = false := by
    intro p hp hoff
    by_contra hn
    rcases he.plans p (by simpa using hn) with hon | hb
    · simp [hoff] at hon
    · exact not_builds (t := .worker w) hw hw hp hb
  have hfresh : ∀ p w', t' = .worker w' → w'.job.handed p →
      w.job.handed p ∨ w'.pc = .job .applyRun := by
    rintro p w' rfl hp
    rcases Thread.step_handed hm.step hp with hh | ⟨-, -, -, v, hv, hpc⟩
    · exact .inl hh
    · cases hv
      exact .inr hpc
  have hstep := hm.step
  cases a with
  | gate a =>
    obtain ⟨⟨g, w'⟩, hg, h⟩ := Option.map_eq_some_iff.mp hstep
    cases h
    intro p hp
    rw [(Worker.gateStep_job hg).1] at hp
    rcases hs p hp with h | h | h
    · exact .inl (Worker.gateStep_pc hg h)
    · exact .inr (.inl (Worker.gateStep_pc hg h))
    · exact .inr (.inr h)
  | job a =>
    obtain ⟨⟨d, w'⟩, hdisk, h⟩ := Option.map_eq_some_iff.mp hstep
    cases h
    intro p hp
    rcases hfresh p w' rfl hp with hh | hpc
    · have hprior := (hw.traced.handed p hh).1
      have hne := (hw.traced.handed p hh).2
      obtain ⟨job, pc, l, waiter, handoff, panicking⟩ := w
      rcases hs p hh with rfl | rfl | hoff
      · obtain ⟨⟨d₁, j, next⟩, hj, hdisk⟩ := Option.map_eq_some_iff.mp hdisk
        cases a with
        | exec o wrote =>
          have hne : job.prior ≠ "" := hprior ▸ hne
          obtain rfl : o = .exit 0 false := by
            simpa [consumesPlan, hm.at_, hne] using hok
          cases hj
          cases hdisk
          refine .inr (.inl ?_)
          simp [hne]
        | _ => cases hj
      · obtain ⟨⟨d₁, j, next⟩, hj, hdisk⟩ := Option.map_eq_some_iff.mp hdisk
        cases a with
        | remove ok =>
          obtain rfl : ok = true := hok
          cases hj
          cases hdisk
          refine .inr (.inr ?_)
          simp [← hprior]
        | _ => cases hj
      · exact .inr (.inr (hkeep p hh hoff))
    · exact .inl hpc
  | submit a | pull a | rotate a => cases hstep

/-- A new thread claims nothing. -/
theorem Thread.not_claims_of_step {t' : Thread} (h : Thread.step q m s t a = some (s', t'))
    (ht : ∀ w, t ≠ .worker w) : ¬t'.claims p := by
  intro hp
  cases t with
  | worker w => exact ht w rfl
  | submit c =>
    cases a with
    | submit a =>
      cases t' with
      | worker w =>
        obtain ⟨hran, hpc⟩ := SubmitCall.step_worker h
        rcases hp with ⟨call, hcall, -⟩ | ⟨hpc', -⟩
        · simp [hran] at hcall
        · simp [hpc] at hpc'
      | _ => cases hp
    | _ => cases h
  | pull r =>
    cases a with
    | pull a =>
      obtain ⟨x, -, h⟩ := Option.map_eq_some_iff.mp h
      cases h
      cases hp
    | _ => cases h
  | rotate r =>
    cases a with
    | rotate a =>
      obtain ⟨x, -, h⟩ := Option.map_eq_some_iff.mp h
      cases h
      cases hp
    | _ => cases h

theorem Thread.step_worker {t' : Thread} (h : Thread.step q m s (.worker w) a = some (s', t')) :
    ∃ w', t' = .worker w' ∧ Job.SameRun w.job w'.job := by
  cases a with
  | gate a =>
    obtain ⟨⟨g, w'⟩, hg, h⟩ := Option.map_eq_some_iff.mp h
    cases h
    exact ⟨w', rfl, (Worker.gateStep_job hg).1 ▸ .rfl⟩
  | job a =>
    obtain ⟨⟨d, w'⟩, hd, h⟩ := Option.map_eq_some_iff.mp h
    cases h
    exact ⟨w', rfl, Worker.diskStep_sameRun hd⟩
  | submit a | pull a | rotate a => cases h

/-- Two jobs that picked the same plan are of the same repo. -/
theorem Job.Traced.repo_eq {d : Disk} {j j' : Job} (hj : j.Traced q d) (hj' : j'.Traced q d)
    (hp : j.prior = p) (hp' : j'.prior = p) (hne : p ≠ "") : j.repo = j'.repo := by
  obtain ⟨id, hid, -, hi⟩ := hj.prior.resolve_left (hp ▸ hne)
  obtain ⟨id', hid', -, hi'⟩ := hj'.prior.resolve_left (hp' ▸ hne)
  obtain rfl : id = id' :=
    planArtifact_injective q.runsDir (by rw [← hid, ← hid', hp, hp'])
  simpa [hi] using hi'

end Worker

/-! ## Runs -/

section Runs

variable {q : Config} {m : Manager} {c : State}

/-- What is known of every state before the plans are looked at. -/
structure Known (q : Config) (m : Manager) (c : State) : Prop where
  sane : Pool.Holds (fun s : Shared => s.disk.Sane q) (fun s t => t.Sane q m s.disk)
    (Pool.KeysDiffer Thread.runID) c
  window : ∀ repo, c.threads.countP (Thread.inWindow repo) ≤ 1

theorem known {D : Disk → Prop} {ok : State → Move Call Act → Prop} (hD : ∀ d, D d → d.Sane q)
    (h : (pool q m D).system.Reach ok c) : Known q m c :=
  ⟨Runner.sane hD h, window_unique h⟩

/-- **The pair step.** A move keeps two threads apart: at a pick the plan is on disk, so whoever
was given it would be in the execution window of the same repo. -/
theorem Thread.Apart.step {D : Disk → Prop} {i j : ℕ} {a : Act} {t t' u : Thread} {s' : Shared}
    (hm : (pool q m D).Moves c i a t s' t') (hc : Known q m c) (hij : j ≠ i)
    (hj : c.threads[j]? = some u) (hu : u.Spent c.shared.disk) (hR : t.Apart u) :
    t'.Apart u := by
  have hmem := List.mem_of_getElem? hm.at_
  have hd := hc.sane.shared
  have ht := hc.sane.thread t hmem
  have hus := hc.sane.thread u (List.mem_of_getElem? hj)
  by_cases hworker : ∃ w, t = .worker w
  · obtain ⟨w, rfl⟩ := hworker
    have hw : w.Sane q m c.shared.disk := ht
    obtain ⟨w', rfl, hsame⟩ := Thread.step_worker hm.step
    obtain ⟨-, ht', he⟩ := Thread.step_sane hm.step hd ht
    have hw' : w'.Sane q m s'.disk := ht'
    have hfar : ∀ v : Worker, u = .worker v → w.pc.inWindow = true → v.pc.inWindow = true →
        w.job.repo ≠ v.job.repo := by
      rintro v rfl hwin hvin hrepo
      have := window_apart (hc.window v.job.repo) (Ne.symm hij) hm.at_ hj (by simp [inWindow, hwin, hrepo])
      simp [inWindow, hvin] at this
    intro p
    refine ⟨fun hclaim hhand => ?_, fun hclaim hhand => ?_⟩
    · rcases Thread.step_claims hm.step hw hclaim with h | ⟨hon, hwin, v, hv, hprior, hne⟩
      · exact (hR p).1 h hhand
      · cases hv
        cases u with
        | worker v =>
          have hv : v.Sane q m c.shared.disk := hus
          have hrepo : w'.job.repo = v.job.repo := hw'.traced.repo_eq
            (hv.traced.mono he.closed he.issued) hprior (hv.traced.handed p hhand).1 hne
          rw [hsame.repo] at hrepo
          rcases hu p hhand with hpc | hpc | hoff
          · exact hfar v rfl hwin (by rw [hpc]; rfl) hrepo
          · exact hfar v rfl hwin (by rw [hpc]; rfl) hrepo
          · simp [hoff] at hon
        | submit c | pull r | rotate r => cases hhand
    · rcases Thread.step_handed hm.step hhand with h | ⟨hpc, hprior, hne, -⟩
      · exact (hR p).2 hclaim h
      · have hclaim' : (Thread.worker w).claims p := .inr ⟨hpc, hprior, hne⟩
        cases u with
        | worker v =>
          have hv : v.Sane q m c.shared.disk := hus
          rcases hclaim with h | ⟨hpc', hprior', -⟩
          · exact (hR p).1 hclaim' h
          · exact hfar v rfl (by rw [hpc]; rfl) (by rw [hpc']; rfl)
              (hw.traced.repo_eq hv.traced hprior hprior' hne)
        | submit c | pull r | rotate r => cases hclaim
  · have hnone : ∀ p, ¬t'.claims p := fun p =>
      Thread.not_claims_of_step hm.step fun w hw => hworker ⟨w, hw⟩
    exact fun p => ⟨fun h => absurd h (hnone p), fun _ h => hnone p (claims_of_handed h)⟩

theorem pool_spent (D : Disk → Prop) :
    (pool q m D).Sound (fun c a => consumesPlan c a = true) (Known q m) (fun _ => True)
      (fun s t => t.Spent s.disk) Thread.Apart where
  init _ _ := trivial
  start s k _ := by cases k <;> trivial
  symm _ _ h p := ⟨(h p).2, (h p).1⟩
  startPair k u p := by
    cases k <;> exact ⟨fun h => h.elim, fun _ h => h.elim⟩
  shared _ _ _ _ _ := trivial
  own := by
    intro c i a t s' t' hm hc hok _ hQ
    have ht := hc.sane.thread t (List.mem_of_getElem? hm.at_)
    by_cases hworker : ∃ w, t = .worker w
    · obtain ⟨w, rfl⟩ := hworker
      exact Thread.step_spent hm hok hc.sane.shared ht hQ
    · have hnone : ∀ p, ¬t'.claims p := fun p =>
        Thread.not_claims_of_step hm.step fun w hw => hworker ⟨w, hw⟩
      cases t' with
      | worker w => exact fun p hp => absurd (.inl hp) (hnone p)
      | submit c | pull r | rotate r => trivial
  frame := by
    intro c i a t s' t' j u hm hc _ _ _ _ hj _ hu
    have ht := hc.sane.thread t (List.mem_of_getElem? hm.at_)
    exact hu.frame (hc.sane.thread u (List.mem_of_getElem? hj)) ht
      (Thread.step_sane hm.step hc.sane.shared ht).2.2
  pair hm hc _ _ _ hij hj hu hR := hR.step hm hc hij hj hu

/-- **A saved plan is handed to tofu once.** In every run in which each apply of a saved plan
exits with 0 in time and its artifact can be removed, no two jobs start `tofu apply` with the same
plan file. -/
theorem plan_handed_once
    (h : (pool q m Disk.Fresh).system.Reach (fun c a => consumesPlan c a = true) c) {i j : ℕ}
    {t u : Thread} (hij : i ≠ j) (hi : c.threads[i]? = some t) (hj : c.threads[j]? = some u)
    {p p' : String} (hp : t.handed p) (hp' : u.handed p') : p ≠ p' := by
  rintro rfl
  have hc := (pool_spent Disk.Fresh).holds (fun c hc => known (fun d hd => hd.sane) hc) h
  exact (hc.pair i j t u hij hi hj p).1 (Thread.claims_of_handed hp) hp'

end Runs

/-! ## Two histories

In both the file system never fails. -/

def planOfA := planArtifact twoSlots.runsDir "AAAAAAAAAAAAAAAA"

def planOfC := planArtifact twoSlots.runsDir "CCCCCCCCCCCCCCCC"

/-- A plan, an apply whose tofu exits with 1, and a second apply. -/
def failedApply : List (Move Call Act) :=
  submitting 0 .plan "AAAAAAAAAAAAAAAA" 0 ++ entering 0 false ++ planning 0 1 ++ leaving 0 ++
    submitting 1 .apply "BBBBBBBBBBBBBBBB" 2 ++ entering 1 true ++ toApply 1 3 ++
    working 1 [.exec (.exit 1 false) false, .update 4 true] ++ leaving 1 ++
    submitting 2 .apply "CCCCCCCCCCCCCCCC" 5 ++ entering 2 true ++ toApply 2 6

/-- A plan and its successful apply, then a second plan and its apply. -/
def twoPlans : List (Move Call Act) :=
  submitting 0 .plan "AAAAAAAAAAAAAAAA" 0 ++ entering 0 false ++ planning 0 1 ++ leaving 0 ++
    submitting 1 .apply "BBBBBBBBBBBBBBBB" 2 ++ entering 1 true ++ toApply 1 3 ++
    working 1 [.exec (.exit 0 false) false, .remove true, .update 4 true, .update 4 true] ++
    leaving 1 ++
    submitting 2 .plan "CCCCCCCCCCCCCCCC" 5 ++ entering 2 true ++ planning 2 6 ++ leaving 2 ++
    submitting 3 .apply "DDDDDDDDDDDDDDDD" 7 ++ entering 3 true ++ toApply 3 8

theorem small_init_fresh : (pool twoSlots oneRepo Disk.Fresh).system.init smallStart :=
  ⟨⟨rfl, fun _ => by simp [smallStart, freshDisk], rfl, fun _ => rfl, fun _ => rfl, fun _ => rfl,
    fun _ => rfl⟩, rfl⟩

/-- **A failed apply leaves its plan to the next one.** Without any file-system error, two applies
can be started with the same plan file. -/
theorem failed_apply_reuses_plan :
    ¬∀ c, (pool twoSlots oneRepo Disk.Fresh).system.Reach (fun c a => Move.ioOk c a = true) c →
      ∀ (i j : ℕ) (t u : Thread) (p : String), i ≠ j → c.threads[i]? = some t →
        c.threads[j]? = some u → t.handed p → ¬u.handed p := by
  intro hclaim
  obtain ⟨c, hc, hf⟩ := System.exists_of_runOk small_init_fresh
    (by decide : ((pool twoSlots oneRepo Disk.Fresh).system.runOk Move.ioOk smallStart
      failedApply).any (fun c => c.threads[1]?.any (fun t => t.handed planOfA) &&
        c.threads[2]?.any (fun t => t.handed planOfA)) = true)
  rw [Bool.and_eq_true, Option.any_eq_true, Option.any_eq_true] at hf
  obtain ⟨⟨t, ht, htp⟩, u, hu, hup⟩ := hf
  exact hclaim c hc 1 2 t u planOfA (by decide) ht hu (of_decide_eq_true htp)
    (of_decide_eq_true hup)

/-- Two plans, each applied: the second apply is given the second plan. -/
theorem plan_handed_once_two_plans :
    ∃ c t u, (pool twoSlots oneRepo Disk.Fresh).system.Reach (fun c a => consumesPlan c a = true) c ∧
      c.threads[1]? = some t ∧ c.threads[3]? = some u ∧ t.handed planOfA ∧ u.handed planOfC ∧
      planOfA ≠ planOfC := by
  obtain ⟨c, hc, hf⟩ := System.exists_of_runOk small_init_fresh
    (by decide : ((pool twoSlots oneRepo Disk.Fresh).system.runOk consumesPlan smallStart
      twoPlans).any (fun c => c.threads[1]?.any (fun t => t.handed planOfA) &&
        c.threads[3]?.any (fun t => t.handed planOfC)) = true)
  rw [Bool.and_eq_true, Option.any_eq_true, Option.any_eq_true] at hf
  obtain ⟨⟨t, ht, htp⟩, u, hu, hup⟩ := hf
  have htp := of_decide_eq_true htp
  have hup := of_decide_eq_true hup
  exact ⟨c, t, u, hc, ht, hu, htp, hup, plan_handed_once hc (by decide : 1 ≠ 3) ht hu htp hup⟩

end HaAddons.Runner
