import HaAddons.Runner.PlanArtifact

/-!
# Saved plans and the commit they were built on

An apply uses a saved plan when the plan's recorded commit is the one the working tree is on. The
source reads the working tree's commit in one step and acts on the answer in a later one, and a
pull takes no lock, so a pull can land in between (`pull_between_read_and_apply`).

* `fresh_plan` — in every run in which no pull moves a repo's working tree while a job of that
  repo stands between such a read and the end of what it was read for, every saved plan that is
  handed to `tofu apply` was built on the commit the working tree is on at that moment.

Per job the proof keeps what the last read of the commit is still good for (`Job.Fresh`), and per
stored run that a recorded commit is the only one its artifact was built on (`Disk.Recorded`).
-/

namespace HaAddons.Runner

/-- From the read of the working tree's commit to the end of `tofu plan`, or to the start of
`tofu apply`. -/
def JobPc.relies : JobPc → Bool
  | .planRecord _ | .planStart | .planRun | .priorPick _ _ | .applyStart => true
  | _ => false

/-- A job of `repo` that relies on the commit it has read. -/
def Thread.relies (repo : String) : Thread → Bool
  | .worker w => w.job.repo = repo && match w.pc with
    | .job pc => pc.relies
    | _ => false
  | _ => false

/-- The tofu processes the thread has started. -/
def Thread.calls : Thread → List TofuCall
  | .worker w => w.job.ran
  | _ => []

/-- The label moves a working tree to another commit only while no job of the repo relies on the
one it has read. -/
def pullsApart (c : State) : Move Call Act → Bool
  | .move i (.pull (.git _ tip)) =>
    match c.threads[i]? with
    | some (.pull p) =>
      if (p.pc = .checkout ∨ p.pc = .pull) ∧ tip ≠ c.shared.disk.head p.name then
        c.threads.all fun t => !t.relies p.name
      else true
    | _ => true
  | _ => true

/-! ## Facts about commits -/

/-- The commit recorded for a run is the only one its artifact was built on, and every artifact
was built on some commit. -/
structure Disk.Recorded (q : Config) (d : Disk) : Prop where
  headSHA : ∀ m, d.runs.Stored m → m.headSHA ≠ "" →
    ∀ b ∈ d.built (planArtifact q.runsDir m.runID), b = m.headSHA
  plans : ∀ p, d.plans p = true → d.built p ≠ []
  trail : ∀ repo, d.trail repo ≠ []

/-- No commit is recorded for the run, and nothing was built for it. -/
structure Disk.Young (q : Config) (d : Disk) (id : String) : Prop where
  headSHA : ∀ m, d.runs.Stored m → m.runID = id → m.headSHA = ""
  built : d.built (planArtifact q.runsDir id) = []

namespace Job

/-- A commit recorded for the job's run is the one the working tree is on. -/
def Agrees (d : Disk) (j : Job) : Prop :=
  ∀ m, d.runs.Stored m → m.runID = j.runID → m.headSHA ≠ "" → m.headSHA = d.head j.repo

/-- The runs the job chooses from were built on the commits recorded for them. -/
def FreshMetas (d : Disk) (metas : List Meta) : Prop :=
  ∀ m ∈ metas, m.planFile ≠ "" → m.headSHA ≠ "" → ∀ b ∈ d.built m.planFile, b = m.headSHA

/-- What the job's last read of the commit is still good for. -/
def Fresh (q : Config) (d : Disk) (j : Job) : JobPc → Prop
  | .markRunning | .openOutput | .init | .planHead => d.Young q j.runID
  | .planRecord head => d.Young q j.runID ∧ head = d.head j.repo
  | .planStart => j.Agrees d
  | .planRun => j.Agrees d ∧ j.mark ≤ (d.trail j.repo).length ∧
      ∀ b ∈ d.since j.repo j.mark, b = d.head j.repo
  | .priorHead metas => FreshMetas d metas
  | .priorPick metas head => FreshMetas d metas ∧ head ≠ "" ∧ head = d.head j.repo
  | .applyStart => j.prior ≠ "" →
      d.built j.prior ≠ [] ∧ ∀ b ∈ d.built j.prior, b = d.head j.repo
  | _ => True

/-- Every saved plan the job handed over was built on the commit the tree was on. -/
def RanFresh (j : Job) : Prop :=
  ∀ call ∈ j.ran, ∀ p, call.planFileArg = some p →
    call.builtOn ≠ [] ∧ ∀ b ∈ call.builtOn, b = call.onCommit

end Job

def Thread.Fresh (q : Config) (d : Disk) : Thread → Prop
  | .submit c => ∀ id, (Thread.submit c).runID = some id → d.Young q id
  | .worker w => w.job.RanFresh ∧ ∀ pc, w.pc.jobPc = some pc → w.job.Fresh q d pc
  | _ => True

/-! ## The job's own steps -/

section Own

variable {q : Config} {d d' : Disk} {j j' : Job} {pc : JobPc} {a : JobAct} {next : JobNext}

/-- The store holds no commit it did not hold before. -/
def Store.Within (s' s : Store) : Prop :=
  ∀ m, s'.Stored m → ∃ m₀, s.Stored m₀ ∧ m₀.runID = m.runID ∧ m₀.headSHA = m.headSHA

theorem Store.Within.rfl {s : Store} : s.Within s := fun m hm => ⟨m, hm, Eq.refl _, Eq.refl _⟩

theorem Store.within_update {s : Store} {id : String} {f : Meta → Meta} {ok : Bool}
    (hid : ∀ m, (f m).runID = m.runID) (hhead : ∀ m, (f m).headSHA = m.headSHA) :
    (s.update id f ok).1.Within s := by
  intro m hm
  rcases Store.stored_update hm with hm | ⟨m₀, hl, rfl⟩
  · exact ⟨m, hm, Eq.refl _, Eq.refl _⟩
  · exact ⟨m₀, .of_load hl, (hid m₀).symm, (hhead m₀).symm⟩

theorem Disk.Recorded.within (hd : d.Recorded q) (hs : d'.runs.Within d.runs)
    (hb : d'.built = d.built) (hp : d'.plans = d.plans) (ht : d'.trail = d.trail) :
    d'.Recorded q where
  headSHA m hm hne b hmem := by
    obtain ⟨m₀, hm₀, hid, hhead⟩ := hs m hm
    rw [← hhead] at hne ⊢
    rw [hb, ← hid] at hmem
    exact hd.headSHA m₀ hm₀ hne b hmem
  plans := by
    rw [hb, hp]
    exact hd.plans
  trail := by
    rw [ht]
    exact hd.trail

theorem Disk.Recorded.unlink (hd : d.Recorded q) (p : String) :
    Disk.Recorded q { d with plans := Function.update d.plans p false } where
  headSHA := hd.headSHA
  plans p' h := by
    by_cases he : p' = p
    · simp [he] at h
    · exact hd.plans p' (by simpa [Function.update_of_ne he] using h)
  trail := hd.trail

theorem Disk.Young.within {id : String} (hd : d.Young q id) (hs : d'.runs.Within d.runs)
    (hb : d'.built = d.built) : d'.Young q id where
  headSHA m hm hid := by
    obtain ⟨m₀, hm₀, hid₀, hhead⟩ := hs m hm
    rw [← hhead]
    exact hd.headSHA m₀ hm₀ (hid₀.trans hid)
  built := by rw [hb, hd.built]

/-- A young run agrees with whatever commit the tree is on. -/
theorem Disk.Young.agrees (hd : d.Young q j.runID) : j.Agrees d :=
  fun m hm hid hne => absurd (hd.headSHA m hm hid) hne

/-- The listed runs are fresh, by what is recorded of them. -/
theorem Disk.Recorded.freshMetas {metas : List Meta} (hd : d.Recorded q) (hs : d.Sane q)
    (hm : ∀ m ∈ metas, d.runs.Stored m) : Job.FreshMetas d metas := by
  intro m hmem hp hne b hb
  rw [((hs.planFile m (hm m hmem)).resolve_left hp).1] at hb
  exact hd.headSHA m (hm m hmem) hne b hb

theorem Job.step_ranFresh (h : j.step q d pc a = some (d', j', next)) (hr : j.RanFresh)
    (hf : j.Fresh q d pc) : j'.RanFresh := by
  rcases Job.step_ran h with hran | ⟨call, hran, hcall⟩
  · simpa [RanFresh, hran] using hr
  · intro c hc p hp
    rw [hran] at hc
    rcases List.mem_cons.mp hc with rfl | hc
    · rcases hcall with hnone | ⟨rfl, -, -, -, rfl⟩
      · simp [hnone] at hp
      · obtain ⟨hprior, hne⟩ := planFileArg_apply hp
        exact hf (hprior ▸ hne)
    · exact hr c hc p hp

/-- What a step leaves the next one to rely on. -/
def Job.FreshAfter (q : Config) (d : Disk) (j : Job) : JobNext → Prop
  | .goto pc => j.Fresh q d pc
  | .leave | .panicked => True

theorem Job.afterInit_fresh (o : Outcome) (hd : d.Young q j.runID) :
    (j.afterInit q d o).2.1.FreshAfter q d (j.afterInit q d o).2.2 := by
  cases o with
  | startError | panic => trivial
  | exit code timedOut =>
    simp only [afterInit]
    split_ifs
    · trivial
    · cases hk : j.kind with
      | plan => exact ⟨hd.headSHA, hd.built⟩
      | apply | other name => trivial

/-- The end of `tofu plan` records what the tree was on, which the recorded commit agrees with. -/
theorem Disk.Recorded.build (hd : d.Recorded q) (hp : j.planFile = planArtifact q.runsDir j.runID)
    (ha : j.Agrees d) (hm : j.mark ≤ (d.trail j.repo).length)
    (hb : ∀ b ∈ d.since j.repo j.mark, b = d.head j.repo) :
    Disk.Recorded q { d with
      plans := Function.update d.plans j.planFile true
      built := Function.update d.built j.planFile (d.since j.repo j.mark) } where
  headSHA m hm hne b hmem := by
    by_cases he : m.runID = j.runID
    · rw [ha m hm he hne]
      refine hb b ?_
      simpa [he, hp] using hmem
    · have hne' : planArtifact q.runsDir m.runID ≠ j.planFile := fun h =>
        he (planArtifact_injective _ (h.trans hp))
      exact hd.headSHA m hm hne b (by simpa [Function.update_of_ne hne'] using hmem)
  plans p h := by
    by_cases he : p = j.planFile
    · subst he
      have hlen : (d.trail j.repo).length + 1 - j.mark ≠ 0 := by omega
      simp [Disk.since, List.take_eq_nil_iff, hlen, hd.trail j.repo]
    · simp only [Function.update_of_ne he] at h ⊢
      exact hd.plans p h
  trail := hd.trail

theorem Job.step_fresh (h : j.step q d pc a = some (d', j', next)) (hd : d.Sane q)
    (hrec : d.Recorded q) (hj : j.AtPc q d pc) (hf : j.Fresh q d pc) :
    d'.Recorded q ∧ j'.FreshAfter q d' next := by
  cases pc with
  | markRunning =>
    cases a with
    | update now ok =>
      cases h
      have hs : (d.runs.update j.runID (fun m => { m with status := .running, startedAt := now })
          ok).1.Within d.runs := Store.within_update (fun _ => rfl) fun _ => rfl
      refine ⟨hrec.within hs rfl rfl rfl, ?_⟩
      split
      · exact Disk.Young.within (d := d) hf hs rfl
      · trivial
    | _ => cases h
  | openOutput =>
    cases a with
    | openOutput ok =>
      cases h
      refine ⟨hrec, ?_⟩
      split
      · exact hf
      · trivial
    | _ => cases h
  | init =>
    cases a with
    | exec o wrote =>
      have hafter := afterInit_fresh o hf
      have hdisk := afterInit_disk (q := q) d j o
      rw [step, Option.some.injEq] at h
      rw [h] at hdisk hafter
      obtain rfl : d' = d := hdisk
      exact ⟨hrec, hafter⟩
    | _ => cases h
  | planHead =>
    cases a with
    | head ok =>
      cases h
      refine ⟨hrec, ?_⟩
      cases ok with
      | false => exact hf.agrees
      | true =>
        simp only [if_true]
        split
        · exact hf.agrees
        · exact ⟨hf, rfl⟩
    | _ => cases h
  | planRecord head =>
    cases a with
    | update now ok =>
      cases h
      obtain ⟨hy, rfl⟩ := hf
      refine ⟨⟨fun m hm hne b hb => ?_, hrec.plans, hrec.trail⟩, fun m hm hid hne => ?_⟩
      · rcases Store.stored_update hm with hm | ⟨m₀, hl, rfl⟩
        · exact hrec.headSHA m hm hne b hb
        · have hid := hd.named.load hl
          simp [hid, hy.built] at hb
      · rcases Store.stored_update hm with hm | ⟨m₀, hl, rfl⟩
        · exact absurd (hy.headSHA m hm hid) hne
        · rfl
    | _ => cases h
  | planStart =>
    cases a with
    | start ok =>
      cases ok with
      | false =>
        cases h
        exact ⟨hrec, trivial⟩
      | true =>
        cases h
        refine ⟨hrec, hf, Nat.le_refl _, fun b hb => ?_⟩
        cases htrail : d.trail j.repo <;> simp_all [Disk.since, Disk.head]
    | _ => cases h
  | planRun =>
    cases a with
    | exec o wrote =>
      obtain ⟨ha, hmark, hb⟩ := hf
      have hrec' : Disk.Recorded q (if wrote then { d with
            plans := Function.update d.plans j.planFile true
            built := Function.update d.built j.planFile (d.since j.repo j.mark) } else d) := by
        split
        · exact hrec.build (hj.planning rfl) ha hmark hb
        · exact hrec
      cases o with
      | startError => cases h
      | exit code timedOut | panic =>
        cases h
        exact ⟨hrec', trivial⟩
    | _ => cases h
  | priorList =>
    cases a with
    | list ok =>
      cases ok with
      | false =>
        cases h
        exact ⟨hrec, fun hne => absurd (hj.unpicked rfl) hne⟩
      | true =>
        cases h
        exact ⟨hrec, hrec.freshMetas hd fun m hm => (Store.stored_of_mem_list hm).1⟩
    | _ => cases h
  | priorHead metas =>
    cases a with
    | head ok =>
      cases h
      refine ⟨hrec, ?_⟩
      have hprior := hj.unpicked rfl
      cases ok with
      | false => exact fun hne => absurd hprior hne
      | true =>
        simp only [if_true]
        split
        · exact fun hne => absurd hprior hne
        · rename_i hne
          exact ⟨hf, hne, rfl⟩
    | _ => cases h
  | priorPick metas head =>
    cases a with
    | pick =>
      cases h
      obtain ⟨hmetas, hne, rfl⟩ := hf
      refine ⟨hrec, fun hp => ?_⟩
      rcases pickPlan_spec d.plans (d.head j.repo) metas with h | ⟨m, hm, h, hplan, hhead, hdisk⟩
      · simp [h] at hp
      · simp only [h]
        rw [← hhead]
        exact ⟨hrec.plans _ hdisk, hmetas m hm hplan (hhead ▸ hne)⟩
    | _ => cases h
  | applyStart =>
    cases a with
    | start ok => cases ok <;> cases h <;> exact ⟨hrec, trivial⟩
    | _ => cases h
  | applyRun =>
    cases a with
    | exec o wrote =>
      cases o with
      | startError => cases h
      | panic =>
        cases h
        exact ⟨hrec, trivial⟩
      | exit code timedOut =>
        cases h
        refine ⟨hrec, ?_⟩
        split_ifs <;> trivial
    | _ => cases h
  | consumeRemove =>
    cases a with
    | remove ok =>
      cases h
      refine ⟨?_, ?_⟩
      · split
        · exact hrec.unlink _
        · exact hrec
      · split_ifs <;> trivial
    | _ => cases h
  | consumeClear | finish | fail code =>
    cases a with
    | update now ok =>
      cases h
      exact ⟨hrec.within (Store.within_update (fun _ => rfl) fun _ => rfl) rfl rfl rfl, trivial⟩
    | _ => cases h

end Own

/-! ## The steps of other threads -/

section Frame

variable {q : Config} {m : Manager} {d d' : Disk} {t u : Thread}

/-- What a step of another thread does to what a job relies on: the metadata and the artifact of
the job's run stay, the artifacts of finished runs stay, and the tree does not leave its commit. -/
structure Quiet (q : Config) (d d' : Disk) (id : String) : Prop where
  stored : ∀ m, d'.runs.Stored m → m.runID = id →
    ∃ m₀, d.runs.Stored m₀ ∧ m₀.runID = id ∧ m₀.headSHA = m.headSHA
  built : d'.built (planArtifact q.runsDir id) = d.built (planArtifact q.runsDir id)

theorem Effect.quiet (he : Effect d d' t) (ht : t.Sane q m d) {id : String}
    (hk : t.runID ≠ some id) : Quiet q d d' id where
  stored m hm hid := by
    subst hid
    exact (he.stored m hm).resolve_left hk
  built := (he.built _).resolve_right fun hb => hk (ht.of_builds hb).1

theorem Effect.built_closed (he : Effect d d' t) (ht : t.Sane q m d) {id : String}
    (hc : d.closed id = true) :
    d'.built (planArtifact q.runsDir id) = d.built (planArtifact q.runsDir id) :=
  (he.built _).resolve_right fun hb => by simp [(ht.of_builds hb).2] at hc

theorem Disk.Young.frame {id : String} (hd : d.Young q id) (hq : Quiet q d d' id) :
    d'.Young q id where
  headSHA m hm hid := by
    obtain ⟨m₀, hm₀, hid₀, hhead⟩ := hq.stored m hm hid
    rw [← hhead]
    exact hd.headSHA m₀ hm₀ hid₀
  built := by rw [hq.built, hd.built]

theorem Job.Agrees.frame {j : Job} (hj : j.Agrees d) (hq : Quiet q d d' j.runID)
    (hh : d'.head j.repo = d.head j.repo) : j.Agrees d' := by
  intro m hm hid hne
  obtain ⟨m₀, hm₀, hid₀, hhead⟩ := hq.stored m hm hid
  rw [hh, ← hhead]
  exact hj m₀ hm₀ hid₀ (hhead ▸ hne)

theorem Job.FreshMetas.frame {metas : List Meta} (hm : Job.FreshMetas d metas)
    (hb : ∀ m ∈ metas, m.planFile ≠ "" → d'.built m.planFile = d.built m.planFile) :
    Job.FreshMetas d' metas := by
  intro m hmem hp hne b hmb
  rw [hb m hmem hp] at hmb
  exact hm m hmem hp hne b hmb

/-- The tree of `repo` stays on its commit. -/
def Disk.Stays (d d' : Disk) (repo : String) : Prop :=
  d'.trail repo = d.trail repo ∨ d'.trail repo = d.head repo :: d.trail repo

theorem Disk.Stays.head {repo : String} (h : d.Stays d' repo) : d'.head repo = d.head repo := by
  rcases h with h | h <;> simp [Disk.head, h]

/-- Staying on a commit adds nothing else to the commits since a mark. -/
theorem Disk.Stays.since {repo : String} {mark : ℕ} (h : d.Stays d' repo)
    (hm : mark ≤ (d.trail repo).length) (hb : ∀ b ∈ d.since repo mark, b = d.head repo) :
    mark ≤ (d'.trail repo).length ∧ ∀ b ∈ d'.since repo mark, b = d'.head repo := by
  rw [h.head]
  rcases h with h | h
  · rw [Disk.since, h]
    exact ⟨hm, hb⟩
  · have hlen : (d.head repo :: d.trail repo).length + 1 - mark =
        ((d.trail repo).length + 1 - mark) + 1 := by
      simp only [List.length_cons]
      omega
    rw [Disk.since, h]
    refine ⟨by simp only [List.length_cons]; omega, fun b hmem => ?_⟩
    rw [hlen, List.take_succ_cons] at hmem
    rcases List.mem_cons.mp hmem with rfl | hmem
    · rfl
    · exact hb b hmem

theorem Job.Fresh.frame {j : Job} {pc : JobPc} (hf : j.Fresh q d pc) (hj : j.AtPc q d pc)
    (hp : j.Traced q d) (hq : Quiet q d d' j.runID)
    (hc : ∀ id, d.closed id = true →
      d'.built (planArtifact q.runsDir id) = d.built (planArtifact q.runsDir id))
    (hs : pc.relies = true → d.Stays d' j.repo) : j.Fresh q d' pc := by
  have hmetas : ∀ m ∈ pc.metas, m.planFile ≠ "" → d'.built m.planFile = d.built m.planFile := by
    intro m hm hne
    obtain ⟨hplan, hclosed⟩ := (hj.metas m hm).2.resolve_left hne
    rw [hplan]
    exact hc _ hclosed
  cases pc with
  | markRunning | openOutput | init | planHead => exact Disk.Young.frame hf hq
  | planRecord head => exact ⟨hf.1.frame hq, hf.2.trans (hs rfl).head.symm⟩
  | planStart => exact Job.Agrees.frame hf hq (hs rfl).head
  | planRun => exact ⟨hf.1.frame hq (hs rfl).head, (hs rfl).since hf.2.1 hf.2.2⟩
  | priorHead metas => exact Job.FreshMetas.frame hf hmetas
  | priorPick metas head => exact ⟨hf.1.frame hmetas, hf.2.1, hf.2.2.trans (hs rfl).head.symm⟩
  | applyStart =>
    intro hne
    obtain ⟨id, hid, hclosed, -⟩ := hp.prior.resolve_left hne
    rw [(hs rfl).head, hid, hc id hclosed, ← hid]
    exact hf hne
  | priorList | applyRun | consumeRemove | consumeClear | finish | fail code => trivial

/-- **Pulls keep apart.** Under the condition, a step leaves the tree of a repo on its commit
while some job of the repo relies on it. -/
theorem Thread.stays_of_moves {D : Disk → Prop} {c : State} {i j : ℕ} {a : Act} {t' : Thread}
    {s' : Shared} {repo : String} (hm : (pool q m D).Moves c i a t s' t')
    (he : Effect c.shared.disk s'.disk t) (hok : pullsApart c (.move i a) = true)
    (hj : c.threads[j]? = some u) (hu : u.relies repo = true) :
    c.shared.disk.Stays s'.disk repo := by
  rcases he.trail repo with h | ⟨p, rfl, rfl⟩
  · exact .inl h
  · have hstep := hm.step
    cases a with
    | pull a =>
      obtain ⟨⟨d, p'⟩, hp, h⟩ := Option.map_eq_some_iff.mp hstep
      cases h
      rcases PullCall.step_disk hp with rfl | ⟨ok, tip, rfl, hpc, rfl⟩
      · exact .inl rfl
      · by_cases htip : tip = c.shared.disk.head p.name
        · exact .inr (by simp [Disk.land, htip])
        · simp only [pullsApart, hm.at_, hpc, htip, ne_eq, not_false_eq_true, and_self, if_true,
            List.all_eq_true, Bool.not_eq_true'] at hok
          simp [hok u (List.mem_of_getElem? hj)] at hu
    | submit a | gate a | job a | rotate a => cases hstep

theorem Thread.Fresh.frame {D : Disk → Prop} {c : State} {i j : ℕ} {a : Act} {t' : Thread}
    {s' : Shared} (hm : (pool q m D).Moves c i a t s' t') (hc : Known q m c)
    (hok : pullsApart c (.move i a) = true) (hij : j ≠ i) (hj : c.threads[j]? = some u)
    (hu : u.Fresh q c.shared.disk) : u.Fresh q s'.disk := by
  have ht := hc.sane.thread t (List.mem_of_getElem? hm.at_)
  have hus := hc.sane.thread u (List.mem_of_getElem? hj)
  have hkeys := hc.sane.pair _ _ _ _ hij hj hm.at_
  have he := (Thread.step_sane hm.step hc.sane.shared ht).2.2
  cases u with
  | submit r => exact fun id hid => (hu id hid).frame (he.quiet ht (hkeys id hid))
  | worker w =>
    have hw : w.Sane q m c.shared.disk := hus
    refine ⟨hu.1, fun pc hpc => (hu.2 pc hpc).frame (hw.atPc pc hpc) hw.traced
      (he.quiet ht (hkeys _ rfl)) (fun id h => he.built_closed ht h) fun hr => ?_⟩
    refine Thread.stays_of_moves hm he hok hj ?_
    have hpc' : w.pc = .job pc := WorkerPc.eq_job_of_jobPc hpc (by rintro rfl; cases hr)
    simp [Thread.relies, hpc', hr]
  | pull p | rotate r => trivial

end Frame

/-! ## A thread's own step -/

section Thread

variable {q : Config} {m : Manager} {s s' : Shared} {t t' : Thread} {a : Act}

/-- A run id that was never issued is young. -/
theorem Disk.Sane.young {d : Disk} {id : String} (hd : d.Sane q) (hid : d.issued id = none) :
    d.Young q id where
  headSHA m hm h := by
    have := hd.repo m hm
    simp [h, hid] at this
  built := by
    by_contra h
    exact hd.built id h hid

theorem SubmitCall.step_fresh {c : SubmitCall} {a : SubmitAct}
    (h : c.step q m s c.pc a = some (s', t')) (hd : s.disk.Sane q) (hrec : s.disk.Recorded q)
    (hf : (Thread.submit c).Fresh q s.disk) : s'.disk.Recorded q ∧ t'.Fresh q s'.disk := by
  obtain ⟨req, dir, pc⟩ := c
  cases pc with
  | check =>
    cases a with
    | check cloned =>
      simp only [step] at h
      split at h <;> cases h <;> exact ⟨hrec, fun id hid => by cases hid⟩
    | _ => cases h
  | takeToken =>
    cases a with
    | step =>
      simp only [step] at h
      split at h <;> cases h <;> exact ⟨hrec, fun id hid => by cases hid⟩
    | _ => cases h
  | reserve =>
    cases a with
    | step =>
      cases h
      refine ⟨hrec, fun id hid => ?_⟩
      cases hb : (s.gate.reservePending (maxParallelJobs q.maxParallel) req.repo).2 <;>
        simp [Thread.runID, hb] at hid
    | _ => cases h
  | newRunID =>
    cases a with
    | newRunID id =>
      cases id with
      | none =>
        cases h
        exact ⟨hrec, fun id hid => by cases hid⟩
      | some id =>
        simp only [step] at h
        split at h
        · rename_i hnew
          cases h
          refine ⟨hrec.within .rfl rfl rfl rfl, fun id' hid => ?_⟩
          obtain rfl : id = id' := by simpa [Thread.runID] using hid
          exact Disk.Young.within (hd.young hnew.2) .rfl rfl
        · cases h
    | _ => cases h
  | create id =>
    cases a with
    | io now ok =>
      simp only [step] at h
      split at h <;> cases h
      · have hs : (s.disk.runs.mkdir id).Within s.disk.runs :=
          fun m hm => ⟨m, Store.stored_mkdir hm, rfl, rfl⟩
        exact ⟨hrec.within hs rfl rfl rfl, fun id' hid => (hf id' hid).within hs rfl⟩
      · exact ⟨hrec, hf⟩
    | _ => cases h
  | writeMeta id =>
    cases a with
    | io now ok =>
      simp only [step] at h
      split at h <;> cases h
      · have hy := hf id rfl
        refine ⟨⟨fun m hm hne => ?_, hrec.plans, hrec.trail⟩, fun id' hid => ?_⟩
        · rcases Store.stored_writeMeta hm with rfl | hm
          · exact absurd rfl hne
          · exact hrec.headSHA m hm hne
        · obtain rfl : id = id' := by simpa [Thread.runID] using hid
          refine ⟨fun m hm hid => ?_, hy.built⟩
          rcases Store.stored_writeMeta hm with rfl | hm
          · rfl
          · exact hy.headSHA m hm hid
      · exact ⟨hrec, hf⟩
    | _ => cases h
  | start id =>
    cases a with
    | step =>
      cases h
      have hran : Job.RanFresh ⟨id, req.repo, dir, req.kind, ⟨0, false⟩, "", false, "", "", 0, []⟩ :=
        fun call hcall => by cases hcall
      refine ⟨hrec, hran, fun pc hpc => ?_⟩
      obtain rfl : JobPc.markRunning = pc := by simpa [WorkerPc.jobPc] using hpc
      exact hf id rfl
    | _ => cases h
  | releasePending e stillborn =>
    cases a with
    | step =>
      cases h
      exact ⟨hrec, hf⟩
    | _ => cases h
  | giveBack e stillborn =>
    cases a with
    | step =>
      obtain ⟨g, -, h⟩ := Option.map_eq_some_iff.mp h
      cases h
      cases stillborn with
      | none => exact ⟨hrec, fun id hid => by cases hid⟩
      | some id => exact ⟨hrec, hf⟩
    | _ => cases h
  | cleanup e id =>
    cases a with
    | io now ok =>
      cases h
      refine ⟨?_, fun id' hid => by cases hid⟩
      split
      · exact hrec.within (fun m hm => ⟨m, Store.stored_removeAll hm, rfl, rfl⟩) rfl rfl rfl
      · exact hrec
    | _ => cases h
  | refused e => cases a <;> cases h

theorem Worker.diskStep_fresh {d d' : Disk} {w w' : Worker} {a : JobAct}
    (h : w.diskStep q d a = some (d', w')) (hd : d.Sane q) (hw : w.Sane q m d)
    (hrec : d.Recorded q) (hf : (Thread.worker w).Fresh q d) :
    d'.Recorded q ∧ (Thread.worker w').Fresh q d' := by
  obtain ⟨job, pc, l, waiter, handoff, panicking⟩ := w
  cases pc with
  | failLock | failSlot | recover =>
    cases a with
    | update now ok =>
      cases h
      exact ⟨hrec.within (Store.within_update (fun _ => rfl) fun _ => rfl) rfl rfl rfl, hf.1,
        fun pc h => by simp [WorkerPc.jobPc] at h⟩
    | _ => cases h
  | job pc =>
    obtain ⟨⟨d₁, j, next⟩, hj, h⟩ := Option.map_eq_some_iff.mp h
    have hfresh := hf.2 pc rfl
    obtain ⟨hrec', hafter⟩ := Job.step_fresh hj hd hrec (hw.atPc pc rfl) hfresh
    have hran := Job.step_ranFresh hj hf.1 hfresh
    cases next with
    | goto pc' =>
      cases h
      refine ⟨hrec', hran, fun pc h => ?_⟩
      obtain rfl : pc' = pc := by simpa [WorkerPc.jobPc] using h
      exact hafter
    | leave | panicked =>
      cases h
      exact ⟨hrec', hran, fun pc h => by simp [WorkerPc.jobPc] at h⟩
  | _ => cases h

theorem Thread.step_fresh (h : t.step q m s a = some (s', t')) (hd : s.disk.Sane q)
    (ht : t.Sane q m s.disk) (hrec : s.disk.Recorded q) (hf : t.Fresh q s.disk) :
    s'.disk.Recorded q ∧ t'.Fresh q s'.disk := by
  cases t with
  | submit c =>
    cases a with
    | submit a => exact SubmitCall.step_fresh h hd hrec hf
    | _ => cases h
  | worker w =>
    cases a with
    | gate a =>
      obtain ⟨⟨g, w'⟩, hg, h⟩ := Option.map_eq_some_iff.mp h
      cases h
      obtain ⟨hjob, hpc⟩ := Worker.gateStep_job hg
      exact ⟨hrec, hjob ▸ hf.1, fun pc h => hjob ▸ hf.2 pc (hpc pc h)⟩
    | job a =>
      obtain ⟨⟨d, w'⟩, hw, h⟩ := Option.map_eq_some_iff.mp h
      cases h
      exact Worker.diskStep_fresh hw hd ht hrec hf
    | _ => cases h
  | pull p =>
    cases a with
    | pull a =>
      obtain ⟨⟨d, p'⟩, hp, h⟩ := Option.map_eq_some_iff.mp h
      cases h
      rcases PullCall.step_disk hp with rfl | ⟨ok, tip, -, -, rfl⟩
      · exact ⟨hrec, trivial⟩
      · refine ⟨⟨hrec.headSHA, hrec.plans, fun repo => ?_⟩, trivial⟩
        by_cases he : repo = p.name
        · simp [Disk.land, he]
        · simpa [Disk.land, Function.update_of_ne he] using hrec.trail repo
    | _ => cases h
  | rotate r =>
    cases a with
    | rotate a =>
      obtain ⟨⟨d, r'⟩, hr, h⟩ := Option.map_eq_some_iff.mp h
      cases h
      rcases RotateCall.step_disk hr with rfl | ⟨id, rfl⟩
      · exact ⟨hrec, trivial⟩
      · exact ⟨(hrec.unlink (planArtifact q.runsDir id)).within
          (fun m hm => ⟨m, Store.stored_removeAll hm, rfl, rfl⟩) rfl rfl rfl, trivial⟩
    | _ => cases h

end Thread

/-! ## Runs -/

section Runs

variable {q : Config} {m : Manager} {c : State}

theorem Disk.Fresh.recorded {d : Disk} (h : d.Fresh) : d.Recorded q where
  headSHA := by simp [Store.Stored, h.runs]
  plans := by simp [h.plans]
  trail := h.trail

theorem pool_fresh :
    (pool q m Disk.Fresh).Sound (fun c a => pullsApart c a = true) (Known q m)
      (fun s => s.disk.Recorded q) (fun s t => t.Fresh q s.disk) fun _ _ => True where
  init _ hs := hs.2.recorded
  start s k _ := by
    cases k with
    | submit req => exact fun id hid => by cases hid
    | pull name ffOnly | rotate maxAge => trivial
  symm _ _ _ := trivial
  startPair _ _ := trivial
  shared hm hc _ hJ hQ := (Thread.step_fresh hm.step hc.sane.shared
    (hc.sane.thread _ (List.mem_of_getElem? hm.at_)) hJ hQ).1
  own hm hc _ hJ hQ := (Thread.step_fresh hm.step hc.sane.shared
    (hc.sane.thread _ (List.mem_of_getElem? hm.at_)) hJ hQ).2
  frame hm hc hok _ _ hij hj _ hu := hu.frame hm hc hok hij hj
  pair _ _ _ _ _ _ _ _ _ := trivial

/-- **Saved plans are fresh.** In every run in which no pull moves a repo's working tree to another
commit while a job of that repo relies on the commit it has read, each `tofu apply` that was given
a saved plan was started on the commit the plan was built on. -/
theorem fresh_plan
    (h : (pool q m Disk.Fresh).system.Reach (fun c a => pullsApart c a = true) c) {t : Thread}
    (ht : t ∈ c.threads) {call : TofuCall} (hcall : call ∈ t.calls) {p : String}
    (hp : call.planFileArg = some p) :
    call.builtOn ≠ [] ∧ ∀ b ∈ call.builtOn, b = call.onCommit := by
  have hc := pool_fresh.holds (fun _ hc => known (fun _ hd => hd.sane) hc) h
  cases t with
  | worker w => exact (hc.thread _ ht).1 call hcall p hp
  | submit r | pull r | rotate r => cases hcall

end Runs

/-! ## Two histories -/

/-- Pull `infra` on thread `i`, to the given commit. -/
def pulling (i : ℕ) (tip : Commit) : List (Move Call Act) :=
  [.call (.pull "infra" false), .move i (.pull (.lookup true)), .move i (.pull (.git true tip))]

/-- A plan on `c0`; an apply reads the commit, a pull moves the tree to `c1`, the apply goes on. -/
def latePull : List (Move Call Act) :=
  submitting 0 .plan "AAAAAAAAAAAAAAAA" 0 ++ entering 0 false ++ planning 0 1 ++ leaving 0 ++
    submitting 1 .apply "BBBBBBBBBBBBBBBB" 2 ++ entering 1 true ++
    working 1 [.update 3 true, .openOutput true, .exec (.exit 0 false) false, .list true,
      .head true] ++
    pulling 2 "c1" ++ working 1 [.pick, .start true]

/-- A pull to `c1`, then a plan and its apply. -/
def earlyPull : List (Move Call Act) :=
  pulling 0 "c1" ++ submitting 1 .plan "AAAAAAAAAAAAAAAA" 0 ++ entering 1 false ++ planning 1 1 ++
    leaving 1 ++ submitting 2 .apply "BBBBBBBBBBBBBBBB" 2 ++ entering 2 true ++ toApply 2 3

/-- **A pull lands between the read and the apply.** A saved plan built on one commit is applied
while the working tree is on another. -/
theorem pull_between_read_and_apply :
    ¬∀ c, (pool twoSlots oneRepo Disk.Fresh).system.Reachable c → ∀ t ∈ c.threads,
      ∀ call ∈ t.calls, ∀ p, call.planFileArg = some p → ∀ b ∈ call.builtOn, b = call.onCommit := by
  intro hclaim
  obtain ⟨c, hc, hf⟩ := System.exists_of_runOk small_init_fresh
    (by decide : ((pool twoSlots oneRepo Disk.Fresh).system.runOk (fun _ _ => true) smallStart
      latePull).any (fun c => c.threads.any fun t => t.calls.any fun call =>
        call.planFileArg = some planOfA && call.builtOn = ["c0"] && call.onCommit = "c1") = true)
  simp only [List.any_eq_true, Bool.and_eq_true, decide_eq_true_eq] at hf
  obtain ⟨t, ht, call, hcall, ⟨hp, hbuilt⟩, hon⟩ := hf
  have := hclaim c hc.reachable t ht call hcall planOfA hp "c0" (by simp [hbuilt])
  simp [hon] at this

/-- A plan and its apply on the commit pulled before. -/
theorem fresh_plan_early_pull :
    ∃ c t call, (pool twoSlots oneRepo Disk.Fresh).system.Reach
        (fun c a => pullsApart c a = true) c ∧
      t ∈ c.threads ∧ call ∈ t.calls ∧ call.planFileArg = some planOfA ∧
      call.builtOn ≠ [] ∧ ∀ b ∈ call.builtOn, b = call.onCommit := by
  obtain ⟨c, hc, hf⟩ := System.exists_of_runOk small_init_fresh
    (by decide : ((pool twoSlots oneRepo Disk.Fresh).system.runOk pullsApart smallStart
      earlyPull).any (fun c => c.threads.any fun t => t.calls.any fun call =>
        call.planFileArg = some planOfA) = true)
  simp only [List.any_eq_true, decide_eq_true_eq] at hf
  obtain ⟨t, ht, call, hcall, hp⟩ := hf
  exact ⟨c, t, call, hc, ht, hcall, hp, fresh_plan hc ht hcall hp⟩

end HaAddons.Runner
