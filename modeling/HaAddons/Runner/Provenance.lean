import HaAddons.Runner.QueueSafety

/-!
# Where plan artifacts come from

What holds of the run store and of every thread in all runs, whatever fails.

* `Disk.Sane` — each stored run sits in its own directory, was issued for its repo, and names no
  artifact but its own, and that only once its job is over.
* `Effect` — what one step can do to the disk, with the thread that does it. Every frame argument
  about the disk uses this and nothing else of the step.
* `sane` — both facts in every state, and `runID_distinct` — no two threads work for one run.
-/

namespace HaAddons.Runner

/-! ## Threads and their runs -/

namespace Thread

/-- The run a thread works for. -/
def runID : Thread → Option String
  | .submit c => match c.pc with
    | .create id | .writeMeta id | .start id | .cleanup _ id => some id
    | .releasePending _ stillborn | .giveBack _ stillborn => stillborn
    | _ => none
  | .worker w => some w.job.runID
  | _ => none

/-- The repo a thread works for. -/
def repo : Thread → String
  | .submit c => c.req.repo
  | .worker w => w.job.repo
  | .pull p => p.name
  | .rotate _ => ""

/-- A worker whose `tofu plan` is running and writes `p`. -/
def builds (p : String) (t : Thread) : Prop :=
  ∃ w, t = .worker w ∧ w.pc = .job .planRun ∧ w.job.planFile = p

end Thread

/-- The plan file of an apply the job has started. -/
def Job.handed (j : Job) (p : String) : Prop := ∃ call ∈ j.ran, call.planFileArg = some p

@[simp] theorem planFileArg_init (useLockfile : Bool) (at_ : Commit) (built : List Commit) :
    TofuCall.planFileArg ⟨initArgs useLockfile, at_, built⟩ = none := rfl

@[simp] theorem planFileArg_plan (planFile : String) (at_ : Commit) (built : List Commit) :
    TofuCall.planFileArg ⟨planArgs planFile, at_, built⟩ = none := rfl

theorem planFileArg_apply {prior : String} {at_ : Commit} {built : List Commit} {p : String}
    (h : TofuCall.planFileArg ⟨applyArgs prior, at_, built⟩ = some p) : prior = p ∧ p ≠ "" := by
  by_cases hp : prior = ""
  · simp [TofuCall.planFileArg, applyArgs, hp] at h
  · obtain rfl : prior = p := by simpa [TofuCall.planFileArg, applyArgs, hp] using h
    exact ⟨rfl, hp⟩

/-! ## The disk -/

/-- No run yet. Every working tree is on some commit. -/
structure Disk.Fresh (d : Disk) : Prop where
  trail : ∀ repo, d.trail repo ≠ []
  runs : d.runs = []
  plans : ∀ p, d.plans p = false
  built : ∀ p, d.built p = []
  issued : ∀ id, d.issued id = none
  closed : ∀ id, d.closed id = false

structure Disk.Sane (q : Config) (d : Disk) : Prop where
  named : d.runs.Named
  repo : ∀ m, d.runs.Stored m → d.issued m.runID = some m.repo
  planFile : ∀ m, d.runs.Stored m → m.planFile = "" ∨
    m.planFile = planArtifact q.runsDir m.runID ∧ d.closed m.runID = true
  closed : ∀ id, d.closed id = true → d.issued id ≠ none
  built : ∀ id, d.built (planArtifact q.runsDir id) ≠ [] → d.issued id ≠ none

namespace Disk

variable {q : Config} {d : Disk}

theorem Fresh.sane (h : d.Fresh) : d.Sane q where
  named := by simp [h.runs, Store.Named]
  repo := by simp [h.runs, Store.Stored]
  planFile := by simp [h.runs, Store.Stored]
  closed := by simp [h.closed]
  built := by simp [h.built]

/-- A closed run stays closed. -/
theorem closed_update {closed : String → Bool} {id id' : String} (h : closed id' = true) :
    Function.update closed id true id' = true := by
  by_cases he : id' = id
  · simp [he]
  · simpa [Function.update_of_ne he] using h

theorem Sane.close (hd : d.Sane q) {id : String} (hid : d.issued id ≠ none) :
    Sane q { d with closed := Function.update d.closed id true } where
  named := hd.named
  repo := hd.repo
  planFile m hm := by
    rcases hd.planFile m hm with h | ⟨h, hc⟩
    · exact .inl h
    · exact .inr ⟨h, closed_update hc⟩
  closed id' hc := by
    by_cases he : id' = id
    · exact he ▸ hid
    · exact hd.closed id' (by simpa [Function.update_of_ne he] using hc)
  built := hd.built

/-- A metadata update keeps the store sane when it keeps the run's identity and names no artifact
but that of a finished job. -/
theorem Sane.update (hd : d.Sane q) {id : String} {f : Meta → Meta} {ok : Bool}
    (hid : ∀ m, (f m).runID = m.runID) (hrepo : ∀ m, (f m).repo = m.repo)
    (hplan : ∀ m, (f m).planFile = m.planFile ∨ (f m).planFile = "" ∨
      (f m).planFile = planArtifact q.runsDir id ∧ d.closed id = true) :
    Sane q { d with runs := (d.runs.update id f ok).1 } where
  named := hd.named.update id f ok
  repo m hm := by
    rcases Store.stored_update hm with hm | ⟨m₀, hl, rfl⟩
    · exact hd.repo m hm
    · rw [hid, hrepo]
      exact hd.repo m₀ (.of_load hl)
  planFile m hm := by
    rcases Store.stored_update hm with hm | ⟨m₀, hl, rfl⟩
    · exact hd.planFile m hm
    · rw [hid]
      rcases hplan m₀ with h | h | ⟨h, hc⟩
      · rw [h]
        exact hd.planFile m₀ (.of_load hl)
      · exact .inl h
      · rw [hd.named.load hl]
        exact .inr ⟨h, hc⟩
  closed := hd.closed
  built := hd.built

theorem Sane.mkdir (hd : d.Sane q) (id : String) : Sane q { d with runs := d.runs.mkdir id } where
  named := hd.named.mkdir id
  repo m hm := hd.repo m (Store.stored_mkdir hm)
  planFile m hm := hd.planFile m (Store.stored_mkdir hm)
  closed := hd.closed
  built := hd.built

theorem Sane.writeMeta (hd : d.Sane q) {m : Meta} (hm : d.issued m.runID = some m.repo)
    (hp : m.planFile = "") : Sane q { d with runs := d.runs.writeMeta m } where
  named := hd.named.writeMeta m
  repo m' hm' := by
    rcases Store.stored_writeMeta hm' with rfl | hm'
    · exact hm
    · exact hd.repo m' hm'
  planFile m' hm' := by
    rcases Store.stored_writeMeta hm' with rfl | hm'
    · exact .inl hp
    · exact hd.planFile m' hm'
  closed := hd.closed
  built := hd.built

/-- A new run id is handed out. -/
theorem Sane.issue (hd : d.Sane q) {id : String} (hid : d.issued id = none) (repo : String) :
    Sane q { d with issued := Function.update d.issued id (some repo) } where
  named := hd.named
  repo m hm := by
    have hne : m.runID ≠ id := by
      intro h
      have := hd.repo m hm
      simp [h, hid] at this
    simpa [Function.update_of_ne hne] using hd.repo m hm
  planFile := hd.planFile
  closed id' hc := by
    by_cases he : id' = id
    · simp [he]
    · simpa [Function.update_of_ne he] using hd.closed id' hc
  built id' hb := by
    by_cases he : id' = id
    · simp [he]
    · simpa [Function.update_of_ne he] using hd.built id' hb

theorem Sane.unlink (hd : d.Sane q) (p : String) :
    Sane q { d with plans := Function.update d.plans p false } :=
  ⟨hd.named, hd.repo, hd.planFile, hd.closed, hd.built⟩

theorem Sane.removeAll (hd : d.Sane q) (id : String) :
    Sane q { d with runs := d.runs.removeAll id } where
  named := hd.named.removeAll id
  repo m hm := hd.repo m (Store.stored_removeAll hm)
  planFile m hm := hd.planFile m (Store.stored_removeAll hm)
  closed := hd.closed
  built := hd.built

end Disk

/-! ## What a step does to the disk -/

/-- What a step of thread `t` can do to the disk. -/
structure Effect (d d' : Disk) (t : Thread) : Prop where
  issued : ∀ id r, d.issued id = some r → d'.issued id = some r
  closed : ∀ id, d.closed id = true → d'.closed id = true
  closedBy : ∀ id, d'.closed id = true → d.closed id = true ∨ t.runID = some id
  plans : ∀ p, d'.plans p = true → d.plans p = true ∨ t.builds p
  built : ∀ p, d'.built p = d.built p ∨ t.builds p
  trail : ∀ r, d'.trail r = d.trail r ∨ ∃ p : PullCall, t = .pull p ∧ p.name = r
  stored : ∀ m, d'.runs.Stored m → t.runID = some m.runID ∨
    ∃ m₀, d.runs.Stored m₀ ∧ m₀.runID = m.runID ∧ m₀.headSHA = m.headSHA

namespace Effect

variable {q : Config} {d : Disk} {t : Thread}

theorem rfl : Effect d d t where
  issued _ _ h := h
  closed _ h := h
  closedBy _ h := .inl h
  plans _ h := .inl h
  built _ := .inl (Eq.refl _)
  trail _ := .inl (Eq.refl _)
  stored m hm := .inr ⟨m, hm, Eq.refl _, Eq.refl _⟩

/-- A thread's update of its own run. -/
theorem update (hd : d.Sane q) {id : String} (ht : t.runID = some id) {f : Meta → Meta} {ok : Bool}
    (hid : ∀ m, (f m).runID = m.runID) :
    Effect d { d with runs := (d.runs.update id f ok).1 } t :=
  { rfl with
    stored := by
      intro m hm
      rcases Store.stored_update hm with hm | ⟨m₀, hl, h⟩
      · exact .inr ⟨m, hm, Eq.refl _, Eq.refl _⟩
      · refine .inl ?_
        rw [ht, h, hid, hd.named.load hl] }

/-- A thread's update of its own run that also closes it. -/
theorem close (hd : d.Sane q) {id : String} (ht : t.runID = some id) {f : Meta → Meta} {ok : Bool}
    (hid : ∀ m, (f m).runID = m.runID) :
    Effect d { d with
      runs := (d.runs.update id f ok).1
      closed := Function.update d.closed id true } t :=
  { update hd ht hid with
    closed := fun id' h => Disk.closed_update h
    closedBy := by
      intro id' h
      by_cases he : id' = id
      · exact .inr (he ▸ ht)
      · exact .inl (by simpa [Function.update_of_ne he] using h) }

/-- The store changes, and only the thread's own run gets new metadata. -/
theorem runs {runs : Store} (h : ∀ m, runs.Stored m → t.runID = some m.runID ∨ d.runs.Stored m) :
    Effect d { d with runs := runs } t :=
  { rfl with stored := fun m hm => (h m hm).imp_right fun h => ⟨m, h, Eq.refl _, Eq.refl _⟩ }

theorem issue {id : String} (hid : d.issued id = none) (repo : String) :
    Effect d { d with issued := Function.update d.issued id (some repo) } t :=
  { rfl with
    issued := by
      intro id' r h
      have hne : id' ≠ id := by
        rintro rfl
        simp [hid] at h
      simpa [Function.update_of_ne hne] using h }

/-- A pull lands on a commit. -/
theorem land (p : PullCall) (tip : Commit) : Effect d (d.land p.name tip) (.pull p) :=
  { rfl with
    trail := by
      intro r
      by_cases he : r = p.name
      · exact .inr ⟨p, Eq.refl _, he.symm⟩
      · exact .inl (by simp [Disk.land, Function.update_of_ne he]) }

/-- `tofu plan` writes its artifact. -/
theorem build {p : String} (ht : t.builds p) (commits : List Commit) :
    Effect d { d with
      plans := Function.update d.plans p true
      built := Function.update d.built p commits } t :=
  { rfl with
    plans := by
      intro p' h
      by_cases he : p' = p
      · exact .inr (he ▸ ht)
      · exact .inl (by simpa [Function.update_of_ne he] using h)
    built := by
      intro p'
      by_cases he : p' = p
      · exact .inr (he ▸ ht)
      · exact .inl (by simp [Function.update_of_ne he]) }

/-- An artifact is removed. -/
theorem unlink (p : String) : Effect d { d with plans := Function.update d.plans p false } t :=
  { rfl with
    plans := by
      intro p' h
      by_cases he : p' = p
      · simp [he] at h
      · exact .inl (by simpa [Function.update_of_ne he] using h) }

end Effect

/-! ## Jobs -/

/-- The runs a job found and still has to choose from. -/
def JobPc.metas : JobPc → List Meta
  | .priorHead metas | .priorPick metas _ => metas
  | _ => []

/-- From the choice of the plan file to the end of `tofu plan`. -/
def JobPc.planning : JobPc → Bool
  | .planHead | .planRecord _ | .planStart | .planRun => true
  | _ => false

/-- Before `tofu apply` is started. -/
def JobPc.beforeApply : JobPc → Bool
  | .applyRun | .consumeRemove | .consumeClear | .finish | .fail _ => false
  | _ => true

/-- Before the job picks a prior plan. -/
def JobPc.beforePick (pc : JobPc) : Bool := pc.beforeApply && pc ≠ .applyStart

namespace Job

/-- What a job's variables say, wherever it is. -/
structure Traced (q : Config) (d : Disk) (j : Job) : Prop where
  planFile : j.planFile = "" ∨ j.planFile = planArtifact q.runsDir j.runID
  prior : j.prior = "" ∨ ∃ id, j.prior = planArtifact q.runsDir id ∧ d.closed id = true ∧
    d.issued id = some j.repo
  handed : ∀ p, j.handed p → j.prior = p ∧ p ≠ ""

/-- What is known of a job at its program counter. -/
structure AtPc (q : Config) (d : Disk) (j : Job) (pc : JobPc) : Prop where
  still : d.closed j.runID = false
  planning : pc.planning = true → j.planFile = planArtifact q.runsDir j.runID
  metas : ∀ m ∈ pc.metas, d.issued m.runID = some j.repo ∧
    (m.planFile = "" ∨ m.planFile = planArtifact q.runsDir m.runID ∧ d.closed m.runID = true)
  unpicked : pc.beforePick = true → j.prior = ""
  unhanded : pc.beforeApply = true → ∀ p, ¬j.handed p

variable {q : Config} {d d' : Disk} {j j' : Job} {pc : JobPc} {t : Thread}

theorem Traced.mono (hj : j.Traced q d) (hc : ∀ id, d.closed id = true → d'.closed id = true)
    (hi : ∀ id r, d.issued id = some r → d'.issued id = some r) : j.Traced q d' where
  planFile := hj.planFile
  prior := hj.prior.imp_right fun ⟨id, h, h₁, h₂⟩ => ⟨id, h, hc id h₁, hi id _ h₂⟩
  handed := hj.handed

theorem AtPc.frame (hj : j.AtPc q d pc) (he : Effect d d' t) (ht : t.runID ≠ some j.runID) :
    j.AtPc q d' pc where
  still := by
    by_contra h
    rcases he.closedBy j.runID (by simpa using h) with h | h
    · exact absurd hj.still (by simp [h])
    · exact ht h
  planning := hj.planning
  metas m hm :=
    ⟨he.issued _ _ (hj.metas m hm).1, (hj.metas m hm).2.imp_right fun ⟨h, hc⟩ =>
      ⟨h, he.closed _ hc⟩⟩
  unpicked := hj.unpicked
  unhanded := hj.unhanded

/-- The plan file a job hands over is the prior it picked. -/
theorem handed_cons {call : TofuCall} {p : String} {j : Job}
    (h : Job.handed { j with ran := call :: j.ran } p) : call.planFileArg = some p ∨ j.handed p := by
  obtain ⟨c, hc, hp⟩ := h
  rcases List.mem_cons.mp hc with rfl | hc
  · exact .inl hp
  · exact .inr ⟨c, hc, hp⟩

/-- What `next` says of the job a step leaves behind. -/
def After (q : Config) (d : Disk) (j : Job) : JobNext → Prop
  | .goto pc => j.Traced q d ∧ j.AtPc q d pc
  | .leave | .panicked => j.Traced q d

/-- Past the start of the apply, or on the way out, only the run being open matters. -/
theorem AtPc.past (hs : d.closed j.runID = false) (hp : pc.planning = false) (hm : pc.metas = [])
    (ha : pc.beforeApply = false) : j.AtPc q d pc where
  still := hs
  planning h := by simp [hp] at h
  metas := by simp [hm]
  unpicked h := by simp [JobPc.beforePick, ha] at h
  unhanded h := by simp [ha] at h

theorem afterInit_after (o : Outcome) (ht : j.Traced q d) (hj : j.AtPc q d .init) :
    (j.afterInit q d o).2.1.After q d (j.afterInit q d o).2.2 := by
  have hun := hj.unhanded rfl
  have hprior := hj.unpicked rfl
  cases o with
  | startError => exact ⟨⟨ht.planFile, ht.prior, ht.handed⟩, .past hj.still rfl rfl rfl⟩
  | panic => exact ht
  | exit code timedOut =>
    have hnone : ∀ p, ¬Job.handed { j with
        res := ⟨code, timedOut⟩
        ran := ⟨initArgs q.useLockfile, d.head j.repo, []⟩ :: j.ran } p := by
      rintro p ⟨c, hc, hp⟩
      rcases List.mem_cons.mp hc with rfl | hc
      · simp at hp
      · exact hun p ⟨c, hc, hp⟩
    simp only [afterInit]
    split_ifs
    · exact ⟨⟨ht.planFile, ht.prior, fun p h => absurd h (hnone p)⟩, .past hj.still rfl rfl rfl⟩
    · cases hk : j.kind with
      | plan => exact ⟨⟨.inr rfl, ht.prior, fun p h => absurd h (hnone p)⟩, hj.still,
          fun _ => rfl, by simp [JobPc.metas], fun _ => hprior, fun _ => hnone⟩
      | apply => exact ⟨⟨ht.planFile, ht.prior, fun p h => absurd h (hnone p)⟩, hj.still,
          by simp [JobPc.planning], by simp [JobPc.metas], fun _ => hprior, fun _ => hnone⟩
      | other name => exact ⟨⟨ht.planFile, ht.prior, fun p h => absurd h (hnone p)⟩,
          .past hj.still rfl rfl rfl⟩

/-- The facts about a job read the ghost state only. -/
theorem Traced.congr (hj : j.Traced q d) (hc : d'.closed = d.closed) (hi : d'.issued = d.issued) :
    j.Traced q d' :=
  hj.mono (by simp [hc]) (by simp [hi])

theorem AtPc.congr (hj : j.AtPc q d pc) (hc : d'.closed = d.closed) (hi : d'.issued = d.issued) :
    j.AtPc q d' pc where
  still := by simpa [hc] using hj.still
  planning := hj.planning
  metas := by simpa [hc, hi] using hj.metas
  unpicked := hj.unpicked
  unhanded := hj.unhanded

/-- A job moves on with what it knew. -/
theorem AtPc.goto {pc' : JobPc} (hj : j.AtPc q d pc) (hp : pc'.planning = true → pc.planning = true)
    (hm : ∀ m ∈ pc'.metas, m ∈ pc.metas)
    (hb : pc'.beforePick = true → pc.beforePick = true)
    (ha : pc'.beforeApply = true → pc.beforeApply = true) : j.AtPc q d pc' where
  still := hj.still
  planning h := hj.planning (hp h)
  metas m h := hj.metas m (hm m h)
  unpicked h := hj.unpicked (hb h)
  unhanded h := hj.unhanded (ha h)

theorem step_sane {a : JobAct} {next : JobNext} (h : j.step q d pc a = some (d', j', next))
    (hd : d.Sane q) (hi : d.issued j.runID = some j.repo) (hr : j.repo ≠ "") (ht : j.Traced q d)
    (hj : j.AtPc q d pc) : d'.Sane q ∧ j'.After q d' next := by
  cases pc with
  | markRunning =>
    cases a with
    | update now ok =>
      cases h
      refine ⟨hd.update (fun _ => rfl) (fun _ => rfl) fun _ => .inl rfl, ht.congr rfl rfl, ?_⟩
      refine AtPc.congr (d := d) ?_ rfl rfl
      split_ifs <;> exact hj.goto (by simp [JobPc.planning]) (by simp [JobPc.metas])
        (by simp [JobPc.beforePick, JobPc.beforeApply]) (by simp [JobPc.beforeApply])
    | _ => cases h
  | openOutput =>
    cases a with
    | openOutput ok =>
      cases h
      refine ⟨hd, ht, ?_⟩
      split_ifs <;> exact hj.goto (by simp [JobPc.planning]) (by simp [JobPc.metas])
        (by simp [JobPc.beforePick, JobPc.beforeApply]) (by simp [JobPc.beforeApply])
    | _ => cases h
  | init =>
    cases a with
    | exec o wrote =>
      have hafter := afterInit_after o ht hj
      have hdisk := afterInit_disk (q := q) d j o
      rw [step, Option.some.injEq] at h
      rw [h] at hdisk hafter
      obtain rfl : d' = d := hdisk
      exact ⟨hd, hafter⟩
    | _ => cases h
  | planHead =>
    cases a with
    | head ok =>
      cases h
      refine ⟨hd, ht, ?_⟩
      split_ifs <;> exact hj.goto (by simp [JobPc.planning]) (by simp [JobPc.metas])
        (by simp [JobPc.beforePick, JobPc.beforeApply]) (by simp [JobPc.beforeApply])
    | _ => cases h
  | planRecord head =>
    cases a with
    | update now ok =>
      cases h
      exact ⟨hd.update (fun _ => rfl) (fun _ => rfl) fun _ => .inl rfl, ht.congr rfl rfl,
        (hj.goto (by simp [JobPc.planning]) (by simp [JobPc.metas])
          (by simp [JobPc.beforePick, JobPc.beforeApply]) (by simp [JobPc.beforeApply])).congr rfl rfl⟩
    | _ => cases h
  | planStart =>
    cases a with
    | start ok =>
      cases ok with
      | false =>
        cases h
        exact ⟨hd, ⟨.inl rfl, ht.prior, ht.handed⟩, .past hj.still rfl rfl rfl⟩
      | true =>
        cases h
        have hnone : ∀ p, ¬Job.handed { j with
            mark := (d.trail j.repo).length
            ran := ⟨planArgs j.planFile, d.head j.repo, []⟩ :: j.ran } p := by
          rintro p ⟨c, hc, hp⟩
          rcases List.mem_cons.mp hc with rfl | hc
          · simp at hp
          · exact hj.unhanded rfl p ⟨c, hc, hp⟩
        exact ⟨hd, ⟨ht.planFile, ht.prior, fun p h => absurd h (hnone p)⟩, hj.still,
          fun _ => hj.planning rfl, by simp [JobPc.metas], fun _ => hj.unpicked rfl, fun _ => hnone⟩
    | _ => cases h
  | planRun =>
    cases a with
    | exec o wrote =>
      have hplan := hj.planning rfl
      have hd' : Disk.Sane q (if wrote then { d with
            plans := Function.update d.plans j.planFile true
            built := Function.update d.built j.planFile (d.since j.repo j.mark) } else d) := by
        split
        · refine ⟨hd.named, hd.repo, hd.planFile, hd.closed, fun id hb => ?_⟩
          by_cases he : id = j.runID
          · simp [he, hi]
          · have hne : planArtifact q.runsDir id ≠ j.planFile := fun h =>
              he (planArtifact_injective _ (h.trans hplan))
            exact hd.built id (by simpa [Function.update_of_ne hne] using hb)
        · exact hd
      cases o with
      | startError => cases h
      | exit code timedOut =>
        cases h
        refine ⟨hd', Traced.congr (d := d) ⟨ht.planFile, ht.prior, ht.handed⟩ ?_ ?_,
          AtPc.congr (d := d) (.past hj.still rfl rfl rfl) ?_ ?_⟩ <;> split <;> rfl
      | panic =>
        cases h
        exact ⟨hd', ht.congr (by split <;> rfl) (by split <;> rfl)⟩
    | _ => cases h
  | priorList =>
    cases a with
    | list ok =>
      cases ok with
      | false =>
        cases h
        exact ⟨hd, ht, hj.goto (by simp [JobPc.planning]) (by simp [JobPc.metas])
          (fun h => by simp [JobPc.beforePick] at h) fun _ => rfl⟩
      | true =>
        cases h
        refine ⟨hd, ht, hj.still, by simp [JobPc.planning], fun m hm => ?_,
          fun _ => hj.unpicked rfl, fun _ => hj.unhanded rfl⟩
        obtain ⟨hs, hf⟩ := Store.stored_of_mem_list hm
        have hrepo : m.repo = j.repo := by
          simp only [ListFilter.accepts, priorFilter, hr, Bool.and_eq_true, decide_false,
            Bool.false_or] at hf
          exact of_decide_eq_true hf.1.1.1
        exact ⟨hrepo ▸ hd.repo m hs, hd.planFile m hs⟩
    | _ => cases h
  | priorHead metas =>
    cases a with
    | head ok =>
      cases h
      refine ⟨hd, ht, ?_⟩
      split_ifs <;> exact hj.goto (by simp [JobPc.planning]) (by simp [JobPc.metas])
        (by simp [JobPc.beforePick, JobPc.beforeApply]) (by simp [JobPc.beforeApply])
    | _ => cases h
  | priorPick metas head =>
    cases a with
    | pick =>
      cases h
      have hnone := hj.unhanded rfl
      refine ⟨hd, ⟨ht.planFile, ?_, fun p h => absurd h (hnone p)⟩, hj.still,
        by simp [JobPc.planning], by simp [JobPc.metas], by simp [JobPc.beforePick], fun _ => hnone⟩
      rcases pickPlan_spec d.plans head metas with h | ⟨m, hm, h, hne, -, -⟩
      · exact .inl (by simp [h])
      · obtain ⟨hissued, hplan⟩ := hj.metas m hm
        obtain ⟨hplan, hclosed⟩ := hplan.resolve_left hne
        exact .inr ⟨m.runID, by simp [h, hplan], hclosed, hissued⟩
    | _ => cases h
  | applyStart =>
    cases a with
    | start ok =>
      cases ok with
      | false =>
        cases h
        exact ⟨hd, ⟨ht.planFile, ht.prior, ht.handed⟩, .past hj.still rfl rfl rfl⟩
      | true =>
        cases h
        refine ⟨hd, ⟨ht.planFile, ht.prior, ?_⟩, .past hj.still rfl rfl rfl⟩
        rintro p ⟨c, hc, hp⟩
        rcases List.mem_cons.mp hc with rfl | hc
        · exact planFileArg_apply hp
        · exact absurd ⟨c, hc, hp⟩ (hj.unhanded rfl p)
    | _ => cases h
  | applyRun =>
    cases a with
    | exec o wrote =>
      cases o with
      | startError => cases h
      | panic =>
        cases h
        exact ⟨hd, ht⟩
      | exit code timedOut =>
        cases h
        refine ⟨hd, ⟨ht.planFile, ht.prior, ht.handed⟩, ?_⟩
        split_ifs <;> exact .past hj.still rfl rfl rfl
    | _ => cases h
  | consumeRemove =>
    cases a with
    | remove ok =>
      cases h
      refine ⟨?_, Traced.congr ht ?_ ?_, AtPc.congr (d := d) ?_ ?_ ?_⟩
      · split
        · exact hd.unlink j.prior
        · exact hd
      · split <;> rfl
      · split <;> rfl
      · split_ifs <;> exact hj.goto (by simp [JobPc.planning]) (by simp [JobPc.metas])
          (by simp [JobPc.beforePick, JobPc.beforeApply]) (by simp [JobPc.beforeApply])
      · split <;> rfl
      · split <;> rfl
    | _ => cases h
  | consumeClear =>
    cases a with
    | update now ok =>
      cases h
      exact ⟨hd.update (fun _ => rfl) (fun _ => rfl) fun _ => .inr (.inl rfl), ht.congr rfl rfl,
        (hj.goto (by simp [JobPc.planning]) (by simp [JobPc.metas])
          (by simp [JobPc.beforePick, JobPc.beforeApply]) (by simp [JobPc.beforeApply])).congr rfl rfl⟩
    | _ => cases h
  | finish =>
    cases a with
    | update now ok =>
      cases h
      refine ⟨(hd.close (by simp [hi])).update (fun _ => rfl) (fun _ => rfl) fun m₀ => ?_,
        ht.mono (fun _ => Disk.closed_update) fun _ _ h => h⟩
      refine (finishMeta_planFile j.res j.kind j.planFile j.runErr now m₀).imp_right fun hm => ?_
      exact ht.planFile.imp hm.trans fun h => ⟨hm.trans h, by simp⟩
    | _ => cases h
  | fail code =>
    cases a with
    | update now ok =>
      cases h
      exact ⟨(hd.close (by simp [hi])).update (fun _ => rfl) (fun _ => rfl) fun _ => .inl rfl,
        ht.mono (fun _ => Disk.closed_update) fun _ _ h => h⟩
    | _ => cases h

theorem step_effect {a : JobAct} {next : JobNext} (h : j.step q d pc a = some (d', j', next))
    (hd : d.Sane q) (ht : t.runID = some j.runID) (hb : pc = .planRun → t.builds j.planFile) :
    Effect d d' t := by
  cases pc with
  | markRunning | planRecord head =>
    cases a with
    | update now ok =>
      cases h
      exact .update hd ht fun _ => rfl
    | _ => cases h
  | finish | fail code =>
    cases a with
    | update now ok =>
      cases h
      exact .close hd ht fun _ => rfl
    | _ => cases h
  | openOutput | planHead | priorHead metas | priorPick metas head =>
    cases a <;> cases h
    exact .rfl
  | planStart | applyStart =>
    cases a with
    | start ok =>
      cases ok <;> cases h <;> exact .rfl
    | _ => cases h
  | priorList =>
    cases a with
    | list ok =>
      cases ok <;> cases h <;> exact .rfl
    | _ => cases h
  | init =>
    cases a with
    | exec o wrote =>
      have hdisk := afterInit_disk (q := q) d j o
      rw [step, Option.some.injEq] at h
      rw [h] at hdisk
      obtain rfl : d' = d := hdisk
      exact .rfl
    | _ => cases h
  | planRun =>
    cases a with
    | exec o wrote =>
      have he : Effect d (if wrote then { d with
            plans := Function.update d.plans j.planFile true
            built := Function.update d.built j.planFile (d.since j.repo j.mark) } else d) t := by
        split
        · exact .build (hb rfl) _
        · exact .rfl
      cases o with
      | startError => cases h
      | exit code timedOut | panic =>
        cases h
        exact he
    | _ => cases h
  | applyRun =>
    cases a with
    | exec o wrote =>
      cases o with
      | startError => cases h
      | exit code timedOut | panic =>
        cases h
        exact .rfl
    | _ => cases h
  | consumeRemove =>
    cases a with
    | remove ok =>
      cases h
      split
      · exact .unlink j.prior
      · exact .rfl
    | _ => cases h
  | consumeClear =>
    cases a with
    | update now ok =>
      cases h
      exact { Effect.rfl with
        stored := by
          intro m hm
          rcases Store.stored_update hm with hm | ⟨m₀, hl, rfl⟩
          · exact .inr ⟨m, hm, rfl, rfl⟩
          · exact .inr ⟨m₀, .of_load hl, rfl, rfl⟩ }
    | _ => cases h

end Job

/-! ## Threads -/

def SubmitPc.checked : SubmitPc → Bool
  | .check | .refused _ => false
  | _ => true

/-- Where a worker's job is, seen from before and inside its execution. -/
def WorkerPc.jobPc : WorkerPc → Option JobPc
  | .handBack | .lookup | .create | .acquire | .waiting | .slot => some .markRunning
  | .job pc => some pc
  | _ => none

structure Worker.Sane (q : Config) (m : Manager) (d : Disk) (w : Worker) : Prop where
  known : (m.repo w.job.repo).isSome = true
  issued : d.issued w.job.runID = some w.job.repo
  traced : w.job.Traced q d
  atPc : ∀ pc, w.pc.jobPc = some pc → w.job.AtPc q d pc

structure SubmitCall.Sane (m : Manager) (d : Disk) (c : SubmitCall) : Prop where
  known : c.pc.checked = true → (m.repo c.req.repo).isSome = true
  issued : ∀ id, (Thread.submit c).runID = some id →
    d.issued id = some c.req.repo ∧ d.closed id = false

def Thread.Sane (q : Config) (m : Manager) (d : Disk) : Thread → Prop
  | .submit c => c.Sane m d
  | .worker w => w.Sane q m d
  | _ => True

section Threads

variable {q : Config} {m : Manager} {d d' : Disk} {t : Thread}

/-- The step of one thread keeps what is known of another one. -/
theorem Thread.Sane.frame {u : Thread} (hu : u.Sane q m d) (he : Effect d d' t)
    (hk : ∀ id, t.runID = some id → u.runID ≠ some id) : u.Sane q m d' := by
  cases u with
  | submit c =>
    refine ⟨hu.known, fun id hid => ⟨he.issued _ _ (hu.issued id hid).1, ?_⟩⟩
    by_contra h
    rcases he.closedBy id (by simpa using h) with h | h
    · exact absurd (hu.issued id hid).2 (by simp [h])
    · exact hk id h hid
  | worker w =>
    exact ⟨hu.known, he.issued _ _ hu.issued, hu.traced.mono he.closed he.issued, fun pc hpc =>
      (hu.atPc pc hpc).frame he fun h => hk _ h rfl⟩
  | pull p | rotate r => trivial

/-- A plan artifact is built for the thread's own run, which is still open. -/
theorem Thread.Sane.of_builds (ht : t.Sane q m d) {id : String}
    (hb : t.builds (planArtifact q.runsDir id)) : t.runID = some id ∧ d.closed id = false := by
  obtain ⟨w, rfl, hpc, hplan⟩ := hb
  have hat := ht.atPc .planRun (by rw [hpc]; rfl)
  obtain rfl : w.job.runID = id :=
    planArtifact_injective q.runsDir ((hat.planning rfl).symm.trans hplan)
  exact ⟨rfl, hat.still⟩

theorem checkRequest_ok {cloned : Bool} {req : Request} {dir : String}
    (h : checkRequest q m cloned req = .ok dir) : (m.repo req.repo).isSome = true := by
  unfold checkRequest at h
  split at h
  · cases h
  · rename_i r hr
    simp [hr]

theorem SubmitCall.step_sane {s s' : Shared} {c : SubmitCall} {a : SubmitAct}
    (h : c.step q m s c.pc a = some (s', t)) (hd : s.disk.Sane q) (hc : c.Sane m s.disk) :
    s'.disk.Sane q ∧ t.Sane q m s'.disk ∧ Effect s.disk s'.disk (.submit c) := by
  obtain ⟨req, dir, pc⟩ := c
  cases pc with
  | check =>
    cases a with
    | check cloned =>
      simp only [step] at h
      split at h
      · cases h
        exact ⟨hd, ⟨by simp [SubmitPc.checked], by simp [Thread.runID]⟩, .rfl⟩
      · rename_i dir hdir
        cases h
        exact ⟨hd, ⟨fun _ => checkRequest_ok hdir, by simp [Thread.runID]⟩, .rfl⟩
    | _ => cases h
  | takeToken =>
    cases a with
    | step =>
      have hk := hc.known rfl
      simp only [step] at h
      split at h <;> cases h <;>
        exact ⟨hd, ⟨fun _ => hk, by simp [Thread.runID]⟩, .rfl⟩
    | _ => cases h
  | reserve =>
    cases a with
    | step =>
      cases h
      refine ⟨hd, ⟨fun _ => hc.known rfl, ?_⟩, .rfl⟩
      cases (s.gate.reservePending (maxParallelJobs q.maxParallel) req.repo).2 <;>
        simp [Thread.runID]
    | _ => cases h
  | newRunID =>
    cases a with
    | newRunID id =>
      cases id with
      | none =>
        cases h
        exact ⟨hd, ⟨fun _ => hc.known rfl, by simp [Thread.runID]⟩, .rfl⟩
      | some id =>
        simp only [step] at h
        split at h
        · rename_i hid
          cases h
          refine ⟨hd.issue hid.2 req.repo, ⟨fun _ => hc.known rfl, ?_⟩, .issue hid.2 req.repo⟩
          rintro id' h
          obtain rfl : id = id' := by simpa [Thread.runID] using h
          refine ⟨by simp, ?_⟩
          by_contra hcl
          exact hd.closed id (by simpa using hcl) hid.2
        · cases h
    | _ => cases h
  | create id =>
    cases a with
    | io now ok =>
      have hk := hc.known rfl
      have hid := hc.issued id rfl
      simp only [step] at h
      split at h <;> cases h
      · exact ⟨hd.mkdir id, ⟨fun _ => hk, by simpa [Thread.runID] using hid⟩,
          .runs fun m hm => .inr (Store.stored_mkdir hm)⟩
      · exact ⟨hd, ⟨fun _ => hk, by simpa [Thread.runID] using hid⟩, .rfl⟩
    | _ => cases h
  | writeMeta id =>
    cases a with
    | io now ok =>
      have hk := hc.known rfl
      have hid := hc.issued id rfl
      simp only [step] at h
      split at h <;> cases h
      · refine ⟨hd.writeMeta hid.1 rfl, ⟨fun _ => hk, by simpa [Thread.runID] using hid⟩,
          .runs fun m hm => ?_⟩
        rcases Store.stored_writeMeta hm with rfl | hm
        · exact .inl rfl
        · exact .inr hm
      · exact ⟨hd, ⟨fun _ => hk, by simpa [Thread.runID] using hid⟩, .rfl⟩
    | _ => cases h
  | start id =>
    cases a with
    | step =>
      cases h
      obtain ⟨hissued, hopen⟩ := hc.issued id rfl
      refine ⟨hd, ⟨hc.known rfl, hissued, ⟨.inl rfl, .inl rfl, ?_⟩, fun pc hpc => ?_⟩, .rfl⟩
      · rintro p ⟨c, hc, -⟩
        cases hc
      · obtain rfl : JobPc.markRunning = pc := by simpa [WorkerPc.jobPc] using hpc
        refine ⟨hopen, by simp [JobPc.planning], by simp [JobPc.metas], fun _ => rfl, ?_⟩
        rintro - p ⟨c, hc, -⟩
        cases hc
    | _ => cases h
  | releasePending e stillborn =>
    cases a with
    | step =>
      cases h
      exact ⟨hd, ⟨fun _ => hc.known rfl, hc.issued⟩, .rfl⟩
    | _ => cases h
  | giveBack e stillborn =>
    cases a with
    | step =>
      obtain ⟨g, -, h⟩ := Option.map_eq_some_iff.mp h
      cases h
      refine ⟨hd, ⟨fun _ => hc.known rfl, ?_⟩, .rfl⟩
      cases stillborn with
      | none => simp [Thread.runID]
      | some id => simpa [Thread.runID] using hc.issued id rfl
    | _ => cases h
  | cleanup e id =>
    cases a with
    | io now ok =>
      cases h
      cases ok with
      | false => exact ⟨hd, ⟨by simp [SubmitPc.checked], by simp [Thread.runID]⟩, .rfl⟩
      | true => exact ⟨hd.removeAll id, ⟨by simp [SubmitPc.checked], by simp [Thread.runID]⟩,
          .runs fun m hm => .inr (Store.stored_removeAll hm)⟩
    | _ => cases h
  | refused e => cases a <;> cases h

theorem Worker.diskStep_sameRun {w w' : Worker} {a : JobAct}
    (h : w.diskStep q d a = some (d', w')) : Job.SameRun w.job w'.job := by
  obtain ⟨job, pc, l, waiter, handoff, panicking⟩ := w
  cases pc with
  | failLock | failSlot | recover =>
    cases a with
    | update now ok =>
      cases h
      exact .rfl
    | _ => cases h
  | job pc =>
    obtain ⟨⟨d₁, j, next⟩, hj, h⟩ := Option.map_eq_some_iff.mp h
    have hsame := Job.step_sameRun hj
    cases next <;> cases h <;> exact hsame
  | _ => cases h

theorem Worker.diskStep_sane {w w' : Worker} {a : JobAct} (h : w.diskStep q d a = some (d', w'))
    (hd : d.Sane q) (hw : w.Sane q m d) :
    d'.Sane q ∧ w'.Sane q m d' ∧ Effect d d' (.worker w) := by
  obtain ⟨job, pc, l, waiter, handoff, panicking⟩ := w
  have hi : d.issued job.runID = some job.repo := hw.issued
  cases pc with
  | failLock | failSlot | recover =>
    cases a with
    | update now ok =>
      cases h
      exact ⟨(hd.close (by simp [hi])).update (fun _ => rfl) (fun _ => rfl) fun _ => .inl rfl,
        ⟨hw.known, hi, hw.traced.mono (fun _ => Disk.closed_update) fun _ _ h => h,
          fun pc h => by simp [WorkerPc.jobPc] at h⟩,
        .close hd rfl fun _ => rfl⟩
    | _ => cases h
  | job pc =>
    obtain ⟨⟨d₁, j, next⟩, hj, h⟩ := Option.map_eq_some_iff.mp h
    have hsame := Job.step_sameRun hj
    have he : Effect d d₁ (.worker _) := Job.step_effect hj hd rfl fun hpc => ⟨_, rfl, by rw [hpc], rfl⟩
    obtain ⟨hd', hafter⟩ := Job.step_sane hj hd hi (m.repo_ne_empty hw.known) hw.traced (hw.atPc pc rfl)
    have hknown : (m.repo j.repo).isSome = true := hsame.repo ▸ hw.known
    have hissued : d₁.issued j.runID = some j.repo := by
      rw [hsame.runID, hsame.repo]
      exact he.issued _ _ hi
    cases next with
    | goto pc' =>
      cases h
      refine ⟨hd', ⟨hknown, hissued, hafter.1, fun pc h => ?_⟩, he⟩
      obtain rfl : pc' = pc := by simpa [WorkerPc.jobPc] using h
      exact hafter.2
    | leave | panicked =>
      cases h
      exact ⟨hd', ⟨hknown, hissued, hafter, fun pc h => by simp [WorkerPc.jobPc] at h⟩, he⟩
  | _ => cases h

/-- On the gates a worker keeps its job, and can only come closer to starting it. -/
theorem Worker.gateStep_job {cap : ℕ} {g g' : Gate} {w w' : Worker} {a : GateAct}
    (h : w.gateStep cap g a = some (g', w')) :
    w'.job = w.job ∧ ∀ pc, w'.pc.jobPc = some pc → w.pc.jobPc = some pc := by
  obtain ⟨job, pc, l, waiter, handoff, panicking⟩ := w
  cases a with
  | step =>
    cases pc with
    | handBack | waiting | slot | releaseSlot =>
      obtain ⟨x, -, h⟩ := Option.map_eq_some_iff.mp h
      cases h
      exact ⟨rfl, fun _ h => h⟩
    | lookup =>
      simp only [gateStep, ownStep] at h
      split at h <;> cases h <;> exact ⟨rfl, fun _ h => h⟩
    | create | acquire | releasePending =>
      cases h
      exact ⟨rfl, fun _ h => h⟩
    | unlock =>
      obtain ⟨x, -, h⟩ := Option.map_eq_some_iff.mp h
      cases h
      refine ⟨rfl, fun pc h => ?_⟩
      cases panicking <;> simp [WorkerPc.jobPc] at h
    | failLock | failSlot | job | recover | done => cases h
  | timeout =>
    cases pc with
    | waiting | slot =>
      cases h
      exact ⟨rfl, fun pc h => by simp [WorkerPc.jobPc] at h⟩
    | _ => cases h
  | waiter =>
    obtain ⟨x, -, h⟩ := Option.map_eq_some_iff.mp h
    cases h
    exact ⟨rfl, fun _ h => h⟩
  | handoff =>
    cases handoff with
    | receiving | unlocking =>
      obtain ⟨x, -, h⟩ := Option.map_eq_some_iff.mp h
      cases h
      exact ⟨rfl, fun _ h => h⟩
    | none | done => cases h

/-- A pull leaves the disk alone, or lands its repo's working tree on a commit. -/
theorem PullCall.step_disk {p p' : PullCall} {a : PullAct} (h : p.step m d a = some (d', p')) :
    d' = d ∨ ∃ ok tip, a = .git ok tip ∧ (p.pc = .checkout ∨ p.pc = .pull) ∧
      d' = d.land p.name tip := by
  cases a with
  | lookup cloned =>
    simp only [step] at h
    cases hr : m.repo p.name <;> simp only [hr] at h <;> split_ifs at h <;> cases h <;>
      exact .inl rfl
  | git ok tip =>
    obtain ⟨name, ffOnly, pc⟩ := p
    cases pc with
    | lookup | answered a => cases h
    | fetch | resolve mode =>
      cases h
      exact .inl rfl
    | checkout =>
      cases h
      exact .inr ⟨ok, tip, rfl, .inl rfl, rfl⟩
    | pull =>
      cases h
      exact .inr ⟨ok, tip, rfl, .inr rfl, rfl⟩

/-- Retention leaves the disk alone, or removes one run with its artifact. -/
theorem RotateCall.step_disk {r r' : RotateCall} {a : RotateAct}
    (h : r.step q d a = some (d', r')) :
    d' = d ∨ ∃ id, d' = { d with
      runs := d.runs.removeAll id
      plans := Function.update d.plans (planArtifact q.runsDir id) false } := by
  obtain ⟨maxAge, pc⟩ := r
  cases a with
  | readDir now =>
    simp only [step] at h
    split_ifs at h
    cases h
    exact .inl rfl
  | load stale =>
    simp only [step] at h
    split at h <;> cases h <;> exact .inl rfl
  | remove ok =>
    cases pc with
    | remove id now todo =>
      cases ok with
      | false =>
        cases h
        exact .inl rfl
      | true =>
        cases h
        exact .inr ⟨id, rfl⟩
    | _ => cases h

/-- **Step effect.** A step keeps the disk sane and what is known of its thread, and does to the
disk only what `Effect` allows. -/
theorem Thread.step_sane {s s' : Shared} {t t' : Thread} {a : Act}
    (h : t.step q m s a = some (s', t')) (hd : s.disk.Sane q) (ht : t.Sane q m s.disk) :
    s'.disk.Sane q ∧ t'.Sane q m s'.disk ∧ Effect s.disk s'.disk t := by
  cases t with
  | submit c =>
    cases a with
    | submit a => exact SubmitCall.step_sane h hd ht
    | _ => cases h
  | worker w =>
    cases a with
    | gate a =>
      obtain ⟨⟨g, w'⟩, hg, h⟩ := Option.map_eq_some_iff.mp h
      cases h
      obtain ⟨hjob, hpc⟩ := Worker.gateStep_job hg
      refine ⟨hd, ?_, .rfl⟩
      exact ⟨hjob ▸ ht.known, hjob ▸ ht.issued, hjob ▸ ht.traced, fun pc h =>
        hjob ▸ ht.atPc pc (hpc pc h)⟩
    | job a =>
      obtain ⟨⟨d, w'⟩, hw, h⟩ := Option.map_eq_some_iff.mp h
      cases h
      exact Worker.diskStep_sane hw hd ht
    | _ => cases h
  | pull p =>
    cases a with
    | pull a =>
      obtain ⟨⟨d, p'⟩, hp, h⟩ := Option.map_eq_some_iff.mp h
      cases h
      rcases PullCall.step_disk hp with rfl | ⟨ok, tip, -, -, rfl⟩
      · exact ⟨hd, trivial, .rfl⟩
      · exact ⟨⟨hd.named, hd.repo, hd.planFile, hd.closed, hd.built⟩, trivial, .land p tip⟩
    | _ => cases h
  | rotate r =>
    cases a with
    | rotate a =>
      obtain ⟨⟨d, r'⟩, hr, h⟩ := Option.map_eq_some_iff.mp h
      cases h
      rcases RotateCall.step_disk hr with rfl | ⟨id, rfl⟩
      · exact ⟨hd, trivial, .rfl⟩
      · exact ⟨(hd.removeAll id).unlink _, trivial, { Effect.unlink _ with
          stored := fun m hm => .inr ⟨m, Store.stored_removeAll hm, rfl, rfl⟩ }⟩
    | _ => cases h

theorem SubmitCall.step_runID {s s' : Shared} {c : SubmitCall} {a : SubmitAct}
    (h : c.step q m s c.pc a = some (s', t)) (id : String) (hid : t.runID = some id) :
    (Thread.submit c).runID = some id ∨ s.disk.issued id = none := by
  obtain ⟨req, dir, pc⟩ := c
  cases pc with
  | newRunID =>
    cases a with
    | newRunID id' =>
      cases id' with
      | none =>
        cases h
        simp [Thread.runID] at hid
      | some id' =>
        simp only [step] at h
        split at h
        · rename_i hnew
          cases h
          obtain rfl : id' = id := by simpa [Thread.runID] using hid
          exact .inr hnew.2
        · cases h
    | _ => cases h
  | start id' | releasePending e stillborn =>
    cases a with
    | step =>
      cases h
      exact .inl hid
    | _ => cases h
  | giveBack e stillborn =>
    cases a with
    | step =>
      obtain ⟨g, -, h⟩ := Option.map_eq_some_iff.mp h
      cases h
      cases stillborn with
      | none => cases hid
      | some id' => exact .inl hid
    | _ => cases h
  | create id' | writeMeta id' =>
    cases a with
    | io now ok =>
      simp only [step] at h
      split at h <;> cases h <;> exact .inl hid
    | _ => cases h
  | cleanup e id' =>
    cases a with
    | io now ok =>
      cases h
      cases hid
    | _ => cases h
  | check =>
    cases a with
    | check cloned =>
      simp only [step] at h
      split at h <;> cases h <;> cases hid
    | _ => cases h
  | takeToken =>
    cases a with
    | step =>
      simp only [step] at h
      split at h <;> cases h <;> cases hid
    | _ => cases h
  | reserve =>
    cases a with
    | step =>
      cases h
      cases hb : (s.gate.reservePending (maxParallelJobs q.maxParallel) req.repo).2 <;>
        simp [Thread.runID, hb] at hid
    | _ => cases h
  | refused e => cases a <;> cases h

/-- A thread's run id comes from a step that found it unused. -/
theorem Thread.step_runID {s s' : Shared} {t t' : Thread} {a : Act}
    (h : t.step q m s a = some (s', t')) (id : String) (hid : t'.runID = some id) :
    t.runID = some id ∨ s.disk.issued id = none := by
  cases t with
  | submit c =>
    cases a with
    | submit a => exact SubmitCall.step_runID h id hid
    | _ => cases h
  | worker w =>
    refine .inl ?_
    cases a with
    | gate a =>
      obtain ⟨⟨g, w'⟩, hg, h⟩ := Option.map_eq_some_iff.mp h
      cases h
      simpa [runID, (Worker.gateStep_job hg).1] using hid
    | job a =>
      obtain ⟨⟨d, w'⟩, hw, h⟩ := Option.map_eq_some_iff.mp h
      cases h
      simpa [runID, (Worker.diskStep_sameRun hw).runID] using hid
    | _ => cases h
  | pull p | rotate r =>
    cases a <;> first | cases h | skip
    obtain ⟨x, -, h⟩ := Option.map_eq_some_iff.mp h
    cases h
    cases hid

end Threads

section Runs

variable {q : Config} {m : Manager} {D : Disk → Prop} {ok : State → Move Call Act → Prop}
  {c : State}

theorem pool_sane (hD : ∀ d, D d → d.Sane q) (ok : State → Move Call Act → Prop) :
    (pool q m D).Sound ok (fun _ => True) (fun s => s.disk.Sane q)
      (fun s t => t.Sane q m s.disk) (Pool.KeysDiffer Thread.runID) where
  init s hs := hD _ hs.2
  start s k _ := by
    cases k with
    | submit req => exact ⟨by simp [SubmitPc.checked], by simp [Thread.runID]⟩
    | pull name ffOnly | rotate maxAge => trivial
  symm _ _ h := h.symm
  startPair k u b hb := by cases k <;> cases hb
  shared hm _ _ hJ hQ := (Thread.step_sane hm.step hJ hQ).1
  own hm _ _ hJ hQ := (Thread.step_sane hm.step hJ hQ).2.1
  frame hm _ _ hJ hQ _ _ hR hu := hu.frame (Thread.step_sane hm.step hJ hQ).2.2 hR
  pair := by
    intro c i a t s' t' j u hm _ _ _ _ _ _ hu hR
    refine hR.step (U := fun id => c.shared.disk.issued id ≠ none) (fun id hid => ?_) fun id hid => ?_
    · simpa using Thread.step_runID hm.step id hid
    · cases u with
      | submit c => simp [(hu.issued id hid).1]
      | worker w =>
        obtain rfl : w.job.runID = id := by simpa [Thread.runID] using hid
        simp [hu.issued]
      | pull p | rotate r => cases hid

/-- The disk is sane, every thread's variables are as they should be, and no two threads work for
the same run, in every state. -/
theorem sane (hD : ∀ d, D d → d.Sane q) (h : (pool q m D).system.Reach ok c) :
    Pool.Holds (fun s => s.disk.Sane q) (fun s t => t.Sane q m s.disk)
      (Pool.KeysDiffer Thread.runID) c :=
  (pool_sane hD ok).holds (fun _ _ => trivial) h

end Runs

end HaAddons.Runner
