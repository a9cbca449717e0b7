import HaAddons.Runner.Lifecycle

/-!
# Runs come to rest

The clock and the ages of the run directories are watched along a run (`Watch`), so that what
`Rotate` reads off them is what it would see.

* `run_lifecycle` — a run's status moves along its lifecycle, retention deletes no open run, and
  the gates hold nothing but what the `Submit` calls in progress hold once every worker and every
  goroutine is done.
* `lifecycle_overrun` — two states the lifecycle does not promise to avoid.
-/

namespace HaAddons.Runner

/-! ## Goroutines of a returned worker -/

/-- What a worker's program counter says about the goroutines of its `acquire`: the value is taken
from the channel, by the worker or by the hand-off, or the hand-off still waits for it. -/
def Worker.Settled (w : Worker) : Prop :=
  match w.pc with
  | .handBack | .lookup | .create | .acquire => w.handoff = .none ∧ w.waiter = .idle
  | .waiting => w.handoff = .none
  | _ => w.handoff = .receiving ∨ w.waiter = .taken

def Thread.Settled : Thread → Prop
  | .worker w => w.Settled
  | _ => True

/-- The worker has returned, and so has the goroutine that a timed-out `acquire` left behind. -/
def Worker.quiet (w : Worker) : Bool := w.pc = .done && (w.handoff = .none || w.handoff = .done)

def Thread.quiet : Thread → Bool
  | .worker w => w.quiet
  | _ => true

section Settled

variable {q : Config} {m : Manager} {cap : ℕ} {g g' : Gate} {w w' : Worker}

theorem Worker.gateStep_settled {a : GateAct} (h : w.gateStep cap g a = some (g', w'))
    (hw : w.Settled) : w'.Settled := by
  obtain ⟨job, pc, l, waiter, handoff, panicking⟩ := w
  cases a with
  | step =>
    cases pc with
    | handBack | slot | releaseSlot =>
      obtain ⟨x, -, h⟩ := Option.map_eq_some_iff.mp h
      cases h
      exact hw
    | lookup =>
      simp only [gateStep, ownStep] at h
      split at h <;> cases h <;> exact hw
    | create =>
      cases h
      exact hw
    | acquire =>
      cases h
      exact hw.1
    | waiting =>
      obtain ⟨v, hv, h⟩ := Option.map_eq_some_iff.mp h
      cases h
      exact .inr (Waiter.recv_eq_some.mp hv).2
    | unlock =>
      obtain ⟨x, -, h⟩ := Option.map_eq_some_iff.mp h
      cases h
      cases panicking <;> exact hw
    | releasePending =>
      cases h
      exact hw
    | failLock | failSlot | job | recover | done => cases h
  | timeout =>
    cases pc with
    | waiting =>
      cases h
      exact .inl rfl
    | slot =>
      cases h
      exact hw
    | _ => cases h
  | waiter =>
    obtain ⟨⟨T, v⟩, hv, h⟩ := Option.map_eq_some_iff.mp h
    cases h
    have hidle := (Waiter.step_spec hv).2.1
    have htaken : waiter ≠ .taken := by
      rintro rfl
      cases hv
    cases pc with
    | handBack | lookup | create | acquire => exact absurd hw.2 hidle
    | waiting => exact hw
    | _ => exact .inl (hw.resolve_right htaken)
  | handoff =>
    cases handoff with
    | none | done => cases h
    | receiving =>
      obtain ⟨v, hv, h⟩ := Option.map_eq_some_iff.mp h
      cases h
      cases pc with
      | handBack | lookup | create | acquire => exact absurd hw.1 (by simp)
      | waiting => exact absurd hw (by simp [Settled])
      | _ => exact .inr (Waiter.recv_eq_some.mp hv).2
    | unlocking =>
      obtain ⟨T, -, h⟩ := Option.map_eq_some_iff.mp h
      cases h
      cases pc with
      | handBack | lookup | create | acquire => exact absurd hw.1 (by simp)
      | waiting => exact absurd hw (by simp [Settled])
      | _ => exact .inr (hw.resolve_left (by simp))

theorem Worker.diskStep_settled {d d' : Disk} {a : JobAct}
    (h : w.diskStep q d a = some (d', w')) (hw : w.Settled) : w'.Settled := by
  obtain ⟨job, pc, l, waiter, handoff, panicking⟩ := w
  cases pc with
  | failLock | failSlot | recover =>
    cases a with
    | update now ok =>
      cases h
      exact hw
    | _ => cases h
  | job pc =>
    obtain ⟨⟨d₁, j, next⟩, -, h⟩ := Option.map_eq_some_iff.mp h
    cases next <;> cases h <;> exact hw
  | _ => cases h

/-- The worker `Submit` starts is new. -/
theorem SubmitCall.step_starts {s s' : Shared} {c : SubmitCall} {a : SubmitAct}
    (h : c.step q m s c.pc a = some (s', .worker w)) :
    s' = s ∧ c.pc = .start w.job.runID ∧ w = { job := w.job } := by
  obtain ⟨req, dir, pc⟩ := c
  unfold SubmitCall.step at h
  split at h
  case h_8 =>
    cases h
    exact ⟨rfl, by assumption, rfl⟩
  case h_10 =>
    obtain ⟨g, -, h⟩ := Option.map_eq_some_iff.mp h
    cases h
  all_goals first | cases h | (split at h <;> cases h)

theorem Thread.step_settled {s s' : Shared} {t t' : Thread} {a : Act}
    (h : t.step q m s a = some (s', t')) (ht : t.Settled) : t'.Settled := by
  cases t with
  | submit c =>
    cases a with
    | submit a =>
      cases t' with
      | worker w =>
        rw [(SubmitCall.step_starts h).2.2]
        exact ⟨rfl, rfl⟩
      | submit _ | pull _ | rotate _ => trivial
    | _ => cases h
  | worker w =>
    cases a with
    | gate a =>
      obtain ⟨x, hx, h⟩ := Option.map_eq_some_iff.mp h
      cases h
      exact Worker.gateStep_settled hx ht
    | job a =>
      obtain ⟨x, hx, h⟩ := Option.map_eq_some_iff.mp h
      cases h
      exact Worker.diskStep_settled hx ht
    | _ => cases h
  | pull p | rotate r =>
    cases a <;> first | cases h | skip
    obtain ⟨x, -, h⟩ := Option.map_eq_some_iff.mp h
    cases h
    trivial

end Settled

/-! ## The gates at rest -/

/-- A `Submit` call that holds a reservation of `repo`. -/
def Thread.reserves (repo : String) : Thread → Bool
  | .submit c => c.req.repo = repo && c.pc.reserved
  | _ => false

section Gates

variable {q : Config} {m : Manager} {D : Disk → Prop} {ok : State → Move Call Act → Prop}
  {c : State}

theorem settled (h : (pool q m D).system.Reach ok c) : ∀ t ∈ c.threads, t.Settled := by
  have hsound : (pool q m D).Sound ok (fun _ => True) (fun _ => True) (fun _ t => t.Settled)
      fun _ _ => True :=
    { init := fun _ _ => trivial
      start := fun _ k _ => by cases k <;> trivial
      symm := fun _ _ _ => trivial
      startPair := fun _ _ => trivial
      shared := fun _ _ _ _ _ => trivial
      own := fun hm _ _ _ hQ => Thread.step_settled hm.step hQ
      frame := fun _ _ _ _ _ _ _ _ hu => hu
      pair := fun _ _ _ _ _ _ _ _ _ => trivial }
  exact (hsound.holds (fun _ _ => trivial) h).thread

/-- A worker at rest holds nothing. -/
theorem Thread.quiet_holdings {t : Thread} (hq : t.quiet = true) (ht : t.Settled) :
    t.owesAdmission = false ∧ t.holdsSlot = false ∧ (∀ r, t.admitted r = t.reserves r) ∧
      ∀ l, t.owns l = 0 := by
  cases t with
  | worker w =>
    obtain ⟨job, pc, l, waiter, handoff, panicking⟩ := w
    simp only [quiet, Worker.quiet, Bool.and_eq_true, decide_eq_true_eq, Bool.or_eq_true] at hq
    obtain ⟨rfl, hhand⟩ := hq
    have hne : handoff ≠ .receiving ∧ handoff ≠ .unlocking := by
      rcases hhand with rfl | rfl <;> simp
    obtain rfl : waiter = .taken := ht.resolve_left hne.1
    refine ⟨rfl, rfl, fun r => by simp [admitted, reserves], fun k => ?_⟩
    simp [owns, Waiter.owns, hne.2, WorkerPc.inWindow]
  | submit _ | pull _ | rotate _ => exact ⟨rfl, rfl, fun _ => rfl, fun _ => rfl⟩

/-- **Quiescence.** When every worker has returned and every goroutine left behind has run, the
semaphore and the counters hold what the `Submit` calls in progress hold, and every mutex is free.
With no such call the gates are empty. -/
theorem quiescent (h : (pool q m D).system.Reach ok c) (hq : ∀ t ∈ c.threads, t.quiet = true) :
    c.shared.gate.sem = c.threads.countP Thread.holdsAdmission ∧
      (∀ r, c.shared.gate.pendingOf r = c.threads.countP (Thread.reserves r)) ∧
      (∀ l, c.shared.gate.locks.locked l = false) ∧
      (c.threads.countP Thread.holdsAdmission = 0 →
        c.shared.gate.sem = 0 ∧ ∀ r, c.shared.gate.pending r = none) := by
  have hheld : ∀ t ∈ c.threads, t.owesAdmission = false ∧ t.holdsSlot = false ∧
      (∀ r, t.admitted r = t.reserves r) ∧ ∀ l, t.owns l = 0 :=
    fun t ht => Thread.quiet_holdings (hq t ht) (settled h t ht)
  have hsem : c.shared.gate.sem = c.threads.countP Thread.holdsAdmission := by
    have howes : c.threads.countP Thread.owesAdmission = 0 :=
      List.countP_eq_zero.mpr fun t ht => by simp [(hheld t ht).1]
    have hslot : c.threads.countP Thread.holdsSlot = 0 :=
      List.countP_eq_zero.mpr fun t ht => by simp [(hheld t ht).2.1]
    rw [sem_eq_countP h, howes, hslot, Nat.add_zero]
  have hpending : ∀ r, c.shared.gate.pendingOf r = c.threads.countP (Thread.reserves r) := by
    intro r
    rw [pendingOf_eq h]
    exact List.countP_congr fun t ht => by rw [(hheld t ht).2.2.1 r]
  refine ⟨hsem, hpending, fun l => ?_, fun hnone => ⟨hsem.trans hnone, fun r => ?_⟩⟩
  · have hzero : (c.threads.map (Thread.owns l)).sum = 0 :=
      List.sum_eq_zero fun n hn => by
        obtain ⟨t, ht, rfl⟩ := List.mem_map.mp hn
        exact (hheld t ht).2.2.2 l
    have := locked_eq h l
    rw [hzero] at this
    exact Bool.toNat_eq_zero.mp this
  · have hr : c.shared.gate.pendingOf r = 0 := by
      rw [hpending, List.countP_eq_zero]
      intro t ht hres
      refine List.countP_eq_zero.mp hnone t ht ?_
      cases t with
      | submit s =>
        obtain ⟨req, dir, pc⟩ := s
        cases pc <;> simp [Thread.reserves, SubmitPc.reserved] at hres <;> rfl
      | worker _ | pull _ | rotate _ => cases hres
    cases hp : c.shared.gate.pending r with
    | none => rfl
    | some n =>
      obtain rfl : n = 0 := by simpa [Gate.pendingOf, hp] using hr
      exact absurd hp ((placed h).1.entry r)

end Gates

/-! ## The watch -/

/-- What is seen along a run: the last reading of the clock, when each run directory was made, and
which ones retention deleted. -/
structure Watch where
  clock : Time
  made : String → Time
  rotated : String → Bool

/-- A clock reading of the step. The one `Submit` takes for `StartedAt` precedes the directory it
goes into, so it orders nothing. -/
def Thread.reads : Thread → Act → Option Time
  | .submit c, .submit (.io now _) => if (Thread.submit c).creates.isSome then some now else none
  | .worker _, .job (.update now _) => some now
  | .rotate _, .rotate (.readDir now) => some now
  | _, _ => none

namespace Watch

/-- The watch after a step of thread `t`. -/
def saw (v : Watch) (t : Thread) (a : Act) : Watch where
  clock := (t.reads a).getD v.clock
  made id := match a with
    | .submit (.io now true) => if t.creates = some id then now else v.made id
    | _ => v.made id
  rotated id := v.rotated id || (t.dooms = some id && a = .rotate (.remove true))

def see (c : State) : Move Call Act → Watch → Watch
  | .call _, v => v
  | .move i a, v => (c.threads[i]?).elim v fun t => v.saw t a

end Watch

/-- The runner under watch. -/
def watched (q : Config) (m : Manager) (D : Disk → Prop) (v : Watch) :
    System (State × Watch) (Move Call Act) :=
  (pool q m D).system.observe v Watch.see

/-- The directory retention looks at next was made more than the maximal age before its reading of
the clock. -/
def Thread.findsOld (made : String → Time) : Thread → Bool
  | .rotate r => match r.pc with
    | .load now (id :: _) => r.maxAge < now - made id
    | _ => false
  | _ => false

/-- The environment of a run: ages are positive, the clock does not go back, updates of a run's own
metadata succeed, and no directory is found older than it is. -/
def honest (c : State × Watch) : Move Call Act → Bool
  | .call (.rotate maxAge) => 0 < maxAge
  | .call _ => true
  | .move i a => c.1.threads[i]?.all fun t =>
    t.ownUpdateOk a && (t.reads a).all (fun now => c.2.clock ≤ now) &&
      match a with
      | .rotate (.load stale) => !stale || t.looksAt = none || t.findsOld c.2.made
      | _ => true

/-- Whenever retention looks at a directory that `Submit` has made and not yet filled, the directory
is not older than the maximal age. -/
def prompt (c : State × Watch) : Move Call Act → Bool
  | .move i (.rotate (.load _)) => c.1.threads[i]?.all fun t =>
    t.looksAt.all fun id => !(c.1.threads.any (Thread.fills id) && t.findsOld c.2.made)
  | _ => true

section Watched

variable {q : Config} {m : Manager} {D : Disk → Prop} {v : Watch} {c c' : State × Watch}

theorem steady_of_honest {a : Move Call Act} (hh : honest c a = true) (hp : prompt c a = true) :
    steady c.1 a = true := by
  cases a with
  | call k => rfl
  | move i a =>
    cases ht : c.1.threads[i]? with
    | none => simp [steady, ht]
    | some t =>
      simp only [honest, ht, Option.all_some, Bool.and_eq_true] at hh
      simp only [steady, ht, Option.all_some, Bool.and_eq_true]
      refine ⟨hh.1.1, ?_⟩
      cases a with
      | rotate a =>
        cases a with
        | load stale =>
          cases hl : t.looksAt with
          | none => simp
          | some id =>
            simp only [prompt, ht, hl, Option.all_some] at hp
            simp only [hl] at hh
            cases stale with
            | false => rfl
            | true =>
              have hold : t.findsOld c.2.made = true := by simpa using hh.2
              simpa [hold] using hp
        | _ => rfl
      | _ => rfl

theorem Watch.see_move {w : State} {i : ℕ} {a : Act} {t : Thread} (h : w.threads[i]? = some t) :
    Watch.see w (.move i a) v = v.saw t a := by
  simp [see, h]

/-- What was deleted stays known. -/
theorem Watch.saw_rotated {t : Thread} {a : Act} {id : String} (h : v.rotated id = true) :
    (v.saw t a).rotated id = true := by
  simp [saw, h]

/-- A worker is an old one that moved, or it has just been started for a queued run. -/
theorem Thread.step_to_worker {s s' : Shared} {t : Thread} {a : Act} {w : Worker}
    (h : t.step q m s a = some (s', .worker w)) (ht : t.Living s.disk) :
    (∃ u, t = .worker u ∧ u.job.runID = w.job.runID) ∨
      s'.disk.persisted w.job.runID = some (.queued, none) := by
  cases t with
  | submit c =>
    cases a with
    | submit a =>
      obtain ⟨rfl, hpc, -⟩ := SubmitCall.step_starts h
      refine .inr ?_
      simpa only [Living, hpc] using ht
    | _ => cases h
  | worker u =>
    refine .inl ⟨u, rfl, ?_⟩
    cases a with
    | gate a =>
      obtain ⟨x, hx, h⟩ := Option.map_eq_some_iff.mp h
      cases h
      rw [(Worker.gateStep_job hx).1]
    | job a =>
      obtain ⟨x, hx, h⟩ := Option.map_eq_some_iff.mp h
      cases h
      rw [(Worker.diskStep_sameRun hx).runID]
    | _ => cases h
  | pull p | rotate r =>
    cases a <;> first | cases h | skip
    obtain ⟨x, -, h⟩ := Option.map_eq_some_iff.mp h
    cases h

/-- A run without metadata was deleted by retention. -/
theorem rotated_of_gone (hD : ∀ d, D d → d.Sane q ∧ ∀ e ∈ d.runs, d.issued e.name ≠ none)
    (h : (watched q m D v).Reach (fun c a => honest c a = true ∧ prompt c a = true) c) :
    ∀ w, .worker w ∈ c.1.threads → c.1.shared.disk.persisted w.job.runID = none →
      c.2.rotated w.job.runID = true := by
  have hproj : ∀ c, (watched q m D v).Reach (fun c a => honest c a = true ∧ prompt c a = true) c →
      (pool q m D).system.Reach (fun c a => steady c a = true) c.1 :=
    fun c hc => hc.unobserved fun s a ha => steady_of_honest ha.1 ha.2
  refine h.invariant_with (I := fun c => ∀ w, .worker w ∈ c.1.threads →
    c.1.shared.disk.persisted w.job.runID = none → c.2.rotated w.job.runID = true) hproj ?_ ?_
  · rintro c ⟨⟨-, hn⟩, -⟩ w hw
    rw [hn] at hw
    cases hw
  · intro c a c' hc ih hok hn w hw hnone
    have hI := sane (fun d hd => (hD d hd).1) hc
    have hL := living hD hc
    obtain ⟨hnext, hsee⟩ := System.observe_next hn
    cases a with
    | call k =>
      rw [Pool.next_call hnext] at hw hnone
      rw [hsee]
      rcases List.mem_append.mp hw with hw | hw
      · exact ih w hw hnone
      · cases k <;> cases List.mem_singleton.mp hw
    | move i a =>
      obtain ⟨t, s', t', ht, hs, hc'⟩ := Pool.next_move hnext
      have hm : (pool q m D).Moves c.1 i a t s' t' := ⟨ht, hs⟩
      have hsteady := steady_of_honest hok.1 hok.2
      rw [hsee, Watch.see_move ht]
      rw [hc'] at hw hnone
      have hold : (∃ u, .worker u ∈ c.1.threads ∧ u.job.runID = w.job.runID) ∨
          s'.disk.persisted w.job.runID = some (.queued, none) := by
        rcases List.mem_or_eq_of_mem_set hw with hw | rfl
        · exact .inl ⟨w, hw, rfl⟩
        · rcases Thread.step_to_worker hs (hL.thread t (List.mem_of_getElem? ht)) with
            ⟨u, rfl, hrun⟩ | hqueued
          · exact .inl ⟨u, List.mem_of_getElem? ht, hrun⟩
          · exact .inr hqueued
      rcases hold with ⟨u, hu, hrun⟩ | hqueued
      · obtain ⟨-, hgone⟩ := changes_of_move hm hsteady hI hL hu
        rw [← hrun] at hnone ⊢
        by_cases hp : c.1.shared.disk.persisted u.job.runID = none
        · exact Watch.saw_rotated (ih u hu hp)
        · obtain ⟨hdooms, rfl⟩ := hgone hnone hp
          simp [Watch.saw, hdooms]
      · rw [hqueued] at hnone
        cases hnone

/-- A disk the runner can be started on: a sane store whose directories all belong to issued runs. -/
structure Disk.Booted (q : Config) (d : Disk) : Prop where
  sane : d.Sane q
  known : ∀ e ∈ d.runs, d.issued e.name ≠ none

/-- **The life of a run.** In every run of the queue in which updates of a run's own metadata
succeed and retention finds no directory over-age that `Submit` is still filling:

* the run of every worker starts out queued, changes only along its lifecycle, is deleted only by
  retention and only after its end; once the worker has returned, the run has ended with `FinishedAt`
  set or was deleted since, and that does not change any more;
* `Rotate` is never about to delete a run that is queued or running;
* when every worker has returned and every goroutine left behind has run, the gates hold what the
  `Submit` calls in progress hold: every mutex is free, and without such a call the semaphore and the
  pending counters are empty. -/
theorem run_lifecycle
    (h : (watched q m (Disk.Booted q) v).Reach (fun c a => honest c a = true ∧ prompt c a = true) c) :
    (∀ w, .worker w ∈ c.1.threads →
      (w.pc = .handBack → c.1.shared.disk.persisted w.job.runID = some (.queued, none)) ∧
      (w.pc = .done → (∃ x, c.1.shared.disk.persisted w.job.runID = some x ∧ Finished x) ∨
        c.1.shared.disk.persisted w.job.runID = none ∧ c.2.rotated w.job.runID = true) ∧
      ∀ a c', honest c a = true → prompt c a = true →
        (watched q m (Disk.Booted q) v).next c a = some c' →
        Changes (c.1.shared.disk.persisted w.job.runID) (c'.1.shared.disk.persisted w.job.runID) ∧
        (w.pc = .done →
          c'.1.shared.disk.persisted w.job.runID = c.1.shared.disk.persisted w.job.runID ∨
            c'.1.shared.disk.persisted w.job.runID = none)) ∧
    (∀ r id now todo, .rotate r ∈ c.1.threads → r.pc = .remove id now todo →
      ∀ x ∈ c.1.shared.disk.persisted id, x.1 ≠ .queued ∧ x.1 ≠ .running) ∧
    ((∀ t ∈ c.1.threads, t.quiet = true) →
      c.1.shared.gate.sem = c.1.threads.countP Thread.holdsAdmission ∧
      (∀ r, c.1.shared.gate.pendingOf r = c.1.threads.countP (Thread.reserves r)) ∧
      (∀ l, c.1.shared.gate.locks.locked l = false) ∧
      (c.1.threads.countP Thread.holdsAdmission = 0 →
        c.1.shared.gate.sem = 0 ∧ ∀ r, c.1.shared.gate.pending r = none)) := by
  have hD : ∀ d, Disk.Booted q d → d.Sane q ∧ ∀ e ∈ d.runs, d.issued e.name ≠ none :=
    fun d hd => ⟨hd.sane, hd.known⟩
  have hr : (pool q m (Disk.Booted q)).system.Reach (fun c a => steady c a = true) c.1 :=
    h.unobserved fun s a ha => steady_of_honest ha.1 ha.2
  have hI := sane (fun d hd => (hD d hd).1) hr
  have hL := living hD hr
  refine ⟨fun w hw => ⟨fun hpc => ?_, fun hpc => ?_, fun a c' hh hp hn => ?_⟩,
    fun r id now todo hmem hpc => ?_, fun hq => quiescent hr hq⟩
  · have hs := (hL.thread _ hw).1
    simp only [Worker.stage, hpc] at hs
    exact hs
  · have hs := (hL.thread _ hw).1
    simp only [Worker.stage, hpc] at hs
    cases hx : c.1.shared.disk.persisted w.job.runID with
    | none => exact .inr ⟨rfl, rotated_of_gone hD h w hw hx⟩
    | some x => exact .inl ⟨x, rfl, hs x hx⟩
  · have hnext := (System.observe_next hn).1
    have hchanges : Changes (c.1.shared.disk.persisted w.job.runID)
        (c'.1.shared.disk.persisted w.job.runID) := by
      cases a with
      | call k =>
        rw [Pool.next_call hnext]
        exact .same
      | move i a =>
        obtain ⟨t, s', t', ht, hs, hc'⟩ := Pool.next_move hnext
        rw [hc']
        exact (changes_of_move ⟨ht, hs⟩ (steady_of_honest hh hp) hI hL hw).1
    refine ⟨hchanges, fun hpc => ?_⟩
    have hs := (hL.thread _ hw).1
    simp only [Worker.stage, hpc] at hs
    cases hx : c.1.shared.disk.persisted w.job.runID with
    | none =>
      rw [hx] at hchanges
      exact .inl hchanges.of_none
    | some x =>
      rw [hx] at hchanges
      exact hchanges.of_finished (hs x hx)
  · exact ((hL.thread _ hmem).2 id (by simp [Thread.dooms, hpc])).2

end Watched

/-! ## Three histories -/

def startWatch : Watch := ⟨0, fun _ => 0, fun _ => false⟩

abbrev smallWatched := watched twoSlots oneRepo (Disk.Booted twoSlots) startWatch

def watchedStart : State × Watch := (smallStart, startWatch)

theorem watched_init : smallWatched.init watchedStart := by
  have hfresh : smallStart.shared.disk.Fresh :=
    ⟨fun _ => by simp [smallStart, freshDisk], rfl, fun _ => rfl, fun _ => rfl, fun _ => rfl,
      fun _ => rfl⟩
  exact ⟨⟨⟨rfl, hfresh.sane, fun e he => (by cases he)⟩, rfl⟩, rfl⟩

/-- The thread is the worker of a run. -/
def Thread.worksFor (id : String) : Thread → Bool
  | .worker w => w.job.runID = id
  | _ => false

def hour : ℤ := 3600 * 1000000000

/-- A plan that succeeds, and a later pass of retention. -/
def planThenRotate : List (Move Call Act) :=
  submitting 0 .plan "AAAAAAAAAAAAAAAA" 0 ++ entering 0 false ++ planning 0 1 ++ leaving 0 ++
    [.call (.rotate hour)] ++
    [.readDir (2 * hour), .load false, .remove true].map fun a => .move 1 (.rotate a)

/-- `Submit` makes a run directory, two hours pass, a pass of retention with a maximal age of one
hour looks at it, and only then `Submit` goes on. -/
def slowCreation : List (Move Call Act) :=
  [.call (.submit ⟨"infra", "", .plan⟩)] ++
    [.check true, .step, .step, .newRunID (some "AAAAAAAAAAAAAAAA"), .io 0 true].map
      (fun a => .move 0 (.submit a)) ++
    [.call (.rotate hour)] ++ [.readDir (2 * hour), .load true].map (fun a => .move 1 (.rotate a)) ++
    [.io 0 true, .step].map fun a => .move 0 (.submit a)

/-- `Submit` has taken its admission token. -/
def admitting : List (Move Call Act) :=
  [.call (.submit ⟨"infra", "", .plan⟩)] ++ [.check true, .step].map fun a => .move 0 (.submit a)

/-- The plan and its deletion. -/
theorem run_lifecycle_deleted :
    ∃ c, (smallWatched.Reach (fun c a => honest c a = true ∧ prompt c a = true) c ∧
      c.1.threads[0]?.any (Thread.worksFor "AAAAAAAAAAAAAAAA") = true) ∧
      (∀ w, .worker w ∈ c.1.threads → w.pc = .done →
        (∃ x, c.1.shared.disk.persisted w.job.runID = some x ∧ Finished x) ∨
          c.1.shared.disk.persisted w.job.runID = none ∧ c.2.rotated w.job.runID = true) := by
  obtain ⟨c, hc, hf⟩ := System.exists_of_runOk (T := smallWatched) watched_init
    (by decide : (smallWatched.runOk (fun c a => honest c a && prompt c a) watchedStart
      planThenRotate).any (fun c => c.1.threads[0]?.any (Thread.worksFor "AAAAAAAAAAAAAAAA")) = true)
  have hc := hc.mono fun s a ha => Bool.and_eq_true_iff.mp ha
  exact ⟨c, ⟨hc, hf⟩, fun w hw => ((run_lifecycle hc).1 w hw).2.1⟩

/-- **Two states the lifecycle does not rule out.** A pass of retention that looked at a run
directory while `Submit` was filling it for longer than the maximal age deletes the queued run.
And with no worker at all, a `Submit` call in progress holds a token. -/
theorem lifecycle_overrun :
    (∃ c c' a, smallWatched.Reach (fun c a => honest c a = true) c ∧ honest c a = true ∧
      smallWatched.next c a = some c' ∧
      c.1.threads.any (Thread.worksFor "AAAAAAAAAAAAAAAA") = true ∧
      c.1.shared.disk.persisted "AAAAAAAAAAAAAAAA" = some (.queued, none) ∧
      c'.1.shared.disk.persisted "AAAAAAAAAAAAAAAA" = none) ∧
    ∃ c, smallWatched.Reach (fun c a => honest c a = true ∧ prompt c a = true) c ∧
      (∀ t ∈ c.1.threads, t.quiet = true) ∧ c.1.shared.gate.sem ≠ 0 := by
  constructor
  · obtain ⟨c, hc, hf⟩ := System.exists_of_runOk (T := smallWatched) watched_init
      (by decide : (smallWatched.runOk honest watchedStart slowCreation).any (fun c =>
        honest c (.move 1 (.rotate (.remove true))) &&
          c.1.threads.any (Thread.worksFor "AAAAAAAAAAAAAAAA") &&
          decide (c.1.shared.disk.persisted "AAAAAAAAAAAAAAAA" = some (.queued, none)) &&
          (smallWatched.next c (.move 1 (.rotate (.remove true)))).any fun c' =>
            decide (c'.1.shared.disk.persisted "AAAAAAAAAAAAAAAA" = none)) = true)
    simp only [Bool.and_eq_true, decide_eq_true_eq, Option.any_eq_true] at hf
    obtain ⟨⟨⟨hh, hw⟩, hp⟩, c', hn, hp'⟩ := hf
    exact ⟨c, c', _, hc, hh, hn, hw, hp, hp'⟩
  · obtain ⟨c, hc, hf⟩ := System.exists_of_runOk (T := smallWatched) watched_init
      (by decide : (smallWatched.runOk (fun c a => honest c a && prompt c a) watchedStart
        admitting).any (fun c => c.1.threads.all Thread.quiet &&
          decide (c.1.shared.gate.sem ≠ 0)) = true)
    have hc := hc.mono fun s a ha => Bool.and_eq_true_iff.mp ha
    simp only [Bool.and_eq_true, decide_eq_true_eq, List.all_eq_true] at hf
    exact ⟨c, hc, hf⟩

end HaAddons.Runner
