import HaAddons.Runner.Queue

/-!
# Safety of the job queue

A thread's holdings are read off its program counter: semaphore tokens, a pending reservation,
a repo mutex. Every step moves the gates by exactly what the moving thread's holdings change
(`step_balance`), so in every reachable state each gate is the sum of the holdings.

* `queue_safe` — one execution window per repo, at most `max_parallel_jobs` slots, and every
  token and reservation accounted for.
-/

namespace HaAddons.Runner

/-! ## Holdings -/

/-- Between a successful `acquire(lock)` and `lock.Unlock`. -/
def WorkerPc.inWindow : WorkerPc → Bool
  | .slot | .failSlot | .job _ | .releaseSlot | .unlock => true
  | _ => false

/-- Between a successful `acquireSlot` and its deferred release. -/
def WorkerPc.holdsSlot : WorkerPc → Bool
  | .job _ | .releaseSlot => true
  | _ => false

/-- Between the semaphore send of `Submit` and the return that ends the call. -/
def SubmitPc.holdsToken : SubmitPc → Bool
  | .reserve | .newRunID | .create _ | .writeMeta _ | .start _ | .releasePending _ _
  | .giveBack _ _ => true
  | _ => false

/-- Between `reservePending` and `releasePending`. -/
def SubmitPc.reserved : SubmitPc → Bool
  | .newRunID | .create _ | .writeMeta _ | .start _ | .releasePending _ _ => true
  | _ => false

namespace Thread

/-- A worker inside the execution window of `repo`. -/
def inWindow (repo : String) : Thread → Bool
  | .worker w => w.job.repo = repo && w.pc.inWindow
  | _ => false

/-- A worker that holds an execution slot. -/
def holdsSlot : Thread → Bool
  | .worker w => w.pc.holdsSlot
  | _ => false

/-- A `Submit` call that holds its admission token. -/
def holdsAdmission : Thread → Bool
  | .submit c => c.pc.holdsToken
  | _ => false

/-- A worker that has not handed the admission token back yet. -/
def owesAdmission : Thread → Bool
  | .worker w => w.pc = .handBack
  | _ => false

/-- An admitted and unfinished job of `repo`: reserved by `Submit`, or run by a worker. -/
def admitted (repo : String) : Thread → Bool
  | .submit c => c.req.repo = repo && c.pc.reserved
  | .worker w => w.job.repo = repo && w.pc ≠ .done
  | _ => false

/-- The next step of the thread is `<-q.sem`. -/
def atRecv : Thread → Bool
  | .submit c => match c.pc with
    | .giveBack _ _ => true
    | _ => false
  | .worker w => w.pc = .handBack || w.pc = .releaseSlot
  | _ => false

/-- The tokens of `q.sem` the thread answers for. -/
def tokens (t : Thread) : ℕ :=
  t.holdsAdmission.toNat + t.owesAdmission.toNat + t.holdsSlot.toNat

/-- The thread's share in mutex `l`: its goroutine's, its hand-off's, or its own. -/
def owns (l : ℕ) : Thread → ℕ
  | .worker w =>
    if l = w.lock then
      w.waiter.owns + (if w.handoff = .unlocking then 1 else 0) + w.pc.inWindow.toNat
    else 0
  | _ => 0

end Thread

/-- What a worker's program counter says about its goroutines and its mutex. -/
def Worker.Placed (T : LockTable String) (w : Worker) : Prop :=
  match w.pc with
  | .handBack | .lookup | .create => w.waiter = .idle ∧ w.handoff = .none
  | .acquire => T.locks w.job.repo = some w.lock ∧ w.waiter = .idle ∧ w.handoff = .none
  | .waiting => T.locks w.job.repo = some w.lock ∧ w.handoff = .none
  | _ => T.locks w.job.repo = some w.lock

def Thread.Placed (s : Shared) : Thread → Prop
  | .worker w => w.Placed s.gate.locks
  | _ => True

/-- The gates move by what the holdings of one thread change. A counter is only known to move so
when it covers the thread's reservation, because a release stops at zero. -/
structure Balance (g g' : Gate) (t t' : Thread) : Prop where
  sem : g'.sem + t.tokens = g.sem + t'.tokens
  pending : ∀ r, (t.admitted r).toNat ≤ g.pendingOf r →
    g'.pendingOf r + (t.admitted r).toNat = g.pendingOf r + (t'.admitted r).toNat
  locked : ∀ l, (g'.locks.locked l).toNat + t.owns l = (g.locks.locked l).toNat + t'.owns l

/-! ## Gate operations -/

namespace Gate

variable {g g' : Gate} {cap : ℕ} {repo : String}

theorem send_eq_some (h : g.send cap = some g') : g.sem < cap ∧ g' = { g with sem := g.sem + 1 } := by
  unfold send at h
  split at h
  · exact ⟨‹_›, by simpa using h.symm⟩
  · cases h

theorem recv_eq_some (h : g.recv = some g') : 0 < g.sem ∧ g' = { g with sem := g.sem - 1 } := by
  unfold recv at h
  split at h
  · exact ⟨‹_›, by simpa using h.symm⟩
  · cases h

@[simp] theorem reservePending_sem : (g.reservePending cap repo).1.sem = g.sem := by
  unfold reservePending
  split <;> rfl

@[simp] theorem reservePending_locks : (g.reservePending cap repo).1.locks = g.locks := by
  unfold reservePending
  split <;> rfl

@[simp] theorem releasePending_sem : (g.releasePending repo).sem = g.sem := by
  unfold releasePending
  split <;> rfl

@[simp] theorem releasePending_locks : (g.releasePending repo).locks = g.locks := by
  unfold releasePending
  split <;> rfl

/-- A reservation that wins adds one to the repo's counter and to no other. -/
theorem reservePending_pendingOf (r : String) :
    (g.reservePending cap repo).1.pendingOf r =
      g.pendingOf r + if (g.reservePending cap repo).2 = true ∧ repo = r then 1 else 0 := by
  unfold reservePending
  split
  · simp
  · by_cases hr : repo = r
    · subst hr
      simp [pendingOf]
    · simp [pendingOf, hr, Function.update_of_ne (Ne.symm hr)]

/-- A release takes one from the repo's counter, which a reservation put there. -/
theorem releasePending_pendingOf {r : String} (h : repo = r → 1 ≤ g.pendingOf r) :
    (g.releasePending repo).pendingOf r + (if repo = r then 1 else 0) = g.pendingOf r := by
  unfold releasePending
  by_cases hr : repo = r
  · subst hr
    have h := h rfl
    split
    · simp [pendingOf] at *
      omega
    · simp [pendingOf] at *
      omega
  · split <;> simp [pendingOf, Function.update_of_ne (Ne.symm hr)]

/-- No gate is over its capacity, and no counter is kept at zero. -/
structure Bounded (cap : ℕ) (g : Gate) : Prop where
  sem : g.sem ≤ cap
  pending : ∀ r, g.pendingOf r ≤ cap
  entry : ∀ r, g.pending r ≠ some 0

theorem Bounded.send (hg : g.Bounded cap) (h : g.send cap = some g') : g'.Bounded cap := by
  obtain ⟨hlt, rfl⟩ := send_eq_some h
  exact ⟨hlt, hg.pending, hg.entry⟩

theorem Bounded.recv (hg : g.Bounded cap) (h : g.recv = some g') : g'.Bounded cap := by
  obtain ⟨-, rfl⟩ := recv_eq_some h
  exact ⟨(Nat.sub_le _ _).trans hg.sem, hg.pending, hg.entry⟩

theorem Bounded.locks (hg : g.Bounded cap) (T : LockTable String) :
    Bounded cap { g with locks := T } :=
  ⟨hg.sem, hg.pending, hg.entry⟩

theorem Bounded.update (hg : g.Bounded cap) {n : Option ℕ} (hn : ∀ k, n = some k → 0 < k ∧ k ≤ cap) :
    Bounded cap { g with pending := Function.update g.pending repo n } := by
  refine ⟨hg.sem, fun r => ?_, fun r => ?_⟩
  · by_cases hr : r = repo
    · subst hr
      cases n with
      | none => simp [pendingOf]
      | some k => simpa [pendingOf] using (hn k rfl).2
    · simpa [pendingOf, Function.update_of_ne hr] using hg.pending r
  · by_cases hr : r = repo
    · subst hr
      simp only [Function.update_self]
      rintro rfl
      exact absurd (hn 0 rfl).1 (Nat.lt_irrefl 0)
    · simpa only [Function.update_of_ne hr] using hg.entry r

theorem Bounded.reservePending (hg : g.Bounded cap) (repo : String) :
    (g.reservePending cap repo).1.Bounded cap := by
  unfold Gate.reservePending
  split
  · exact hg
  · rename_i hlt
    refine hg.update fun k hk => ?_
    obtain rfl : g.pendingOf repo + 1 = k := by simpa using hk
    omega

theorem Bounded.releasePending (hg : g.Bounded cap) (repo : String) :
    (g.releasePending repo).Bounded cap := by
  unfold Gate.releasePending
  split
  · exact hg.update fun k hk => absurd hk (by simp)
  · refine hg.update fun k hk => ?_
    have hle := hg.pending repo
    obtain rfl : g.pendingOf repo - 1 = k := by simpa using hk
    omega

end Gate

/-! ## What a step does to the gates -/

section Steps

variable {q : Config} {m : Manager} {cap : ℕ} {g g' : Gate} {w w' : Worker}

theorem Worker.ownStep_balance (h : w.ownStep cap g = some (g', w')) (hw : w.Placed g.locks) :
    Balance g g' (.worker w) (.worker w') := by
  obtain ⟨job, pc, l, waiter, handoff, panicking⟩ := w
  cases pc with
  | handBack =>
    obtain ⟨g₁, hg, h⟩ := Option.map_eq_some_iff.mp h
    cases h
    obtain ⟨hpos, rfl⟩ := Gate.recv_eq_some hg
    obtain ⟨rfl, rfl⟩ := hw
    refine ⟨?_, fun r _ => rfl, fun m => rfl⟩
    simp [Thread.tokens, Thread.holdsAdmission, Thread.owesAdmission, Thread.holdsSlot,
      WorkerPc.holdsSlot]
    omega
  | lookup =>
    obtain ⟨rfl, rfl⟩ := hw
    simp only [ownStep] at h
    split at h
    · cases h
      exact ⟨rfl, fun r _ => rfl, fun m => by simp [Thread.owns, Waiter.owns, WorkerPc.inWindow]⟩
    · cases h
      exact ⟨rfl, fun r _ => rfl, fun m => rfl⟩
  | create =>
    obtain ⟨rfl, rfl⟩ := hw
    cases h
    exact ⟨rfl, fun r _ => rfl, fun m => by simp [Thread.owns, Waiter.owns, WorkerPc.inWindow]⟩
  | acquire =>
    obtain ⟨-, rfl, rfl⟩ := hw
    cases h
    exact ⟨rfl, fun r _ => rfl, fun m => rfl⟩
  | waiting =>
    obtain ⟨-, rfl⟩ := hw
    obtain ⟨v, hv, h⟩ := Option.map_eq_some_iff.mp h
    cases h
    obtain ⟨rfl, rfl⟩ := Waiter.recv_eq_some.mp hv
    exact ⟨rfl, fun r _ => rfl, fun m => rfl⟩
  | slot =>
    obtain ⟨g₁, hg, h⟩ := Option.map_eq_some_iff.mp h
    cases h
    obtain ⟨-, rfl⟩ := Gate.send_eq_some hg
    exact ⟨rfl, fun r _ => rfl, fun m => rfl⟩
  | releaseSlot =>
    obtain ⟨g₁, hg, h⟩ := Option.map_eq_some_iff.mp h
    cases h
    obtain ⟨hpos, rfl⟩ := Gate.recv_eq_some hg
    refine ⟨?_, fun r _ => rfl, fun m => rfl⟩
    simp [Thread.tokens, Thread.holdsAdmission, Thread.owesAdmission, Thread.holdsSlot,
      WorkerPc.holdsSlot]
    omega
  | unlock =>
    obtain ⟨T, hT, h⟩ := Option.map_eq_some_iff.mp h
    cases h
    obtain ⟨-, hm⟩ := LockTable.unlock_spec hT
    refine ⟨by cases panicking <;> rfl, fun r _ => by cases panicking <;> rfl, fun m => ?_⟩
    have hm := hm m
    by_cases hl : m = l
    · cases panicking <;> simp [Thread.owns, hl, WorkerPc.inWindow] at hm ⊢ <;> omega
    · simp [Thread.owns, hl] at hm ⊢
      omega
  | releasePending =>
    cases h
    refine ⟨?_, fun r hr => ?_, fun m => ?_⟩
    · simp [Thread.tokens, Thread.holdsAdmission, Thread.owesAdmission, Thread.holdsSlot,
        WorkerPc.holdsSlot]
    · have h1 : job.repo = r → 1 ≤ g.pendingOf r := fun h => by simpa [Thread.admitted, h] using hr
      have := Gate.releasePending_pendingOf h1
      by_cases hr : job.repo = r <;> simp [Thread.admitted, hr] at this ⊢ <;> omega
    · simp [Thread.owns, WorkerPc.inWindow]
  | failLock | failSlot | job | recover | done => cases h

theorem Worker.timeoutStep_balance (h : w.timeoutStep g = some (g', w'))
    (hw : w.Placed g.locks) : Balance g g' (.worker w) (.worker w') := by
  obtain ⟨job, pc, l, waiter, handoff, panicking⟩ := w
  cases pc with
  | waiting =>
    obtain ⟨-, rfl⟩ := hw
    cases h
    exact ⟨rfl, fun r _ => rfl, fun m => rfl⟩
  | slot =>
    cases h
    exact ⟨rfl, fun r _ => rfl, fun m => rfl⟩
  | _ => cases h

theorem Worker.waiterStep_balance (h : w.waiterStep g = some (g', w')) :
    Balance g g' (.worker w) (.worker w') := by
  obtain ⟨⟨T, v⟩, hv, h⟩ := Option.map_eq_some_iff.mp h
  cases h
  obtain ⟨-, -, -, hm⟩ := Waiter.step_spec hv
  refine ⟨rfl, fun r _ => rfl, fun m => ?_⟩
  have hm := hm m
  by_cases hl : m = w.lock
  · simp only [Thread.owns, hl, if_true] at hm ⊢
    omega
  · simp only [Thread.owns, hl, if_false] at hm ⊢
    omega

theorem Worker.handoffStep_balance (h : w.handoffStep g = some (g', w')) :
    Balance g g' (.worker w) (.worker w') := by
  obtain ⟨job, pc, l, waiter, handoff, panicking⟩ := w
  cases handoff with
  | receiving =>
    obtain ⟨v, hv, h⟩ := Option.map_eq_some_iff.mp h
    cases h
    obtain ⟨rfl, rfl⟩ := Waiter.recv_eq_some.mp hv
    exact ⟨rfl, fun r _ => rfl, fun m => by simp [Thread.owns, Waiter.owns]⟩
  | unlocking =>
    obtain ⟨T, hT, h⟩ := Option.map_eq_some_iff.mp h
    cases h
    obtain ⟨-, hm⟩ := LockTable.unlock_spec hT
    refine ⟨rfl, fun r _ => rfl, fun m => ?_⟩
    have hm := hm m
    by_cases hl : m = l
    · simp [Thread.owns, hl] at hm ⊢
      omega
    · simp [Thread.owns, hl] at hm ⊢
      omega
  | none | done => cases h

/-- A step on the disk leaves every holding as it was. -/
theorem Worker.diskStep_holdings {d d' : Disk} {a : JobAct} (h : w.diskStep q d a = some (d', w')) :
    (Thread.worker w').tokens = (Thread.worker w).tokens ∧
      (∀ r, (Thread.worker w').admitted r = (Thread.worker w).admitted r) ∧
      ∀ l, (Thread.worker w').owns l = (Thread.worker w).owns l := by
  obtain ⟨job, pc, l, waiter, handoff, panicking⟩ := w
  cases pc with
  | failLock | failSlot | recover =>
    cases a with
    | update now ok =>
      cases h
      exact ⟨rfl, fun r => rfl, fun m => rfl⟩
    | _ => cases h
  | job pc =>
    obtain ⟨⟨d₁, j, next⟩, hj, h⟩ := Option.map_eq_some_iff.mp h
    have hrepo := (Job.step_sameRun hj).repo
    simp only at hrepo
    cases next with
    | goto pc' | leave | panicked =>
      cases h
      refine ⟨rfl, fun r => ?_, fun m => rfl⟩
      simp [Thread.admitted, hrepo]
  | _ => cases h

theorem SubmitCall.step_balance {s s' : Shared} {c : SubmitCall} {t : Thread} {a : SubmitAct}
    (h : c.step q m s c.pc a = some (s', t)) :
    Balance s.gate s'.gate (.submit c) t := by
  obtain ⟨req, dir, pc⟩ := c
  cases pc with
  | check =>
    cases a with
    | check cloned =>
      simp only [SubmitCall.step] at h
      split at h <;> cases h <;> exact ⟨rfl, fun r _ => rfl, fun m => rfl⟩
    | _ => cases h
  | takeToken =>
    cases a with
    | step =>
      simp only [SubmitCall.step] at h
      split at h
      · rename_i g hg
        cases h
        obtain ⟨-, rfl⟩ := Gate.send_eq_some hg
        exact ⟨rfl, fun r _ => rfl, fun m => rfl⟩
      · cases h
        exact ⟨rfl, fun r _ => rfl, fun m => rfl⟩
    | _ => cases h
  | reserve =>
    cases a with
    | step =>
      cases h
      refine ⟨?_, fun r hr => ?_, fun m => ?_⟩
      · simp only [Gate.reservePending_sem]
        split <;> rfl
      · rw [Gate.reservePending_pendingOf]
        cases (s.gate.reservePending (maxParallelJobs q.maxParallel) req.repo).2 <;>
          by_cases hr : req.repo = r <;> simp [Thread.admitted, SubmitPc.reserved, hr]
      · simp [Thread.owns]
    | _ => cases h
  | newRunID =>
    cases a with
    | newRunID id =>
      cases id with
      | none =>
        cases h
        exact ⟨rfl, fun r _ => rfl, fun m => rfl⟩
      | some id =>
        simp only [SubmitCall.step] at h
        split at h
        · cases h
          exact ⟨rfl, fun r _ => rfl, fun m => rfl⟩
        · cases h
    | _ => cases h
  | create id | writeMeta id =>
    cases a with
    | io now ok =>
      simp only [SubmitCall.step] at h
      split at h <;> cases h <;> exact ⟨rfl, fun r _ => rfl, fun m => rfl⟩
    | _ => cases h
  | start id =>
    cases a with
    | step =>
      cases h
      exact ⟨rfl, fun r _ => rfl, fun m => by simp [Thread.owns, Waiter.owns, WorkerPc.inWindow]⟩
    | _ => cases h
  | releasePending e stillborn =>
    cases a with
    | step =>
      cases h
      refine ⟨?_, fun r hr => ?_, fun m => ?_⟩
      · simp [Thread.tokens, Thread.holdsAdmission, Thread.owesAdmission, Thread.holdsSlot,
          SubmitPc.holdsToken]
      · have h1 : req.repo = r → 1 ≤ s.gate.pendingOf r := fun h => by
          simpa [Thread.admitted, SubmitPc.reserved, h] using hr
        have := Gate.releasePending_pendingOf h1
        by_cases hr : req.repo = r <;>
          simp [Thread.admitted, SubmitPc.reserved, hr] at this ⊢ <;> omega
      · simp [Thread.owns]
    | _ => cases h
  | giveBack e stillborn =>
    cases a with
    | step =>
      obtain ⟨g, hg, h⟩ := Option.map_eq_some_iff.mp h
      cases h
      obtain ⟨hpos, rfl⟩ := Gate.recv_eq_some hg
      refine ⟨?_, fun r _ => by cases stillborn <;> rfl, fun m => rfl⟩
      cases stillborn <;>
        simp [Thread.tokens, Thread.holdsAdmission, Thread.owesAdmission, Thread.holdsSlot,
          SubmitPc.holdsToken] <;> omega
    | _ => cases h
  | cleanup e id =>
    cases a with
    | io now ok =>
      cases h
      refine ⟨?_, fun r hr => ?_, fun m => ?_⟩ <;> cases ok <;> rfl
    | _ => cases h
  | refused e => cases a <;> cases h

/-- **Step balance.** Every step of a thread moves the gates by what its holdings change. -/
theorem Thread.step_balance {s s' : Shared} {t t' : Thread} {a : Act}
    (h : t.step q m s a = some (s', t')) (ht : t.Placed s) :
    Balance s.gate s'.gate t t' := by
  cases t with
  | submit c =>
    cases a with
    | submit a => exact SubmitCall.step_balance h
    | _ => cases h
  | worker w =>
    cases a with
    | gate a =>
      obtain ⟨⟨g, w'⟩, hg, h⟩ := Option.map_eq_some_iff.mp h
      cases h
      cases a with
      | step => exact Worker.ownStep_balance hg ht
      | timeout => exact Worker.timeoutStep_balance hg ht
      | waiter => exact Worker.waiterStep_balance hg
      | handoff => exact Worker.handoffStep_balance hg
    | job a =>
      obtain ⟨⟨d, w'⟩, hd, h⟩ := Option.map_eq_some_iff.mp h
      cases h
      obtain ⟨h1, h2, h3⟩ := Worker.diskStep_holdings hd
      exact ⟨by rw [h1], fun r _ => by rw [h2], fun l => by rw [h3]⟩
    | _ => cases h
  | pull p =>
    cases a with
    | pull a =>
      obtain ⟨⟨d, p'⟩, hd, h⟩ := Option.map_eq_some_iff.mp h
      cases h
      exact ⟨rfl, fun r _ => rfl, fun m => rfl⟩
    | _ => cases h
  | rotate r =>
    cases a with
    | rotate a =>
      obtain ⟨⟨d, r'⟩, hd, h⟩ := Option.map_eq_some_iff.mp h
      cases h
      exact ⟨rfl, fun r _ => rfl, fun m => rfl⟩
    | _ => cases h

end Steps

/-! ## Mutexes and program counters -/

section Placed

variable {q : Config} {m : Manager} {cap : ℕ} {T T' : LockTable String} {g g' : Gate}
  {w w' : Worker}

/-- Entries of the lock table never change, so neither does what a worker knows of its mutex. -/
theorem Worker.Placed.mono (hT : ∀ k l, T.locks k = some l → T'.locks k = some l)
    (hw : w.Placed T) : w.Placed T' := by
  obtain ⟨job, pc, l, waiter, handoff, panicking⟩ := w
  cases pc with
  | handBack | lookup | create => exact hw
  | acquire => exact ⟨hT _ _ hw.1, hw.2⟩
  | waiting => exact ⟨hT _ _ hw.1, hw.2⟩
  | _ => exact hT _ _ hw

theorem Worker.ownStep_placed (h : w.ownStep cap g = some (g', w')) (hw : w.Placed g.locks) :
    w'.Placed g'.locks ∧ ∀ k l, g.locks.locks k = some l → g'.locks.locks k = some l := by
  obtain ⟨job, pc, l, waiter, handoff, panicking⟩ := w
  cases pc with
  | handBack | slot | releaseSlot =>
    obtain ⟨g₁, hg, h⟩ := Option.map_eq_some_iff.mp h
    cases h
    first
      | obtain ⟨-, rfl⟩ := Gate.recv_eq_some hg
      | obtain ⟨-, rfl⟩ := Gate.send_eq_some hg
    exact ⟨hw, fun _ _ h => h⟩
  | lookup =>
    simp only [ownStep] at h
    split at h
    · rename_i l hl
      cases h
      exact ⟨⟨hl, hw⟩, fun _ _ h => h⟩
    · cases h
      exact ⟨hw, fun _ _ h => h⟩
  | create =>
    cases h
    obtain ⟨hl, hkeep⟩ := g.locks.getOrCreate_locks job.repo
    exact ⟨⟨hl, hw⟩, hkeep⟩
  | acquire =>
    cases h
    exact ⟨⟨hw.1, hw.2.2⟩, fun _ _ h => h⟩
  | waiting =>
    obtain ⟨v, hv, h⟩ := Option.map_eq_some_iff.mp h
    cases h
    exact ⟨hw.1, fun _ _ h => h⟩
  | unlock =>
    obtain ⟨T, hT, h⟩ := Option.map_eq_some_iff.mp h
    cases h
    have hk : T.locks = g.locks.locks := (LockTable.unlock_spec hT).1
    refine ⟨?_, fun k l h => by simpa [hk] using h⟩
    cases panicking <;> simpa [Placed, hk] using hw
  | releasePending =>
    cases h
    refine ⟨?_, fun k l h => by simpa using h⟩
    simpa [Placed] using hw
  | failLock | failSlot | job | recover | done => cases h

theorem Worker.gateStep_placed {a : GateAct} (h : w.gateStep cap g a = some (g', w'))
    (hw : w.Placed g.locks) :
    w'.Placed g'.locks ∧ ∀ k l, g.locks.locks k = some l → g'.locks.locks k = some l := by
  cases a with
  | step => exact ownStep_placed h hw
  | timeout =>
    obtain ⟨job, pc, l, waiter, handoff, panicking⟩ := w
    cases pc with
    | waiting =>
      cases h
      exact ⟨hw.1, fun _ _ h => h⟩
    | slot =>
      cases h
      exact ⟨hw, fun _ _ h => h⟩
    | _ => cases h
  | waiter =>
    obtain ⟨⟨T, v⟩, hv, h⟩ := Option.map_eq_some_iff.mp h
    cases h
    obtain ⟨hk, hidle, -, -⟩ := Waiter.step_spec hv
    have hkeep : ∀ k l, g.locks.locks k = some l → T.locks k = some l := fun k l h => by
      rw [hk]
      exact h
    refine ⟨?_, hkeep⟩
    obtain ⟨job, pc, l, waiter, handoff, panicking⟩ := w
    cases pc with
    | handBack | lookup | create => exact absurd hw.1 hidle
    | acquire => exact absurd hw.2.1 hidle
    | waiting => exact ⟨hkeep _ _ hw.1, hw.2⟩
    | _ => exact hkeep _ _ hw
  | handoff =>
    obtain ⟨job, pc, l, waiter, handoff, panicking⟩ := w
    cases handoff with
    | none | done => cases h
    | receiving =>
      obtain ⟨v, hv, h⟩ := Option.map_eq_some_iff.mp h
      cases h
      refine ⟨?_, fun _ _ h => h⟩
      cases pc with
      | handBack | lookup | create => exact absurd hw.2 (by simp)
      | acquire => exact absurd hw.2.2 (by simp)
      | waiting => exact absurd hw.2 (by simp)
      | _ => exact hw
    | unlocking =>
      obtain ⟨T, hT, h⟩ := Option.map_eq_some_iff.mp h
      cases h
      have hk : T.locks = g.locks.locks := (LockTable.unlock_spec hT).1
      have hkeep : ∀ k l, g.locks.locks k = some l → T.locks k = some l := fun k l h => by
        rw [hk]
        exact h
      refine ⟨?_, hkeep⟩
      cases pc with
      | handBack | lookup | create => exact absurd hw.2 (by simp)
      | acquire => exact absurd hw.2.2 (by simp)
      | waiting => exact absurd hw.2 (by simp)
      | _ => exact hkeep _ _ hw

theorem Worker.diskStep_placed {d d' : Disk} {a : JobAct} (h : w.diskStep q d a = some (d', w'))
    (hw : w.Placed T) : w'.Placed T := by
  obtain ⟨job, pc, l, waiter, handoff, panicking⟩ := w
  cases pc with
  | failLock | failSlot | recover =>
    cases a with
    | update now ok =>
      cases h
      exact hw
    | _ => cases h
  | job pc =>
    obtain ⟨⟨d₁, j, next⟩, hj, h⟩ := Option.map_eq_some_iff.mp h
    have hrepo := (Job.step_sameRun hj).repo
    simp only at hrepo
    cases next with
    | goto pc' | leave | panicked =>
      cases h
      simpa [Placed, hrepo] using hw
  | _ => cases h

/-- What `Submit` does beside its balance: no mutex is touched, no gate overflows, and the worker
it starts has not looked for its mutex yet. -/
theorem SubmitCall.step_placed {s s' : Shared} {c : SubmitCall} {t : Thread} {a : SubmitAct}
    (h : c.step q m s c.pc a = some (s', t)) :
    t.Placed s' ∧ s'.gate.locks = s.gate.locks ∧
      (s.gate.Bounded (maxParallelJobs q.maxParallel) →
        s'.gate.Bounded (maxParallelJobs q.maxParallel)) := by
  unfold SubmitCall.step at h
  split at h
  case h_1 => split at h <;> cases h <;> exact ⟨trivial, rfl, id⟩
  case h_2 =>
    split at h
    · rename_i g hg
      cases h
      obtain ⟨-, rfl⟩ := Gate.send_eq_some hg
      exact ⟨trivial, rfl, fun hb => hb.send hg⟩
    · cases h
      exact ⟨trivial, rfl, id⟩
  case h_3 =>
    cases h
    exact ⟨trivial, Gate.reservePending_locks, fun hb => hb.reservePending _⟩
  case h_5 =>
    split at h
    · cases h
      exact ⟨trivial, rfl, id⟩
    · cases h
  case h_4 =>
    cases h
    exact ⟨trivial, rfl, id⟩
  case h_6 | h_7 => split at h <;> cases h <;> exact ⟨trivial, rfl, id⟩
  case h_8 =>
    cases h
    exact ⟨⟨rfl, rfl⟩, rfl, id⟩
  case h_9 =>
    cases h
    exact ⟨trivial, Gate.releasePending_locks, fun hb => hb.releasePending _⟩
  case h_10 =>
    obtain ⟨g, hg, h⟩ := Option.map_eq_some_iff.mp h
    cases h
    obtain ⟨-, rfl⟩ := Gate.recv_eq_some hg
    exact ⟨trivial, rfl, fun hb => hb.recv hg⟩
  case h_11 _ _ ok _ =>
    cases h
    cases ok <;> exact ⟨trivial, rfl, id⟩
  case h_12 => cases h

theorem Worker.gateStep_bounded {a : GateAct} (h : w.gateStep cap g a = some (g', w'))
    (hb : g.Bounded cap) : g'.Bounded cap := by
  cases a with
  | step =>
    obtain ⟨job, pc, l, waiter, handoff, panicking⟩ := w
    cases pc with
    | handBack | releaseSlot =>
      obtain ⟨g₁, hg, h⟩ := Option.map_eq_some_iff.mp h
      cases h
      exact hb.recv hg
    | slot =>
      obtain ⟨g₁, hg, h⟩ := Option.map_eq_some_iff.mp h
      cases h
      exact hb.send hg
    | lookup =>
      simp only [gateStep, ownStep] at h
      split at h <;> cases h <;> exact hb
    | create =>
      cases h
      exact hb.locks _
    | acquire =>
      cases h
      exact hb
    | waiting =>
      obtain ⟨v, hv, h⟩ := Option.map_eq_some_iff.mp h
      cases h
      exact hb
    | unlock =>
      obtain ⟨T, hT, h⟩ := Option.map_eq_some_iff.mp h
      cases h
      exact hb.locks _
    | releasePending =>
      cases h
      exact hb.releasePending _
    | failLock | failSlot | job | recover | done => cases h
  | timeout =>
    simp only [gateStep, timeoutStep] at h
    split at h <;> cases h <;> exact hb
  | waiter =>
    obtain ⟨r, hr, h⟩ := Option.map_eq_some_iff.mp h
    cases h
    exact hb.locks _
  | handoff =>
    simp only [gateStep, handoffStep] at h
    split at h
    · obtain ⟨v, hv, h⟩ := Option.map_eq_some_iff.mp h
      cases h
      exact hb
    · obtain ⟨T, hT, h⟩ := Option.map_eq_some_iff.mp h
      cases h
      exact hb.locks _
    · cases h

/-- A thread's step keeps what is known of its mutex, every entry of the lock table, and the
bounds of the gates. -/
theorem Thread.step_placed {s s' : Shared} {t t' : Thread} {a : Act}
    (h : t.step q m s a = some (s', t')) (ht : t.Placed s) :
    t'.Placed s' ∧ (∀ k l, s.gate.locks.locks k = some l → s'.gate.locks.locks k = some l) ∧
      (s.gate.Bounded (maxParallelJobs q.maxParallel) →
        s'.gate.Bounded (maxParallelJobs q.maxParallel)) := by
  cases t with
  | submit c =>
    cases a with
    | submit a =>
      obtain ⟨hp, hl, hb⟩ := SubmitCall.step_placed h
      exact ⟨hp, fun k l h => by rwa [hl], hb⟩
    | _ => cases h
  | worker w =>
    cases a with
    | gate a =>
      obtain ⟨⟨g, w'⟩, hg, h⟩ := Option.map_eq_some_iff.mp h
      cases h
      obtain ⟨hp, hl⟩ := Worker.gateStep_placed hg ht
      exact ⟨hp, hl, Worker.gateStep_bounded hg⟩
    | job a =>
      obtain ⟨⟨d, w'⟩, hd, h⟩ := Option.map_eq_some_iff.mp h
      cases h
      exact ⟨Worker.diskStep_placed hd ht, fun _ _ h => h, id⟩
    | _ => cases h
  | pull p =>
    cases a with
    | pull a =>
      obtain ⟨⟨d, p'⟩, hd, h⟩ := Option.map_eq_some_iff.mp h
      cases h
      exact ⟨trivial, fun _ _ h => h, id⟩
    | _ => cases h
  | rotate r =>
    cases a with
    | rotate a =>
      obtain ⟨⟨d, r'⟩, hd, h⟩ := Option.map_eq_some_iff.mp h
      cases h
      exact ⟨trivial, fun _ _ h => h, id⟩
    | _ => cases h

end Placed

/-! ## The gates in every state -/

section Runs

variable {q : Config} {m : Manager} {D : Disk → Prop}
  {ok : State → Move Call Act → Prop} {c : State}

/-- The bounds of the gates and the placement of every worker hold along every run. -/
theorem pool_placed (q : Config) (m : Manager) (D : Disk → Prop)
    (ok : State → Move Call Act → Prop) :
    (pool q m D).Sound ok (fun _ => True)
      (fun s => s.gate.Bounded (maxParallelJobs q.maxParallel)) Thread.Placed fun _ _ => True where
  init s hs := by
    rw [hs.1]
    exact ⟨Nat.zero_le _, fun r => Nat.zero_le _, fun r => by simp [Gate.initial]⟩
  start s k _ := by cases k <;> trivial
  symm _ _ _ := trivial
  startPair _ _ := trivial
  pair _ _ _ _ _ _ _ _ _ := trivial
  shared hm _ _ hJ hQ := (Thread.step_placed hm.step hQ).2.2 hJ
  own hm _ _ _ hQ := (Thread.step_placed hm.step hQ).1
  frame := by
    intro c i a t s' t' j u hm _ _ _ hQ _ _ _ hu
    cases u with
    | worker w => exact hu.mono (Thread.step_placed hm.step hQ).2.1
    | _ => trivial

theorem placed (h : (pool q m D).system.Reach ok c) :
    c.shared.gate.Bounded (maxParallelJobs q.maxParallel) ∧ ∀ t ∈ c.threads, t.Placed c.shared :=
  have hc := (pool_placed q m D ok).holds (fun _ _ => trivial) h
  ⟨hc.shared, hc.thread⟩

/-- What every step does to the gates, in the form the conservation rule asks for. -/
theorem step_balance {s s' : Shared} {t t' : Thread} {a : Act}
    (h : (pool q m D).step s t a = some (s', t')) (ht : t.Placed s) :
    Balance s.gate s'.gate t t' :=
  Thread.step_balance h ht

theorem sem_eq (h : (pool q m D).system.Reach ok c) :
    c.shared.gate.sem = (c.threads.map Thread.tokens).sum := by
  refine Pool.conserved (f := fun s => s.gate.sem) (fun c hc => (placed hc).2) ?_ ?_ ?_ h
  · intro s hs
    rw [hs.1]
    rfl
  · intro k
    cases k <;> rfl
  · intro s t a s' t' hs ht _
    exact (step_balance hs ht).sem

theorem pendingOf_eq (h : (pool q m D).system.Reach ok c) (r : String) :
    c.shared.gate.pendingOf r = c.threads.countP (Thread.admitted r) := by
  rw [countP_eq_sum_map]
  refine Pool.conserved (f := fun s => s.gate.pendingOf r) (fun c hc => (placed hc).2) ?_ ?_ ?_ h
  · intro s hs
    rw [hs.1]
    rfl
  · intro k
    cases k with
    | submit req => simp [pool, Thread.admitted, SubmitPc.reserved]
    | pull name ffOnly | rotate maxAge => rfl
  · intro s t a s' t' hs ht hle
    exact (step_balance hs ht).pending r hle

theorem locked_eq (h : (pool q m D).system.Reach ok c) (l : ℕ) :
    (c.shared.gate.locks.locked l).toNat = (c.threads.map (Thread.owns l)).sum := by
  refine Pool.conserved (f := fun s => (s.gate.locks.locked l).toNat)
    (fun c hc => (placed hc).2) ?_ ?_ ?_ h
  · intro s hs
    rw [hs.1]
    rfl
  · intro k
    cases k <;> rfl
  · intro s t a s' t' hs ht _
    exact (step_balance hs ht).locked l

/-- **One execution window per repo.** -/
theorem window_unique (h : (pool q m D).system.Reach ok c) (repo : String) :
    c.threads.countP (Thread.inWindow repo) ≤ 1 := by
  refine c.shared.gate.locks.exclusive (locked_eq h) (fun t ht k hin => ?_) repo
  have hp := (placed h).2 t ht
  cases t with
  | worker w =>
    obtain ⟨job, pc, l, waiter, handoff, panicking⟩ := w
    obtain ⟨rfl, hpc⟩ : job.repo = k ∧ pc.inWindow = true := by
      simpa [Thread.inWindow] using hin
    refine ⟨l, ?_, by simp [Thread.owns, hpc]⟩
    cases pc with
    | slot | failSlot | job | releaseSlot | unlock => exact hp
    | _ => cases hpc
  | submit c | pull p | rotate r => cases hin

/-- Two different threads are not both in the execution window of one repo. -/
theorem window_apart {repo : String} (h : c.threads.countP (Thread.inWindow repo) ≤ 1) {i j : ℕ}
    {t u : Thread} (hij : i ≠ j) (hi : c.threads[i]? = some t) (hj : c.threads[j]? = some u)
    (ht : t.inWindow repo = true) : u.inWindow repo = false := by
  by_contra hu
  rw [Bool.not_eq_false] at hu
  rw [countP_eq_sum_map] at h
  have := add_le_sum_map (w := fun t => (Thread.inWindow repo t).toNat) hij hi hj
  simp only [ht, hu, Bool.toNat_true] at this
  omega

/-- The semaphore counts the calls that hold an admission token, the workers that have not handed
theirs back, and the workers that hold an execution slot. -/
theorem sem_eq_countP (h : (pool q m D).system.Reach ok c) :
    c.shared.gate.sem = c.threads.countP Thread.holdsAdmission +
      c.threads.countP Thread.owesAdmission + c.threads.countP Thread.holdsSlot := by
  rw [sem_eq h, countP_eq_sum_map, countP_eq_sum_map, countP_eq_sum_map, ← List.sum_map_add,
    ← List.sum_map_add]
  rfl

/-- A thread about to receive from the semaphore answers for a token in it. -/
theorem Thread.tokens_of_atRecv {t : Thread} (ht : t.atRecv = true) : 1 ≤ t.tokens := by
  cases t with
  | submit c =>
    obtain ⟨req, dir, pc⟩ := c
    cases pc with
    | giveBack e stillborn => exact Nat.le_refl 1
    | _ => cases ht
  | worker w =>
    obtain ⟨job, pc, l, waiter, handoff, panicking⟩ := w
    cases pc with
    | handBack | releaseSlot => exact Nat.le_refl 1
    | _ => cases ht
  | pull p | rotate r => cases ht

theorem maxParallelJobs_le {n : ℤ} (h : 1 ≤ n) : (maxParallelJobs n : ℤ) ≤ n := by
  unfold maxParallelJobs
  split_ifs <;> omega

/-- **The queue is safe.** In every state of every run with `max_parallel_jobs ≥ 1`: at most one
worker per repo is in its execution window, at most `max_parallel_jobs` workers hold an execution
slot, `q.sem` holds exactly the tokens of the calls and workers that answer for one, so that no
receive from it blocks, and `q.pending` counts the admitted and unfinished jobs of each repo, is
bounded by `max_parallel_jobs`, and has no entry at zero. -/
theorem queue_safe (hN : 1 ≤ q.maxParallel) (h : (pool q m D).system.Reachable c) :
    (∀ repo, c.threads.countP (Thread.inWindow repo) ≤ 1) ∧
    (c.threads.countP Thread.holdsSlot : ℤ) ≤ q.maxParallel ∧
    (c.shared.gate.sem = c.threads.countP Thread.holdsAdmission +
        c.threads.countP Thread.owesAdmission + c.threads.countP Thread.holdsSlot ∧
      ∀ t ∈ c.threads, t.atRecv = true → 0 < c.shared.gate.sem) ∧
    ∀ repo, c.shared.gate.pendingOf repo = c.threads.countP (Thread.admitted repo) ∧
      (c.threads.countP (Thread.admitted repo) : ℤ) ≤ q.maxParallel ∧
      (c.threads.countP (Thread.admitted repo) = 0 → c.shared.gate.pending repo = none) := by
  have hcap := maxParallelJobs_le hN
  have hb := (placed h).1
  have hsem := sem_eq_countP h
  refine ⟨window_unique h, ?_, ⟨hsem, fun t ht hrecv => ?_⟩, fun repo => ?_⟩
  · have := hb.sem
    omega
  · have hle := le_sum_map (w := Thread.tokens) ht
    have := Thread.tokens_of_atRecv hrecv
    rw [sem_eq h]
    omega
  · have hp := pendingOf_eq h repo
    have hle := hb.pending repo
    refine ⟨hp, by omega, fun h0 => ?_⟩
    cases hr : c.shared.gate.pending repo with
    | none => rfl
    | some n =>
      have hn : n = 0 := by
        have : c.shared.gate.pendingOf repo = n := by simp [Gate.pendingOf, hr]
        omega
      exact absurd (hn ▸ hr) (hb.entry repo)

/-- One job is under way and a second one of the same repo has given up waiting. -/
theorem queue_safe_overlap :
    ∃ c, small.run smallStart
        (submitting 0 .plan "AAAAAAAAAAAAAAAA" 0 ++ entering 0 false ++
          submitting 1 .apply "BBBBBBBBBBBBBBBB" 1 ++
          gating 1 [.step, .step, .step, .timeout]) = some c ∧
      (∀ repo, c.threads.countP (Thread.inWindow repo) ≤ 1) ∧
      (c.threads.countP Thread.holdsSlot : ℤ) ≤ twoSlots.maxParallel ∧
      (c.shared.gate.sem = c.threads.countP Thread.holdsAdmission +
          c.threads.countP Thread.owesAdmission + c.threads.countP Thread.holdsSlot ∧
        ∀ t ∈ c.threads, t.atRecv = true → 0 < c.shared.gate.sem) ∧
      ∀ repo, c.shared.gate.pendingOf repo = c.threads.countP (Thread.admitted repo) ∧
        (c.threads.countP (Thread.admitted repo) : ℤ) ≤ twoSlots.maxParallel ∧
        (c.threads.countP (Thread.admitted repo) = 0 → c.shared.gate.pending repo = none) := by
  obtain ⟨c, hc⟩ := Option.isSome_iff_exists.mp
    (by decide : (small.run smallStart
      (submitting 0 .plan "AAAAAAAAAAAAAAAA" 0 ++ entering 0 false ++
        submitting 1 .apply "BBBBBBBBBBBBBBBB" 1 ++
        gating 1 [.step, .step, .step, .timeout])).isSome = true)
  exact ⟨c, hc, queue_safe (by decide) (System.reachable_of_run small_init hc)⟩

/-- No `Unlock` meets a mutex that is not locked, which would be fatal. -/
theorem unlock_goes_through (h : (pool q m D).system.Reach ok c) {w : Worker}
    (hw : .worker w ∈ c.threads) (hpc : w.pc = .unlock ∨ w.handoff = .unlocking) :
    (c.shared.gate.locks.unlock w.lock).isSome = true := by
  refine LockTable.unlock_isSome ?_
  have hle := le_sum_map (w := Thread.owns w.lock) hw
  have h1 : 1 ≤ (Thread.worker w).owns w.lock := by
    rcases hpc with hpc | hpc
    · simp [Thread.owns, hpc, WorkerPc.inWindow]
    · simp only [Thread.owns, hpc, if_true]
      omega
  have := locked_eq h w.lock
  by_contra hn
  simp only [Bool.not_eq_true] at hn
  simp only [hn, Bool.toNat_false] at this
  omega

end Runs

end HaAddons.Runner
