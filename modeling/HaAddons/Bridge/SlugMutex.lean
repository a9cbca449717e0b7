import HaAddons.Lib.Lock

/-!
# The bridge's per-slug lock

`mutex.Manager.TryAcquire` waits for a slug's mutex in a helper goroutine, so that the caller can
stop waiting when its context ends. The caller then looks once whether the helper has the mutex
already: if so it unlocks, and if not it just returns. The helper still gets the mutex later, and
nobody unlocks it any more (`abandoned_lock`).

* `slug_lock_free` — at most one caller at a time holds a slug. In every run in which each caller
  that stops waiting finds its helper's value, all mutexes are free once all calls are over, and
  the next caller gets its slug.
* `locked_iff_abandoned` — without that condition, what is still locked then is what was left
  behind by such callers.
-/

namespace HaAddons.Bridge.SlugMutex

inductive AcquirePc where
  | lookup
  | create
  | spawn
  | select
  | cancelled
  | drained
  | timedOut
  | holding
  | released
  deriving DecidableEq, Repr

/-- A call of `TryAcquire` with its helper goroutine, and then its release function. -/
structure Acquire where
  slug : String
  pc : AcquirePc := .lookup
  lock : ℕ := 0
  waiter : Waiter := .idle
  deriving DecidableEq, Repr

/-- The caller moves (after success: it calls `release`), its context ends, or its helper moves. -/
inductive Act where
  | step
  | cancel
  | waiter
  deriving DecidableEq, Repr

namespace Acquire

/-- The caller's own next step. -/
def ownStep (T : LockTable String) (c : Acquire) : Option (LockTable String × Acquire) :=
  match c.pc with
  | .lookup =>
    match T.locks c.slug with
    | some l => some (T, { c with pc := .spawn, lock := l })
    | none => some (T, { c with pc := .create })
  | .create =>
    let r := T.getOrCreate c.slug
    some (r.1, { c with pc := .spawn, lock := r.2 })
  | .spawn => some (T, { c with pc := .select, waiter := .locking })
  | .select => c.waiter.recv.map fun v => (T, { c with pc := .holding, waiter := v })
  | .cancelled =>
    match c.waiter.recv with
    | some v => some (T, { c with pc := .drained, waiter := v })
    | none => some (T, { c with pc := .timedOut })
  | .drained => (T.unlock c.lock).map fun T => (T, { c with pc := .timedOut })
  | .holding => (T.unlock c.lock).map fun T => (T, { c with pc := .released })
  -- `sync.Once`: a second release does nothing.
  | .released => some (T, c)
  | .timedOut => none

def step (T : LockTable String) (c : Acquire) : Act → Option (LockTable String × Acquire)
  | .step => c.ownStep T
  | .cancel => if c.pc = .select then some (T, { c with pc := .cancelled }) else none
  | .waiter => (c.waiter.step T c.lock).map fun r => (r.1, { c with waiter := r.2 })

end Acquire

/-- The manager, with no mutex created yet. -/
def pool : Pool (LockTable String) Acquire String Act where
  init T := T = .empty
  start slug := { slug := slug }
  step T c a := c.step T a

abbrev State := HaAddons.Config (LockTable String) Acquire

namespace Acquire

/-- The caller got the slug and has not called its release function yet. -/
def holds (slug : String) (c : Acquire) : Bool := c.slug = slug && c.pc = .holding

/-- The call's share in mutex `l`: its helper's, or its own. -/
def owns (l : ℕ) (c : Acquire) : ℕ :=
  if l = c.lock then c.waiter.owns + (if c.pc = .holding ∨ c.pc = .drained then 1 else 0) else 0

/-- What the program counter says about the helper and the mutex. -/
def Placed (T : LockTable String) (c : Acquire) : Prop :=
  match c.pc with
  | .lookup | .create => c.waiter = .idle
  | .spawn => T.locks c.slug = some c.lock ∧ c.waiter = .idle
  | .holding | .drained | .released => T.locks c.slug = some c.lock ∧ c.waiter = .taken
  | _ => T.locks c.slug = some c.lock ∧ c.waiter ≠ .idle

/-- The caller returned without its slug, and its helper's value was not there to take. -/
def abandoned (c : Acquire) : Bool := c.pc = .timedOut && c.waiter ≠ .taken

/-- The call has returned, a caller that got its slug has released it, and the helper is gone. -/
def isOver (c : Acquire) : Bool :=
  (c.pc = .timedOut || c.pc = .released) && c.waiter ≠ .locking && c.waiter ≠ .sending

end Acquire

/-- All calls are over. -/
def Quiescent (c : State) : Prop := ∀ t ∈ c.threads, t.isOver = true

section Steps

variable {T T' : LockTable String} {c c' : Acquire} {a : Act}

theorem Acquire.Placed.mono (hT : ∀ k l, T.locks k = some l → T'.locks k = some l)
    (hc : c.Placed T) : c.Placed T' := by
  obtain ⟨slug, pc, l, waiter⟩ := c
  cases pc with
  | lookup | create => exact hc
  | _ => exact ⟨hT _ _ hc.1, hc.2⟩

/-- A step keeps what is known of the call's mutex and every entry of the table, and moves the
held mutexes by what the call's share changes. -/
theorem Acquire.step_spec (h : c.step T a = some (T', c')) (hc : c.Placed T) :
    c'.Placed T' ∧ (∀ k l, T.locks k = some l → T'.locks k = some l) ∧
      ∀ m, (T'.locked m).toNat + c.owns m = (T.locked m).toNat + c'.owns m := by
  obtain ⟨slug, pc, l, waiter⟩ := c
  cases a with
  | step =>
    cases pc with
    | lookup =>
      obtain rfl : waiter = .idle := hc
      simp only [step, ownStep] at h
      split at h
      · rename_i l hl
        cases h
        exact ⟨⟨hl, rfl⟩, fun _ _ h => h, fun m => by simp [owns, Waiter.owns]⟩
      · cases h
        exact ⟨rfl, fun _ _ h => h, fun m => by simp [owns, Waiter.owns]⟩
    | create =>
      obtain rfl : waiter = .idle := hc
      cases h
      obtain ⟨hl, hkeep⟩ := T.getOrCreate_locks slug
      exact ⟨⟨hl, rfl⟩, hkeep, fun m => by simp [owns, Waiter.owns]⟩
    | spawn =>
      obtain ⟨hl, rfl⟩ := hc
      cases h
      exact ⟨⟨hl, by simp⟩, fun _ _ h => h, fun m => by simp [owns, Waiter.owns]⟩
    | select =>
      obtain ⟨v, hv, h⟩ := Option.map_eq_some_iff.mp h
      cases h
      obtain ⟨rfl, rfl⟩ := Waiter.recv_eq_some.mp hv
      exact ⟨⟨hc.1, rfl⟩, fun _ _ h => h, fun m => by simp [owns, Waiter.owns]⟩
    | cancelled =>
      simp only [step, ownStep] at h
      split at h
      · rename_i v hv
        cases h
        obtain ⟨rfl, rfl⟩ := Waiter.recv_eq_some.mp hv
        exact ⟨⟨hc.1, rfl⟩, fun _ _ h => h, fun m => by simp [owns, Waiter.owns]⟩
      · cases h
        exact ⟨hc, fun _ _ h => h, fun m => by simp [owns]⟩
    | drained | holding =>
      obtain ⟨T₁, hT, h⟩ := Option.map_eq_some_iff.mp h
      cases h
      obtain ⟨hk, hm⟩ := LockTable.unlock_spec hT
      obtain ⟨hl, rfl⟩ := hc
      refine ⟨⟨by rw [hk]; exact hl, by simp⟩, fun k l h => by rw [hk]; exact h, fun m => ?_⟩
      have hm := hm m
      by_cases h : m = l <;> simp [owns, Waiter.owns, h] at hm ⊢ <;> omega
    | released =>
      cases h
      exact ⟨hc, fun _ _ h => h, fun m => rfl⟩
    | timedOut => cases h
  | cancel =>
    simp only [step] at h
    split at h
    · rename_i hpc
      cases h
      obtain rfl : pc = .select := hpc
      exact ⟨hc, fun _ _ h => h, fun m => by simp [owns]⟩
    · cases h
  | waiter =>
    obtain ⟨⟨T₁, v⟩, hv, h⟩ := Option.map_eq_some_iff.mp h
    cases h
    obtain ⟨hk, hidle, hidle', hm⟩ := Waiter.step_spec hv
    have hkeep : ∀ k l, T.locks k = some l → T₁.locks k = some l := fun k l h => by
      rw [hk]
      exact h
    refine ⟨?_, hkeep, fun m => ?_⟩
    · have htaken : waiter ≠ .taken := by
        rintro rfl
        cases hv
      cases pc with
      | lookup | create => exact absurd hc hidle
      | spawn => exact absurd hc.2 hidle
      | holding | drained | released => exact absurd hc.2 htaken
      | select | cancelled | timedOut => exact ⟨hkeep _ _ hc.1, hidle'⟩
    · have hm := hm m
      by_cases h : m = l <;> simp only [owns, h, if_true, if_false] at hm ⊢ <;> omega

end Steps

/-! ## Runs -/

/-- The label lets a caller whose context ended look for its helper's value only when that is
there to take. -/
def drainsHelper (c : State) : Move String Act → Bool
  | .move i .step =>
    match c.threads[i]? with
    | some t => if t.pc = .cancelled then t.waiter = .buffered else true
    | none => true
  | _ => true

/-- A new call of `TryAcquire` that runs alone, its context not ending, gets the slug. -/
def Obtainable (c : State) (slug : String) : Prop :=
  ∃ (as : List Act) (c' : State) (t : Acquire), Act.cancel ∉ as ∧
    pool.system.run c (.call slug :: as.map (.move c.threads.length)) = some c' ∧
      c'.threads[c.threads.length]? = some t ∧ t.holds slug = true

/-- A step under the condition does not leave a helper behind. -/
theorem Acquire.step_abandoned {c : State} {i : ℕ} {a : Act} {t t' : Acquire}
    {T : LockTable String} (hm : pool.Moves c i a t T t') (ht : t.Placed c.shared)
    (hok : drainsHelper c (.move i a) = true) (hQ : t.abandoned = false) : t'.abandoned = false := by
  have h := hm.step
  have hat := hm.at_
  obtain ⟨slug, pc, l, waiter⟩ := t
  cases a with
  | step =>
    cases pc with
    | cancelled =>
      obtain rfl : waiter = .buffered := by simpa [drainsHelper, hat] using hok
      cases h
      rfl
    | drained =>
      obtain ⟨-, rfl⟩ := ht
      obtain ⟨T₁, -, h⟩ := Option.map_eq_some_iff.mp h
      cases h
      rfl
    | holding | select =>
      obtain ⟨T₁, -, h⟩ := Option.map_eq_some_iff.mp h
      cases h
      rfl
    | lookup =>
      simp only [pool, step, ownStep] at h
      split at h <;> cases h <;> rfl
    | create | spawn | released =>
      cases h
      rfl
    | timedOut => cases h
  | cancel =>
    simp only [pool, step] at h
    split at h
    · cases h
      rfl
    · cases h
  | waiter =>
    obtain ⟨⟨T₁, v⟩, hv, h⟩ := Option.map_eq_some_iff.mp h
    cases h
    cases pc with
    | timedOut =>
      obtain rfl : waiter = .taken := by simpa [abandoned] using hQ
      cases hv
    | _ => rfl

section Runs

variable {c : State} {ok : State → Move String Act → Prop}

theorem pool_placed (ok : State → Move String Act → Prop) :
    pool.Sound ok (fun _ => True) (fun _ => True) (fun T c => c.Placed T) fun _ _ => True where
  init _ _ := trivial
  start _ _ _ := rfl
  symm _ _ _ := trivial
  startPair _ _ := trivial
  shared _ _ _ _ _ := trivial
  own hm _ _ _ hQ := (Acquire.step_spec hm.step hQ).1
  frame hm _ _ _ hQ _ _ _ hu := hu.mono (Acquire.step_spec hm.step hQ).2.1
  pair _ _ _ _ _ _ _ _ _ := trivial

theorem placed (h : pool.system.Reach ok c) : ∀ t ∈ c.threads, t.Placed c.shared :=
  ((pool_placed ok).holds (fun _ _ => trivial) h).thread

theorem locked_eq (h : pool.system.Reach ok c) (l : ℕ) :
    (c.shared.locked l).toNat = (c.threads.map (Acquire.owns l)).sum := by
  refine Pool.conserved (Q := fun T c => c.Placed T) (f := fun T : LockTable String =>
    (T.locked l).toNat) (fun c hc => placed hc) ?_ ?_ ?_ h
  · rintro T rfl
    rfl
  · intro slug
    simp [pool, Acquire.owns, Waiter.owns]
  · intro T t a T' t' hs ht _
    exact (Acquire.step_spec hs ht).2.2 l

/-- **One holder.** At most one caller at a time holds a slug. -/
theorem holder_unique (h : pool.system.Reach ok c) (slug : String) :
    c.threads.countP (Acquire.holds slug) ≤ 1 := by
  refine c.shared.exclusive (locked_eq h) (fun t ht k hin => ?_) slug
  have hp := placed h t ht
  obtain ⟨slug', pc, l, waiter⟩ := t
  obtain ⟨rfl, rfl⟩ : slug' = k ∧ pc = .holding := by simpa [Acquire.holds] using hin
  exact ⟨l, hp.1, by simp [Acquire.owns]⟩

/-- **What stays locked.** Once all calls are over, a mutex is locked exactly when a caller left
its helper behind with it. -/
theorem locked_iff_abandoned (h : pool.system.Reach ok c) (hq : Quiescent c) (l : ℕ) :
    c.shared.locked l = true ↔ ∃ t ∈ c.threads, t.lock = l ∧ t.abandoned = true := by
  have hsum := locked_eq h l
  have howns : ∀ t ∈ c.threads, t.owns l ≠ 0 ↔ t.lock = l ∧ t.abandoned = true := by
    intro t ht
    have hp := placed h t ht
    have hover := hq t ht
    obtain ⟨slug, pc, l', waiter⟩ := t
    by_cases hl : l = l'
    · subst hl
      cases pc with
      | timedOut =>
        cases waiter with
        | idle => exact absurd rfl hp.2
        | locking | sending => simp [Acquire.isOver] at hover
        | buffered | taken => simp [Acquire.owns, Acquire.abandoned, Waiter.owns]
      | released =>
        obtain ⟨-, rfl⟩ := hp
        simp [Acquire.owns, Acquire.abandoned, Waiter.owns]
      | _ => simp [Acquire.isOver] at hover
    · simp [Acquire.owns, hl, Ne.symm hl]
  constructor
  · intro hlocked
    by_contra hnone
    have hzero : (c.threads.map (Acquire.owns l)).sum = 0 := by
      refine List.sum_eq_zero fun n hn => ?_
      obtain ⟨t, ht, rfl⟩ := List.mem_map.mp hn
      by_contra hne
      exact hnone ⟨t, ht, (howns t ht).mp hne⟩
    simp [hlocked, hzero] at hsum
  · rintro ⟨t, ht, habandoned⟩
    have hne := (howns t ht).mpr habandoned
    have hle := le_sum_map (w := Acquire.owns l) ht
    by_contra hfree
    simp only [Bool.not_eq_true] at hfree
    simp only [hfree, Bool.toNat_false] at hsum
    omega

/-- Under the condition nobody leaves a helper behind. -/
theorem not_abandoned (h : pool.system.Reach (fun c a => drainsHelper c a = true) c) :
    ∀ t ∈ c.threads, t.abandoned = false := by
  have hP : pool.Sound (fun c a => drainsHelper c a = true)
      (fun c => ∀ t ∈ c.threads, t.Placed c.shared) (fun _ => True)
      (fun _ t => t.abandoned = false) fun _ _ => True :=
    { init := fun _ _ => trivial
      start := fun _ _ _ => rfl
      symm := fun _ _ _ => trivial
      startPair := fun _ _ => trivial
      shared := fun _ _ _ _ _ => trivial
      own := fun hm hc hok _ hQ => Acquire.step_abandoned hm (hc _ (List.mem_of_getElem? hm.at_)) hok hQ
      frame := fun _ _ _ _ _ _ _ _ hu => hu
      pair := fun _ _ _ _ _ _ _ _ _ => trivial }
  exact (hP.holds (fun _ hc => placed hc) h).thread

/-- From the start of its helper a call that runs alone gets a free mutex. -/
theorem solo_spawn {T : LockTable String} {slug : String} {l : ℕ} (hk : T.locks slug = some l)
    (hl : T.locked l = false) :
    pool.solo T ⟨slug, .spawn, l, .idle⟩ [.step, .waiter, .waiter, .step] =
      some (T.put l true, ⟨slug, .holding, l, .taken⟩) := by
  simp [Pool.solo, pool, Acquire.step, Acquire.ownStep, Waiter.step, Waiter.recv,
    LockTable.lock_of_free hk hl]

/-- What a call that runs alone ends with, from where its lookup found or created mutex `l`. -/
theorem obtainable_of_solo {slug : String} {as : List Act} {T : LockTable String} {l : ℕ}
    (has : Act.cancel ∉ as)
    (hsolo : pool.solo c.shared (pool.start slug) as = some (T, ⟨slug, .holding, l, .taken⟩)) :
    Obtainable c slug := by
  refine ⟨as, ⟨T, c.threads ++ [⟨slug, .holding, l, .taken⟩]⟩, ⟨slug, .holding, l, .taken⟩, has,
    ?_, by simp, by simp [Acquire.holds]⟩
  rw [Pool.run_call, hsolo]
  rfl

/-- When no mutex is locked, a call that runs alone gets its slug. -/
theorem obtainable_of_free (hfree : ∀ l, c.shared.locked l = false) (slug : String) :
    Obtainable c slug := by
  cases hk : c.shared.locks slug with
  | some l =>
    suffices hsolo : pool.solo c.shared (pool.start slug) (.step :: [.step, .waiter, .waiter, .step]) =
        some (c.shared.put l true, ⟨slug, .holding, l, .taken⟩) from
      obtainable_of_solo (by decide) hsolo
    have hstep : pool.step c.shared (pool.start slug) .step =
        some (c.shared, ⟨slug, .spawn, l, .idle⟩) := by
      simp [pool, Acquire.step, Acquire.ownStep, hk]
    rw [Pool.solo, hstep]
    exact solo_spawn hk (hfree l)
  | none =>
    suffices hsolo : pool.solo c.shared (pool.start slug)
        (.step :: .step :: [.step, .waiter, .waiter, .step]) =
        some ((c.shared.getOrCreate slug).1.put (c.shared.getOrCreate slug).2 true,
          ⟨slug, .holding, (c.shared.getOrCreate slug).2, .taken⟩) from
      obtainable_of_solo (by decide) hsolo
    have hstep : pool.step c.shared (pool.start slug) .step =
        some (c.shared, ⟨slug, .create, 0, .idle⟩) := by
      simp [pool, Acquire.step, Acquire.ownStep, hk]
    rw [Pool.solo, hstep]
    exact solo_spawn (c.shared.getOrCreate_locks slug).1 (by simp [hfree])

/-- **The slug lock is free.** At most one caller at a time holds a slug; and in every run in which
each caller whose context ended finds its helper's value, once all calls are over every mutex is
free and a new caller that runs alone gets its slug. -/
theorem slug_lock_free (h : pool.system.Reach (fun c a => drainsHelper c a = true) c) :
    (∀ slug, c.threads.countP (Acquire.holds slug) ≤ 1) ∧
      (Quiescent c → (∀ l, c.shared.locked l = false) ∧ ∀ slug, Obtainable c slug) := by
  refine ⟨holder_unique h, fun hq => ?_⟩
  have hfree : ∀ l, c.shared.locked l = false := by
    intro l
    by_contra hl
    obtain ⟨t, ht, -, habandoned⟩ := (locked_iff_abandoned h hq l).mp (by simpa using hl)
    simp [not_abandoned h t ht] at habandoned
  exact ⟨hfree, obtainable_of_free hfree⟩

end Runs

/-! ## Concrete runs -/

/-- Two calls for one slug: the first gets it, the second's context ends while its helper waits. -/
def contended : List (Move String Act) :=
  [.call "core_mosquitto", .move 0 .step, .move 0 .step, .move 0 .step, .move 0 .waiter,
    .move 0 .waiter, .move 0 .step, .call "core_mosquitto", .move 1 .step, .move 1 .step,
    .move 1 .cancel, .move 1 .step]

/-- The first call releases, and the second's helper gets the mutex. -/
def abandoning : List (Move String Act) :=
  contended ++ [.move 0 .step, .move 1 .waiter, .move 1 .waiter]

/-- The second call's context ends when its helper has the mutex already. -/
def draining : List (Move String Act) :=
  [.call "core_mosquitto", .move 0 .step, .move 0 .step, .move 0 .step, .move 0 .waiter,
    .move 0 .waiter, .move 0 .step, .call "core_mosquitto", .move 1 .step, .move 1 .step,
    .move 0 .step, .move 1 .waiter, .move 1 .waiter, .move 1 .cancel, .move 1 .step,
    .move 1 .step]

theorem empty_init : pool.system.init ⟨.empty, []⟩ := ⟨rfl, rfl⟩

/-- The caller that gave up leaves the mutex locked: everybody is gone, and it is still held. -/
theorem abandoned_lock :
    ¬ ∀ c : State, pool.system.Reachable c → Quiescent c → ∀ l, c.shared.locked l = false := by
  intro hall
  obtain ⟨c, hc, hf⟩ := System.exists_of_runOk empty_init
    (by decide : (pool.system.run ⟨.empty, []⟩ abandoning).any
      (fun c => c.shared.locked 0 && c.threads.all Acquire.isOver) = true)
  obtain ⟨hlocked, hq⟩ := Bool.and_eq_true_iff.mp hf
  have hfree := hall c hc.reachable (List.all_eq_true.mp hq) 0
  simp [hlocked] at hfree

/-- The condition is met when the helper has the mutex before its caller gives up. -/
theorem slug_lock_free_drained :
    ∃ c : State, pool.system.runOk drainsHelper ⟨.empty, []⟩ draining = some c ∧ Quiescent c ∧
      (∀ slug, c.threads.countP (Acquire.holds slug) ≤ 1) ∧
        (∀ l, c.shared.locked l = false) ∧ ∀ slug, Obtainable c slug := by
  obtain ⟨c, hc, hover⟩ := (Option.any_eq_true _ _).mp
    (by decide : (pool.system.runOk drainsHelper ⟨.empty, []⟩ draining).any
      (fun c => c.threads.all Acquire.isOver) = true)
  have hq : Quiescent c := List.all_eq_true.mp hover
  obtain ⟨hone, hfree⟩ := slug_lock_free (System.reach_of_runOk (.init empty_init) hc)
  exact ⟨c, hc, hq, hone, hfree hq⟩

end HaAddons.Bridge.SlugMutex
