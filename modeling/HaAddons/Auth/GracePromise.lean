import HaAddons.Auth.RotateFailure

/-!
# What a rotation promises

A `Rotate` that returns `GraceExpiresAt` promises that until then both the new token and the one
that was current before it are accepted. Here a process makes calls one after the other, restarts,
and time goes by.

There is room for one previous hash. A second rotation inside the window drops the token that the
first one promised to keep (`dropped_promise`).

* `promises_kept` — in every run in which no call is made while an earlier promise runs, and each
  restart finds files it can read, every promise is kept, across restarts.
-/

namespace HaAddons.Auth

/-- What a call promised: what it returned, and the hash that was current before it. -/
structure Promise where
  result : RotateResult
  oldHash : Option Bytes
  deriving DecidableEq, Repr

/-- Until when the promise runs. -/
def Promise.until (pr : Promise) : Time := pr.result.graceExpiresAt * second

/-- The process, its directory and the clock. `mem` is missing when the last start failed. No
program reads the promises. -/
structure Service where
  mem : Option Mem
  dir : Dir
  now : Time
  promises : List Promise
  deriving DecidableEq, Repr

/-- A call that draws `raw` and reads the clock at `t`, a restart, or time goes by. -/
inductive Event where
  | rotate (raw : Bytes) (t : Time)
  | restart
  | tick (t : Time)
  deriving DecidableEq, Repr

def Service.next (s : Service) : Event → Option Service
  | .rotate raw t =>
    if s.now ≤ t then
      s.mem.bind fun m =>
        (pool.solo ⟨m, s.dir⟩ (pool.start ()) (wholeCall raw t)).map fun r =>
          { mem := some r.1.mem
            dir := r.1.dir
            now := t
            promises := ⟨r.2.result, m.hash⟩ :: s.promises }
    else none
  | .restart => some { s with mem := (newFileTokenStore s.dir).toOption }
  | .tick t => if s.now ≤ t then some { s with now := t } else none

/-- A process that has started on its directory. -/
def service : System Service Event where
  init s := (∃ m, newFileTokenStore s.dir = .ok m ∧ s.mem = some m) ∧ s.promises = []
  next s e := s.next e

def Service.Accepts (s : Service) (plaintext : String) : Prop :=
  ∃ m, s.mem = some m ∧ m.Accepts s.now plaintext

/-- While the promise runs, the new token and every token that was current before are accepted. -/
def Service.Keeps (s : Service) (pr : Promise) : Prop :=
  s.now < pr.until → ∀ plaintext,
    tokenHash plaintext = tokenHash pr.result.newPlaintext ∨
      pr.oldHash = some (tokenHash plaintext) → s.Accepts plaintext

/-- No call is made while a promise runs, and a restart finds files it can read. -/
def inPeace (s : Service) : Event → Bool
  | .rotate _ t => s.promises.all fun pr => pr.until ≤ t
  | .restart => (newFileTokenStore s.dir).toOption.isSome
  | .tick _ => true

/-! ## The promise that runs -/

/-- The promise was made by the last call: memory and the files hold what it wrote. -/
structure Service.Current (s : Service) (pr : Promise) : Prop where
  mem : ∃ e, s.mem = some ⟨some (tokenHash pr.result.newPlaintext), some ⟨pr.oldHash.getD [], e⟩⟩ ∧
    pr.until ≤ e
  dir : s.dir = ⟨some (tokenHash pr.result.newPlaintext),
    some (.lines (pr.oldHash.getD []) pr.result.graceExpiresAt)⟩

/-- Every promise has run out or is the last call's. -/
def Service.Peaceful (s : Service) : Prop :=
  ∀ pr ∈ s.promises, pr.until ≤ s.now ∨ s.Current pr

variable {s s' : Service} {e : Event} {pr : Promise}

theorem Service.Current.keeps (h : s.Current pr) : s.Keeps pr := by
  intro hnow plaintext hp
  obtain ⟨exp, hm, hexp⟩ := h.mem
  refine ⟨_, hm, Mem.accepts_iff.mpr ?_⟩
  rcases hp with hnew | hold
  · exact .inl (by rw [hnew])
  · refine .inr ⟨by simp, _, rfl, lt_of_lt_of_le hnow hexp, ?_⟩
    rw [hold]
    rfl

/-- A restart on readable files finds the running promise. -/
theorem Service.Current.restart (h : s.Current pr) (hl : (newFileTokenStore s.dir).toOption.isSome) :
    Service.Current { s with mem := (newFileTokenStore s.dir).toOption } pr := by
  refine ⟨?_, h.dir⟩
  show ∃ e, (newFileTokenStore s.dir).toOption = _ ∧ _
  rw [h.dir] at hl ⊢
  rcases load_rotated pr.result.newPlaintext (pr.oldHash.getD []) pr.result.graceExpiresAt with
    ⟨-, err, hload⟩ | ⟨-, hload⟩
  · rw [hload] at hl
    cases hl
  · rw [hload]
    exact ⟨_, rfl, le_refl _⟩

/-- What a call leaves behind. -/
theorem Service.rotate_spec {raw : Bytes} {t : Time} (h : s.next (.rotate raw t) = some s') :
    s'.now = t ∧ ∃ pr, s'.promises = pr :: s.promises ∧ s'.Current pr := by
  obtain ⟨-, h⟩ := Option.ite_none_right_eq_some.mp h
  obtain ⟨m, hm, h⟩ := Option.bind_eq_some_iff.mp h
  obtain ⟨⟨st, th⟩, hsolo, rfl⟩ := Option.map_eq_some_iff.mp h
  rw [solo_wholeCall] at hsolo
  obtain ⟨-, hsolo⟩ := Option.ite_none_right_eq_some.mp hsolo
  cases hsolo
  refine ⟨rfl, _, rfl, ⟨_, rfl, ?_⟩, rfl⟩
  exact Int.ediv_mul_le _ (by decide)

theorem Service.Peaceful.step (hs : s.Peaceful) (hok : inPeace s e = true)
    (h : s.next e = some s') : s'.Peaceful := by
  intro pr hpr
  cases e with
  | rotate raw t =>
    obtain ⟨hnow, new, hnew, hcur⟩ := Service.rotate_spec h
    rw [hnew] at hpr
    rcases List.mem_cons.mp hpr with rfl | hpr
    · exact .inr hcur
    · have hrun : pr.until ≤ t := by simpa using List.all_eq_true.mp hok pr hpr
      exact .inl (by rw [hnow]; exact hrun)
  | restart =>
    obtain rfl := Option.some.inj h
    rcases hs pr hpr with hrun | hcur
    · exact .inl hrun
    · exact .inr (hcur.restart hok)
  | tick t =>
    obtain ⟨hle, h⟩ := Option.ite_none_right_eq_some.mp h
    obtain rfl := Option.some.inj h
    rcases hs pr hpr with hrun | hcur
    · exact .inl (le_trans hrun hle)
    · exact .inr ⟨hcur.mem, hcur.dir⟩

/-- **Promises are kept.** In every run in which no call is made while a promise runs and each
restart finds files it can read, every promise that runs is kept. -/
theorem promises_kept (h : service.Reach (fun s e => inPeace s e = true) s) :
    ∀ pr ∈ s.promises, s.Keeps pr := by
  have hs : s.Peaceful := by
    refine h.invariant (I := Service.Peaceful) ?_ fun s e s' hs hok hn => hs.step hok hn
    rintro s ⟨-, hn⟩ pr hpr
    rw [hn] at hpr
    cases hpr
  intro pr hpr
  rcases hs pr hpr with hrun | hcur
  · intro hnow
    exact absurd hnow (not_lt.mpr hrun)
  · exact hcur.keeps

/-! ## Concrete runs -/

/-- A process with a token and no grace, at time zero. -/
def sampleService : Service := ⟨some sampleStore.mem, sampleStore.dir, 0, []⟩

theorem sampleService_init : service.init sampleService :=
  ⟨⟨_, load_hashed _ none, rfl⟩, rfl⟩

theorem oldest_dropped : tokenHash (sampleToken 1) ≠ tokenHash (sampleToken 3) := by
  decide +kernel

/-- Two rotations in a row: the second drops the token that the first promised to keep. -/
theorem dropped_promise :
    ¬∀ s : Service, service.Reachable s → ∀ pr ∈ s.promises, s.Keeps pr := by
  intro hall
  obtain ⟨s, hs, hmem, hnow, pr, hpr, huntil, hold⟩ : ∃ s, service.run sampleService
      [.rotate (sampleRaw 2) 0, .rotate (sampleRaw 3) 0] = some s ∧
        s.mem = some ⟨some (tokenHash (sampleToken 3)),
          some ⟨tokenHash (sampleToken 2), graceWindow⟩⟩ ∧ s.now = 0 ∧
        ∃ pr ∈ s.promises, pr.until = graceWindow ∧
          pr.oldHash = some (tokenHash (sampleToken 1)) :=
    ⟨_, rfl, rfl, rfl, _, List.mem_cons_of_mem _ List.mem_cons_self, rfl, rfl⟩
  obtain ⟨m, hm, hacc⟩ := hall s (System.reachable_of_run sampleService_init hs) pr hpr
    (by rw [hnow, huntil]; decide) (sampleToken 1) (.inr hold)
  rw [hmem] at hm
  cases hm
  rcases Mem.accepts_iff.mp hacc with h | ⟨-, g, hg, -, h⟩
  · exact oldest_dropped (Option.some.inj h).symm
  · cases hg
    exact sampleTokens_differ h

/-- A rotation, a restart, and a second rotation a day later. -/
def daily : List Event :=
  [.rotate (sampleRaw 2) 0, .restart, .rotate (sampleRaw 3) graceWindow, .tick graceWindow]

theorem promises_kept_daily :
    ∃ s, service.runOk inPeace sampleService daily = some s ∧ s.promises.length = 2 ∧
      ∀ pr ∈ s.promises, s.Keeps pr := by
  obtain ⟨s, hrun, hs⟩ := (Option.any_eq_true _ _).mp
    (by decide +kernel : (service.runOk inPeace sampleService daily).any
      (fun s => s.promises.length = 2) = true)
  exact ⟨s, hrun, of_decide_eq_true hs,
    promises_kept (System.reach_of_runOk (.init sampleService_init) hrun)⟩

end HaAddons.Auth
