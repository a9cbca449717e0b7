import HaAddons.Lib.Pool
import Mathlib.Logic.Function.Basic

/-!
# Per-key mutexes and the goroutine that waits for one

Two parts of the repository keep a map from names to mutexes, fill it on first use under a
read lock that is upgraded to a write lock, and wait for a mutex in a helper goroutine so that
the caller can give up.

* `LockTable` — the map and the mutexes it points to. Mutexes have an identity, so overwriting
  an entry would be visible: two keys never share a mutex (`inj`), and an entry never changes
  (`getOrCreate_locks`).
* `Waiter` — the goroutine `lock.Lock(); ch <- struct{}{}` with a channel of capacity one.
* `LockTable.exclusive` — if the held mutexes are accounted for by the threads' ownership, at
  most one thread at a time holds the mutex of a key.
-/

namespace HaAddons

/-- Mutexes created on demand: `locks` is the map, `mutexes` the mutexes it points to. -/
structure LockTable (κ : Type*) where
  locks : κ → Option ℕ
  mutexes : List Bool
  bound : ∀ k l, locks k = some l → l < mutexes.length
  inj : ∀ k k' l, locks k = some l → locks k' = some l → k = k'

namespace LockTable

variable {κ : Type*}

/-- No mutex has been created yet. -/
def empty : LockTable κ where
  locks _ := none
  mutexes := []
  bound := by simp
  inj := by simp

/-- Somebody holds the mutex. -/
def locked (T : LockTable κ) (l : ℕ) : Bool := T.mutexes[l]?.getD false

/-- The table with one mutex set to held or free. -/
def put (T : LockTable κ) (l : ℕ) (b : Bool) : LockTable κ :=
  { T with
    mutexes := T.mutexes.set l b
    bound := by simpa using T.bound }

/-- `Lock`; `none` while somebody holds the mutex. -/
def lock (T : LockTable κ) (l : ℕ) : Option (LockTable κ) :=
  if T.mutexes[l]? = some false then some (T.put l true) else none

/-- `Unlock`; `none` on a mutex nobody holds, a fatal error in Go. -/
def unlock (T : LockTable κ) (l : ℕ) : Option (LockTable κ) :=
  if T.mutexes[l]? = some true then some (T.put l false) else none

@[simp] theorem locked_empty (l : ℕ) : (empty : LockTable κ).locked l = false := rfl

theorem put_locked (T : LockTable κ) {l : ℕ} {b b' : Bool} (h : T.mutexes[l]? = some b) (m : ℕ) :
    (T.put l b').locked m = if m = l then b' else T.locked m := by
  by_cases hm : m = l
  · subst hm
    obtain ⟨hl, -⟩ := List.getElem?_eq_some_iff.mp h
    simp [locked, put, hl]
  · simp [locked, put, hm, List.getElem?_set_ne (Ne.symm hm)]

theorem locked_of_getElem? {T : LockTable κ} {l : ℕ} {b : Bool} (h : T.mutexes[l]? = some b) :
    T.locked l = b := by
  simp [locked, h]

/-- `Lock` goes through on the mutex of a key when nobody holds it. -/
theorem lock_of_free {T : LockTable κ} {k : κ} {l : ℕ} (hk : T.locks k = some l)
    (hl : T.locked l = false) : T.lock l = some (T.put l true) := by
  have hb := T.bound k l hk
  have hget : T.mutexes[l]? = some false := by
    rw [List.getElem?_eq_getElem hb] at *
    simpa [locked, List.getElem?_eq_getElem hb] using hl
  simp [lock, hget]

/-- Locking takes the mutex: one more unit is held of it, and of no other. -/
theorem lock_spec {T T' : LockTable κ} {l : ℕ} (h : T.lock l = some T') :
    T'.locks = T.locks ∧
      ∀ m, (T'.locked m).toNat = (T.locked m).toNat + if m = l then 1 else 0 := by
  unfold lock at h
  split at h
  · rename_i hl
    cases h
    refine ⟨rfl, fun m => ?_⟩
    rw [put_locked T hl]
    by_cases hm : m = l
    · subst hm
      simp [locked_of_getElem? hl]
    · simp [hm]
  · cases h

/-- Unlocking gives the mutex back. -/
theorem unlock_spec {T T' : LockTable κ} {l : ℕ} (h : T.unlock l = some T') :
    T'.locks = T.locks ∧
      ∀ m, (T'.locked m).toNat + (if m = l then 1 else 0) = (T.locked m).toNat := by
  unfold unlock at h
  split at h
  · rename_i hl
    cases h
    refine ⟨rfl, fun m => ?_⟩
    rw [put_locked T hl]
    by_cases hm : m = l
    · subst hm
      simp [locked_of_getElem? hl]
    · simp [hm]
  · cases h

/-- `Unlock` goes through on a mutex that is held. -/
theorem unlock_isSome {T : LockTable κ} {l : ℕ} (h : T.locked l = true) :
    (T.unlock l).isSome = true := by
  unfold locked at h
  cases hl : T.mutexes[l]? with
  | none => simp [hl] at h
  | some b =>
    obtain rfl : b = true := by simpa [hl] using h
    simp [unlock, hl]

section Create

variable [DecidableEq κ]

/-- The write-locked half of the lookup: re-check the entry, create it when still missing. -/
def getOrCreate (T : LockTable κ) (k : κ) : LockTable κ × ℕ :=
  match T.locks k with
  | some l => (T, l)
  | none =>
    ({ locks := Function.update T.locks k (some T.mutexes.length)
       mutexes := T.mutexes ++ [false]
       bound := by
        intro k' l hl
        by_cases hk : k' = k
        · subst hk
          simp only [Function.update_self, Option.some.injEq] at hl
          simp [← hl]
        · rw [Function.update_of_ne hk] at hl
          have := T.bound k' l hl
          simp only [List.length_append, List.length_singleton]
          omega
       inj := by
        intro k₁ k₂ l h₁ h₂
        by_cases e₁ : k₁ = k <;> by_cases e₂ : k₂ = k
        · rw [e₁, e₂]
        · subst e₁
          simp only [Function.update_self, Option.some.injEq] at h₁
          rw [Function.update_of_ne e₂] at h₂
          have := T.bound _ _ h₂
          omega
        · subst e₂
          simp only [Function.update_self, Option.some.injEq] at h₂
          rw [Function.update_of_ne e₁] at h₁
          have := T.bound _ _ h₁
          omega
        · rw [Function.update_of_ne e₁] at h₁
          rw [Function.update_of_ne e₂] at h₂
          exact T.inj _ _ _ h₁ h₂ }, T.mutexes.length)

/-- The lookup finds the mutex it returns, and leaves every existing entry as it was. -/
theorem getOrCreate_locks (T : LockTable κ) (k : κ) :
    (T.getOrCreate k).1.locks k = some (T.getOrCreate k).2 ∧
      ∀ k' l, T.locks k' = some l → (T.getOrCreate k).1.locks k' = some l := by
  unfold getOrCreate
  split
  · rename_i l hl
    exact ⟨hl, fun _ _ h => h⟩
  · rename_i hn
    refine ⟨by simp, fun k' l h => ?_⟩
    have hk : k' ≠ k := by
      rintro rfl
      simp [hn] at h
    simpa [Function.update_of_ne hk] using h

/-- A mutex is created free. -/
@[simp] theorem getOrCreate_locked (T : LockTable κ) (k : κ) (l : ℕ) :
    (T.getOrCreate k).1.locked l = T.locked l := by
  unfold getOrCreate
  split
  · rfl
  · simp only [locked]
    rcases Nat.lt_trichotomy l T.mutexes.length with h | h | h
    · rw [List.getElem?_append_left h]
    · simp [h]
    · have hlen : (T.mutexes ++ [false]).length ≤ l := by simpa using Nat.succ_le_of_lt h
      rw [List.getElem?_eq_none hlen, List.getElem?_eq_none (Nat.le_of_lt h)]

end Create

/-- **Per-key exclusion.** When every held mutex is owned by exactly the threads' shares, and a
thread inside the critical section of `k` owns the mutex of `k`, at most one thread is inside. -/
theorem exclusive {τ : Type*} (T : LockTable κ) {threads : List τ} {inside : κ → τ → Bool}
    {owns : ℕ → τ → ℕ} (hsum : ∀ l, (T.locked l).toNat = (threads.map (owns l)).sum)
    (hown : ∀ t ∈ threads, ∀ k, inside k t = true → ∃ l, T.locks k = some l ∧ 1 ≤ owns l t)
    (k : κ) : threads.countP (inside k) ≤ 1 := by
  cases hk : T.locks k with
  | none =>
    have hnone : threads.countP (inside k) = 0 := by
      refine List.countP_eq_zero.mpr fun t ht hin => ?_
      obtain ⟨l, hl, -⟩ := hown t ht k hin
      simp [hk] at hl
    omega
  | some l =>
    have hle : threads.countP (inside k) ≤ (threads.map (owns l)).sum := by
      refine countP_le_sum_map fun t ht hin => ?_
      obtain ⟨l', hl', h1⟩ := hown t ht k hin
      obtain rfl : l = l' := by simpa [hk] using hl'
      exact h1
    have := Bool.toNat_le (T.locked l)
    have := hsum l
    omega

end LockTable

/-! ## The waiting goroutine -/

/-- Where `go func() { lock.Lock(); ch <- struct{}{} }()` is. The channel has room for the one
value, so the goroutine is gone once it has sent. -/
inductive Waiter where
  | idle
  | locking
  | sending
  | buffered
  | taken
  deriving DecidableEq, Repr

namespace Waiter

variable {κ : Type*}

/-- A step of the goroutine itself. -/
def step (T : LockTable κ) (l : ℕ) : Waiter → Option (LockTable κ × Waiter)
  | .locking => (T.lock l).map fun T' => (T', .sending)
  | .sending => some (T, .buffered)
  | _ => none

/-- Receive from the channel. -/
def recv : Waiter → Option Waiter
  | .buffered => some .taken
  | _ => none

/-- The mutex is held on behalf of the goroutine or of the value it left in the channel. -/
def owns : Waiter → ℕ
  | .sending | .buffered => 1
  | _ => 0

theorem step_spec {T T' : LockTable κ} {l : ℕ} {v v' : Waiter}
    (h : v.step T l = some (T', v')) :
    T'.locks = T.locks ∧ v ≠ .idle ∧ v' ≠ .idle ∧
      ∀ m, (T'.locked m).toNat + (if m = l then v.owns else 0) =
        (T.locked m).toNat + if m = l then v'.owns else 0 := by
  cases v with
  | locking =>
    obtain ⟨T₁, hl, h⟩ := Option.map_eq_some_iff.mp h
    cases h
    obtain ⟨hk, hm⟩ := LockTable.lock_spec hl
    refine ⟨hk, by simp, by simp, fun m => ?_⟩
    have := hm m
    by_cases h : m = l <;> simp [h, owns] at this ⊢ <;> omega
  | sending =>
    cases h
    exact ⟨rfl, by simp, by simp, fun m => rfl⟩
  | idle | buffered | taken => cases h

theorem recv_eq_some {v v' : Waiter} : v.recv = some v' ↔ v = .buffered ∧ v' = .taken := by
  cases v <;> simp [recv, eq_comm]

end Waiter

end HaAddons
