import HaAddons.Auth.TokenStore

/-!
# A rotation that fails

`Rotate` replaces the token file, then the grace file, then publishes. When it fails between the
two renames, the token file already holds the hash of a token nobody was told, and the grace file
does not hold the hash of the old one (`lockout_after_restart`).

* `failed_rotation_iff` — a `Rotate` that returns an error changes nothing for the running process.
  It changes nothing for a restarted one exactly when it fails no later than at the rename of the
  token file (up to two degenerate cases).
-/

namespace HaAddons.Auth

variable {s s₀ s' : Store} {t t' : Rotation} {a : RotateAct}

/-- How far a call that began on `s₀` and runs alone has changed the store. -/
structure Rotation.Progress (s₀ s : Store) (t : Rotation) : Prop where
  mem : t.pc ≠ .returned → s.mem = s₀.mem
  token : s.dir.token =
    if t.pc.renamed then some (tokenHash t.newPlaintext) else s₀.dir.token
  grace : s.dir.grace =
    if t.pc.graceRenamed then some (.lines t.prevHash (t.expiresAt / second)) else s₀.dir.grace
  failed : ∀ err, t.pc ≠ .failed .publish err

theorem Rotation.Progress.start (s : Store) : Rotation.Progress s s {} where
  mem _ := rfl
  token := rfl
  grace := rfl
  failed := by simp

theorem Rotation.Progress.step (hp : t.Progress s₀ s) (h : t.step s a = some (s', t')) :
    t'.Progress s₀ s' := by
  rcases Rotation.step_cases h with ⟨rfl, hq⟩ | ⟨hpc, rfl, rfl⟩ | ⟨hpc, rfl, rfl⟩ | ⟨hpc, rfl, rfl⟩
  · refine ⟨fun _ => hp.mem (Rotation.not_returned h), ?_, ?_, hq.failed⟩
    · rw [hp.token, hq.renamed]
      split
      · rename_i hr
        rw [hq.newPlaintext hr]
      · rfl
    · rw [hp.grace, hq.graceRenamed]
      split
      · rename_i hr
        obtain ⟨hprev, hexp⟩ := hq.entry hr
        rw [hprev, hexp]
      · rfl
  · refine ⟨fun _ => hp.mem (by simp [hpc]), rfl, ?_, by simp⟩
    rw [hp.grace, hpc]
    rfl
  · refine ⟨fun _ => hp.mem (by simp [hpc]), ?_, rfl, by simp⟩
    show s.dir.token = _
    rw [hp.token, hpc]
    rfl
  · refine ⟨fun hne => absurd rfl hne, ?_, ?_, by simp⟩
    · show s.dir.token = _
      rw [hp.token, hpc]
      rfl
    · show s.dir.grace = _
      rw [hp.grace, hpc]
      rfl

/-- **What a failed call leaves.** Memory and the grace file are as before, and so is the token file
unless the call got past its rename. -/
theorem failed_rotation {as : List RotateAct} {k : RotateStep} {err : String}
    (h : pool.solo s₀ (pool.start ()) as = some (s, t)) (hf : t.pc = .failed k err) :
    s.mem = s₀.mem ∧ s.dir.grace = s₀.dir.grace ∧
      s.dir.token = if k.afterRename then some (tokenHash t.newPlaintext) else s₀.dir.token := by
  have hp : t.Progress s₀ s :=
    Pool.solo_invariant (fun _ _ _ _ _ hp h => hp.step h) (.start s₀) h
  have hk : k ≠ .publish := fun hk => hp.failed err (hk ▸ hf)
  refine ⟨hp.mem (by simp [hf]), ?_, ?_⟩
  · rw [hp.grace, hf]
    simp [RotatePc.graceRenamed, hk]
  · rw [hp.token, hf]
    rfl

/-! ## Restarting -/

/-- `readGraceFile` fails on the file, so no process starts on the directory. -/
def Dir.GraceUnreadable (dir : Dir) : Prop := ∃ err, readGraceFile dir.grace = .error (.failed err)

theorem Dir.load_token {dir : Dir} {m : Mem} {h : Bytes} (hl : newFileTokenStore dir = .ok m)
    (hm : m.hash = some h) : dir.token = some h := by
  unfold newFileTokenStore readHashFile at hl
  cases ht : dir.token with
  | none =>
    simp only [ht] at hl
    cases hl
    cases hm
  | some b =>
    simp only [ht] at hl
    by_cases hb : b.length ≠ 32
    · simp [hb] at hl
    · simp only [hb, if_false] at hl
      split at hl <;> cases hl <;> exact hm

/-- What a start makes of a token file that holds a token's hash. -/
theorem load_hashed (plaintext : String) (grace : Option GraceFile) :
    newFileTokenStore ⟨some (tokenHash plaintext), grace⟩ =
      match readGraceFile grace with
      | .error .notExist => .ok ⟨some (tokenHash plaintext), none⟩
      | .error (.failed err) => .error ("auth: load grace: " ++ err)
      | .ok g => .ok ⟨some (tokenHash plaintext), some g⟩ := by
  have hread : readHashFile (some (tokenHash plaintext)) = .ok (tokenHash plaintext) :=
    if_neg (by rw [length_tokenHash]; simp)
  cases hg : readGraceFile grace with
  | error e => cases e <;> simp [newFileTokenStore, hread, hg]
  | ok g => simp [newFileTokenStore, hread, hg]

/-- What a start makes of the files a call wrote. -/
theorem load_rotated (plaintext : String) (prevHash : Bytes) (expiresAt : ℤ) :
    (prevHash = [] ∧ ∃ err, newFileTokenStore ⟨some (tokenHash plaintext),
        some (.lines prevHash expiresAt)⟩ = .error err) ∨
      prevHash ≠ [] ∧ newFileTokenStore ⟨some (tokenHash plaintext),
        some (.lines prevHash expiresAt)⟩ =
          .ok ⟨some (tokenHash plaintext), some ⟨prevHash, expiresAt * second⟩⟩ := by
  rw [load_hashed]
  cases prevHash with
  | nil => exact .inl ⟨rfl, _, rfl⟩
  | cons b prevHash => exact .inr ⟨by simp, rfl⟩

/-- A start on the hash of a token accepts that token, if the grace file can be read at all. -/
theorem accepts_hashed {plaintext : String} {dir : Dir}
    (ht : dir.token = some (tokenHash plaintext)) (hg : ¬dir.GraceUnreadable) (now : Time) :
    dir.Accepts now plaintext := by
  obtain ⟨token, grace⟩ := dir
  obtain rfl : token = some (tokenHash plaintext) := ht
  unfold Dir.Accepts
  rw [load_hashed]
  cases hr : readGraceFile grace with
  | error e =>
    cases e with
    | notExist => exact ⟨_, rfl, Mem.accepts_iff.mpr (.inl rfl)⟩
    | failed err => exact absurd ⟨err, hr⟩ hg
  | ok g => exact ⟨_, rfl, Mem.accepts_iff.mpr (.inl rfl)⟩

theorem not_accepts_unreadable {dir : Dir} (hg : dir.GraceUnreadable) (now : Time)
    (plaintext : String) : ¬dir.Accepts now plaintext := by
  obtain ⟨err, hg⟩ := hg
  rintro ⟨m, hl, hm⟩
  have hnone : m.hash = none := by
    unfold newFileTokenStore at hl
    split at hl
    · cases hl
      rfl
    · cases hl
    · rw [hg] at hl
      cases hl
  simp [Mem.accepts_iff, hnone] at hm

/-- A token that a start accepts at every time is the current one. -/
theorem token_of_accepts_always {dir : Dir} {plaintext : String}
    (h : ∀ now, dir.Accepts now plaintext) : dir.token = some (tokenHash plaintext) := by
  obtain ⟨m, hl, -⟩ := h 0
  have hm : ∀ now, m.Accepts now plaintext := by
    intro now
    obtain ⟨m', hl', hm'⟩ := h now
    rw [hl] at hl'
    cases hl'
    exact hm'
  cases hg : m.grace with
  | none =>
    rcases Mem.accepts_iff.mp (hm 0) with hc | ⟨-, g, hg', -⟩
    · exact Dir.load_token hl hc
    · simp [hg] at hg'
  | some g =>
    -- At its expiry the grace entry no longer counts.
    rcases Mem.accepts_iff.mp (hm g.expiresAt) with hc | ⟨-, g', hg', hlt, -⟩
    · exact Dir.load_token hl hc
    · rw [hg] at hg'
      cases hg'
      exact absurd hlt (lt_irrefl _)

/-- Replacing the token file by the hash of a token changes what a start accepts, unless nothing
can start or the hash is there already. -/
theorem replace_token_iff (dir : Dir) (plaintext : String) :
    (∀ now p, ({ dir with token := some (tokenHash plaintext) } : Dir).Accepts now p ↔
        dir.Accepts now p) ↔
      dir.GraceUnreadable ∨ dir.token = some (tokenHash plaintext) := by
  -- Whether the grace file can be read does not depend on the token file.
  have hsame : ({ dir with token := some (tokenHash plaintext) } : Dir).GraceUnreadable ↔
      dir.GraceUnreadable := Iff.rfl
  constructor
  · intro h
    by_cases hg : dir.GraceUnreadable
    · exact .inl hg
    · refine .inr (token_of_accepts_always fun now => (h now plaintext).mp ?_)
      exact accepts_hashed rfl (mt hsame.mp hg) now
  · rintro (hg | ht) now p
    · exact iff_of_false (not_accepts_unreadable (hsame.mpr hg) now p)
        (not_accepts_unreadable hg now p)
    · rw [← ht]

/-- The failure leaves what a restart accepts as it was: the call fails no later than at the rename
of the token file, or no process starts on the directory anyway, or the token it drew is the one
already there. -/
def Harmless (dir : Dir) (k : RotateStep) (newPlaintext : String) : Prop :=
  k.afterRename = false ∨ dir.GraceUnreadable ∨ dir.token = some (tokenHash newPlaintext)

/-- **Failed rotations.** When a `Rotate` that runs alone on any store returns an error, the running
process accepts the same tokens as before, and a restarted one does exactly if the failure is
harmless. -/
theorem failed_rotation_iff {as : List RotateAct} {k : RotateStep} {err : String}
    (h : pool.solo s₀ (pool.start ()) as = some (s, t)) (hf : t.pc = .failed k err) :
    (∀ now p, s.mem.Accepts now p ↔ s₀.mem.Accepts now p) ∧
      ((∀ now p, s.dir.Accepts now p ↔ s₀.dir.Accepts now p) ↔ Harmless s₀.dir k t.newPlaintext) := by
  obtain ⟨hmem, hgrace, htoken⟩ := failed_rotation h hf
  refine ⟨fun now p => by rw [hmem], ?_⟩
  have hdir : s.dir = ⟨s.dir.token, s₀.dir.grace⟩ := by rw [← hgrace]
  by_cases hk : k.afterRename = true
  · rw [if_pos hk] at htoken
    rw [hdir, htoken, replace_token_iff]
    simp [Harmless, hk]
  · rw [if_neg hk] at htoken
    rw [hdir, htoken]
    exact iff_of_true (fun now p => Iff.rfl) (.inl (by simpa using hk))

/-! ## A concrete failure -/

/-- 32 bytes of one value. -/
def sampleRaw (b : UInt8) : Bytes := List.replicate 32 b

def sampleToken (b : UInt8) : String := rawURLEncode (sampleRaw b)

/-- A store with a token and no grace. -/
def sampleStore : Store :=
  ⟨⟨some (tokenHash (sampleToken 1)), none⟩, ⟨some (tokenHash (sampleToken 1)), none⟩⟩

theorem sampleStore_init : pool.system.init ⟨sampleStore, []⟩ := ⟨load_hashed _ none, rfl⟩

theorem sampleTokens_differ : tokenHash (sampleToken 1) ≠ tokenHash (sampleToken 2) := by
  decide +kernel

/-- The call gets as far as creating the grace file's temporary file, and the disk is full. -/
def failingRotate : List RotateAct :=
  [.step, .random (sampleRaw 2), .step, .step, .step, .step, .step, .step, .now 0,
    .fail "no space left on device"]

/-- After the failure a restarted process rejects the old token. -/
theorem lockout_after_restart :
    ¬∀ c : State, pool.system.Reachable c → ∀ as s t k err,
      pool.solo c.shared (pool.start ()) as = some (s, t) → t.pc = .failed k err →
        (∀ now p, s.mem.Accepts now p ↔ c.shared.mem.Accepts now p) ∧
          ∀ now p, s.dir.Accepts now p ↔ c.shared.dir.Accepts now p := by
  intro hall
  have hrun : pool.solo sampleStore (pool.start ()) failingRotate =
      some (⟨sampleStore.mem, ⟨some (tokenHash (sampleToken 2)), none⟩⟩,
        ⟨.failed .graceTmp "auth: rotate grace tmp: no space left on device",
          tokenHash (sampleToken 1), sampleToken 2, graceWindow⟩) := rfl
  obtain ⟨-, hdir⟩ := hall ⟨sampleStore, []⟩ (.init sampleStore_init) _ _ _ _ _ hrun rfl
  obtain ⟨m, hm, hacc⟩ := (hdir 0 (sampleToken 1)).mpr
    ⟨_, sampleStore_init.1, Mem.accepts_iff.mpr (.inl rfl)⟩
  rw [load_hashed] at hm
  cases hm
  rcases Mem.accepts_iff.mp hacc with h | ⟨-, g, hg, -⟩
  · exact sampleTokens_differ (Option.some.inj h).symm
  · cases hg

/-- A call that fails before the rename of the token file is harmless. -/
theorem failed_rotation_iff_early :
    ∃ s t, pool.solo sampleStore (pool.start ())
        [.step, .random (sampleRaw 2), .fail "read-only file system"] = some (s, t) ∧
      (∀ now p, s.mem.Accepts now p ↔ sampleStore.mem.Accepts now p) ∧
        ∀ now p, s.dir.Accepts now p ↔ sampleStore.dir.Accepts now p := by
  have hrun : pool.solo sampleStore (pool.start ())
      [.step, .random (sampleRaw 2), .fail "read-only file system"] =
      some (sampleStore, ⟨.failed .createTmp "auth: rotate create tmp: read-only file system",
        tokenHash (sampleToken 1), sampleToken 2, 0⟩) := rfl
  obtain ⟨hmem, hdir⟩ := failed_rotation_iff hrun rfl
  exact ⟨_, _, hrun, hmem, hdir.mpr (.inl rfl)⟩

end HaAddons.Auth
