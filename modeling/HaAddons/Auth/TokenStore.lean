import HaAddons.Lib.Pool
import HaAddons.Lib.Sha256

/-!
# The token store

The bearer token of the runner and of the bridge. `TokenStore` keeps the hash of the current
token, and for a day after a rotation that of the previous one, twice: in memory, where `Validate`
looks, and in two files, which `NewFileTokenStore` reads at the next start.

`Rotate` is the program that matters. It takes no lock over its sixteen steps: it reads the hash in
memory, replaces the token file, replaces the grace file, and publishes both in memory. Calls are
threads of a pool, and each step may fail where the source checks for an error.

The grace file is kept as the two lines `readGraceFile` finds in it. The expiry is written in whole
seconds, so a restart loads it rounded down (`Mem.toSecond`).
-/

namespace HaAddons.Auth

abbrev Bytes := List UInt8

/-- An instant, in nanoseconds. -/
abbrev Time := ℤ

def second : ℤ := 10 ^ 9

def graceWindow : ℤ := 24 * 3600 * second

/-! ## Tokens -/

def hexDigit (n : ℕ) : Char := "0123456789abcdef".toList.getD n '0'

/-- `hex.EncodeToString`. -/
def hexEncode (bytes : Bytes) : String :=
  .ofList (bytes.flatMap fun b => [hexDigit (b.toNat / 16), hexDigit (b.toNat % 16)])

def base64Digit (n : ℕ) : Char :=
  "ABCDEFGHIJKLMNOPQRSTUVWXYZabcdefghijklmnopqrstuvwxyz0123456789-_".toList.getD n 'A'

def base64Chars : Bytes → List Char
  | a :: b :: c :: rest =>
    base64Digit (a.toNat / 4) :: base64Digit (a.toNat % 4 * 16 + b.toNat / 16) ::
      base64Digit (b.toNat % 16 * 4 + c.toNat / 64) :: base64Digit (c.toNat % 64) ::
        base64Chars rest
  | [a, b] =>
    [base64Digit (a.toNat / 4), base64Digit (a.toNat % 4 * 16 + b.toNat / 16),
      base64Digit (b.toNat % 16 * 4)]
  | [a] => [base64Digit (a.toNat / 4), base64Digit (a.toNat % 4 * 16)]
  | [] => []

/-- `base64.RawURLEncoding.EncodeToString`. -/
def rawURLEncode (bytes : Bytes) : String := .ofList (base64Chars bytes)

/-- `sha256.Sum256` of a token. -/
def tokenHash (plaintext : String) : Bytes := sha256 plaintext.toUTF8.data.toList

theorem length_tokenHash (plaintext : String) : (tokenHash plaintext).length = 32 :=
  length_sha256 _

def fingerprint (plaintext : String) : String := hexEncode ((tokenHash plaintext).take 8)

def hashFingerprint (hash : Bytes) : String :=
  if hash.length < 8 then "" else hexEncode (hash.take 8)

/-- Both fingerprints of a token agree. -/
theorem hashFingerprint_tokenHash (plaintext : String) :
    hashFingerprint (tokenHash plaintext) = fingerprint plaintext := by
  have h := length_tokenHash plaintext
  rw [hashFingerprint, if_neg (by omega)]
  rfl

/-! ## Memory and files -/

structure GraceEntry where
  prevHash : Bytes
  expiresAt : Time
  deriving DecidableEq, Repr

/-- The fields `mu` guards. -/
structure Mem where
  hash : Option Bytes
  grace : Option GraceEntry
  deriving DecidableEq, Repr

/-- What is in the grace file: the hex of a hash and a time in whole seconds, or a text that
`readGraceFile` makes nothing of. -/
inductive GraceFile where
  | lines (prevHash : Bytes) (expiresAt : ℤ)
  | malformed (err : String)
  deriving DecidableEq, Repr

/-- The token file and the grace file in `dataDir`. -/
structure Dir where
  token : Option Bytes
  grace : Option GraceFile
  deriving DecidableEq, Repr

inductive ReadError where
  | notExist
  | failed (err : String)
  deriving DecidableEq, Repr

/-- `readHashFile`; `notExist` is `ErrNoToken`. -/
def readHashFile : Option Bytes → Except ReadError Bytes
  | none => .error .notExist
  | some b =>
    if b.length ≠ 32 then
      .error (.failed s!"auth: hash file has wrong size {b.length} (want 32)")
    else .ok b

/-- `readGraceFile`. -/
def readGraceFile : Option GraceFile → Except ReadError GraceEntry
  | none => .error .notExist
  | some (.malformed err) => .error (.failed err)
  | some (.lines [] _) =>
    -- The first line is empty, and `%s` does not read past the end of a line.
    .error (.failed "auth: grace file format: unexpected newline")
  | some (.lines (b :: prevHash) expiresAt) => .ok ⟨b :: prevHash, expiresAt * second⟩

def newFileTokenStore (dir : Dir) : Except String Mem :=
  match readHashFile dir.token with
  | .error .notExist => .ok ⟨none, none⟩
  | .error (.failed err) => .error ("auth: load hash: " ++ err)
  | .ok hash =>
    match readGraceFile dir.grace with
    | .error .notExist => .ok ⟨some hash, none⟩
    | .error (.failed err) => .error ("auth: load grace: " ++ err)
    | .ok grace => .ok ⟨some hash, some grace⟩

inductive ValidateError where
  | invalidToken
  deriving DecidableEq, Repr

/-- `Validate`, on the fields it reads under the lock and the clock it reads after. -/
def Mem.validate (m : Mem) (now : Time) (plaintext : String) : Except ValidateError Unit :=
  match m.hash with
  | none => .error .invalidToken
  | some current =>
    if tokenHash plaintext = current then .ok ()
    else
      match m.grace with
      | none => .error .invalidToken
      | some grace =>
        if now < grace.expiresAt ∧ tokenHash plaintext = grace.prevHash then .ok ()
        else .error .invalidToken

/-- The running process accepts the token. -/
def Mem.Accepts (m : Mem) (now : Time) (plaintext : String) : Prop :=
  m.validate now plaintext = .ok ()

/-- A process started on these files accepts the token. -/
def Dir.Accepts (dir : Dir) (now : Time) (plaintext : String) : Prop :=
  ∃ m, newFileTokenStore dir = .ok m ∧ m.Accepts now plaintext

instance (m : Mem) (now : Time) (plaintext : String) : Decidable (m.Accepts now plaintext) :=
  inferInstanceAs (Decidable (m.validate now plaintext = .ok ()))

/-- Memory with the expiry rounded down to the second. -/
def Mem.toSecond (m : Mem) : Mem :=
  { m with grace := m.grace.map fun g => { g with expiresAt := g.expiresAt / second * second } }

theorem Mem.accepts_iff {m : Mem} {now : Time} {plaintext : String} :
    m.Accepts now plaintext ↔ m.hash = some (tokenHash plaintext) ∨
      m.hash ≠ none ∧ ∃ g, m.grace = some g ∧ now < g.expiresAt ∧
        tokenHash plaintext = g.prevHash := by
  unfold Accepts validate
  cases m.hash with
  | none => simp
  | some current =>
    by_cases hcur : tokenHash plaintext = current
    · simp [hcur]
    · cases m.grace <;> simp [hcur, Ne.symm hcur, eq_comm]

/-! ## Rotating -/

/-- The steps of `Rotate`, in their order. -/
inductive RotateStep where
  | readHash
  | generate
  | createTmp
  | write
  | sync
  | close
  | chmod
  | rename
  | clock
  | graceTmp
  | graceWrite
  | graceSync
  | graceClose
  | graceChmod
  | graceRename
  | publish
  deriving DecidableEq, Repr

/-- How the error of a step is wrapped; `none` for a step that returns no error. -/
def RotateStep.failure : RotateStep → Option String
  | .readHash | .clock | .publish => none
  | .generate => some "auth: rotate generate: auth: rand.Read: "
  | .createTmp => some "auth: rotate create tmp: "
  | .write => some "auth: rotate write: "
  | .sync => some "auth: rotate sync: "
  | .close => some "auth: rotate close: "
  | .chmod => some "auth: rotate chmod: "
  | .rename => some "auth: rotate rename: "
  | .graceTmp => some "auth: rotate grace tmp: "
  | .graceWrite => some "auth: rotate grace write: "
  | .graceSync => some "auth: rotate grace sync: "
  | .graceClose => some "auth: rotate grace close: "
  | .graceChmod => some "auth: rotate grace chmod: "
  | .graceRename => some "auth: rotate grace rename: "

inductive RotatePc where
  | doing (k : RotateStep)
  | returned
  | failed (k : RotateStep) (err : String)
  deriving DecidableEq, Repr

def RotateStep.next : RotateStep → RotatePc
  | .readHash => .doing .generate
  | .generate => .doing .createTmp
  | .createTmp => .doing .write
  | .write => .doing .sync
  | .sync => .doing .close
  | .close => .doing .chmod
  | .chmod => .doing .rename
  | .rename => .doing .clock
  | .clock => .doing .graceTmp
  | .graceTmp => .doing .graceWrite
  | .graceWrite => .doing .graceSync
  | .graceSync => .doing .graceClose
  | .graceClose => .doing .graceChmod
  | .graceChmod => .doing .graceRename
  | .graceRename => .doing .publish
  | .publish => .returned

/-- A call of `Rotate`: where it is, and its local variables. -/
structure Rotation where
  pc : RotatePc := .doing .readHash
  prevHash : Bytes := []
  newPlaintext : String := ""
  expiresAt : Time := 0
  deriving DecidableEq, Repr

structure RotateResult where
  newPlaintext : String
  oldTokenFP : String
  newTokenFP : String
  /-- In seconds. -/
  graceExpiresAt : ℤ
  deriving DecidableEq, Repr

/-- What the call returns, with no error. -/
def Rotation.result (t : Rotation) : RotateResult where
  newPlaintext := t.newPlaintext
  oldTokenFP := hashFingerprint t.prevHash
  newTokenFP := fingerprint t.newPlaintext
  graceExpiresAt := t.expiresAt / second

/-- The store in memory and its directory. Temporary files are left out: no start reads them. -/
structure Store where
  mem : Mem
  dir : Dir
  deriving DecidableEq, Repr

/-- What the environment decides: the random bytes, the clock, and whether a call fails. -/
inductive RotateAct where
  | step
  | random (raw : Bytes)
  | now (t : Time)
  | fail (err : String)
  deriving DecidableEq, Repr

/-- A step that works. -/
def Rotation.perform (s : Store) (t : Rotation) : RotateStep → RotateAct → Option (Store × Rotation)
  | .readHash, .step => some (s, { t with prevHash := s.mem.hash.getD [] })
  | .generate, .random raw =>
    if raw.length = 32 then some (s, { t with newPlaintext := rawURLEncode raw }) else none
  | .rename, .step => some ({ s with dir.token := some (tokenHash t.newPlaintext) }, t)
  | .clock, .now now => some (s, { t with expiresAt := now + graceWindow })
  | .graceRename, .step =>
    some ({ s with dir.grace := some (.lines t.prevHash (t.expiresAt / second)) }, t)
  | .publish, .step =>
    some ({ s with mem := ⟨some (tokenHash t.newPlaintext), some ⟨t.prevHash, t.expiresAt⟩⟩ }, t)
  | .generate, _ | .clock, _ => none
  | _, .step => some (s, t)
  | _, _ => none

def Rotation.step (s : Store) (t : Rotation) (a : RotateAct) : Option (Store × Rotation) :=
  match t.pc, a with
  | .doing k, .fail err => k.failure.map fun wrap => (s, { t with pc := .failed k (wrap ++ err) })
  | .doing k, a => (t.perform s k a).map fun r => (r.1, { r.2 with pc := k.next })
  | _, _ => none

/-- Calls of `Rotate` on a store that was started on its directory. -/
def pool : Pool Store Rotation Unit RotateAct where
  init s := newFileTokenStore s.dir = .ok s.mem
  start _ := {}
  step s t a := t.step s a

abbrev State := Config Store Rotation

/-- The steps of a call in which nothing fails: it draws `raw` and reads `now`. -/
def upToPublish (raw : Bytes) (now : Time) : List RotateAct :=
  [.step, .random raw, .step, .step, .step, .step, .step, .step, .now now, .step, .step, .step,
    .step, .step, .step]

def wholeCall (raw : Bytes) (now : Time) : List RotateAct := upToPublish raw now ++ [.step]

/-! ## What a step does -/

/-- The steps that come after the rename of the token file. -/
def RotateStep.afterRename (k : RotateStep) : Bool :=
  k = .clock || k = .graceTmp || k = .graceWrite || k = .graceSync || k = .graceClose ||
    k = .graceChmod || k = .graceRename || k = .publish

/-- The token file has been replaced. -/
def RotatePc.renamed : RotatePc → Bool
  | .doing k | .failed k _ => k.afterRename
  | .returned => true

/-- The grace file has been replaced. -/
def RotatePc.graceRenamed : RotatePc → Bool
  | .doing k | .failed k _ => k = .publish
  | .returned => true

section Steps

variable {s s' : Store} {t t' : Rotation} {a : RotateAct}

theorem Rotation.not_returned (h : t.step s a = some (s', t')) : t.pc ≠ .returned := by
  intro hpc
  unfold step at h
  split at h
  · rename_i hk
    rw [hpc] at hk
    cases hk
  · rename_i hk _
    rw [hpc] at hk
    cases hk
  · cases h

/-- A step that works goes on to the next one. -/
theorem Rotation.step_next {k : RotateStep} (h : t.step s .step = some (s', t'))
    (hpc : t.pc = .doing k) : t'.pc = k.next := by
  obtain ⟨pc, prevHash, newPlaintext, expiresAt⟩ := t
  obtain rfl : pc = .doing k := hpc
  obtain ⟨r, -, h⟩ := Option.map_eq_some_iff.mp h
  cases h
  rfl

/-- A step that leaves the store alone. What the call has already used of its variables stays. -/
structure Rotation.Quiet (t t' : Rotation) : Prop where
  pc : t'.pc ≠ .returned
  failed : ∀ err, t'.pc ≠ .failed .publish err
  renamed : t'.pc.renamed = t.pc.renamed
  graceRenamed : t'.pc.graceRenamed = t.pc.graceRenamed
  newPlaintext : t.pc.renamed = true → t'.newPlaintext = t.newPlaintext
  entry : t.pc.graceRenamed = true → t'.prevHash = t.prevHash ∧ t'.expiresAt = t.expiresAt

/-- The four things a step can do. -/
theorem Rotation.step_cases (h : t.step s a = some (s', t')) :
    (s' = s ∧ t.Quiet t') ∨
    (t.pc = .doing .rename ∧ t' = { t with pc := .doing .clock } ∧
      s' = { s with dir.token := some (tokenHash t.newPlaintext) }) ∨
    (t.pc = .doing .graceRename ∧ t' = { t with pc := .doing .publish } ∧
      s' = { s with dir.grace := some (.lines t.prevHash (t.expiresAt / second)) }) ∨
    (t.pc = .doing .publish ∧ t' = { t with pc := .returned } ∧
      s' = { s with mem := ⟨some (tokenHash t.newPlaintext), some ⟨t.prevHash, t.expiresAt⟩⟩ }) := by
  obtain ⟨pc, prevHash, newPlaintext, expiresAt⟩ := t
  cases pc with
  | returned | failed => cases a <;> cases h
  | doing k =>
    cases a with
    | fail err =>
      obtain ⟨wrap, hwrap, h⟩ := Option.map_eq_some_iff.mp h
      cases h
      refine .inl ⟨rfl, by simp, ?_, rfl, rfl, fun _ => rfl, fun _ => ⟨rfl, rfl⟩⟩
      rintro _ h
      cases h
      cases hwrap
    | step =>
      obtain ⟨⟨s₁, t₁⟩, hp, h⟩ := Option.map_eq_some_iff.mp h
      cases k with
      | rename =>
        cases hp
        cases h
        exact .inr (.inl ⟨rfl, rfl, rfl⟩)
      | graceRename =>
        cases hp
        cases h
        exact .inr (.inr (.inl ⟨rfl, rfl, rfl⟩))
      | publish =>
        cases hp
        cases h
        exact .inr (.inr (.inr ⟨rfl, rfl, rfl⟩))
      | generate | clock => cases hp
      | _ =>
        cases hp
        cases h
        exact .inl ⟨rfl, by simp [RotateStep.next], by simp [RotateStep.next], rfl, rfl, by simp,
          by simp [RotatePc.graceRenamed]⟩
    | random raw =>
      obtain ⟨⟨s₁, t₁⟩, hp, h⟩ := Option.map_eq_some_iff.mp h
      cases k with
      | generate =>
        obtain ⟨-, hp⟩ := Option.ite_none_right_eq_some.mp hp
        cases hp
        cases h
        exact .inl ⟨rfl, by simp [RotateStep.next], by simp [RotateStep.next], rfl, rfl,
          by simp [RotatePc.renamed, RotateStep.afterRename], by simp [RotatePc.graceRenamed]⟩
      | _ => cases hp
    | now now =>
      obtain ⟨⟨s₁, t₁⟩, hp, h⟩ := Option.map_eq_some_iff.mp h
      cases k with
      | clock =>
        cases hp
        cases h
        exact .inl ⟨rfl, by simp [RotateStep.next], by simp [RotateStep.next], rfl, rfl,
          fun _ => rfl, by simp [RotatePc.graceRenamed]⟩
      | _ => cases hp

end Steps

/-- **A call that works.** Alone on a store, it puts the new hash and the previous one in memory and
on disk. -/
theorem solo_wholeCall (s : Store) (raw : Bytes) (now : Time) :
    pool.solo s (pool.start ()) (wholeCall raw now) =
      if raw.length = 32 then
        some (⟨⟨some (tokenHash (rawURLEncode raw)),
              some ⟨s.mem.hash.getD [], now + graceWindow⟩⟩,
            ⟨some (tokenHash (rawURLEncode raw)),
              some (.lines (s.mem.hash.getD []) ((now + graceWindow) / second))⟩⟩,
          ⟨.returned, s.mem.hash.getD [], rawURLEncode raw, now + graceWindow⟩)
      else none := by
  have hread : pool.step s (pool.start ()) .step =
      some (s, ⟨.doing .generate, s.mem.hash.getD [], "", 0⟩) := rfl
  refine (Pool.solo_cons hread).trans ?_
  have hgenerate : pool.step s ⟨.doing .generate, s.mem.hash.getD [], "", 0⟩ (.random raw) =
      if raw.length = 32 then
        some (s, ⟨.doing .createTmp, s.mem.hash.getD [], rawURLEncode raw, 0⟩)
      else none := by
    show Option.map _ (if raw.length = 32 then some _ else none) = _
    split_ifs <;> rfl
  by_cases hraw : raw.length = 32
  · rw [if_pos hraw] at hgenerate ⊢
    exact (Pool.solo_cons hgenerate).trans rfl
  · rw [if_neg hraw] at hgenerate ⊢
    show (pool.step _ _ _).bind _ = none
    rw [hgenerate]
    rfl

end HaAddons.Auth
