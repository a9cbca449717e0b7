import HaAddons.SecretsSync.FailedCycles

/-!
# The shrink guard over whole histories

A cycle compares the number of its items with that of the last write. This number is kept in three
places: `_last_items` is set when secrets.yaml has been written, `state.items` when the cycle ends
well, and state.json when it ends in any way. A new process takes `_last_items` from state.json, if
that says that there was ever a success.

* `shrink_guarded` — in every history of cycles and restarts without I/O errors, secrets.yaml is never
  written without items, and an unforced write has at least the allowed share of the items of the
  write before it, whichever process made that.
-/

namespace HaAddons.SecretsSync

/-! ## What the two writers do to secrets.yaml -/

/-- The operation replaces neither secrets.yaml nor its backup. -/
def FsOp.SparesSecrets : FsOp → Prop
  | .replace (.secrets _) | .replace (.backup _) => False
  | _ => True

theorem FsOp.SparesSecrets.keeps {o : FsOp} {d d' : Disk} {n : Option Node} (ho : o.SparesSecrets)
    (ha : Disk.apply o d = .ok d') (hd : d.secrets = n) : d'.secrets = n := by
  rw [← hd]
  cases o with
  | mkdir p =>
    obtain ⟨⟨t, rfl, -⟩, -⟩ := Disk.mkdir_spec ha
    rfl
  | unlink p =>
    obtain ⟨t, rfl, -⟩ := Disk.unlink_spec ha
    rfl
  | rmdir p =>
    simp only [Disk.apply, Disk.rmdir] at ha
    split at ha
    · cases ha
      rfl
    · cases ha
  | replace w =>
    cases w with
    | file p data =>
      obtain ⟨t, rfl, -⟩ := Disk.replace_file_spec ha
      rfl
    | manifest m =>
      cases ha
      rfl
    | secrets data | backup data => exact ho.elim
  | makeDirs | readManifest | lstat p | read p | stage w | fsyncDir w | chmod p | lstatSecrets
    | readSecrets | readStaged | chmodSecrets =>
    cases ha
    rfl

section Spares

theorem orWriteFailed_spares {α : Type} {what : String} {s : IoM α}
    (h : s.Only FsOp.SparesSecrets) : (orWriteFailed what s).Only FsOp.SparesSecrets := by
  refine h.handle fun e => ?_
  cases e <;> trivial

theorem atomicWrite_spares {w : Write} (h : (FsOp.replace w).SparesSecrets) :
    (atomicWrite w).Only FsOp.SparesSecrets :=
  (Script.Only.act trivial).bind fun _ => (Script.Only.act h).bind fun _ => .act trivial

theorem target_spares (create : Bool) (cur : Path) (parts : List String) :
    (target create cur parts).Only FsOp.SparesSecrets := by
  induction parts generalizing cur with
  | nil => trivial
  | cons part rest ih =>
    refine (Script.Only.act trivial).bind fun _ => ?_
    intro d
    show Script.Only _ (Script.bind (.done _) _)
    simp only [Script.bind]
    split
    · split_ifs
      · trivial
      · exact (Script.Only.act trivial).bind fun _ => ih _
      · trivial
    · trivial
    · split_ifs <;> trivial
    · split_ifs
      · trivial
      · exact ih _
    · split_ifs <;> trivial

theorem targetOf_spares (create : Bool) (rel : String) :
    (targetOf create rel).Only FsOp.SparesSecrets := by
  unfold targetOf
  split
  · trivial
  · exact target_spares create _ _

theorem rmParents_spares (parts : List String) : (rmParents parts).Only FsOp.SparesSecrets := by
  induction parts with
  | nil => trivial
  | cons part rest ih => exact ⟨trivial, ih, fun _ => trivial⟩

theorem writeOne_spares_secrets (sha : Bytes → String) (manifest : Manifest)
    (s : FilesResult × Manifest) (e : String × Bytes) :
    (writeOne sha manifest s e).Only FsOp.SparesSecrets := by
  refine (targetOf_spares true e.1).bind fun r => ?_
  cases r with
  | none => trivial
  | some p =>
    have hread : (readTarget e.1 p).Only FsOp.SparesSecrets := by
      intro d
      show Script.Only _ (Script.bind (.done _) _)
      simp only [Script.bind]
      split
      · exact Script.Only.bind (orWriteFailed_spares (.act trivial)) fun _ => trivial
      · trivial
    refine hread.bind fun current => ?_
    simp only
    split_ifs
    · trivial
    · exact Script.Only.bind (atomicWrite_spares trivial) fun _ => trivial
    · exact Script.Only.bind (.act trivial) fun _ => trivial

theorem removeOne_spares_secrets (result : FilesResult) (rel : String) :
    (removeOne result rel).Only FsOp.SparesSecrets := by
  refine ((targetOf_spares false rel).handle fun e => ?_).bind fun t => ?_
  · cases e <;> trivial
  · cases t with
    | none => trivial
    | some p =>
      intro d
      show Script.Only _ (Script.bind (.done _) _)
      simp only [Script.bind]
      split_ifs
      · trivial
      · exact (Script.Only.act trivial).bind fun _ => (rmParents_spares _).bind fun _ => trivial

/-- Provider files and their manifest are written beside secrets.yaml. -/
theorem writeFiles_spares_secrets (sha : Bytes → String) (files : Dict String Bytes) :
    (writeFiles sha files).Only FsOp.SparesSecrets := by
  have hload : loadManifest.Only FsOp.SparesSecrets := ⟨trivial, fun _ => trivial, fun _ => trivial⟩
  refine hload.bind fun m => (Script.Only.act trivial).bind fun _ => ?_
  have hloops : (orWriteFailed "cannot write provider files" do
      let s ← (toWrite files).foldlM (writeOne sha m) ({}, .empty)
      let result ← (toRemove m files).foldlM removeOne s.1
      pure (result, s.2) : IoM (FilesResult × Manifest)).Only FsOp.SparesSecrets :=
    orWriteFailed_spares ((Script.Only.foldlM (writeOne_spares_secrets sha m) _ _).bind fun s =>
      (Script.Only.foldlM removeOne_spares_secrets _ _).bind fun _ => trivial)
  refine hloops.bind fun r => ?_
  have hsave : (saveManifest m r.2).Only FsOp.SparesSecrets := by
    unfold saveManifest
    split
    · trivial
    · exact orWriteFailed_spares ((Script.Only.act trivial).bind fun _ =>
        atomicWrite_spares trivial)
  exact hsave.bind fun _ => trivial

end Spares

/-- The bytes of secrets.yaml. -/
def secretsBytes (secrets : Dict String String) : Bytes :=
  (renderSecrets secrets).toUTF8.data.toList

/-- The text of the secrets loads as the secrets. -/
def Loads (env : Env) (secrets : Dict String String) : Prop :=
  ∃ doc, env.yaml (renderSecrets secrets) = .ok doc ∧ doc.isSecrets secrets = true

theorem verifyRoundtrip_ends {yaml : String → Except String YamlDoc} {text : String}
    {secrets : Dict String String} {d : Disk} {may : FsOp → Disk → String → Prop}
    {Q : Unit → Disk → Prop} {R : Exc → Disk → Prop}
    (hok : ∀ doc, yaml text = .ok doc → doc.isSecrets secrets = true → Q () d)
    (hfail : ∀ e, R e d) : (verifyRoundtrip yaml text secrets).Ends Disk.apply may Q R d := by
  unfold verifyRoundtrip
  split
  · exact hfail _
  · rename_i doc hdoc
    split_ifs with hs
    · exact hok doc hdoc hs
    · exact hfail _

section WriteSection

variable {env : Env} {d : Disk} {may : FsOp → Disk → String → Prop}

/-- An operation that does nothing. -/
theorem act_idle {o : FsOp} {Q : Unit → Disk → Prop} {R : Exc → Disk → Prop}
    (ho : Disk.apply o d = .ok d) (hQ : Q () d) (hR : ∀ cls, may o d cls → R (.os cls) d) :
    (act o).Ends Disk.apply may Q R d := by
  refine Script.Ends.act (fun d' h => ?_) fun cls h => ?_
  · obtain rfl : d = d' := by simpa [ho] using h
    exact hQ
  · rcases h with h | h
    · exact hR cls h
    · simp [ho] at h

theorem orWriteFailed_ends {α : Type} {what : String} {s : IoM α} {Q : α → Disk → Prop}
    {R : Disk → Prop} (h : s.Ends Disk.apply may Q (fun _ => R) d) :
    (orWriteFailed what s).Ends Disk.apply may Q (fun _ => R) d := by
  refine Script.Ends.handle (h.mono (fun _ _ h => h) fun e d hR => ?_)
  cases e <;> exact hR

theorem readExisting_ends :
    readExisting.Ends Disk.apply may
      (fun previous d' => d' = d ∧ ∀ x, previous = some x → d.secrets = some (.file x))
      (fun _ d' => d'.secrets = d.secrets) d := by
  refine Script.Ends.bind (act_idle rfl (Script.Ends.get ?_) fun _ _ => rfl)
  cases hs : d.secrets with
  | none => exact ⟨rfl, by simp⟩
  | some n =>
    cases n with
    | file x =>
      refine Script.Ends.bind (act_idle rfl ⟨rfl, fun y hy => ?_⟩ fun _ _ => hs)
      obtain rfl : x = y := by simpa using hy
      rfl
    | dir | link | other => exact hs

/-- Staged and verified, the new secrets replace the old ones. -/
theorem replaceSecrets_ends (hmay : ∀ o d₁ cls, may o d₁ cls → d₁.secrets = d.secrets) {d' : Disk}
    {secrets : Dict String String} {data : Bytes} (hdata : secretsBytes secrets = data)
    (hloads : Loads env secrets) (hd : d'.secrets = d.secrets) :
    ((do
      act (.replace (.secrets data))
      act (.fsyncDir (.secrets data))
      act .chmodSecrets
      pure true : IoM Bool)).Ends Disk.apply may
      (fun wrote d' => d'.secrets = some (.file (secretsBytes secrets)) ∧ Loads env secrets ∧
        (wrote = false → d.secrets = d'.secrets))
      (fun _ d' => d'.secrets = d.secrets) d' := by
  refine Script.Ends.bind (Script.Ends.act (fun d'' h => ?_) fun e _ => hd)
  simp only [Disk.apply, Disk.replace] at h
  split_ifs at h
  cases h
  refine Script.Ends.bind (act_idle rfl (Script.Ends.bind (act_idle rfl ?_ ?_)) ?_)
  · exact ⟨by rw [hdata], hloads, by simp⟩
  · exact fun cls h => hmay _ _ cls h
  · exact fun cls h => hmay _ _ cls h

/-- **secrets.yaml.** Where nothing fails after the file has changed, it holds the secrets in the
end, or it is as it was. -/
theorem writeSecrets_ends (hmay : ∀ o d₁ cls, may o d₁ cls → d₁.secrets = d.secrets)
    (name : String) (secrets : Dict String String) :
    (writeSecrets env.yaml name secrets).Ends Disk.apply may
      (fun wrote d' => d'.secrets = some (.file (secretsBytes secrets)) ∧ Loads env secrets ∧
        (wrote = false → d.secrets = d'.secrets))
      (fun _ d' => d'.secrets = d.secrets) d := by
  refine Script.Ends.bind (verifyRoundtrip_ends (fun doc hdoc hs => ?_) fun e => rfl)
  have hloads : Loads env secrets := ⟨doc, hdoc, hs⟩
  refine orWriteFailed_ends (Script.Ends.bind (act_idle rfl (Script.Ends.bind ?_) fun _ _ => rfl))
  refine readExisting_ends.mono (fun previous d' hprev => ?_) fun _ _ h => h
  obtain ⟨rfl, hprev⟩ := hprev
  split_ifs with hsame
  · refine Script.Ends.bind (act_idle rfl ?_ fun _ _ => rfl)
    have hfile : d'.secrets = some (.file (secretsBytes secrets)) := hprev _ hsame
    exact ⟨hfile, hloads, fun _ => rfl⟩
  · refine Script.Ends.bind (act_idle rfl ?_ fun _ _ => rfl)
    refine Script.Ends.bind (act_idle rfl ?_ fun _ _ => rfl)
    refine Script.Ends.bind (verifyRoundtrip_ends (fun _ _ _ => ?_) fun e => rfl)
    cases previous with
    | none => exact replaceSecrets_ends hmay rfl hloads rfl
    | some old =>
      refine Script.Ends.bind (Script.Ends.bind (act_idle rfl ?_ fun _ _ => rfl))
      refine Script.Ends.bind (Script.Ends.act (fun d'' h => ?_) fun e _ => rfl)
      have hkeep : d''.secrets = d'.secrets := by
        simp only [Disk.apply, Disk.replace] at h
        split_ifs at h
        cases h
        rfl
      exact act_idle rfl (replaceSecrets_ends hmay rfl hloads hkeep) fun _ _ => hkeep

/-- What the file says, as `read_secrets` reads it; nothing where it cannot. -/
def secretsOf (yaml : String → Except String YamlDoc) (d : Disk) : Dict String String :=
  match d.secrets with
  | some (.file data) => (parseSecrets yaml data).getD .empty
  | _ => .empty

/-- `read_secrets`: what the file says, or nothing when reading it fails. -/
theorem readSecrets_ends (yaml : String → Except String YamlDoc) :
    (readSecrets yaml).Ends Disk.apply may
      (fun current d' => d' = d ∧
        ((∀ d₁ cls, ¬ may .readSecrets d₁ cls) → current.getD .empty = secretsOf yaml d))
      (fun _ _ => False) d := by
  refine Script.Ends.get ?_
  unfold secretsOf
  cases hs : d.secrets with
  | none => exact ⟨rfl, fun _ => rfl⟩
  | some n =>
    cases n with
    | file x =>
      refine ⟨fun d' h => ?_, fun cls h => ⟨rfl, fun hno => ?_⟩⟩
      · obtain rfl : d = d' := Except.ok.inj h
        exact ⟨rfl, fun _ => rfl⟩
      · rcases h with h | h
        · exact absurd h (hno d cls)
        · cases h
    | dir | link | other => exact ⟨rfl, fun _ => rfl⟩

/-- **Provider files, then secrets.yaml.** -/
theorem writeSection_ends (hmay : ∀ o d₁ cls, may o d₁ cls → d₁.secrets = d.secrets)
    (name : String) (last : Option (Dict String String)) (merged : Merged) :
    (writeSection env name last merged).Ends Disk.apply may
      (fun r d' => (d'.secrets = some (.file (secretsBytes merged.secrets)) ∧
        Loads env merged.secrets ∧ (r.2.2 = false → d.secrets = d'.secrets)) ∧
        (∀ previous, last = some previous → r.2.1 = previous) ∧
        (last = none → (∀ d₁ cls, ¬ may .readSecrets d₁ cls) → r.2.1 = secretsOf env.yaml d))
      (fun _ d' => d'.secrets = d.secrets) d := by
  have hframe : ∀ o (d₁ d₂ : Disk), o.SparesSecrets → Disk.apply o d₁ = .ok d₂ →
      d₁.secrets = d.secrets → d₂.secrets = d.secrets := fun o d₁ d₂ ho ha h => ho.keeps ha h
  refine Script.Ends.bind (((writeFiles_spares_secrets env.sha merged.files).ends hframe rfl).mono
    (fun files d₁ h₁ => ?_) fun _ _ h => h)
  have hrest : ∀ previous : Dict String String, ((do
      let wrote ← writeSecrets env.yaml name merged.secrets
      pure (files, previous, wrote) : IoM (FilesResult × Dict String String × Bool))).Ends
        Disk.apply may
        (fun r d' => (d'.secrets = some (.file (secretsBytes merged.secrets)) ∧
          Loads env merged.secrets ∧ (r.2.2 = false → d.secrets = d'.secrets)) ∧ r.2.1 = previous)
        (fun _ d' => d'.secrets = d.secrets) d₁ := by
    intro previous
    refine Script.Ends.bind ((writeSecrets_ends (fun o d₂ cls h => (hmay o d₂ cls h).trans h₁.symm)
      name merged.secrets).mono (fun wrote d' h => ?_) fun _ d' h => h.trans h₁)
    rw [h₁] at h
    exact ⟨h, rfl⟩
  cases last with
  | some previous =>
    refine (hrest previous).mono (fun r d' h => ⟨h.1, fun p hp => ?_, nofun⟩) fun _ _ h => h
    exact h.2.trans (Option.some.inj hp)
  | none =>
    refine Script.Ends.bind (Script.Ends.bind ((readSecrets_ends env.yaml).mono
      (fun current d₂ h => ?_) fun _ _ h => h.elim))
    obtain ⟨rfl, hcurrent⟩ := h
    refine (hrest (current.getD .empty)).mono (fun r d' h => ⟨h.1, nofun, fun _ hno => ?_⟩)
      fun _ _ h => h
    rw [h.2, hcurrent hno, secretsOf, h₁]
    rfl

end WriteSection

/-! ## One cycle -/

/-- The secrets that a cycle has written, and whether secrets.yaml was another before, if it came to
that. -/
def Supervisor.wrote (env : Env) (force : Bool) (runs : String → ProviderRun)
    (failures : List (Option String)) (s : Supervisor) (disk : Disk) :
    Option (Dict String String × Bool) :=
  match s.cfg.problems.filter fun p => p.severity = .error with
  | _ :: _ => none
  | [] =>
    let fetches := (fetchAll runs s.loaded s.cfg.providers).2
    match s.cfg.decide env.jinja (keepGood s.lastGood fetches) s.lastItems force fetches with
    | .error _ => none
    | .ok merged =>
      match ((writeSection env s.cfg.secretsName s.lastWritten merged).eval Disk.apply
        { disk with replaced := [] } failures).1 with
      | .error _ => none
      | .ok (_, _, wrote) => some (merged.secrets, wrote)

section Cycle

variable {env : Env} {force : Bool} {runs : String → ProviderRun} {s s' : Supervisor}
  {disk : Disk} {c : Cycle}

theorem decide_shrink {cfg : Config} {jinja : Option Render} {good : Dict String Snapshot}
    {last : Option ℕ} {fetches : List Fetch} {merged : Merged}
    (h : cfg.decide jinja good last force fetches = .ok merged) :
    checkShrink merged.secrets.entries.length last cfg.shrinkGuardPercent force = none := by
  simp only [Config.decide] at h
  split at h
  · cases h
  · split_ifs at h
    split at h
    · cases h
    · split at h
      · cases h
      · split at h
        · cases h
        · rename_i hguard
          cases h
          exact hguard

theorem succeed_items (s : Supervisor) (fetches : List Fetch) (skipped : List String)
    (secrets : Dict String String) :
    (s.succeed fetches skipped secrets).lastItems = some secrets.entries.length ∧
      (s.succeed fetches skipped secrets).succeeded = true := by
  simp only [Supervisor.succeed]
  split
  · exact ⟨rfl, rfl⟩
  · split <;> exact ⟨rfl, rfl⟩

/-- What a cycle that wrote nothing leaves as it was. -/
structure WroteNothing (s s' : Supervisor) (disk after : Disk) : Prop where
  lastItems : s'.lastItems = s.lastItems
  succeeded : s'.succeeded = s.succeeded
  holds : after.secrets = disk.secrets

/-- What a cycle has done that wrote `secrets`. -/
structure Wrote (env : Env) (force : Bool) (s s' : Supervisor) (disk after : Disk)
    (secrets : Dict String String) (changed : Bool) : Prop where
  lastItems : s'.lastItems = some secrets.entries.length
  succeeded : s'.succeeded = true
  holds : after.secrets = some (.file (secretsBytes secrets))
  loads : Loads env secrets
  unchanged : changed = false → disk.secrets = after.secrets
  guard : checkShrink secrets.entries.length s.lastItems s.cfg.shrinkGuardPercent force = none

/-- **One cycle.** Without I/O errors it writes what passes the guard, or leaves everything. -/
theorem cycle_wrote (h : s.cycle env force runs [] disk = (s', c)) :
    (s.wrote env force runs [] disk).elim (WroteNothing s s' disk c.after)
      fun w => Wrote env force s s' disk c.after w.1 w.2 := by
  unfold Supervisor.cycle at h
  unfold Supervisor.wrote
  cases hp : s.cfg.problems.filter fun p => p.severity = .error with
  | cons p ps =>
    simp only [hp] at h
    cases h
    exact ⟨rfl, rfl, rfl⟩
  | nil =>
    simp only [hp] at h
    cases hm : s.cfg.decide env.jinja
        (keepGood s.lastGood (fetchAll runs s.loaded s.cfg.providers).2) s.lastItems force
        (fetchAll runs s.loaded s.cfg.providers).2 with
    | error e =>
      simp only [hm] at h
      cases h
      simp only [hm]
      exact ⟨rfl, rfl, rfl⟩
    | ok merged =>
      simp only [hm] at h ⊢
      have hends := (@writeSection_ends env { disk with replaced := [] } (fun _ _ _ => False)
        (fun _ _ _ h => h.elim) s.cfg.secretsName s.lastWritten merged).eval_nil
      cases hio : (writeSection env s.cfg.secretsName s.lastWritten merged).eval Disk.apply
          { disk with replaced := [] } [] with
      | mk r after =>
        simp only [hio] at h hends ⊢
        cases r with
        | error e =>
          cases h
          exact ⟨rfl, rfl, hends⟩
        | ok r =>
          cases h
          obtain ⟨hitems, hsucc⟩ := succeed_items
            { s with
              loaded := (fetchAll runs s.loaded s.cfg.providers).1
              lastGood := keepGood s.lastGood (fetchAll runs s.loaded s.cfg.providers).2 }
            (fetchAll runs s.loaded s.cfg.providers).2 r.1.skipped merged.secrets
          obtain ⟨⟨hfile, hloads, hsame⟩, -⟩ := hends
          exact ⟨hitems, hsucc, hfile, hloads, hsame, decide_shrink hm⟩

end Cycle

/-! ## Histories -/

/-- What state.json says of the count: `items`, and whether `last_success_at` is set. -/
structure StateFile where
  items : ℕ := 0
  lastSuccess : Bool := false

/-- A write that went well. -/
structure Written where
  secrets : Dict String String
  changed : Bool
  force : Bool

def Written.items (w : Written) : ℕ := w.secrets.entries.length

/-- The process with its `state.items`, and the files. History: the writes, the newest first, and
secrets.yaml as it was at the beginning. -/
structure Guarded where
  sup : Supervisor
  items : ℕ
  saved : Option StateFile
  disk : Disk
  log : List Written := []
  first : Option Node

/-- A cycle, or a new process with a configuration. -/
inductive GuardStep where
  | cycle (force : Bool) (runs : String → ProviderRun)
  | restart (cfg : Config)

/-- `Supervisor.__init__` after `load_previous`. -/
def Supervisor.resume (cfg : Config) (st : StateFile) : Supervisor :=
  .start cfg (if st.lastSuccess then some st.items else none) st.lastSuccess

def Guarded.next (env : Env) (p : ℕ) (s : Guarded) : GuardStep → Option Guarded
  | .cycle force runs =>
    let r := s.sup.cycle env force runs [] s.disk
    let wrote := s.sup.wrote env force runs [] s.disk
    let items := wrote.elim s.items fun w => w.1.entries.length
    some {
      sup := r.1
      items := items
      saved := some ⟨items, r.1.succeeded⟩
      disk := r.2.after
      log := wrote.elim s.log fun w => ⟨w.1, w.2, force⟩ :: s.log
      first := s.first }
  | .restart cfg =>
    if cfg.shrinkGuardPercent = p then
      let st := s.saved.getD {}
      some { s with sup := .resume cfg st, items := st.items }
    else none

/-- Histories with `shrink_guard_percent = p`, from any files. -/
def guarding (env : Env) (p : ℕ) : System Guarded GuardStep where
  init s := (∃ cfg, cfg.shrinkGuardPercent = p ∧ s.sup = .resume cfg (s.saved.getD {})) ∧
    s.items = (s.saved.getD {}).items ∧ s.log = [] ∧ s.first = s.disk.secrets
  next s l := s.next env p l

section Histories

variable {env : Env} {p : ℕ} {s s' : Guarded}

theorem pos_of_checkShrink {n percent : ℕ} {last : Option ℕ} {force : Bool}
    (h : checkShrink n last percent force = none) : 0 < n := by
  unfold checkShrink at h
  split_ifs at h with hn
  exact Nat.pos_of_ne_zero hn

/-- The guard in whole numbers. -/
theorem le_of_checkShrink {n last percent : ℕ} (h : checkShrink n (some last) percent false = none) :
    (last : ℤ) * (100 - percent) ≤ 100 * n := by
  unfold checkShrink at h
  split_ifs at h with hn
  simp only [Bool.false_or, decide_eq_true_eq] at h
  split_ifs at h with hlast hless
  · have hzero : (last : ℤ) * (100 - percent) = 0 := by simp [hlast]
    omega
  · rcases Nat.le_total percent 100 with hp | hp
    · have hle : last * (100 - percent) ≤ 100 * n := Nat.not_lt.mp hless
      calc (last : ℤ) * (100 - percent) = ((last * (100 - percent) : ℕ) : ℤ) := by
            rw [Int.natCast_mul, Int.natCast_sub hp]
            rfl
        _ ≤ ((100 * n : ℕ) : ℤ) := Int.ofNat_le.mpr hle
        _ = 100 * n := Int.natCast_mul _ _
    · have hneg : (last : ℤ) * (100 - percent) ≤ 0 :=
        Int.mul_nonpos_of_nonneg_of_nonpos (by omega) (by omega)
      omega

/-- Two dictionaries that a file holds have the same number of entries. -/
theorem Loads.length_eq {a b : Dict String String} (ha : Loads env a) (hb : Loads env b)
    (hbytes : secretsBytes a = secretsBytes b) : a.entries.length = b.entries.length := by
  obtain ⟨doc, hdoc, ha⟩ := ha
  obtain ⟨doc', hdoc', hb⟩ := hb
  have htext : renderSecrets a = renderSecrets b :=
    String.toByteArray_inj.mp (ByteArray.ext (Array.toList_inj.mp hbytes))
  obtain rfl : doc = doc' := by
    rw [htext, hdoc'] at hdoc
    exact (Except.ok.inj hdoc).symm
  cases doc with
  | null => exact (Dict.length_of_same ha).symm.trans (Dict.length_of_same hb)
  | strings d => exact (Dict.length_of_same ha).symm.trans (Dict.length_of_same hb)
  | mapping d => cases ha
  | other falsy =>
    cases falsy with
    | true => exact (Dict.length_of_same ha).symm.trans (Dict.length_of_same hb)
    | false => cases ha

/-- The write has at least its share of the items of the one before it, and of the last one that
changed the file. -/
def Written.Guarded (p : ℕ) (w : Written) (older : List Written) : Prop :=
  w.force = false → ∀ m, older.head? = some m ∨ older.find? Written.changed = some m →
    (m.items : ℤ) * (100 - p) ≤ 100 * w.items

/-- **The three counts agree.** With a write in the history, all of them are its items, and
secrets.yaml holds it. -/
structure Accounted (env : Env) (p : ℕ) (s : Guarded) : Prop where
  percent : s.sup.cfg.shrinkGuardPercent = p
  untouched : s.log = [] → s.disk.secrets = s.first
  holds : ∀ w older, s.log = w :: older →
    s.disk.secrets = some (.file (secretsBytes w.secrets)) ∧ Loads env w.secrets
  count : ∀ w older, s.log = w :: older → s.sup.lastItems = some w.items ∧ s.items = w.items ∧
    s.sup.succeeded = true ∧ s.saved = some ⟨w.items, true⟩
  changed : ∀ m, s.log.find? Written.changed = some m → Loads env m.secrets ∧
    s.disk.secrets = some (.file (secretsBytes m.secrets))
  bound : ∀ w older, s.log = w :: older → 0 < w.items ∧ w.Guarded p older

theorem Accounted.init (h : (guarding env p).init s) : Accounted env p s := by
  obtain ⟨⟨cfg, hp, hsup⟩, -, hlog, hfirst⟩ := h
  refine ⟨by rw [hsup]; exact hp, fun _ => hfirst.symm, ?_, ?_, ?_, ?_⟩ <;> simp [hlog]

/-- A write is within its bounds. -/
theorem Accounted.guarded (h : Accounted env p s) {n : ℕ}
    (hguard : checkShrink n s.sup.lastItems s.sup.cfg.shrinkGuardPercent false = none) :
    ∀ m, s.log.head? = some m ∨ s.log.find? Written.changed = some m →
      (m.items : ℤ) * (100 - p) ≤ 100 * n := by
  cases hlog : s.log with
  | nil => simp
  | cons w older =>
    intro m hm
    have hitems : m.items = w.items := by
      rcases hm with hm | hm
      · obtain rfl : w = m := by simpa using hm
        rfl
      · obtain ⟨hw, hlw⟩ := h.holds w older hlog
        obtain ⟨hlm, hmm⟩ := h.changed m (hlog ▸ hm)
        refine hlm.length_eq hlw ?_
        simpa using hmm.symm.trans hw
    rw [(h.count w older hlog).1, h.percent] at hguard
    rw [hitems]
    exact le_of_checkShrink hguard

/-- **A cycle keeps the counts.** -/
theorem Accounted.cycle {force : Bool} {runs : String → ProviderRun} (h : Accounted env p s)
    (hn : s.next env p (.cycle force runs) = some s') : Accounted env p s' := by
  cases hr : s.sup.cycle env force runs [] s.disk with
  | mk sup c =>
    have hcfg : sup.cfg = s.sup.cfg := (cycle_cases hr).1
    have hwrote := cycle_wrote hr
    simp only [Guarded.next, hr] at hn
    cases hw : s.sup.wrote env force runs [] s.disk with
    | none =>
      simp only [hw, Option.elim_none] at hwrote hn
      cases hn
      refine ⟨by rw [hcfg, h.percent], fun hlog => ?_, fun w older hlog => ?_,
        fun w older hlog => ?_, fun m hm => ?_, h.bound⟩
      · exact hwrote.holds.trans (h.untouched hlog)
      · show c.after.secrets = _ ∧ _
        rw [hwrote.holds]
        exact h.holds w older hlog
      · obtain ⟨hlast, hitems, hsucc, -⟩ := h.count w older hlog
        have hsucc' : sup.succeeded = true := hwrote.succeeded.trans hsucc
        refine ⟨hwrote.lastItems.trans hlast, hitems, hsucc', ?_⟩
        show some (StateFile.mk s.items sup.succeeded) = _
        rw [hitems, hsucc']
      · show _ ∧ c.after.secrets = _
        rw [hwrote.holds]
        exact h.changed m hm
    | some w =>
      obtain ⟨secrets, changed⟩ := w
      simp only [hw, Option.elim_some] at hwrote hn
      cases hn
      refine ⟨by rw [hcfg, h.percent], by simp, fun w older hlog => ?_, fun w older hlog => ?_,
        fun m hm => ?_, fun w older hlog => ?_⟩
      · cases hlog
        exact ⟨hwrote.holds, hwrote.loads⟩
      · cases hlog
        refine ⟨hwrote.lastItems, rfl, hwrote.succeeded, ?_⟩
        show some (StateFile.mk _ sup.succeeded) = _
        rw [hwrote.succeeded]
        rfl
      · cases changed with
        | true =>
          obtain rfl : ⟨secrets, true, force⟩ = m := by simpa using hm
          exact ⟨hwrote.loads, hwrote.holds⟩
        | false =>
          show _ ∧ c.after.secrets = _
          rw [← hwrote.unchanged rfl]
          exact h.changed m (by simpa using hm)
      · cases hlog
        refine ⟨pos_of_checkShrink hwrote.guard, fun hforce m hm => ?_⟩
        obtain rfl : force = false := hforce
        exact h.guarded hwrote.guard m hm

/-- **A restart keeps the counts.** -/
theorem Accounted.restart {cfg : Config} (h : Accounted env p s)
    (hn : s.next env p (.restart cfg) = some s') : Accounted env p s' := by
  simp only [Guarded.next] at hn
  split_ifs at hn with hp
  cases hn
  refine ⟨hp, h.untouched, h.holds, fun w older hlog => ?_, h.changed, h.bound⟩
  obtain ⟨-, -, -, hsaved⟩ := h.count w older hlog
  show (Supervisor.resume cfg (s.saved.getD {})).lastItems = _ ∧ (s.saved.getD {}).items = _ ∧
    (Supervisor.resume cfg (s.saved.getD {})).succeeded = true ∧ s.saved = _
  rw [hsaved]
  exact ⟨rfl, rfl, rfl, rfl⟩

theorem accounted (h : (guarding env p).Reachable s) : Accounted env p s := by
  refine System.Reach.invariant (fun s hs => .init hs) (fun s l s' hI _ hn => ?_) h
  cases l with
  | cycle force runs => exact hI.cycle hn
  | restart cfg => exact hI.restart hn

/-- **The shrink guard.** In every history, secrets.yaml is what it was at the beginning or holds the
newest write. That has items, and if it was not forced, at least the share `100 - p` of a hundred of
those of the write before it and of the last write that changed the file. -/
theorem shrink_guarded (h : (guarding env p).Reachable s) :
    (s.log = [] → s.disk.secrets = s.first) ∧
      ∀ w older, s.log = w :: older →
        s.disk.secrets = some (.file (secretsBytes w.secrets)) ∧ w.items ≠ 0 ∧
        (w.force = false → ∀ m, older.head? = some m ∨ older.find? Written.changed = some m →
          (m.items : ℤ) * (100 - p) ≤ 100 * w.items) := by
  have hI := accounted h
  refine ⟨hI.untouched, fun w older hlog => ?_⟩
  obtain ⟨hpos, hbound⟩ := hI.bound w older hlog
  exact ⟨(hI.holds w older hlog).1, hpos.ne', hbound⟩

end Histories

/-! ## A concrete history -/

def sampleGuarded : Guarded := ⟨.resume twoProviders {}, 0, none, { tree := .empty }, [], none⟩

theorem sampleGuarded_init : (guarding sampleEnv 30).init sampleGuarded :=
  ⟨⟨twoProviders, rfl, rfl⟩, rfl, rfl, rfl⟩

/-- A process writes two items; the next one finds them in state.json. -/
theorem shrink_guarded_restart :
    ∃ s w m, (guarding sampleEnv 30).run sampleGuarded
        [.cycle false healthy, .restart twoProviders, .cycle false healthy] = some s ∧
      s.log = [w, m] ∧ w.items = 2 ∧ (m.items : ℤ) * (100 - 30) ≤ 100 * w.items := by
  obtain ⟨s, hs, hf⟩ := (Option.any_eq_true _ _).mp
    (by decide : ((guarding sampleEnv 30).run sampleGuarded
        [.cycle false healthy, .restart twoProviders, .cycle false healthy]).any (fun s =>
      s.log.map (fun w => (w.force, w.items)) = [(false, 2), (false, 2)]) = true)
  obtain ⟨w, rest, hlog, hw, hrest⟩ := List.map_eq_cons_iff.mp (of_decide_eq_true hf)
  obtain ⟨m, last, rfl, -, hlast⟩ := List.map_eq_cons_iff.mp hrest
  obtain rfl := List.map_eq_nil_iff.mp hlast
  have hreach := System.reachable_of_run sampleGuarded_init hs
  obtain ⟨-, -, hbound⟩ := (shrink_guarded hreach).2 w [m] hlog
  obtain ⟨hforce, hitems⟩ := Prod.mk.injEq .. ▸ hw
  exact ⟨s, w, m, hs, hlog, hitems, hbound hforce m (.inl rfl)⟩

end HaAddons.SecretsSync
