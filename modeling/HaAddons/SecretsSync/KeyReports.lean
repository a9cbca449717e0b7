import HaAddons.Lib.Failures
import HaAddons.SecretsSync.FailedCycles
import HaAddons.SecretsSync.ShrinkGuard

/-!
# secrets.yaml, its key diffs and the reloads they cause

`write_secrets` replaces the file in the middle of its `try` block: the directory is synced and the
mode set after it, and their failures raise the same error as those before.

* `writeSecrets_keeps_iff` — a call that raises leaves the file as it was exactly when nothing fails
  after the file has changed.
* `reported` — in every run without such a failure, each change of the key set comes with its key
  diff and one reload.
-/

namespace HaAddons.SecretsSync

/-! ## One call -/

/-- secrets.yaml is not what it was. -/
def changedFrom (before : Disk) (_ : FsOp) (d : Disk) : Prop := d.secrets ≠ before.secrets

section Call

variable {env : Env} {name : String} {secrets : Dict String String} {before d : Disk}
  {bad : FsOp → Disk → Prop}

theorem orWriteFailed_dooms {α : Type} {what : String} {s : IoM α} {R : Disk → Prop}
    (h : s.Dooms Disk.apply bad (fun _ => R) d) :
    (orWriteFailed what s).Dooms Disk.apply bad (fun _ => R) d := by
  refine Script.Dooms.handle h (fun e d hR => ?_) fun e d => ?_
  · cases e <;> exact hR
  · cases e <;> trivial

theorem act_dooms (o : FsOp) (d : Disk) :
    (act o).Dooms Disk.apply (changedFrom before) (fun _ d' => d'.secrets ≠ before.secrets) d :=
  Script.Dooms.act fun h _ => h

theorem atomicWrite_dooms (w : Write) (d : Disk) : (atomicWrite w).Dooms Disk.apply
    (changedFrom before) (fun _ d' => d'.secrets ≠ before.secrets) d :=
  (act_dooms _ d).bind fun _ d => (act_dooms _ d).bind fun _ d => act_dooms _ d

theorem verifyRoundtrip_dooms {yaml : String → Except String YamlDoc} {text : String} (d : Disk) :
    (verifyRoundtrip yaml text secrets).Dooms Disk.apply (changedFrom before)
      (fun _ d' => d'.secrets ≠ before.secrets) d := by
  unfold verifyRoundtrip
  split
  · trivial
  · split_ifs <;> trivial

theorem readExisting_dooms (d : Disk) : readExisting.Dooms Disk.apply (changedFrom before)
    (fun _ d' => d'.secrets ≠ before.secrets) d := by
  refine (act_dooms _ d).bind fun _ d => Script.Dooms.get ?_
  split
  · trivial
  · exact (act_dooms _ d).bind fun _ _ => trivial
  · trivial

/-- A failure after the file has changed is raised, and the file stays changed. -/
theorem writeSecrets_dooms (d : Disk) :
    (writeSecrets env.yaml name secrets).Dooms Disk.apply (changedFrom before)
      (fun _ d' => d'.secrets ≠ before.secrets) d := by
  have hreplace : ∀ d, ((do
      act (.replace (.secrets (secretsBytes secrets)))
      act (.fsyncDir (.secrets (secretsBytes secrets)))
      act .chmodSecrets
      pure true : IoM Bool)).Dooms Disk.apply (changedFrom before)
      (fun _ d' => d'.secrets ≠ before.secrets) d := fun d =>
    (act_dooms _ d).bind fun _ d => (act_dooms _ d).bind fun _ d => (act_dooms _ d).bind
      fun _ _ => trivial
  refine (verifyRoundtrip_dooms d).bind fun _ d => orWriteFailed_dooms ?_
  refine (act_dooms _ d).bind fun _ d => (readExisting_dooms d).bind fun previous d => ?_
  split_ifs
  · exact (act_dooms _ d).bind fun _ _ => trivial
  · refine (act_dooms _ d).bind fun _ d => (act_dooms _ d).bind fun _ d => ?_
    refine (verifyRoundtrip_dooms d).bind fun _ d => ?_
    cases previous with
    | none => exact hreplace d
    | some old => exact (atomicWrite_dooms _ d).bind fun _ d => hreplace d

/-- **A call that raises.** It leaves the file as it was exactly when nothing fails after the file
has changed. -/
theorem writeSecrets_keeps_iff (failures : List (Option String)) :
    (∀ e, ((writeSecrets env.yaml name secrets).eval Disk.apply d failures).1 = .error e →
      ((writeSecrets env.yaml name secrets).eval Disk.apply d failures).2.secrets = d.secrets) ↔
    ¬ (writeSecrets env.yaml name secrets).Fails Disk.apply (changedFrom d) d failures := by
  constructor
  · intro h hfails
    obtain ⟨e, d', hrun, hchanged⟩ := (writeSecrets_dooms d).eval hfails
    rw [hrun] at h
    exact hchanged (h e rfl)
  · intro hfails e he
    have hends := (writeSecrets_ends (fun o d₁ cls h => not_not.mp h) name
      secrets).eval_of_not_fails hfails
    cases hrun : (writeSecrets env.yaml name secrets).eval Disk.apply d failures with
    | mk r d' =>
      rw [hrun] at hends he
      dsimp only at he
      rw [he] at hends
      exact hends

end Call

/-! ## One cycle -/

theorem fromUTF8?_secretsBytes (secrets : Dict String String) :
    String.fromUTF8? (ByteArray.mk (secretsBytes secrets).toArray) =
      some (renderSecrets secrets) := by
  have hbytes : ByteArray.mk (secretsBytes secrets).toArray =
      (renderSecrets secrets).toByteArray := by
    show ByteArray.mk ((renderSecrets secrets).toByteArray.data.toList).toArray = _
    rw [Array.toArray_toList]
  rw [hbytes, String.fromUTF8?, dif_pos (renderSecrets secrets).isValidUTF8]
  rfl

/-- A file that was verified reads as the secrets. -/
theorem secretsOf_same {env : Env} {secrets : Dict String String} {d : Disk}
    (hloads : Loads env secrets) (hd : d.secrets = some (.file (secretsBytes secrets))) :
    (secretsOf env.yaml d).same secrets = true := by
  obtain ⟨doc, hyaml, hsame⟩ := hloads
  unfold secretsOf parseSecrets
  rw [hd]
  dsimp only
  rw [fromUTF8?_secretsBytes, Option.map_some, hyaml]
  cases doc with
  | null => exact hsame
  | strings d => exact hsame
  | mapping d => cases hsame
  | other falsy =>
    cases falsy with
    | true => exact hsame
    | false => cases hsame

def SameKeys (a b : Dict String String) : Prop := ∀ k, k ∈ a.keys ↔ k ∈ b.keys

theorem sameKeys_of_same {a b : Dict String String} (h : a.same b = true) : SameKeys a b := by
  intro k
  rw [Dict.mem_keys, Dict.mem_keys, Dict.same_iff.mp h k]

theorem mem_diff {old new : Dict String String} {k : String} :
    (k ∈ (diff old new).added ↔ k ∈ new.keys ∧ k ∉ old.keys) ∧
      (k ∈ (diff old new).removed ↔ k ∈ old.keys ∧ k ∉ new.keys) := by
  constructor <;> simp [diff, List.mem_insertionSort]

/-- A change of the key set comes with its diff and a reload of that size, and nothing else does. -/
structure KeysReported (yaml : String → Except String YamlDoc) (c : Cycle) : Prop where
  changed : ¬ SameKeys (secretsOf yaml c.before) (secretsOf yaml c.after) →
    ∃ d, c.report = some d ∧
      (∀ k, k ∈ d.added ↔
        k ∈ (secretsOf yaml c.after).keys ∧ k ∉ (secretsOf yaml c.before).keys) ∧
      (∀ k, k ∈ d.removed ↔
        k ∈ (secretsOf yaml c.before).keys ∧ k ∉ (secretsOf yaml c.after).keys) ∧
      c.reload = some (d.added.length, d.removed.length)
  unchanged : SameKeys (secretsOf yaml c.before) (secretsOf yaml c.after) → c.reload = none

/-- What a cycle hands to the writing section. -/
def Supervisor.toWrite (env : Env) (force : Bool) (runs : String → ProviderRun)
    (s : Supervisor) : Option Merged :=
  match s.cfg.problems.filter fun p => p.severity = .error with
  | _ :: _ => none
  | [] =>
    let fetches := (fetchAll runs s.loaded s.cfg.providers).2
    (s.cfg.decide env.jinja (keepGood s.lastGood fetches) s.lastItems force fetches).toOption

section Cycle

variable {env : Env} {force : Bool} {runs : String → ProviderRun}
  {failures : List (Option String)} {s s' : Supervisor} {disk : Disk} {c : Cycle}

/-- What a cycle whose writing section returned reports and remembers. -/
structure Reports (previous secrets : Dict String String) (wrote : Bool) (s' : Supervisor)
    (c : Cycle) : Prop where
  report : c.report = if wrote then some (diff previous secrets) else none
  reload : c.reload =
    if wrote ∧ ((diff previous secrets).added ≠ [] ∨ (diff previous secrets).removed ≠ []) then
      some ((diff previous secrets).added.length, (diff previous secrets).removed.length)
    else none
  last : s'.lastWritten = some secrets

/-- A cycle reports and remembers nothing, or what its writing section returned. -/
theorem cycle_reports (h : s.cycle env force runs failures disk = (s', c)) :
    c.before = disk ∧
    (c.report = none ∧ c.reload = none ∧ s'.lastWritten = s.lastWritten ∧
      (c.after = disk ∨ ∃ merged e, s.toWrite env force runs = some merged ∧
        (writeSection env s.cfg.secretsName s.lastWritten merged).eval Disk.apply
          { disk with replaced := [] } failures = (.error e, c.after)) ∨
      ∃ merged files previous wrote, s.toWrite env force runs = some merged ∧
        (writeSection env s.cfg.secretsName s.lastWritten merged).eval Disk.apply
          { disk with replaced := [] } failures = (.ok (files, previous, wrote), c.after) ∧
        Reports previous merged.secrets wrote s' c) := by
  have hsucceed : ∀ (t : Supervisor) fs skipped secrets,
      (t.succeed fs skipped secrets).lastWritten = some secrets := by
    intro t fs skipped secrets
    simp only [Supervisor.succeed]
    split
    · rfl
    · split <;> rfl
  simp only [Supervisor.cycle] at h
  split at h
  · cases h
    exact ⟨rfl, .inl ⟨rfl, rfl, rfl, .inl rfl⟩⟩
  · rename_i hproblems
    split at h
    · cases h
      exact ⟨rfl, .inl ⟨rfl, rfl, rfl, .inl rfl⟩⟩
    · rename_i merged hm
      have hto : s.toWrite env force runs = some merged := by
        simp only [Supervisor.toWrite, hproblems, hm, Except.toOption]
      split at h
      · rename_i e hio
        cases h
        exact ⟨rfl, .inl ⟨rfl, rfl, rfl, .inr ⟨merged, e, hto, Prod.ext hio rfl⟩⟩⟩
      · rename_i files previous wrote hio
        cases h
        exact ⟨rfl, .inr ⟨merged, files, previous, wrote, hto, Prod.ext hio rfl,
          rfl, rfl, hsucceed _ _ _ _⟩⟩

/-- What the process remembers of secrets.yaml has the keys of the file. -/
def Remembers (yaml : String → Except String YamlDoc) (s : Supervisor) (d : Disk) : Prop :=
  ∀ previous, s.lastWritten = some previous → SameKeys previous (secretsOf yaml d)

/-- Nothing fails after secrets.yaml has changed; and in a writing section that returns, the file
could be read for the key diff if the process had not written it yet. -/
def Steady (env : Env) (failures : List (Option String)) (s : Supervisor) (disk : Disk)
    (merged : Merged) : Prop :=
  ¬ (writeSection env s.cfg.secretsName s.lastWritten merged).Fails Disk.apply (changedFrom disk)
      { disk with replaced := [] } failures ∧
    (s.lastWritten = none →
      (∃ r d', (writeSection env s.cfg.secretsName s.lastWritten merged).eval Disk.apply
        { disk with replaced := [] } failures = (.ok r, d')) →
      ¬ (writeSection env s.cfg.secretsName s.lastWritten merged).Fails Disk.apply
        (fun o _ => o = .readSecrets) { disk with replaced := [] } failures)

/-- **One cycle.** -/
theorem cycle_reported (hrem : Remembers env.yaml s disk)
    (h : s.cycle env force runs failures disk = (s', c))
    (hsteady : ∀ merged, s.toWrite env force runs = some merged →
      Steady env failures s disk merged) :
    KeysReported env.yaml c ∧ Remembers env.yaml s' c.after := by
  obtain ⟨hbefore, hcases⟩ := cycle_reports h
  have hsame : ∀ {d : Disk}, d.secrets = disk.secrets → secretsOf env.yaml d =
      secretsOf env.yaml disk := by
    intro d hd
    rw [secretsOf, hd]
    rfl
  have hquiet : c.reload = none → c.after.secrets = disk.secrets →
      s'.lastWritten = s.lastWritten →
        KeysReported env.yaml c ∧ Remembers env.yaml s' c.after := by
    intro hreload hafter hlast
    refine ⟨⟨fun hchanged => ?_, fun _ => hreload⟩, fun previous hp => ?_⟩
    · rw [hbefore, hsame hafter] at hchanged
      exact absurd (fun _ => Iff.rfl) hchanged
    · rw [hsame hafter]
      exact hrem previous (hlast ▸ hp)
  rcases hcases with ⟨-, hreload, hlast, hafter⟩ | ⟨merged, files, previous, wrote, hm, hio, hrep⟩
  · rcases hafter with hafter | ⟨merged, e, hm, hio⟩
    · exact hquiet hreload (by rw [hafter]) hlast
    · have hends := (writeSection_ends (d := { disk with replaced := [] })
        (fun o d₁ cls h => not_not.mp h) s.cfg.secretsName s.lastWritten merged).eval_of_not_fails
        (hsteady merged hm).1
      rw [hio] at hends
      exact hquiet hreload hends hlast
  · obtain ⟨hfails, hread⟩ := hsteady merged hm
    have hends := (writeSection_ends (d := { disk with replaced := [] })
      (fun o d₁ cls h => not_not.mp h) s.cfg.secretsName s.lastWritten merged).eval_of_not_fails
      hfails
    rw [hio] at hends
    obtain ⟨⟨hfile, hloads, hunchanged⟩, hlast, -⟩ := hends
    have hafter : SameKeys merged.secrets (secretsOf env.yaml c.after) := fun k =>
      (sameKeys_of_same (secretsOf_same hloads hfile) k).symm
    have hprevious : SameKeys previous (secretsOf env.yaml disk) := by
      cases hwritten : s.lastWritten with
      | some old =>
        obtain rfl := hlast old hwritten
        exact hrem _ hwritten
      | none =>
        have hno := hread hwritten ⟨_, _, hio⟩
        have hends := (writeSection_ends (d := { disk with replaced := [] })
          (fun o d₁ cls h => not_not.mp fun hd => h (.inl hd)) s.cfg.secretsName s.lastWritten
          merged).eval_of_not_fails (fun h => (Script.fails_or.mp h).elim hfails hno)
        rw [hio] at hends
        obtain ⟨-, -, hold⟩ := hends
        have hold : previous = secretsOf env.yaml disk :=
          hold hwritten fun d₁ cls h => h (.inr rfl)
        rw [hold]
        exact fun _ => Iff.rfl
    have hadded : ∀ k, k ∈ (diff previous merged.secrets).added ↔
        k ∈ (secretsOf env.yaml c.after).keys ∧ k ∉ (secretsOf env.yaml c.before).keys := by
      intro k
      rw [mem_diff.1, hafter k, hprevious k, hbefore]
    have hremoved : ∀ k, k ∈ (diff previous merged.secrets).removed ↔
        k ∈ (secretsOf env.yaml c.before).keys ∧ k ∉ (secretsOf env.yaml c.after).keys := by
      intro k
      rw [mem_diff.2, hafter k, hprevious k, hbefore]
    have hkeys : SameKeys (secretsOf env.yaml c.before) (secretsOf env.yaml c.after) ↔
        (diff previous merged.secrets).added = [] ∧ (diff previous merged.secrets).removed = [] := by
      rw [List.eq_nil_iff_forall_not_mem, List.eq_nil_iff_forall_not_mem, SameKeys]
      simp only [hadded, hremoved]
      constructor
      · intro h
        exact ⟨fun k hk => hk.2 ((h k).mpr hk.1), fun k hk => hk.2 ((h k).mp hk.1)⟩
      · rintro ⟨ha, hr⟩ k
        exact ⟨fun hk => by_contra fun hno => hr k ⟨hk, hno⟩,
          fun hk => by_contra fun hno => ha k ⟨hk, hno⟩⟩
    refine ⟨⟨fun hchanged => ?_, fun hsame => ?_⟩, fun p hp => ?_⟩
    · have hwrote : wrote = true := by
        by_contra hno
        have hkeep : c.after.secrets = disk.secrets :=
          (hunchanged (Bool.eq_false_of_not_eq_true hno)).symm
        rw [hbefore, hsame hkeep] at hchanged
        exact hchanged fun _ => Iff.rfl
      have hnonempty : (diff previous merged.secrets).added ≠ [] ∨
          (diff previous merged.secrets).removed ≠ [] := by
        by_contra hno
        rw [not_or, not_not, not_not] at hno
        exact hchanged (hkeys.mpr hno)
      refine ⟨diff previous merged.secrets, ?_, hadded, hremoved, ?_⟩
      · rw [hrep.report, if_pos hwrote]
      · rw [hrep.reload, if_pos ⟨hwrote, hnonempty⟩]
    · obtain ⟨ha, hr⟩ := hkeys.mp hsame
      rw [hrep.reload, if_neg]
      exact fun h => h.2.elim (fun h => h ha) fun h => h hr
    · obtain rfl := Option.some.inj (hrep.last.symm.trans hp)
      exact hafter

end Cycle

/-! ## Runs -/

/-- The cycles of a run are steady. -/
def SyncState.Steady (env : Env) (s : SyncState) : SyncStep → Prop
  | .cycle force runs failures => ∀ merged, s.sup.toWrite env force runs = some merged →
      HaAddons.SecretsSync.Steady env failures s.sup s.disk merged
  | .restart _ _ _ => True

/-- **Every change of the key set is reported.** In every run of steady cycles and restarts, each
cycle that changes the key set of secrets.yaml comes with its key diff and one reload, and no other
cycle asks for one. -/
theorem reported {env : Env} {s : SyncState} (h : (syncing env).Reach (SyncState.Steady env) s) :
    ∀ c log, s.log = c :: log → KeysReported env.yaml c := by
  let I : SyncState → Prop := fun s =>
    Remembers env.yaml s.sup s.disk ∧ ∀ c log, s.log = c :: log → KeysReported env.yaml c
  suffices hI : I s from hI.2
  refine System.Reach.invariant (fun s hs => ?_) (fun s l s' hI hok hn => ?_) h
  · obtain ⟨⟨cfg, lastItems, succeeded, hsup⟩, hlog⟩ := hs
    refine ⟨fun previous hp => ?_, fun c log h => ?_⟩
    · rw [hsup] at hp
      cases hp
    · rw [hlog] at h
      cases h
  · cases l with
    | cycle force runs failures =>
      cases hr : s.sup.cycle env force runs failures s.disk with
      | mk sup c =>
        simp only [syncing, SyncState.next, hr] at hn
        cases hn
        obtain ⟨hrep, hrem⟩ := cycle_reported hI.1 hr hok
        refine ⟨hrem, fun c' log hlog => ?_⟩
        obtain ⟨rfl, rfl⟩ := List.cons.inj hlog
        exact hrep
    | restart cfg lastItems succeeded =>
      cases hn
      refine ⟨fun previous hp => ?_, fun c log h => ?_⟩
      · cases hp
      · cases h

/-- **Failed writes.** A call of `write_secrets` that raises leaves secrets.yaml as it was exactly
when nothing fails after the file has changed; and in every run without such a failure each change
of the key set is reported. -/
theorem failed_writes (env : Env) :
    (∀ (name : String) (secrets : Dict String String) (d : Disk) (failures : List (Option String)),
      (∀ e, ((writeSecrets env.yaml name secrets).eval Disk.apply d failures).1 = .error e →
        ((writeSecrets env.yaml name secrets).eval Disk.apply d failures).2.secrets = d.secrets) ↔
      ¬ (writeSecrets env.yaml name secrets).Fails Disk.apply (changedFrom d) d failures) ∧
    ∀ s, (syncing env).Reach (SyncState.Steady env) s →
      ∀ c log, s.log = c :: log → KeysReported env.yaml c :=
  ⟨fun _ _ _ failures => writeSecrets_keeps_iff failures, fun _ h => reported h⟩

/-! ### Syncing the directory fails -/

instance (before : Disk) (o : FsOp) (d : Disk) : Decidable (changedFrom before o d) :=
  inferInstanceAs (Decidable (_ ≠ _))

/-- The eighth operation of the first cycle is the sync of the directory. -/
def unsynced : List (Option String) := List.replicate 7 none ++ [some "OSError"]

/-- `write_secrets` raises although the file has changed, and neither this cycle nor the next one
reports the two new keys. -/
theorem unsynced_unreported :
    (((writeSecrets sampleEnv.yaml "secrets.yaml" bothSecrets).eval Disk.apply sampleStart.disk
        (unsynced.drop 2)).1 = .error
          (.write "write_failed" "cannot write secrets.yaml (OSError)") ∧
      ((writeSecrets sampleEnv.yaml "secrets.yaml" bothSecrets).eval Disk.apply sampleStart.disk
        (unsynced.drop 2)).2.secrets ≠ sampleStart.disk.secrets) ∧
    ((syncing sampleEnv).run sampleStart
        [.cycle false healthy unsynced, .cycle false healthy []]).any (fun s =>
      s.disk.secrets ≠ none && s.log.all fun c => c.report = none && c.reload = none) = true := by
  refine ⟨by decide +kernel, by decide +kernel⟩

instance (o : FsOp) : Decidable (o = .readSecrets) :=
  match o with
  | .readSecrets => .isTrue rfl
  | .makeDirs | .readManifest | .lstat _ | .mkdir _ | .read _ | .stage _ | .replace _ | .fsyncDir _
  | .chmod _ | .unlink _ | .rmdir _ | .lstatSecrets | .readStaged | .chmodSecrets => .isFalse nofun

/-- In the run whose first cycle meets no failure the two new keys are reported. -/
theorem failed_writes_first : ∃ s c, (syncing sampleEnv).run sampleStart
      [.cycle false healthy []] = some s ∧ s.log = [c] ∧ KeysReported sampleEnv.yaml c ∧
        c.reload = some (2, 0) := by
  have hquiet : ((sampleStart.sup.toWrite sampleEnv false healthy).all fun merged =>
      !decide ((writeSection sampleEnv sampleStart.sup.cfg.secretsName sampleStart.sup.lastWritten
        merged).Fails Disk.apply (changedFrom sampleStart.disk)
          { sampleStart.disk with replaced := [] } []) &&
      !decide ((writeSection sampleEnv sampleStart.sup.cfg.secretsName sampleStart.sup.lastWritten
        merged).Fails Disk.apply (fun o _ => o = .readSecrets)
          { sampleStart.disk with replaced := [] } [])) = true := by decide +kernel
  have hsteady : SyncState.Steady sampleEnv sampleStart (.cycle false healthy []) := by
    intro merged hm
    rw [hm, Option.all_some, Bool.and_eq_true, Bool.not_eq_true', Bool.not_eq_true',
      decide_eq_false_iff_not, decide_eq_false_iff_not] at hquiet
    exact ⟨hquiet.1, fun _ _ => hquiet.2⟩
  have hreach := System.Reach.step (.init sampleStart_init) hsteady rfl
  exact ⟨_, _, rfl, rfl, (failed_writes sampleEnv).2 _ hreach _ _ rfl, by decide +kernel⟩

end HaAddons.SecretsSync
