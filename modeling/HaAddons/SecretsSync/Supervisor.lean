import HaAddons.SecretsSync.Merge
import HaAddons.SecretsSync.Writer

/-!
# The sync supervisor

One cycle of `Supervisor`: fetch every provider, keep the snapshots, decide whether there is
something to write, and write it. `last_good` holds the last snapshot of each provider of this
process; a provider that fails is represented by it.

* `decide` — all that happens before anything is written.
* `writeSection` — provider files first, then secrets.yaml.
* `cycle` — both, with what the supervisor remembers.

Events, timers, the usage scan and the parts of state.json that no decision reads are left out.
Messages are those before the redactor has scrubbed them.
-/

namespace HaAddons.SecretsSync

/-! ## Providers -/

inductive Severity where
  | error
  | warning
  deriving DecidableEq, Repr

structure Problem where
  code : String
  message : String
  severity : Severity := .error
  deriving DecidableEq, Repr

/-- How `fetch` ends: with a snapshot, a `ProviderError`, or any other exception of a class. -/
inductive Fetched where
  | snapshot (s : Snapshot)
  | providerError (code message : String)
  | unexpected (cls : String)
  deriving DecidableEq

/-- What a provider does in a cycle. `load` is the code and message of a `ProviderLoadError`;
`validate` may raise an exception of a class. -/
structure ProviderRun where
  load : Except (String × String) Unit := .ok ()
  validate : Except String (List Problem) := .ok []
  fetch : Fetched

/-- `_Fetch`: the outcome for one provider. -/
structure Fetch where
  name : String
  snapshot : Option Snapshot
  code : Option String := none
  message : String := ""
  problems : List Problem := []
  collision : Bool := false
  deriving DecidableEq

/-- `_fetch_provider`, after the provider is loaded. -/
def fetchLoaded (name : String) (run : ProviderRun) : Fetch :=
  let problems :=
    match run.validate with
    | .ok problems => problems
    | .error cls => [⟨"validate_failed", "validate raised " ++ cls, .error⟩]
  match problems.filter fun p => p.severity = .error with
  | blocking :: _ => ⟨name, none, blocking.code, blocking.message, problems, false⟩
  | [] =>
    match run.fetch with
    | .snapshot s => ⟨name, some s, none, "", problems, false⟩
    | .providerError code message =>
      -- `ProviderError` takes the code for an empty message.
      let message := if message = "" then code else message
      ⟨name, none, code, message, problems, code = "key_collision"⟩
    | .unexpected cls =>
      ⟨name, none, "provider_internal_error", "unexpected " ++ cls, problems, false⟩

/-- `_fetch_provider`. A provider that was loaded once stays loaded. -/
def fetchProvider (loaded : List String) (name : String) (run : ProviderRun) :
    List String × Fetch :=
  if name ∈ loaded then (loaded, fetchLoaded name run)
  else
    match run.load with
    | .ok () => (name :: loaded, fetchLoaded name run)
    | .error (code, message) =>
      (loaded, ⟨name, none, code, message, [⟨code, message, .error⟩], false⟩)

/-- Fetch all of them, in configured order. -/
def fetchAll (runs : String → ProviderRun) : List String → List String → List String × List Fetch
  | loaded, [] => (loaded, [])
  | loaded, name :: names =>
    let r := fetchProvider loaded name (runs name)
    let rest := fetchAll runs r.1 names
    (rest.1, r.2 :: rest.2)

@[simp] theorem fetchLoaded_name (name : String) (run : ProviderRun) :
    (fetchLoaded name run).name = name := by
  simp only [fetchLoaded]
  split
  · rfl
  · split <;> rfl

@[simp] theorem fetchProvider_name (loaded : List String) (name : String) (run : ProviderRun) :
    (fetchProvider loaded name run).2.name = name := by
  unfold fetchProvider
  split
  · simp
  · split <;> simp

theorem fetchAll_names (runs : String → ProviderRun) (loaded names : List String) :
    (fetchAll runs loaded names).2.map Fetch.name = names := by
  induction names generalizing loaded with
  | nil => rfl
  | cons name names ih => simp [fetchAll, ih]

/-! ## Synthetic keys -/

def maxOutput : ℕ := 65536

/-- `SyntheticFailure`. -/
structure SyntheticFailure where
  code : String
  message : String
  deriving DecidableEq, Repr

/-- The message of a code in a `SyntheticError`. -/
def syntheticText : String → String
  | "synthetic_collision" => "collides with an existing key"
  | "synthetic_forbidden" => "template uses a forbidden construct"
  | "synthetic_syntax" => "template has a syntax error"
  | "synthetic_undefined" => "references an undefined key"
  | "synthetic_too_large" => "result is too large"
  | _ => "template could not be rendered"

def syntheticError (code name detail : String) : SyntheticFailure :=
  ⟨code, "synthetic key '" ++ name ++ "': " ++ syntheticText code ++ detail⟩

/-- A template rendered over the real keys: the result, or the code and detail of the failure. -/
abbrev Render := Dict String String → String → Except (String × String) String

/-- The names of the definitions must be new. -/
def syntheticNames (taken : List String) : List (String × String) → Except SyntheticFailure Unit
  | [] => .ok ()
  | (name, _) :: defs =>
    if name ∈ taken then
      .error (syntheticError "synthetic_collision" name " (real key of the same name)")
    else syntheticNames (name :: taken) defs

def renderOne (render : Render) (secrets out : Dict String String) (d : String × String) :
    Except SyntheticFailure (Dict String String) :=
  match render secrets d.2 with
  | .error (code, detail) => .error (syntheticError code d.1 detail)
  | .ok value =>
    if value.length > maxOutput then .error (syntheticError "synthetic_too_large" d.1 "")
    else .ok (out.insert d.1 value)

/-- `synthetic.apply`: only the synthetic keys. -/
def syntheticApply (render : Render) (secrets : Dict String String)
    (defs : List (String × String)) : Except SyntheticFailure (Dict String String) := do
  syntheticNames secrets.keys defs
  defs.foldlM (renderOne render secrets) .empty

/-! ## Deciding -/

/-- What a cycle reads of the configuration. -/
structure Config where
  problems : List Problem := []
  providers : List String
  nodup : providers.Nodup
  collisionPolicy : CollisionPolicy := .error
  syntheticKeys : List (String × String) := []
  shrinkGuardPercent : ℕ := 30
  secretsName : String := "secrets.yaml"

/-- An event code and message that ends a cycle. -/
structure Fatal where
  code : String
  message : String
  deriving DecidableEq, Repr

/-- `check_shrink`, with `1 - percent / 100` as a fraction. -/
def checkShrink (items : ℕ) (lastItems : Option ℕ) (percent : ℕ) (force : Bool) :
    Option String :=
  if items = 0 then some "shrink_guard"
  else
    match lastItems with
    | none => none
    | some last =>
      if force || last = 0 then none
      else if 100 * items < last * (100 - percent) then some "shrink_guard" else none

/-- `last_good` with the snapshots of this cycle. -/
def keepGood (lastGood : Dict String Snapshot) (fetches : List Fetch) : Dict String Snapshot :=
  fetches.foldl (fun good f =>
    match f.snapshot with
    | some s => good.insert f.name s
    | none => good) lastGood

/-- What a fetch contributes: its snapshot, or the one held for it. -/
def contribution (lastGood : Dict String Snapshot) (f : Fetch) : Option (String × Snapshot) :=
  match f.snapshot with
  | some s => some (f.name, s)
  | none => if f.collision then none else (lastGood.get? f.name).map fun held => (f.name, held)

/-- `_synthetic`: jinja2 may be missing. -/
def synthetic (jinja : Option Render) (secrets : Dict String String)
    (defs : List (String × String)) : Except SyntheticFailure (Dict String String) :=
  if defs = [] then .ok .empty
  else
    match jinja with
    | none =>
      .error ⟨"synthetic_unavailable", "synthetic keys need jinja2, which is not installed"⟩
    | some render => syntheticApply render secrets defs

/-- `merged.secrets.update(synth)`. -/
def Merged.update (m : Merged) (synth : Dict String String) : Merged :=
  { m with secrets := synth.entries.foldl (fun d e => d.insert e.1 e.2) m.secrets }

/-- What comes out of the fetches: a reason to write nothing, or what to write. -/
def Config.decide (cfg : Config) (jinja : Option Render) (lastGood : Dict String Snapshot)
    (lastItems : Option ℕ) (force : Bool) (fetches : List Fetch) : Except Fatal Merged :=
  let failed := fetches.filter fun f => f.snapshot.isNone
  match failed.find? Fetch.collision with
  | some f => .error ⟨"key_collision", f.message⟩
  | none =>
    if failed.any fun f => (lastGood.get? f.name).isNone then
      .error ⟨((failed.head?.bind Fetch.code).filter (· ≠ "")).getD "provider_error",
        "provider failed and nothing is held in memory"⟩
    else
      match merge (fetches.filterMap (contribution lastGood)) cfg.collisionPolicy with
      | .error e => .error ⟨e.code, e.message⟩
      | .ok merged =>
        match synthetic jinja merged.secrets cfg.syntheticKeys with
        | .error e => .error ⟨e.code, e.message⟩
        | .ok synth =>
          let merged := merged.update synth
          let items := merged.secrets.entries.length
          match checkShrink items lastItems cfg.shrinkGuardPercent force with
          | some _ => .error ⟨"shrink_guard", "refusing to write " ++ toString items ++
              " items (last write: " ++ (lastItems.elim "None" toString) ++ ")"⟩
          | none => .ok merged

/-! ## Writing -/

/-- Key names only, sorted. -/
structure Diff where
  added : List String
  removed : List String
  changed : List String
  deriving DecidableEq, Repr

/-- `_diff`. -/
def diff (old new : Dict String String) : Diff where
  added := (new.keys.filter fun k => k ∉ old.keys).insertionSort (· ≤ ·)
  removed := (old.keys.filter fun k => k ∉ new.keys).insertionSort (· ≤ ·)
  changed := ((new.keys.filter fun k => k ∈ old.keys).filter fun k =>
    new.get? k ≠ old.get? k).insertionSort (· ≤ ·)

/-- What the engine runs on: the digest, the YAML loader, and jinja2 if it is installed. -/
structure Env where
  sha : Bytes → String
  yaml : String → Except String YamlDoc
  jinja : Option Render

/-- Provider files first, then secrets.yaml, with what was there before. -/
def writeSection (env : Env) (name : String) (lastWritten : Option (Dict String String))
    (merged : Merged) : IoM (FilesResult × Dict String String × Bool) := do
  let files ← writeFiles env.sha merged.files
  let previous ←
    match lastWritten with
    | some previous => pure previous
    | none => do
      let current ← readSecrets env.yaml
      pure (current.getD .empty)
  let wrote ← writeSecrets env.yaml name merged.secrets
  pure (files, previous, wrote)

/-- A `WriteError` ends the cycle with its code, any other exception with `internal_error`. -/
def Exc.fatal : Exc → Fatal
  | .write code message => ⟨code, message⟩
  | .unsafePath message => ⟨"unsafe_path", message⟩
  | .os _ | .assertion => ⟨"internal_error", ""⟩

inductive Status where
  | starting
  | ok
  | degraded
  | error
  deriving DecidableEq, Repr

/-- What the process remembers. `succeeded` says whether there was ever a successful cycle. -/
structure Supervisor where
  cfg : Config
  loaded : List String := []
  lastGood : Dict String Snapshot := .empty
  lastItems : Option ℕ := none
  lastWritten : Option (Dict String String) := none
  succeeded : Bool := false
  status : Status := .starting
  code : Option String := none

/-- What one cycle did: the fetches, the secrets handed to `write_secrets` if it came to that, the
key diff and the sizes of the reload request, and the disk before and after. -/
structure Cycle where
  fetches : List Fetch
  written : Option (Dict String String) := none
  report : Option Diff := none
  reload : Option (ℕ × ℕ) := none
  before : Disk
  after : Disk

namespace Supervisor

def finish (s : Supervisor) (status : Status) (code : Option String) : Supervisor :=
  { s with status := status, code := code }

/-- The end of a cycle that wrote nothing, or not all. -/
def refuse (s : Supervisor) (e : Fatal) : Supervisor :=
  s.finish (if s.succeeded then .degraded else .error) (some e.code)

/-- The end of a cycle that wrote everything. -/
def succeed (s : Supervisor) (fetches : List Fetch) (skipped : List String)
    (secrets : Dict String String) : Supervisor :=
  let s :=
    { s with
      lastWritten := some secrets
      lastItems := some secrets.entries.length
      succeeded := true }
  match fetches.filter fun f => f.snapshot.isNone with
  | f :: _ => s.finish .degraded f.code
  | [] => if skipped = [] then s.finish .ok none else s.finish .degraded (some "file_unmanaged")

/-- `run_once`: one cycle on a disk. `runs` is what the providers do, `failures` what the disk
does. -/
def cycle (env : Env) (force : Bool) (runs : String → ProviderRun)
    (failures : List (Option String)) (s : Supervisor) (disk : Disk) : Supervisor × Cycle :=
  match s.cfg.problems.filter fun p => p.severity = .error with
  | p :: _ => (s.finish .error (some p.code), { fetches := [], before := disk, after := disk })
  | [] =>
    let fetched := fetchAll runs s.loaded s.cfg.providers
    let fetches := fetched.2
    let s := { s with loaded := fetched.1, lastGood := keepGood s.lastGood fetches }
    match s.cfg.decide env.jinja s.lastGood s.lastItems force fetches with
    | .error e => (s.refuse e, { fetches := fetches, before := disk, after := disk })
    | .ok merged =>
      let io := (writeSection env s.cfg.secretsName s.lastWritten merged).eval Disk.apply
        { disk with replaced := [] } failures
      match io.1 with
      | .error e =>
        (s.refuse e.fatal, { fetches := fetches, written := some merged.secrets,
                             before := disk, after := io.2 })
      | .ok (files, previous, wrote) =>
        let d := diff previous merged.secrets
        (s.succeed fetches files.skipped merged.secrets,
          { fetches := fetches
            written := some merged.secrets
            report := if wrote then some d else none
            reload :=
              if wrote ∧ (d.added ≠ [] ∨ d.removed ≠ []) then
                some (d.added.length, d.removed.length)
              else none
            before := disk
            after := io.2 })

end Supervisor

end HaAddons.SecretsSync
