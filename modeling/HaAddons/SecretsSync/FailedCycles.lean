import HaAddons.Lib.System
import HaAddons.SecretsSync.Supervisor

/-!
# Failed cycles keep every provider's keys

Runs of the supervisor: cycles with any outcome of each provider and any failing file operation,
and restarts of the process.

* `failed_cycles_keep_keys` — what a cycle writes contains every key of every provider's latest
  snapshot of this process, with the value of the first provider in configured order. A cycle with
  a failed provider that nothing is held for, with a key collision, or whose merge or templates
  fail, changes neither secrets.yaml nor a provider file.

`latest` reads the latest snapshots off the history of the run, not off `last_good`; that the two
agree is the invariant (`latest_eq`).
-/

namespace HaAddons.SecretsSync

/-! ## Snapshots kept in memory -/

/-- What a list of fetches has for a provider. -/
def snapshotOf (fetches : List Fetch) (name : String) : Option Snapshot :=
  (fetches.find? fun f => f.name = name).bind Fetch.snapshot

/-- The latest snapshot of a provider in a history, the newest cycle first. -/
def latest (log : List Cycle) (name : String) : Option Snapshot :=
  log.findSome? fun c => snapshotOf c.fetches name

theorem latest_cons (c : Cycle) (log : List Cycle) (name : String) :
    latest (c :: log) name = (snapshotOf c.fetches name).or (latest log name) := by
  simp only [latest, List.findSome?_cons]
  cases snapshotOf c.fetches name <;> rfl

theorem snapshotOf_of_mem {fetches : List Fetch} (hn : (fetches.map Fetch.name).Nodup) {f : Fetch}
    (hf : f ∈ fetches) : snapshotOf fetches f.name = f.snapshot := by
  induction fetches with
  | nil => cases hf
  | cons g fetches ih =>
    obtain ⟨hg, hn⟩ := List.nodup_cons.mp hn
    rcases List.mem_cons.mp hf with rfl | hf
    · simp [snapshotOf]
    · have hne : g.name ≠ f.name := fun h => hg (h ▸ List.mem_map_of_mem hf)
      have htail : snapshotOf (g :: fetches) f.name = snapshotOf fetches f.name := by
        simp [snapshotOf, hne]
      rw [htail]
      exact ih hn hf

theorem keepGood_cons (good : Dict String Snapshot) (f : Fetch) (fetches : List Fetch) :
    keepGood good (f :: fetches) =
      keepGood (match f.snapshot with | some s => good.insert f.name s | none => good) fetches :=
  rfl

theorem keepGood_get? {fetches : List Fetch} (hn : (fetches.map Fetch.name).Nodup)
    (good : Dict String Snapshot) (name : String) :
    (keepGood good fetches).get? name = (snapshotOf fetches name).or (good.get? name) := by
  induction fetches generalizing good with
  | nil => rfl
  | cons f fetches ih =>
    obtain ⟨hf, hn⟩ := List.nodup_cons.mp hn
    have htail : f.name = name → snapshotOf fetches name = none := by
      rintro rfl
      have hnone : fetches.find? (fun g => g.name = f.name) = none :=
        List.find?_eq_none.mpr fun g hg h => hf (by
          have : g.name = f.name := by simpa using h
          exact this ▸ List.mem_map_of_mem hg)
      simp [snapshotOf, hnone]
    rw [keepGood_cons, ih hn]
    by_cases hname : f.name = name
    · rw [htail hname]
      cases hs : f.snapshot <;> simp [snapshotOf, hname, hs, Dict.get?_insert]
    · have hsame : snapshotOf (f :: fetches) name = snapshotOf fetches name := by
        simp [snapshotOf, hname]
      rw [hsame]
      cases f.snapshot <;> simp [Dict.get?_insert, Ne.symm hname]

/-! ## Synthetic keys are new -/

theorem syntheticNames_ok {taken : List String} {defs : List (String × String)}
    (h : syntheticNames taken defs = .ok ()) : ∀ d ∈ defs, d.1 ∉ taken := by
  induction defs generalizing taken with
  | nil => simp
  | cons d defs ih =>
    obtain ⟨name, template⟩ := d
    simp only [syntheticNames] at h
    split at h
    · cases h
    · rename_i hname
      rintro e he
      rcases List.mem_cons.mp he with rfl | he
      · exact hname
      · exact fun ht => ih h e he (by simp [ht])

theorem synthetic_keys {jinja : Option Render} {secrets out : Dict String String}
    {defs : List (String × String)} (h : synthetic jinja secrets defs = .ok out) :
    ∀ k ∈ out.keys, k ∉ secrets.keys := by
  unfold synthetic at h
  split at h
  · cases h
    exact fun k hk => absurd hk (List.not_mem_nil)
  · cases jinja with
    | none => cases h
    | some render =>
      simp only [syntheticApply, bind, Except.bind] at h
      cases hn : syntheticNames secrets.keys defs with
      | error e => simp [hn] at h
      | ok u =>
        simp only [hn] at h
        let I : List (String × String) → Dict String String → Prop := fun todo d =>
          (∀ e ∈ todo, e ∈ defs) ∧ ∀ k ∈ d.keys, k ∉ secrets.keys
        have hend : I [] out := by
          refine foldlM_ok (fun e todo d d' ⟨hsub, hd⟩ hone => ?_) h
            ⟨fun _ he => he, fun k hk => absurd hk (List.not_mem_nil)⟩
          refine ⟨fun e' he => hsub e' (by simp [he]), ?_⟩
          unfold renderOne at hone
          split at hone
          · cases hone
          · split at hone
            · cases hone
            · cases hone
              intro k hk
              rcases Dict.mem_keys_insert.mp hk with rfl | hk
              · exact syntheticNames_ok hn e (hsub e (by simp))
              · exact hd k hk
        exact hend.2

theorem Merged.get?_update {m : Merged} {synth : Dict String String} {k : String}
    (hk : k ∉ synth.keys) : (m.update synth).secrets.get? k = m.secrets.get? k := by
  have hlist : ∀ (es : List (String × String)) (d : Dict String String), (∀ e ∈ es, e.1 ≠ k) →
      (es.foldl (fun d e => d.insert e.1 e.2) d).get? k = d.get? k := by
    intro es
    induction es with
    | nil => exact fun _ _ => rfl
    | cons e es ih =>
      intro d hne
      rw [List.foldl_cons, ih _ fun e he => hne e (by simp [he]), Dict.get?_insert,
        if_neg (Ne.symm (hne e (by simp)))]
  refine hlist synth.entries m.secrets fun e he heq => hk ?_
  exact heq ▸ List.mem_map_of_mem he

/-! ## What is contributed -/

/-- The snapshots held for the enabled providers, in configured order. -/
def Config.contributions (cfg : Config) (held : String → Option Snapshot) :
    List (String × Snapshot) :=
  cfg.providers.filterMap fun name => (held name).map fun snap => (name, snap)

/-- The first enabled provider that has the key decides its value. -/
def Config.firstKey (cfg : Config) (held : String → Option Snapshot) (key : String) :
    Option String :=
  cfg.providers.findSome? fun name => (held name).bind fun snap => snap.secrets.get? key

theorem firstValue_contributions (cfg : Config) (held : String → Option Snapshot) (key : String) :
    firstValue Snapshot.secrets (cfg.contributions held) key = cfg.firstKey held key := by
  rw [firstValue, Config.contributions, Config.firstKey]
  induction cfg.providers with
  | nil => rfl
  | cons name names ih =>
    cases hh : held name with
    | none => simpa [hh] using ih
    | some snap => simp [hh, ih, List.findSome?_cons]

theorem collision_snapshot {runs : String → ProviderRun} {loaded names : List String} :
    ∀ f ∈ (fetchAll runs loaded names).2, f.collision = true → f.snapshot = none := by
  have hone : ∀ name run, (fetchLoaded name run).collision = true →
      (fetchLoaded name run).snapshot = none := by
    intro name run
    simp only [fetchLoaded]
    split
    · simp
    · split <;> simp
  induction names generalizing loaded with
  | nil => simp [fetchAll]
  | cons name names ih =>
    simp only [fetchAll, List.mem_cons]
    rintro f (rfl | hf)
    · unfold fetchProvider
      split
      · exact hone _ _
      · split
        · exact hone _ _
        · simp
    · exact ih f hf

section Decide

variable {cfg : Config} {jinja : Option Render} {good : Dict String Snapshot} {last : Option ℕ}
  {force : Bool} {fetches : List Fetch} {merged : Merged}

/-- Something is written only when each failed provider has a snapshot held and none collided, and
merging and rendering went through. -/
theorem decide_ok (h : cfg.decide jinja good last force fetches = .ok merged) :
    (∀ f ∈ fetches, f.snapshot = none → f.collision = false ∧ good.get? f.name ≠ none) ∧
      ∃ m synth, merge (fetches.filterMap (contribution good)) cfg.collisionPolicy = .ok m ∧
        synthetic jinja m.secrets cfg.syntheticKeys = .ok synth ∧ merged = m.update synth := by
  simp only [Config.decide] at h
  split at h
  · cases h
  · rename_i hcol
    split at h
    · cases h
    · rename_i hheld
      split at h
      · cases h
      · rename_i m hm
        split at h
        · cases h
        · rename_i synth hsynth
          split at h
          · cases h
          · cases h
            refine ⟨fun f hf hnone => ?_, m, synth, hm, hsynth, rfl⟩
            have hfailed : f ∈ fetches.filter fun f => f.snapshot.isNone := by simp [hf, hnone]
            refine ⟨by simpa using List.find?_eq_none.mp hcol f hfailed, fun hg => hheld ?_⟩
            exact List.any_eq_true.mpr ⟨f, hfailed, by simp [hg]⟩

/-- With nobody missing, every provider contributes what is held for it now. -/
theorem contributions_eq (hnames : fetches.map Fetch.name = cfg.providers)
    (hfresh : ∀ f ∈ fetches, ∀ s, f.snapshot = some s → good.get? f.name = some s)
    (hfailed : ∀ f ∈ fetches, f.snapshot = none → f.collision = false) :
    fetches.filterMap (contribution good) = cfg.contributions good.get? := by
  rw [Config.contributions, ← hnames, List.filterMap_map]
  refine List.filterMap_congr fun f hf => ?_
  simp only [contribution, Function.comp_apply]
  cases hs : f.snapshot with
  | none => simp [hfailed f hf hs]
  | some s => simp [hfresh f hf s hs]

end Decide

/-! ## One cycle -/

/-- A failed provider that nothing is held for, a key collision reported by a provider, or a
merge or templates that fail. -/
def FailsBefore (cfg : Config) (jinja : Option Render) (log : List Cycle) (c : Cycle) : Prop :=
  (∃ f ∈ c.fetches, f.snapshot = none ∧ latest log f.name = none) ∨
    (∃ f ∈ c.fetches, f.collision = true) ∨
    (∃ e, merge (cfg.contributions (latest log)) cfg.collisionPolicy = .error e) ∨
    ∃ m e, merge (cfg.contributions (latest log)) cfg.collisionPolicy = .ok m ∧
      synthetic jinja m.secrets cfg.syntheticKeys = .error e

/-- What a cycle does, told by the history of which it is the newest. -/
structure KeepsKeys (cfg : Config) (jinja : Option Render) (log : List Cycle) (c : Cycle) :
    Prop where
  written : ∀ written, c.written = some written → ∀ name ∈ cfg.providers,
    ∃ snap, latest log name = some snap ∧ ∀ key ∈ snap.secrets.keys,
      ∃ v, cfg.firstKey (latest log) key = some v ∧ written.get? key = some v
  unchanged : FailsBefore cfg jinja log c →
    c.written = none ∧ c.after.secrets = c.before.secrets ∧ c.after.tree = c.before.tree

section Cycles

variable {env : Env} {force : Bool} {runs : String → ProviderRun}
  {failures : List (Option String)} {s s' : Supervisor} {disk : Disk} {c : Cycle}
  {log : List Cycle}

/-- A cycle writes what `decide` made of its fetches, or nothing. -/
theorem cycle_cases (h : s.cycle env force runs failures disk = (s', c)) :
    s'.cfg = s.cfg ∧ c.before = disk ∧
      ((c.fetches = [] ∧ s'.lastGood = s.lastGood ∧ c.written = none ∧ c.after = disk) ∨
        c.fetches = (fetchAll runs s.loaded s.cfg.providers).2 ∧
          s'.lastGood = keepGood s.lastGood c.fetches ∧
          ((c.written = none ∧ c.after = disk ∧
              ∃ e, s.cfg.decide env.jinja s'.lastGood s.lastItems force c.fetches = .error e) ∨
            ∃ merged, s.cfg.decide env.jinja s'.lastGood s.lastItems force c.fetches = .ok merged ∧
              c.written = some merged.secrets)) := by
  simp only [Supervisor.cycle] at h
  split at h
  · cases h
    exact ⟨rfl, rfl, .inl ⟨rfl, rfl, rfl, rfl⟩⟩
  · split at h
    · rename_i e he
      cases h
      exact ⟨rfl, rfl, .inr ⟨rfl, rfl, .inl ⟨rfl, rfl, e, he⟩⟩⟩
    · rename_i merged hm
      split at h
      · cases h
        exact ⟨rfl, rfl, .inr ⟨rfl, rfl, .inr ⟨merged, hm, rfl⟩⟩⟩
      · cases h
        have hsucceed : ∀ (t : Supervisor) fs skipped secrets,
            (t.succeed fs skipped secrets).cfg = t.cfg ∧
              (t.succeed fs skipped secrets).lastGood = t.lastGood := by
          intro t fs skipped secrets
          simp only [Supervisor.succeed]
          split
          · exact ⟨rfl, rfl⟩
          · split <;> exact ⟨rfl, rfl⟩
        refine ⟨(hsucceed _ _ _ _).1, rfl, .inr ⟨rfl, (hsucceed _ _ _ _).2, .inr ⟨merged, ?_, rfl⟩⟩⟩
        rw [(hsucceed _ _ _ _).2]
        exact hm

/-- `last_good` is the latest snapshot of each provider, before and after a cycle. -/
theorem cycle_latest (hlog : ∀ name, s.lastGood.get? name = latest log name)
    (h : s.cycle env force runs failures disk = (s', c)) (name : String) :
    s'.lastGood.get? name = latest (c :: log) name := by
  rw [latest_cons]
  rcases (cycle_cases h).2.2 with ⟨hf, hgood, -⟩ | ⟨hf, hgood, -⟩
  · simp [hf, hgood, hlog, snapshotOf]
  · rw [hgood, keepGood_get? (by rw [hf, fetchAll_names]; exact s.cfg.nodup), hlog]

/-- **One cycle.** -/
theorem cycle_keepsKeys (hlog : ∀ name, s.lastGood.get? name = latest log name)
    (h : s.cycle env force runs failures disk = (s', c)) :
    KeepsKeys s.cfg env.jinja (c :: log) c := by
  have hgood : s'.lastGood.get? = latest (c :: log) := funext (cycle_latest hlog h)
  obtain ⟨-, hbefore, hcases⟩ := cycle_cases h
  rcases hcases with ⟨-, -, hw, ha⟩ | ⟨hf, hkeep, hcases⟩
  · exact ⟨by simp [hw], fun _ => ⟨hw, by rw [ha, hbefore], by rw [ha, hbefore]⟩⟩
  rcases hcases with ⟨hw, ha, -⟩ | ⟨merged, hm, hw⟩
  · exact ⟨by simp [hw], fun _ => ⟨hw, by rw [ha, hbefore], by rw [ha, hbefore]⟩⟩
  have hnames : c.fetches.map Fetch.name = s.cfg.providers := by rw [hf, fetchAll_names]
  obtain ⟨hfailed, m, synth, hmerge, hsynth, rfl⟩ := decide_ok hm
  have hfresh : ∀ f ∈ c.fetches, ∀ snap, f.snapshot = some snap →
      s'.lastGood.get? f.name = some snap := by
    intro f hf snap hs
    rw [hkeep, keepGood_get? (by rw [hnames]; exact s.cfg.nodup),
      snapshotOf_of_mem (by rw [hnames]; exact s.cfg.nodup) hf, hs]
    rfl
  rw [contributions_eq hnames hfresh fun f hf hs => (hfailed f hf hs).1, hgood] at hmerge
  refine ⟨fun written hwritten name hname => ?_, ?_⟩
  · obtain rfl : (m.update synth).secrets = written := by simpa [hw] using hwritten
    obtain ⟨f, hfm, rfl⟩ := List.mem_map.mp (hnames ▸ hname)
    have hheld : s'.lastGood.get? f.name ≠ none := by
      cases hs : f.snapshot with
      | none => exact (hfailed f hfm hs).2
      | some snap => simp [hfresh f hfm snap hs]
    obtain ⟨snap, hsnap⟩ := Option.ne_none_iff_exists'.mp hheld
    rw [hgood] at hsnap
    refine ⟨snap, hsnap, fun key hkey => ?_⟩
    obtain ⟨v, hv⟩ := Dict.mem_keys.mp hkey
    have hfirst : s.cfg.firstKey (latest (c :: log)) key ≠ none := by
      simp only [Config.firstKey, ne_eq, List.findSome?_eq_none_iff]
      intro hnone
      have := hnone f.name hname
      simp [hsnap, hv] at this
    obtain ⟨v, hv⟩ := Option.ne_none_iff_exists'.mp hfirst
    have hget : m.secrets.get? key = some v := by
      rw [(merge_get? hmerge key).1, firstValue_contributions, hv]
    have hnew : key ∉ synth.keys := fun hk =>
      synthetic_keys hsynth key hk (Dict.mem_keys.mpr ⟨v, hget⟩)
    exact ⟨v, hv, by rw [Merged.get?_update hnew, hget]⟩
  · intro hfails
    exfalso
    rcases hfails with ⟨f, hfm, hnone, hl⟩ | ⟨f, hfm, hcol⟩ | ⟨e, he⟩ | ⟨m', e, hm', he⟩
    · exact (hfailed f hfm hnone).2 (by rw [hgood]; exact hl)
    · have hnone := collision_snapshot f (hf ▸ hfm) hcol
      simp [(hfailed f hfm hnone).1] at hcol
    · simp [he] at hmerge
    · obtain rfl : m = m' := by simpa [hmerge] using hm'
      simp [he] at hsynth

end Cycles

/-! ## Runs -/

/-- The process and the disk, with the cycles of this process, the newest first. -/
structure SyncState where
  sup : Supervisor
  disk : Disk
  log : List Cycle := []

/-- A cycle, or a restart with a configuration and what state.json says of the last run. -/
inductive SyncStep where
  | cycle (force : Bool) (runs : String → ProviderRun) (failures : List (Option String))
  | restart (cfg : Config) (lastItems : Option ℕ) (succeeded : Bool)

/-- A new process. -/
def Supervisor.start (cfg : Config) (lastItems : Option ℕ) (succeeded : Bool) : Supervisor :=
  { cfg := cfg, lastItems := lastItems, succeeded := succeeded }

def SyncState.next (env : Env) (s : SyncState) : SyncStep → Option SyncState
  | .cycle force runs failures =>
    let r := s.sup.cycle env force runs failures s.disk
    some ⟨r.1, r.2.after, r.2 :: s.log⟩
  | .restart cfg lastItems succeeded => some ⟨.start cfg lastItems succeeded, s.disk, []⟩

/-- The supervisor's runs from any disk. -/
def syncing (env : Env) : System SyncState SyncStep where
  init s := (∃ cfg lastItems succeeded, s.sup = .start cfg lastItems succeeded) ∧ s.log = []
  next s l := s.next env l

section Runs

variable {env : Env} {s : SyncState}

/-- **Memory is history.** `last_good` holds the latest snapshot of each provider, and the newest
cycle kept the keys. -/
theorem latest_eq (h : (syncing env).Reachable s) :
    (∀ name, s.sup.lastGood.get? name = latest s.log name) ∧
      ∀ c log, s.log = c :: log → KeepsKeys s.sup.cfg env.jinja s.log c := by
  let I : SyncState → Prop := fun s =>
    (∀ name, s.sup.lastGood.get? name = latest s.log name) ∧
      ∀ c log, s.log = c :: log → KeepsKeys s.sup.cfg env.jinja s.log c
  refine System.Reach.invariant (I := I) (fun s hs => ?_) (fun s l s' hI _ hn => ?_) h
  · obtain ⟨⟨cfg, lastItems, succeeded, hsup⟩, hlog⟩ := hs
    exact ⟨fun name => by simp [hsup, hlog, Supervisor.start, latest], by simp [hlog]⟩
  · cases l with
    | cycle force runs failures =>
      cases hr : s.sup.cycle env force runs failures s.disk with
      | mk sup c =>
        simp only [syncing, SyncState.next, hr] at hn
        cases hn
        refine ⟨cycle_latest hI.1 hr, fun c' log hlog => ?_⟩
        obtain ⟨rfl, rfl⟩ := List.cons.inj hlog
        have hcfg : sup.cfg = s.sup.cfg := (cycle_cases hr).1
        simp only [hcfg]
        exact cycle_keepsKeys hI.1 hr
    | restart cfg lastItems succeeded =>
      cases hn
      exact ⟨fun name => rfl, by simp⟩

/-- **Failed cycles keep every provider's keys.** In every run, the newest cycle wrote every key of
every provider's latest snapshot of this process, with the value of the first provider in
configured order; and if a failed provider had no snapshot, a provider reported a collision, or
merging or rendering failed, it wrote nothing. -/
theorem failed_cycles_keep_keys (h : (syncing env).Reachable s) :
    ∀ c log, s.log = c :: log →
      (∀ written, c.written = some written → ∀ name ∈ s.sup.cfg.providers,
        ∃ snap, latest s.log name = some snap ∧ ∀ key ∈ snap.secrets.keys,
          ∃ v, s.sup.cfg.firstKey (latest s.log) key = some v ∧ written.get? key = some v) ∧
      (FailsBefore s.sup.cfg env.jinja s.log c →
        c.after.secrets = c.before.secrets ∧ c.after.tree = c.before.tree) := by
  intro c log hlog
  have hkeeps := (latest_eq h).2 c log hlog
  exact ⟨hkeeps.written, fun hfails => (hkeeps.unchanged hfails).2⟩

end Runs

/-! ## A concrete run -/

def twoProviders : Config where
  providers := ["bitwarden", "sops"]
  nodup := by decide

def mqttSecrets : Dict String String := Dict.empty.insert "mqtt" "a"

def bothSecrets : Dict String String := mqttSecrets.insert "wifi" "b"

/-- The loader as it is on secrets.yaml with both keys. -/
def sampleEnv : Env where
  sha _ := ""
  yaml _ := .ok (.strings bothSecrets)
  jinja := none

def sampleStart : SyncState := ⟨.start twoProviders none false, { tree := .empty }, []⟩

def healthy (name : String) : ProviderRun where
  fetch := .snapshot
    ⟨if name = "bitwarden" then mqttSecrets else Dict.empty.insert "wifi" "b", .empty⟩

def outage (name : String) : ProviderRun :=
  if name = "bitwarden" then { fetch := .providerError "bw_timeout" "" } else healthy name

theorem sampleStart_init : (syncing sampleEnv).init sampleStart := ⟨⟨_, _, _, rfl⟩, rfl⟩

/-- The second cycle writes what bitwarden had in the first. -/
theorem failed_cycles_keep_keys_outage :
    ∃ s c log, (syncing sampleEnv).run sampleStart
        [.cycle false healthy [], .cycle false outage []] = some s ∧ s.log = c :: log ∧
      c.written = some bothSecrets ∧ ∃ snap, latest s.log "bitwarden" = some snap ∧
        ∀ key ∈ snap.secrets.keys, ∃ v, s.sup.cfg.firstKey (latest s.log) key = some v ∧
          bothSecrets.get? key = some v := by
  obtain ⟨s, hs, hf⟩ := (Option.any_eq_true _ _).mp
    (by decide : ((syncing sampleEnv).run sampleStart
        [.cycle false healthy [], .cycle false outage []]).any (fun s =>
      s.sup.cfg.providers.head? = some "bitwarden" &&
        s.log.head?.any fun c => c.written = some bothSecrets) = true)
  simp only [Bool.and_eq_true, decide_eq_true_eq] at hf
  obtain ⟨c, hc, hw⟩ := (Option.any_eq_true _ _).mp hf.2
  obtain ⟨log, hlog⟩ := List.head?_eq_some_iff.mp hc
  have hw : c.written = some bothSecrets := by simpa using hw
  have hreach := System.reachable_of_run sampleStart_init hs
  exact ⟨s, c, log, hs, hlog, hw,
    (failed_cycles_keep_keys hreach c log hlog).1 _ hw "bitwarden" (List.mem_of_mem_head? hf.1)⟩

end HaAddons.SecretsSync
