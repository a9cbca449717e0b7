import HaAddons.Lib.PyJson
import HaAddons.SecretsSync.Supervisor

/-!
# The options loader

`load_config` reads options.json and the environment. An option that is not accepted gets its
default and a problem.

* `loads_iff` — which files and which ports give a configuration in which every field is in its
  domain and every option that is not accepted has its problem.
* `unhashable_provider` — a list among the providers raises.
-/

namespace HaAddons.SecretsSync.Loader

variable {φ : Type}

/-! ## Python -/

/-- What is Python's own: `str`, the characters of `str.isdigit` and the decimals that `int` takes,
and the values that are nested too deep for its decoder. -/
structure Python (φ : Type) where
  str : PyJson φ → String
  digit : Char → Bool
  decimal : Char → Option ℕ
  tooDeep : PyJson φ → Bool

/-- The exception of `load_config`. -/
inductive Raised where
  | typeError
  | valueError
  | recursionError
  deriving DecidableEq, Repr

def Python.isdigit (py : Python φ) (s : String) : Bool := s ≠ "" && s.toList.all py.digit

/-- `int` of a string of digits. It takes no more than 4300 of them. -/
def Python.int (py : Python φ) (s : String) : Except Raised ℕ :=
  if 4300 < s.length then .error .valueError
  else
    match s.toList.mapM py.decimal with
    | some ds => .ok (ds.foldl (fun n d => 10 * n + d) 0)
    | none => .error .valueError

/-- White space of `str.strip`. -/
def isSpace (c : Char) : Bool :=
  9 ≤ c.toNat && c.toNat ≤ 13 || 28 ≤ c.toNat && c.toNat ≤ 32 ||
    8192 ≤ c.toNat && c.toNat ≤ 8202 ||
    c.toNat ∈ [133, 160, 5760, 8232, 8233, 8239, 8287, 12288]

/-! ## Options -/

def providerModules : List String := ["bitwarden", "sops"]

def collisionPolicies : List String := ["error", "priority"]

def logLevels : List String := ["debug", "info", "warning", "error"]

def usageScopes : List String := ["off", "config", "all"]

def minInterval : ℤ := 60

def minCheckInterval : ℤ := 30

def syntheticMaxTemplate : ℕ := 2048

/-- The problem of an option. -/
def optionProblem (name text : String) : Problem :=
  ⟨"config_invalid", "option '" ++ name ++ "' must be " ++ text, .error⟩

/-- `_int` -/
def intOption (raw : PyJson φ) (default lo hi : ℤ) (name : String) : ℤ × List Problem :=
  match raw with
  | .none => (default, [])
  | .int n =>
    if lo ≤ n ∧ n ≤ hi then (n, [])
    else (default, [optionProblem name s!"an integer in {lo}..{hi}"])
  | _ => (default, [optionProblem name s!"an integer in {lo}..{hi}"])

/-- `_check_interval` -/
def checkInterval (raw : PyJson φ) : ℤ × List Problem :=
  let r := intOption raw 60 0 3600 "check_interval"
  (if 0 < r.1 ∧ r.1 < minCheckInterval then minCheckInterval else r.1, r.2)

/-- `_choice` -/
def choice (raw : PyJson φ) (default : String) (choices : List String) (name : String) :
    String × List Problem :=
  match raw with
  | .none => (default, [])
  | .str s =>
    if s ∈ choices then (s, [])
    else (default, [optionProblem name ("one of " ++ ", ".intercalate choices)])
  | _ => (default, [optionProblem name ("one of " ++ ", ".intercalate choices)])

/-! ## Synthetic keys -/

/-- `[A-Za-z_][A-Za-z0-9_]{0,127}` -/
def isName : List Char → Bool
  | [] => false
  | c :: cs => (c.isAlpha || c = '_') && cs.all (fun c => c.isAlphanum || c = '_') && cs.length ≤ 127

/-- `SYNTHETIC_NAME.match`. A newline at the end is let through, as `$` does. -/
def syntheticName (name : String) : Bool :=
  isName name.toList ||
    name.toList.getLast? = some '\n' && isName name.toList.dropLast

/-- A problem of an entry. -/
def entryProblem (code : String) (index : ℕ) (text : String) : Problem :=
  ⟨code, s!"synthetic_keys[{index}]: " ++ text, .error⟩

/-- What `_synthetic_keys` collects. -/
structure Synthetic where
  seen : List String := []
  out : List (String × String) := []
  problems : List Problem := []

def Synthetic.report (acc : Synthetic) (p : Problem) : Synthetic :=
  { acc with problems := acc.problems ++ [p] }

/-- One entry. The problems never hold the text of a template. -/
def syntheticEntry (acc : Synthetic) (item : PyJson φ) (index : ℕ) : Synthetic :=
  match item.get "name" with
  | .str name =>
    if syntheticName name = false then
      acc.report (entryProblem "synthetic_invalid_name" index
        "name must match ^[A-Za-z_][A-Za-z0-9_]\x7b0,127\x7d$")
    else if name ∈ acc.seen then
      acc.report (entryProblem "synthetic_invalid_name" index ("duplicate name '" ++ name ++ "'"))
    else
      match item.get "template" with
      | .str template =>
        if template.toList.all isSpace then
          acc.report (entryProblem "config_invalid" index "template must be a non-empty string")
        else if syntheticMaxTemplate < template.length then
          acc.report (entryProblem "synthetic_template_too_long" index
            s!"template exceeds {syntheticMaxTemplate} characters")
        else
          { acc with seen := name :: acc.seen, out := acc.out ++ [(name, template)] }
      | _ => acc.report (entryProblem "config_invalid" index "template must be a non-empty string")
  | _ =>
    acc.report (entryProblem "synthetic_invalid_name" index
      "name must match ^[A-Za-z_][A-Za-z0-9_]\x7b0,127\x7d$")

/-- The loop over the entries. -/
def syntheticEntries (acc : Synthetic) (index : ℕ) : List (PyJson φ) → Synthetic
  | [] => acc
  | item :: items => syntheticEntries (syntheticEntry acc item index) (index + 1) items

/-- `_synthetic_keys` -/
def syntheticKeys (raw : PyJson φ) : List (String × String) × List Problem :=
  match raw with
  | .none => ([], [])
  | .list items =>
    let acc := syntheticEntries {} 0 items
    (acc.out, acc.problems)
  | _ => ([], [optionProblem "synthetic_keys" "a list"])

/-! ## Providers -/

def unknownProvider (py : Python φ) (name : PyJson φ) : Problem :=
  ⟨"config_invalid", "unknown provider '" ++ py.str name ++ "'", .error⟩

/-- `name in PROVIDER_MODULES`, for a value that has a hash. -/
def knownProvider : PyJson φ → Option String
  | .str s => if s ∈ providerModules then some s else none
  | _ => none

/-- The loop over the providers. A value that has no hash raises at the lookup. -/
def enabledProviders (py : Python φ) (providers : List String) :
    List (PyJson φ) → Except Raised (List String × List Problem)
  | [] => .ok (providers, [])
  | name :: names =>
    if name.hashable = false then .error .typeError
    else
      match knownProvider name with
      | some s => enabledProviders py (if s ∈ providers then providers else providers ++ [s]) names
      | none => do
        let r ← enabledProviders py providers names
        pure (r.1, unknownProvider py name :: r.2)

/-- The providers that are listed. Where nothing is, this is `bitwarden`. -/
def listedProviders (py : Python φ) :
    Option (PyJson φ) → Except Raised (List String × List Problem)
  | none => .ok (["bitwarden"], [])
  | some (.list names) => enabledProviders py [] names
  | some _ => .ok ([], [optionProblem "providers" "a list"])

def checkEnabled (r : List String × List Problem) : List String × List Problem :=
  if r.1 = [] then (r.1, r.2 ++ [⟨"no_providers", "no provider is enabled", .error⟩]) else r

/-- The part about the providers. -/
def loadProviders (py : Python φ) (raw : Option (PyJson φ)) :
    Except Raised (List String × List Problem) :=
  (listedProviders py raw).map checkEnabled

/-! ## The configuration -/

abbrev Env := String → Option String

structure Config (φ : Type) where
  providers : List String
  interval : ℤ
  collisionPolicy : String
  shrinkGuardPercent : ℤ
  logLevel : String
  providerCfg : List (String × PyJson φ)
  secretsFile : String
  filesDir : String
  stateFile : String
  dataDir : String
  port : ℕ
  version : String
  problems : List Problem
  usageScan : String
  addonConfigsDir : String
  checkInterval : ℤ
  syntheticKeys : List (String × String)

/-- The options, and the problem of the file. `none` is a file that cannot be read or decoded. -/
def readOptions (py : Python φ) (file : Option (PyJson φ)) :
    Except Raised (PyJson φ × List Problem) :=
  match file with
  | none =>
    .ok (.dict [], [⟨"config_invalid", "options file is missing or not valid JSON", .error⟩])
  | some v =>
    if py.tooDeep v then .error .recursionError
    else if v.isDict then .ok (v, [])
    else .ok (.dict [], [⟨"config_invalid", "options file must contain a JSON object", .error⟩])

/-- The block of a provider. -/
def providerBlock (options : PyJson φ) (name : String) : String × PyJson φ :=
  (name, if (options.get name).isDict then options.get name else .dict [])

def loadPort (py : Python φ) (raw : String) : Except Raised ℕ :=
  if py.isdigit raw then py.int raw else .ok 8099

/-- The part of `load_config` that cannot raise. -/
def assemble (env : Env) (options : PyJson φ) (before : List Problem) (providers : List String)
    (port : ℕ) : Config φ :=
  let usageScan := choice (options.get "usage_scan") "all" usageScopes "usage_scan"
  let check := checkInterval (options.get "check_interval")
  let synthetic := syntheticKeys (options.get "synthetic_keys")
  let interval := intOption (options.get "interval") 300 minInterval 86400 "interval"
  let collision := choice (options.get "collision_policy") "error" collisionPolicies
    "collision_policy"
  let shrink := intOption (options.get "shrink_guard_percent") 30 1 100 "shrink_guard_percent"
  let level := choice (options.get "log_level") "info" logLevels "log_level"
  { providers := providers
    interval := interval.1
    collisionPolicy := collision.1
    shrinkGuardPercent := shrink.1
    logLevel := level.1
    providerCfg := providerModules.map (providerBlock options)
    secretsFile := (env "SS_SECRETS_FILE").getD "/config/secrets.yaml"
    filesDir := (env "SS_FILES_DIR").getD "/config/secrets_files"
    stateFile := (env "SS_STATE_FILE").getD "/data/state.json"
    dataDir := (env "SS_DATA_DIR").getD "/data"
    port := port
    version := (env "SS_ADDON_VERSION").getD "unknown"
    usageScan := usageScan.1
    addonConfigsDir := (env "SS_ADDON_CONFIGS_DIR").getD "/addon_configs"
    checkInterval := check.1
    syntheticKeys := synthetic.1
    problems := before ++ usageScan.2 ++ check.2 ++ synthetic.2 ++ interval.2 ++ collision.2 ++
      shrink.2 ++ level.2 }

/-- `load_config`, with what the options file holds. -/
def loadConfig (py : Python φ) (env : Env) (file : Option (PyJson φ)) :
    Except Raised (Config φ) := do
  let (options, fileProblems) ← readOptions py file
  let (providers, providerProblems) ← loadProviders py (options.get? "providers")
  let port ← loadPort py ((env "SS_PORT").getD "8099")
  pure (assemble env options (fileProblems ++ providerProblems) providers port)

/-! ## What is accepted -/

/-- The options that count. -/
def optionsOf : Option (PyJson φ) → PyJson φ
  | some v => if v.isDict then v else .dict []
  | none => .dict []

def AcceptsInt (lo hi : ℤ) (raw : PyJson φ) : Prop :=
  raw = .none ∨ ∃ n, raw = .int n ∧ lo ≤ n ∧ n ≤ hi

def AcceptsChoice (choices : List String) (raw : PyJson φ) : Prop :=
  raw = .none ∨ ∃ s ∈ choices, raw = .str s

def Known (x : PyJson φ) : Prop := ∃ s ∈ providerModules, x = .str s

/-- An entry with a name and a template that are accepted. -/
def WellFormed (nameOk : String → Bool) (item : PyJson φ) (name : String) : Prop :=
  item.get "name" = .str name ∧ nameOk name = true ∧
    ∃ t, item.get "template" = .str t ∧ t.toList.all isSpace = false ∧
      t.length ≤ syntheticMaxTemplate

/-- The names as documented. -/
def documented (name : String) : Bool := isName name.toList

/-- A message about the option. -/
def Names (option : String) (p : Problem) : Prop :=
  ("option '" ++ option ++ "'").toList <+: p.message.toList

/-- A message about the entry. -/
def NamesEntry (index : ℕ) (p : Problem) : Prop :=
  s!"synthetic_keys[{index}]: ".toList <+: p.message.toList

/-- Every field is in its domain. -/
structure InDomain (cfg : Config φ) : Prop where
  providers : cfg.providers.Nodup ∧ ∀ p ∈ cfg.providers, p ∈ providerModules
  interval : minInterval ≤ cfg.interval ∧ cfg.interval ≤ 86400
  collisionPolicy : cfg.collisionPolicy ∈ collisionPolicies
  shrinkGuardPercent : 1 ≤ cfg.shrinkGuardPercent ∧ cfg.shrinkGuardPercent ≤ 100
  logLevel : cfg.logLevel ∈ logLevels
  usageScan : cfg.usageScan ∈ usageScopes
  checkInterval :
    cfg.checkInterval = 0 ∨ minCheckInterval ≤ cfg.checkInterval ∧ cfg.checkInterval ≤ 3600
  syntheticKeys : (cfg.syntheticKeys.map Prod.fst).Nodup ∧
    ∀ e ∈ cfg.syntheticKeys, documented e.1 = true
  providerCfg : ∀ b ∈ cfg.providerCfg, b.2.isDict = true

/-- Every option that is not accepted has its problem. -/
structure Reported (py : Python φ) (file : Option (PyJson φ)) (problems : List Problem) : Prop where
  content : (∀ v, file = some v → v.isDict = false) →
    ∃ p ∈ problems, "options file".toList <+: p.message.toList
  interval : ¬ AcceptsInt minInterval 86400 ((optionsOf file).get "interval") →
    ∃ p ∈ problems, Names "interval" p
  checkInterval : ¬ AcceptsInt 0 3600 ((optionsOf file).get "check_interval") →
    ∃ p ∈ problems, Names "check_interval" p
  shrinkGuardPercent : ¬ AcceptsInt 1 100 ((optionsOf file).get "shrink_guard_percent") →
    ∃ p ∈ problems, Names "shrink_guard_percent" p
  collisionPolicy : ¬ AcceptsChoice collisionPolicies ((optionsOf file).get "collision_policy") →
    ∃ p ∈ problems, Names "collision_policy" p
  logLevel : ¬ AcceptsChoice logLevels ((optionsOf file).get "log_level") →
    ∃ p ∈ problems, Names "log_level" p
  usageScan : ¬ AcceptsChoice usageScopes ((optionsOf file).get "usage_scan") →
    ∃ p ∈ problems, Names "usage_scan" p
  providers : ∀ raw, (optionsOf file).get? "providers" = some raw →
    (∀ names, raw ≠ .list names) → ∃ p ∈ problems, Names "providers" p
  provider : ∀ names, (optionsOf file).get? "providers" = some (.list names) →
    ∀ x ∈ names, ¬ Known x → unknownProvider py x ∈ problems
  noProvider : (∀ names, (optionsOf file).get? "providers" = some (.list names) →
      ∀ x ∈ names, ¬ Known x) → (optionsOf file).get? "providers" ≠ none →
    ∃ p ∈ problems, p.code = "no_providers"
  syntheticKeys : (optionsOf file).get "synthetic_keys" ≠ .none →
    (∀ items, (optionsOf file).get "synthetic_keys" ≠ .list items) →
      ∃ p ∈ problems, Names "synthetic_keys" p
  entry : ∀ before item after,
    (optionsOf file).get "synthetic_keys" = .list (before ++ item :: after) →
      ¬ (∃ name, WellFormed documented item name ∧
        ∀ other ∈ before, ¬ WellFormed documented other name) →
        ∃ p ∈ problems, NamesEntry before.length p
  block : ∀ name ∈ providerModules, (optionsOf file).get name ≠ .none →
    ((optionsOf file).get name).isDict = false → ∃ p ∈ problems, Names name p

/-- The loader returns, with every field in its domain and with all problems. -/
def Loads (py : Python φ) (env : Env) (file : Option (PyJson φ)) : Prop :=
  ∃ cfg, loadConfig py env file = .ok cfg ∧ InDomain cfg ∧
    (∀ n, (optionsOf file).get "check_interval" = .int n → 0 < n → n < minCheckInterval →
      cfg.checkInterval = minCheckInterval) ∧
    Reported py file cfg.problems

/-- What the loader copes with. -/
structure Tame (py : Python φ) (env : Env) (file : Option (PyJson φ)) : Prop where
  depth : ∀ v, file = some v → py.tooDeep v = false
  providers : ∀ names, (optionsOf file).get? "providers" = some (.list names) →
    ∀ x ∈ names, x.hashable = true
  port : py.isdigit ((env "SS_PORT").getD "8099") = true →
    ((env "SS_PORT").getD "8099").length ≤ 4300 ∧
      ∀ c ∈ ((env "SS_PORT").getD "8099").toList, (py.decimal c).isSome
  names : ∀ items, (optionsOf file).get "synthetic_keys" = .list items → ∀ item ∈ items,
    ∀ name, WellFormed syntheticName item name → documented name = true
  blocks : ∀ name ∈ providerModules, (optionsOf file).get name = .none ∨
    ((optionsOf file).get name).isDict = true

/-! ## Numbers and choices -/

section Values

variable {raw : PyJson φ} {default lo hi : ℤ} {choices : List String} {name option : String}

theorem intOption_range (h : lo ≤ default ∧ default ≤ hi) (raw : PyJson φ) (name : String) :
    lo ≤ (intOption raw default lo hi name).1 ∧ (intOption raw default lo hi name).1 ≤ hi := by
  unfold intOption
  split
  · exact h
  · split_ifs with hn
    · exact hn
    · exact h
  · exact h

theorem intOption_reports (h : ¬ AcceptsInt lo hi raw) (default : ℤ) (name : String) :
    ∃ text, optionProblem name text ∈ (intOption raw default lo hi name).2 := by
  unfold intOption
  split
  · exact absurd (.inl rfl) h
  · rename_i n
    rw [if_neg fun hn => h (.inr ⟨n, rfl, hn⟩)]
    exact ⟨_, List.mem_singleton_self _⟩
  · exact ⟨_, List.mem_singleton_self _⟩

theorem intOption_problems {p : Problem} (h : p ∈ (intOption raw default lo hi name).2) :
    ∃ text, p = optionProblem name text := by
  unfold intOption at h
  split at h
  · exact absurd h List.not_mem_nil
  · split_ifs at h
    · exact absurd h List.not_mem_nil
    · exact ⟨_, List.mem_singleton.mp h⟩
  · exact ⟨_, List.mem_singleton.mp h⟩

theorem choice_mem {default : String} (h : default ∈ choices) (raw : PyJson φ) (name : String) :
    (choice raw default choices name).1 ∈ choices := by
  unfold choice
  split
  · exact h
  · split_ifs with hs
    · exact hs
    · exact h
  · exact h

theorem choice_reports (h : ¬ AcceptsChoice choices raw) (default name : String) :
    ∃ text, optionProblem name text ∈ (choice raw default choices name).2 := by
  unfold choice
  split
  · exact absurd (.inl rfl) h
  · rename_i s
    rw [if_neg fun hs => h (.inr ⟨s, hs, rfl⟩)]
    exact ⟨_, List.mem_singleton_self _⟩
  · exact ⟨_, List.mem_singleton_self _⟩

theorem choice_problems {default : String} {p : Problem}
    (h : p ∈ (choice raw default choices name).2) : ∃ text, p = optionProblem name text := by
  unfold choice at h
  split at h
  · exact absurd h List.not_mem_nil
  · split_ifs at h
    · exact absurd h List.not_mem_nil
    · exact ⟨_, List.mem_singleton.mp h⟩
  · exact ⟨_, List.mem_singleton.mp h⟩

theorem names_optionProblem (name text : String) : Names name (optionProblem name text) := by
  unfold Names optionProblem
  simp only [String.toList_append]
  exact ⟨" must be ".toList ++ text.toList, by simp⟩

end Values

/-! ## The providers -/

section Providers

variable {py : Python φ} {names : List (PyJson φ)} {providers : List String}

theorem knownProvider_some {x : PyJson φ} {s : String} :
    knownProvider x = some s ↔ x = .str s ∧ s ∈ providerModules := by
  unfold knownProvider
  split
  · rename_i s'
    split_ifs with h
    · rw [Option.some.injEq, PyJson.str.injEq]
      exact ⟨fun heq => ⟨heq, heq ▸ h⟩, fun heq => heq.1⟩
    · refine ⟨fun h => (nomatch h), fun ⟨heq, hmem⟩ => absurd ?_ h⟩
      rwa [PyJson.str.inj heq]
  · rename_i hnot
    exact ⟨fun h => (nomatch h), fun h => absurd h.1 (hnot s)⟩

theorem knownProvider_none {x : PyJson φ} (h : knownProvider x = none) : ¬ Known x := by
  rintro ⟨s, hs, heq⟩
  rw [knownProvider_some.mpr ⟨heq, hs⟩] at h
  cases h

/-- The loop raises exactly at a value that has no hash. -/
theorem enabledProviders_ok_iff :
    (∃ r, enabledProviders py providers names = .ok r) ↔ ∀ x ∈ names, x.hashable = true := by
  induction names generalizing providers with
  | nil => simp [enabledProviders]
  | cons x names ih =>
    rw [List.forall_mem_cons, enabledProviders]
    by_cases hx : x.hashable = true
    · rw [if_neg (by simp [hx]), ← @ih providers]
      simp only [hx, true_and]
      split
      · rw [ih, ih]
      · cases enabledProviders py providers names with
        | ok r => exact ⟨fun _ => ⟨r, rfl⟩, fun _ => ⟨_, rfl⟩⟩
        | error e => exact ⟨fun ⟨_, h⟩ => (nomatch h), fun ⟨_, h⟩ => (nomatch h)⟩
    · rw [if_pos (by simpa using hx)]
      simp [hx]

/-- What the loop returns. -/
structure Enabled (py : Python φ) (providers : List String) (names : List (PyJson φ))
    (r : List String × List Problem) : Prop where
  nodup : providers.Nodup → r.1.Nodup
  source : ∀ s ∈ r.1, s ∈ providers ∨ .str s ∈ names ∧ s ∈ providerModules
  kept : providers ⊆ r.1
  added : ∀ s, .str s ∈ names → s ∈ providerModules → s ∈ r.1
  unknown : ∀ x ∈ names, ¬ Known x → unknownProvider py x ∈ r.2
  problems : ∀ p ∈ r.2, ∃ x, p = unknownProvider py x

theorem enabledProviders_spec {r : List String × List Problem}
    (h : enabledProviders py providers names = .ok r) : Enabled py providers names r := by
  induction names generalizing providers r with
  | nil =>
    obtain rfl : (providers, []) = r := Except.ok.inj h
    exact ⟨id, fun _ hs => .inl hs, fun _ hs => hs, fun _ hs => absurd hs List.not_mem_nil,
      fun _ hx => absurd hx List.not_mem_nil, fun _ hp => absurd hp List.not_mem_nil⟩
  | cons x names ih =>
    rw [enabledProviders] at h
    split_ifs at h with hx
    split at h
    · rename_i s hs
      obtain ⟨rfl, hmod⟩ := knownProvider_some.mp hs
      obtain ⟨hnodup, hsource, hkept, hadded, hunk, hprob⟩ := ih h
      have hs : s ∈ r.1 := by
        refine hkept ?_
        split_ifs with hmem
        · exact hmem
        · exact List.mem_append_right _ (List.mem_singleton_self s)
      refine ⟨fun hn => hnodup ?_, fun a ha => ?_, fun a ha => hkept ?_,
        fun s' hs' hmod' => ?_, fun y hy hny => ?_, hprob⟩
      · split_ifs with hmem
        · exact hn
        · rw [← List.concat_eq_append, List.nodup_concat]
          exact ⟨hmem, hn⟩
      · have hnew : a ∈ providers ++ [s] → a ∈ providers ∨ .str a ∈ PyJson.str s :: names ∧
            a ∈ providerModules := by
          intro h
          rcases List.mem_append.mp h with h | h
          · exact .inl h
          · obtain rfl := List.mem_singleton.mp h
            exact .inr ⟨List.mem_cons_self, hmod⟩
        rcases hsource a ha with h | h
        · split_ifs at h
          · exact .inl h
          · exact hnew h
        · exact .inr ⟨List.mem_cons_of_mem _ h.1, h.2⟩
      · split_ifs
        · exact ha
        · exact List.mem_append_left _ ha
      · rcases List.mem_cons.mp hs' with heq | hs'
        · exact PyJson.str.inj heq ▸ hs
        · exact hadded s' hs' hmod'
      · rcases List.mem_cons.mp hy with rfl | hy
        · exact absurd ⟨s, hmod, rfl⟩ hny
        · exact hunk y hy hny
    · rename_i hnone
      cases hrest : enabledProviders py providers names with
      | error e => rw [hrest] at h; cases h
      | ok r' =>
        rw [hrest] at h
        obtain rfl : (r'.1, unknownProvider py x :: r'.2) = r := Except.ok.inj h
        obtain ⟨hnodup, hsource, hkept, hadded, hunk, hprob⟩ := ih hrest
        refine ⟨hnodup, fun a ha => ?_, hkept, fun s hs hmod => ?_, fun y hy hny => ?_,
          fun p hp => ?_⟩
        · exact (hsource a ha).imp_right fun h => ⟨List.mem_cons_of_mem _ h.1, h.2⟩
        · rcases List.mem_cons.mp hs with heq | hs
          · exact absurd ⟨s, hmod, heq.symm⟩ (knownProvider_none hnone)
          · exact hadded s hs hmod
        · rcases List.mem_cons.mp hy with rfl | hy
          · exact List.mem_cons_self
          · exact List.mem_cons_of_mem _ (hunk y hy hny)
        · rcases List.mem_cons.mp hp with rfl | hp
          · exact ⟨x, rfl⟩
          · exact hprob p hp

end Providers

/-! ## The synthetic keys -/

section Synthetic

variable {acc : Synthetic} {item : PyJson φ} {items : List (PyJson φ)} {index : ℕ} {name : String}

/-- What one entry does. -/
theorem syntheticEntry_cases (acc : Synthetic) (item : PyJson φ) (index : ℕ) :
    (∃ name template, WellFormed syntheticName item name ∧ name ∉ acc.seen ∧
      syntheticEntry acc item index =
        { acc with seen := name :: acc.seen, out := acc.out ++ [(name, template)] }) ∨
    ((∀ name, WellFormed syntheticName item name → name ∈ acc.seen) ∧
      ∃ code text, syntheticEntry acc item index = acc.report (entryProblem code index text)) := by
  unfold syntheticEntry
  split
  · rename_i name hname
    have hother : ∀ name', WellFormed syntheticName item name' → name' = name := by
      intro name' h
      exact (PyJson.str.inj (hname.symm.trans h.1)).symm
    split_ifs with hre hseen
    · refine .inr ⟨fun name' h => ?_, _, _, rfl⟩
      have hok := h.2.1
      rw [hother name' h, hre] at hok
      cases hok
    · exact .inr ⟨fun name' h => hother name' h ▸ hseen, _, _, rfl⟩
    · have hre' : syntheticName name = true := by simpa using hre
      split
      · rename_i template htemplate
        have hbad : (template.toList.all isSpace = true ∨ syntheticMaxTemplate < template.length) →
            ∀ name', ¬ WellFormed syntheticName item name' := by
          rintro hbad name' ⟨-, -, t, ht, hblank, hlong⟩
          obtain rfl : template = t := PyJson.str.inj (htemplate.symm.trans ht)
          rcases hbad with hb | hb
          · rw [hblank] at hb
            cases hb
          · omega
        split_ifs with hblank hlong
        · exact .inr ⟨fun name' h => absurd h (hbad (.inl hblank) name'), _, _, rfl⟩
        · exact .inr ⟨fun name' h => absurd h (hbad (.inr hlong) name'), _, _, rfl⟩
        · exact .inl ⟨name, template, ⟨hname, hre', template, htemplate, by simpa using hblank,
            by omega⟩, hseen, rfl⟩
      · rename_i hnot
        refine .inr ⟨fun name' h => ?_, _, _, rfl⟩
        obtain ⟨-, -, t, ht, -⟩ := h
        exact absurd ht (hnot t)
  · rename_i hnot
    exact .inr ⟨fun name' h => absurd h.1 (hnot name'), _, _, rfl⟩

/-- What the loop has when it starts, and keeps. -/
structure Collected (acc : Synthetic) : Prop where
  seen : ∀ n, n ∈ acc.seen ↔ n ∈ acc.out.map Prod.fst
  nodup : (acc.out.map Prod.fst).Nodup

theorem collected_nil : Collected {} := ⟨fun n => by simp, List.nodup_nil⟩

theorem Collected.entry (h : Collected acc) (item : PyJson φ) (index : ℕ) :
    Collected (syntheticEntry acc item index) := by
  rcases syntheticEntry_cases acc item index with ⟨name, template, -, hnew, heq⟩ | ⟨-, _, _, heq⟩
  · rw [heq]
    constructor
    · intro n
      simp only [List.map_append, List.mem_append, List.mem_cons, h.seen]
      simp [or_comm]
    · rw [List.map_append, List.map_singleton, ← List.concat_eq_append, List.nodup_concat]
      exact ⟨fun hmem => hnew ((h.seen name).mpr hmem), h.nodup⟩
  · rw [heq]
    exact ⟨h.seen, h.nodup⟩

theorem Collected.entries (h : Collected acc) (items : List (PyJson φ)) (index : ℕ) :
    Collected (syntheticEntries acc index items) := by
  induction items generalizing acc index with
  | nil => exact h
  | cons item items ih => exact ih (h.entry item index) (index + 1)

theorem seen_entry (acc : Synthetic) (item : PyJson φ) (index : ℕ) (n : String) :
    n ∈ (syntheticEntry acc item index).seen ↔
      n ∈ acc.seen ∨ WellFormed syntheticName item n := by
  rcases syntheticEntry_cases acc item index with ⟨name, template, hwell, -, heq⟩ |
    ⟨hseen, _, _, heq⟩
  · rw [heq, List.mem_cons, or_comm]
    refine or_congr_right ⟨fun h => h ▸ hwell, fun h => ?_⟩
    exact PyJson.str.inj (h.1.symm.trans hwell.1)
  · rw [heq]
    exact ⟨.inl, fun h => h.elim id (hseen n)⟩

/-- The names that are accepted. -/
theorem seen_entries (acc : Synthetic) (items : List (PyJson φ)) (index : ℕ) (n : String) :
    n ∈ (syntheticEntries acc index items).seen ↔
      n ∈ acc.seen ∨ ∃ item ∈ items, WellFormed syntheticName item n := by
  induction items generalizing acc index with
  | nil => simp [syntheticEntries]
  | cons item items ih =>
    rw [syntheticEntries, ih, seen_entry, or_assoc]
    simp only [List.mem_cons, exists_eq_or_imp]

theorem problems_entries (acc : Synthetic) (items : List (PyJson φ)) (index : ℕ) :
    acc.problems ⊆ (syntheticEntries acc index items).problems ∧
      ∀ p ∈ (syntheticEntries acc index items).problems, p ∈ acc.problems ∨
        ∃ code i text, p = entryProblem code i text := by
  induction items generalizing acc index with
  | nil => exact ⟨fun _ h => h, fun _ h => .inl h⟩
  | cons item items ih =>
    obtain ⟨hkept, hnew⟩ := ih (syntheticEntry acc item index) (index + 1)
    rcases syntheticEntry_cases acc item index with ⟨_, _, -, -, heq⟩ | ⟨-, code, text, heq⟩
    · rw [heq] at hkept hnew
      rw [syntheticEntries, heq]
      exact ⟨hkept, hnew⟩
    · rw [heq] at hkept hnew
      rw [syntheticEntries, heq]
      refine ⟨fun p hp => hkept (List.mem_append_left _ hp), fun p hp => ?_⟩
      rcases hnew p hp with h | h
      · rcases List.mem_append.mp h with h | h
        · exact .inl h
        · exact .inr ⟨code, index, text, List.mem_singleton.mp h⟩
      · exact .inr h

/-- An entry that adds no name has its problem. -/
theorem entries_report (acc : Synthetic) (before after : List (PyJson φ)) (item : PyJson φ)
    (index : ℕ) (h : ∀ name, WellFormed syntheticName item name →
      name ∈ acc.seen ∨ ∃ other ∈ before, WellFormed syntheticName other name) :
    ∃ code text, entryProblem code (index + before.length) text ∈
      (syntheticEntries acc index (before ++ item :: after)).problems := by
  induction before generalizing acc index with
  | nil =>
    rcases syntheticEntry_cases acc item index with ⟨name, _, hwell, hnew, -⟩ | ⟨-, code, text, heq⟩
    · rcases h name hwell with hseen | ⟨_, hmem, -⟩
      · exact absurd hseen hnew
      · exact absurd hmem List.not_mem_nil
    · refine ⟨code, text, (problems_entries _ after (index + 1)).1 ?_⟩
      rw [heq]
      exact List.mem_append_right _ (List.mem_singleton_self _)
  | cons first before ih =>
    obtain ⟨code, text, hp⟩ := ih (syntheticEntry acc first index) (index + 1) fun name hwell => by
      rw [seen_entry, or_assoc]
      refine (h name hwell).imp_right fun ⟨other, hmem, hother⟩ => ?_
      rcases List.mem_cons.mp hmem with rfl | hmem
      · exact .inl hother
      · exact .inr ⟨other, hmem, hother⟩
    refine ⟨code, text, ?_⟩
    rw [List.length_cons, show index + (before.length + 1) = index + 1 + before.length by omega]
    exact hp

theorem namesEntry_entryProblem (code : String) (index : ℕ) (text : String) :
    NamesEntry index (entryProblem code index text) := by
  unfold NamesEntry entryProblem
  simp only [String.toList_append]
  exact List.prefix_append _ _

end Synthetic

/-! ## The steps that raise -/

section Steps

variable {py : Python φ} {file : Option (PyJson φ)} {raw : Option (PyJson φ)} {port : String}

theorem readOptions_ok (h : ∀ v, file = some v → py.tooDeep v = false) :
    ∃ ps, readOptions py file = .ok (optionsOf file, ps) ∧
      ((∀ v, file = some v → v.isDict = false) →
        ∃ p ∈ ps, "options file".toList <+: p.message.toList) ∧
      ∀ p ∈ ps, ∀ name ∈ providerModules, ¬ Names name p := by
  unfold readOptions optionsOf
  cases file with
  | none =>
    refine ⟨_, rfl, fun _ => ⟨_, List.mem_singleton_self _, by decide⟩, fun p hp name hname => ?_⟩
    obtain rfl := List.mem_singleton.mp hp
    revert name
    unfold Names
    decide
  | some v =>
    dsimp only
    rw [if_neg (by simp [h v rfl])]
    by_cases hv : v.isDict = true
    · rw [if_pos hv, if_pos hv]
      refine ⟨_, rfl, fun hno => ?_, fun p hp => absurd hp List.not_mem_nil⟩
      rw [hno v rfl] at hv
      cases hv
    · rw [if_neg hv, if_neg hv]
      refine ⟨_, rfl, fun _ => ⟨_, List.mem_singleton_self _, by decide⟩, fun p hp name hname => ?_⟩
      obtain rfl := List.mem_singleton.mp hp
      revert name
      unfold Names
      decide

theorem readOptions_raises {v : PyJson φ} (h : py.tooDeep v = true) :
    readOptions py (some v) = .error .recursionError := by
  unfold readOptions
  exact if_pos h

/-- What the part about the providers gives. -/
structure Provided (py : Python φ) (raw : Option (PyJson φ)) (r : List String × List Problem) :
    Prop where
  domain : r.1.Nodup ∧ ∀ s ∈ r.1, s ∈ providerModules
  type : ∀ v, raw = some v → (∀ names, v ≠ .list names) → ∃ p ∈ r.2, Names "providers" p
  unknown : ∀ names, raw = some (.list names) → ∀ x ∈ names, ¬ Known x → unknownProvider py x ∈ r.2
  noProvider : (∀ names, raw = some (.list names) → ∀ x ∈ names, ¬ Known x) → raw ≠ none →
    ∃ p ∈ r.2, p.code = "no_providers"
  problems : ∀ p ∈ r.2, ∀ name ∈ providerModules, ¬ Names name p

theorem head_of_names {name : String} {p : Problem} (h : Names name p) :
    p.message.toList.head? = some 'o' := by
  unfold Names at h
  simp only [String.toList_append] at h
  obtain ⟨rest, hrest⟩ := h
  rw [← hrest]
  rfl

theorem not_names_unknown (x : PyJson φ) (name : String) :
    ¬ Names name (unknownProvider py x) := by
  intro h
  have hhead := head_of_names h
  unfold unknownProvider at hhead
  simp [String.toList_append] at hhead

theorem not_names_entry (code : String) (index : ℕ) (text name : String) :
    ¬ Names name (entryProblem code index text) := by
  intro h
  have hhead := head_of_names h
  unfold entryProblem at hhead
  simp only [String.toList_append] at hhead
  cases hhead

/-- A name between quotes is read back. -/
theorem quoted_inj {a b t : List Char} (ha : '\'' ∉ a) (hb : '\'' ∉ b)
    (h : a ++ ['\''] <+: b ++ '\'' :: t) : a = b := by
  obtain ⟨rest, hrest⟩ := h
  induction a generalizing b with
  | nil =>
    cases b with
    | nil => rfl
    | cons c b =>
      obtain ⟨rfl, -⟩ := List.cons.inj hrest
      exact absurd List.mem_cons_self hb
  | cons c a ih =>
    cases b with
    | nil =>
      obtain ⟨rfl, -⟩ := List.cons.inj hrest
      exact absurd List.mem_cons_self ha
    | cons d b =>
      obtain ⟨rfl, htail⟩ := List.cons.inj hrest
      have hsame := ih (fun h => ha (List.mem_cons_of_mem _ h))
        (fun h => hb (List.mem_cons_of_mem _ h)) htail
      rw [hsame]

/-- The names of the options that `load_config` checks. -/
def checkedNames : List String :=
  ["interval", "check_interval", "shrink_guard_percent", "collision_policy", "log_level",
    "usage_scan", "synthetic_keys", "providers"]

theorem not_names_option {option : String} (hoption : option ∈ checkedNames) (text : String)
    {name : String} (hname : name ∈ providerModules) :
    ¬ Names name (optionProblem option text) := by
  intro h
  have hquote : ∀ n ∈ checkedNames ++ providerModules, '\'' ∉ n.toList := by decide
  have hne : ∀ n ∈ providerModules, n ∉ checkedNames := by decide
  unfold Names optionProblem at h
  simp only [String.toList_append, List.append_assoc, List.prefix_append_right_inj] at h
  have heq := quoted_inj (t := " must be ".toList ++ text.toList)
    (hquote name (List.mem_append_right _ hname)) (hquote option (List.mem_append_left _ hoption)) h
  exact hne name hname (String.toList_inj.mp heq ▸ hoption)

theorem loadProviders_ok (h : ∀ names, raw = some (.list names) → ∀ x ∈ names, x.hashable = true) :
    ∃ r, loadProviders py raw = .ok r ∧ Provided py raw r := by
  have hclose : ∀ r : List String × List Problem, r.1.Nodup ∧ (∀ s ∈ r.1, s ∈ providerModules) →
      (∀ v, raw = some v → (∀ names, v ≠ .list names) → ∃ p ∈ r.2, Names "providers" p) →
      (∀ names, raw = some (.list names) → ∀ x ∈ names, ¬ Known x → unknownProvider py x ∈ r.2) →
      ((∀ names, raw = some (.list names) → ∀ x ∈ names, ¬ Known x) → raw ≠ none → r.1 = []) →
      (∀ p ∈ r.2, ∀ name ∈ providerModules, ¬ Names name p) →
      Provided py raw (checkEnabled r) := by
    intro r hdomain htype hunknown hnone hproblems
    unfold checkEnabled
    by_cases hr : r.1 = []
    · rw [if_pos hr]
      refine ⟨hdomain, fun v hv hne => ?_, fun names hn x hx hk => ?_, fun _ _ => ?_,
        fun p hp name hname => ?_⟩
      · obtain ⟨p, hp, hnames⟩ := htype v hv hne
        exact ⟨p, List.mem_append_left _ hp, hnames⟩
      · exact List.mem_append_left _ (hunknown names hn x hx hk)
      · exact ⟨_, List.mem_append_right _ (List.mem_singleton_self _), rfl⟩
      · rcases List.mem_append.mp hp with hp | hp
        · exact hproblems p hp name hname
        · obtain rfl := List.mem_singleton.mp hp
          revert name
          unfold Names
          decide
    · rw [if_neg hr]
      exact ⟨hdomain, htype, hunknown, fun hk hne => absurd (hnone hk hne) hr, hproblems⟩
  unfold loadProviders
  cases raw with
  | none =>
    refine ⟨_, rfl, ?_⟩
    refine hclose (["bitwarden"], []) ⟨by decide, by decide⟩ (fun v hv => (nomatch hv))
      (fun names hn => (nomatch hn)) (fun _ hne => absurd rfl hne) fun p hp => ?_
    exact absurd hp List.not_mem_nil
  | some v =>
    by_cases hlist : ∃ names, v = .list names
    · obtain ⟨names, rfl⟩ := hlist
      have hex : ∃ r, enabledProviders py [] names = .ok r :=
        enabledProviders_ok_iff.mpr (h names rfl)
      obtain ⟨r, hr⟩ := hex
      obtain ⟨hnodup, hsource, -, -, hunk, hprob⟩ := enabledProviders_spec hr
      rw [listedProviders, hr]
      have hmem : ∀ s ∈ r.1, .str s ∈ names ∧ s ∈ providerModules := fun s hs =>
        (hsource s hs).resolve_left List.not_mem_nil
      refine ⟨_, rfl, ?_⟩
      refine hclose r ⟨hnodup List.nodup_nil, fun s hs => (hmem s hs).2⟩
        (fun v hv hne => absurd (Option.some.inj hv).symm (hne names)) (fun names' hn => ?_)
        (fun hk _ => ?_) fun p hp name _ => ?_
      · obtain rfl : names = names' := PyJson.list.inj (Option.some.inj hn)
        exact hunk
      · refine List.eq_nil_iff_forall_not_mem.mpr fun s hs => ?_
        exact hk names rfl _ (hmem s hs).1 ⟨s, (hmem s hs).2, rfl⟩
      · obtain ⟨x, rfl⟩ := hprob p hp
        exact not_names_unknown x name
    · have hother : ∀ names, v ≠ .list names := fun names hv => hlist ⟨names, hv⟩
      have hlisted : listedProviders py (some v) =
          .ok ([], [optionProblem "providers" "a list"]) := by
        unfold listedProviders
        split
        · rename_i heq
          cases heq
        · rename_i names heq
          exact absurd (Option.some.inj heq) (hother names)
        · rfl
      rw [hlisted]
      refine ⟨_, rfl, ?_⟩
      refine hclose ([], [optionProblem "providers" "a list"]) ⟨List.nodup_nil, by simp⟩
        (fun _ _ _ => ⟨_, List.mem_singleton_self _, names_optionProblem _ _⟩)
        (fun names hn => absurd (Option.some.inj hn) (hother names)) (fun _ _ => rfl)
        fun p hp name hname => ?_
      obtain rfl := List.mem_singleton.mp hp
      exact not_names_option (by decide) _ hname

theorem loadProviders_raises {names : List (PyJson φ)} {x : PyJson φ} (hx : x ∈ names)
    (hash : x.hashable = false) (r : List String × List Problem) :
    loadProviders py (some (.list names)) ≠ .ok r := by
  intro h
  have hok : ∃ r, enabledProviders py [] names = .ok r := by
    rw [loadProviders, listedProviders] at h
    cases hlisted : enabledProviders py [] names with
    | ok r => exact ⟨r, rfl⟩
    | error e => rw [hlisted] at h; cases h
  rw [enabledProviders_ok_iff.mp hok x hx] at hash
  cases hash

theorem mapM_isSome {α β : Type} (f : α → Option β) (xs : List α) :
    (xs.mapM f).isSome ↔ ∀ x ∈ xs, (f x).isSome := by
  induction xs with
  | nil => simp
  | cons x xs ih =>
    rw [List.mapM_cons, List.forall_mem_cons, ← ih]
    cases f x with
    | none => simp
    | some y => cases xs.mapM f <;> simp

/-- The port can be read, or is not all digits. -/
theorem loadPort_ok_iff :
    (∃ n, loadPort py port = .ok n) ↔ (py.isdigit port = true →
      port.length ≤ 4300 ∧ ∀ c ∈ port.toList, (py.decimal c).isSome) := by
  unfold loadPort Python.int
  by_cases hdigit : py.isdigit port = true
  · rw [if_pos hdigit, ← mapM_isSome]
    simp only [hdigit, true_imp_iff]
    by_cases hlong : 4300 < port.length
    · rw [if_pos hlong]
      exact ⟨fun ⟨n, h⟩ => (nomatch h), fun h => by omega⟩
    · rw [if_neg hlong]
      cases port.toList.mapM py.decimal with
      | none => exact ⟨fun ⟨n, h⟩ => (nomatch h), fun h => (nomatch h.2)⟩
      | some ds => exact ⟨fun _ => ⟨by omega, rfl⟩, fun _ => ⟨_, rfl⟩⟩
  · rw [if_neg hdigit]
    exact ⟨fun _ h => absurd h hdigit, fun _ => ⟨_, rfl⟩⟩

end Steps

/-! ## The loader -/

section Loader

variable {py : Python φ} {env : Env} {file : Option (PyJson φ)} {cfg : Config φ}

/-- Where nothing raises, the rest is put together. -/
theorem loadConfig_ok (h : loadConfig py env file = .ok cfg) :
    (∀ v, file = some v → py.tooDeep v = false) ∧ ∃ ps r port,
      readOptions py file = .ok (optionsOf file, ps) ∧
      loadProviders py ((optionsOf file).get? "providers") = .ok r ∧
      loadPort py ((env "SS_PORT").getD "8099") = .ok port ∧
      cfg = assemble env (optionsOf file) (ps ++ r.2) r.1 port := by
  have hdepth : ∀ v, file = some v → py.tooDeep v = false := by
    intro v hv
    by_contra hdeep
    rw [hv, loadConfig, readOptions_raises (by simpa using hdeep)] at h
    cases h
  refine ⟨hdepth, ?_⟩
  obtain ⟨ps, hread, -⟩ := readOptions_ok hdepth
  rw [loadConfig, hread] at h
  change (loadProviders py _ >>= fun r => loadPort py _ >>= fun port =>
    pure (assemble env (optionsOf file) (ps ++ r.2) r.1 port) : Except Raised _) = .ok cfg at h
  cases hr : loadProviders py ((optionsOf file).get? "providers") with
  | error e => rw [hr] at h; cases h
  | ok r =>
    rw [hr] at h
    cases hport : loadPort py ((env "SS_PORT").getD "8099") with
    | error e =>
      change (loadPort py _ >>= fun port => _ : Except Raised _) = .ok cfg at h
      rw [hport] at h
      cases h
    | ok port =>
      change (loadPort py _ >>= fun port => _ : Except Raised _) = .ok cfg at h
      rw [hport] at h
      exact ⟨ps, r, port, hread, rfl, rfl, (Except.ok.inj h).symm⟩

/-- The problems of a configuration, by where they come from. -/
theorem mem_problems_assemble {options : PyJson φ} {before : List Problem}
    {providers : List String} {port : ℕ} {p : Problem} :
    p ∈ (assemble env options before providers port).problems ↔ p ∈ before ∨
      p ∈ (choice (options.get "usage_scan") "all" usageScopes "usage_scan").2 ∨
      p ∈ (checkInterval (options.get "check_interval")).2 ∨
      p ∈ (syntheticKeys (options.get "synthetic_keys")).2 ∨
      p ∈ (intOption (options.get "interval") 300 minInterval 86400 "interval").2 ∨
      p ∈ (choice (options.get "collision_policy") "error" collisionPolicies
        "collision_policy").2 ∨
      p ∈ (intOption (options.get "shrink_guard_percent") 30 1 100 "shrink_guard_percent").2 ∨
      p ∈ (choice (options.get "log_level") "info" logLevels "log_level").2 := by
  unfold assemble
  simp only [List.mem_append, or_assoc]

/-- No problem is about a block. -/
theorem not_names_block {before : List Problem} {providers : List String} {port : ℕ}
    (options : PyJson φ) {name : String} (hname : name ∈ providerModules)
    (hbefore : ∀ p ∈ before, ¬ Names name p) :
    ∀ p ∈ (assemble env options before providers port).problems, ¬ Names name p := by
  have hchoice : ∀ {raw : PyJson φ} {d : String} {cs : List String} {option : String},
      option ∈ checkedNames → ∀ p ∈ (choice raw d cs option).2, ¬ Names name p := by
    intro raw d cs option hoption p hp
    obtain ⟨text, rfl⟩ := choice_problems hp
    exact not_names_option hoption text hname
  have hint : ∀ {raw : PyJson φ} {d lo hi : ℤ} {option : String},
      option ∈ checkedNames → ∀ p ∈ (intOption raw d lo hi option).2, ¬ Names name p := by
    intro raw d lo hi option hoption p hp
    obtain ⟨text, rfl⟩ := intOption_problems hp
    exact not_names_option hoption text hname
  intro p hp
  rw [mem_problems_assemble] at hp
  rcases hp with hp | hp | hp | hp | hp | hp | hp | hp
  · exact hbefore p hp
  · exact hchoice (by decide) p hp
  · exact hint (by decide) p hp
  · unfold syntheticKeys at hp
    split at hp
    · exact absurd hp List.not_mem_nil
    · rcases (problems_entries {} _ 0).2 p hp with h | ⟨code, i, text, rfl⟩
      · exact absurd h List.not_mem_nil
      · exact not_names_entry code i text name
    · obtain rfl := List.mem_singleton.mp hp
      exact not_names_option (by decide) _ hname
  · exact hint (by decide) p hp
  · exact hchoice (by decide) p hp
  · exact hint (by decide) p hp
  · exact hchoice (by decide) p hp

/-- **The fields are in their domains**, where the names of the synthetic keys are. -/
theorem inDomain_assemble {options : PyJson φ} {before : List Problem} {providers : List String}
    {port : ℕ} (hproviders : providers.Nodup ∧ ∀ s ∈ providers, s ∈ providerModules)
    (hnames : ∀ items, options.get "synthetic_keys" = .list items → ∀ item ∈ items,
      ∀ name, WellFormed syntheticName item name → documented name = true) :
    InDomain (assemble env options before providers port) where
  providers := hproviders
  interval := intOption_range (by decide) _ _
  collisionPolicy := choice_mem (by decide) _ _
  shrinkGuardPercent := intOption_range (by decide) _ _
  logLevel := choice_mem (by decide) _ _
  usageScan := choice_mem (by decide) _ _
  checkInterval := by
    have hdefault : (0 : ℤ) ≤ 60 ∧ (60 : ℤ) ≤ 3600 := by decide
    have hrange := intOption_range hdefault (options.get "check_interval") "check_interval"
    show (checkInterval _).1 = 0 ∨ _ ≤ (checkInterval _).1 ∧ (checkInterval _).1 ≤ 3600
    unfold checkInterval
    dsimp only
    have hmin : minCheckInterval = 30 := rfl
    split_ifs with h
    · exact .inr ⟨le_refl _, by decide⟩
    · omega
  syntheticKeys := by
    show ((syntheticKeys _).1.map Prod.fst).Nodup ∧ ∀ e ∈ (syntheticKeys _).1, documented e.1 = true
    unfold syntheticKeys
    split
    · exact ⟨List.nodup_nil, fun e he => absurd he List.not_mem_nil⟩
    · rename_i items heq
      have hcollected := collected_nil.entries items 0
      refine ⟨hcollected.nodup, fun e he => ?_⟩
      have hseen := (hcollected.seen e.1).mpr (List.mem_map_of_mem he)
      rcases (seen_entries {} items 0 e.1).mp hseen with h | ⟨item, hitem, hwell⟩
      · exact absurd h List.not_mem_nil
      · exact hnames items heq item hitem e.1 hwell
    · exact ⟨List.nodup_nil, fun e he => absurd he List.not_mem_nil⟩
  providerCfg := by
    intro b hb
    obtain ⟨name, -, rfl⟩ := List.mem_map.mp hb
    unfold providerBlock
    dsimp only
    split_ifs with h
    · exact h
    · rfl

theorem syntheticName_of_documented {name : String} (h : documented name = true) :
    syntheticName name = true := by
  unfold syntheticName
  rw [show isName name.toList = true from h]
  rfl

/-- Where nothing raises, every option but the blocks is reported. -/
theorem reported_assemble {ps : List Problem} {r : List String × List Problem} {port : ℕ}
    (hcontent : (∀ v, file = some v → v.isDict = false) →
      ∃ p ∈ ps, "options file".toList <+: p.message.toList)
    (hprovided : Provided py ((optionsOf file).get? "providers") r)
    (hnames : ∀ items, (optionsOf file).get "synthetic_keys" = .list items → ∀ item ∈ items,
      ∀ name, WellFormed syntheticName item name → documented name = true)
    (hblocks : ∀ name ∈ providerModules, (optionsOf file).get name = .none ∨
      ((optionsOf file).get name).isDict = true) :
    Reported py file (assemble env (optionsOf file) (ps ++ r.2) r.1 port).problems := by
  have hfile : ∀ p ∈ ps, p ∈ (assemble env (optionsOf file) (ps ++ r.2) r.1 port).problems :=
    fun p hp => mem_problems_assemble.mpr (.inl (List.mem_append_left _ hp))
  have hlisted : ∀ p ∈ r.2, p ∈ (assemble env (optionsOf file) (ps ++ r.2) r.1 port).problems :=
    fun p hp => mem_problems_assemble.mpr (.inl (List.mem_append_right _ hp))
  have hsynthetic : ∀ p ∈ (syntheticKeys ((optionsOf file).get "synthetic_keys")).2,
      p ∈ (assemble env (optionsOf file) (ps ++ r.2) r.1 port).problems :=
    fun p hp => mem_problems_assemble.mpr (.inr (.inr (.inr (.inl hp))))
  constructor
  · intro h
    obtain ⟨p, hp, hmessage⟩ := hcontent h
    exact ⟨p, hfile p hp, hmessage⟩
  · intro h
    obtain ⟨text, hp⟩ := intOption_reports h 300 "interval"
    exact ⟨_, mem_problems_assemble.mpr (by tauto), names_optionProblem _ text⟩
  · intro h
    obtain ⟨text, hp⟩ := intOption_reports h 60 "check_interval"
    refine ⟨_, mem_problems_assemble.mpr ?_, names_optionProblem _ text⟩
    exact .inr (.inr (.inl hp))
  · intro h
    obtain ⟨text, hp⟩ := intOption_reports h 30 "shrink_guard_percent"
    exact ⟨_, mem_problems_assemble.mpr (by tauto), names_optionProblem _ text⟩
  · intro h
    obtain ⟨text, hp⟩ := choice_reports h "error" "collision_policy"
    exact ⟨_, mem_problems_assemble.mpr (by tauto), names_optionProblem _ text⟩
  · intro h
    obtain ⟨text, hp⟩ := choice_reports h "info" "log_level"
    exact ⟨_, mem_problems_assemble.mpr (by tauto), names_optionProblem _ text⟩
  · intro h
    obtain ⟨text, hp⟩ := choice_reports h "all" "usage_scan"
    exact ⟨_, mem_problems_assemble.mpr (by tauto), names_optionProblem _ text⟩
  · intro v hv hother
    obtain ⟨p, hp, hnamed⟩ := hprovided.type v hv hother
    exact ⟨p, hlisted p hp, hnamed⟩
  · exact fun names hn x hx hunknown => hlisted _ (hprovided.unknown names hn x hx hunknown)
  · intro hnone hsome
    obtain ⟨p, hp, hcode⟩ := hprovided.noProvider hnone hsome
    exact ⟨p, hlisted p hp, hcode⟩
  · intro hsome hother
    refine ⟨_, hsynthetic (optionProblem "synthetic_keys" "a list") ?_, names_optionProblem _ _⟩
    unfold syntheticKeys
    split
    · rename_i heq
      exact absurd heq hsome
    · rename_i items heq
      exact absurd heq (hother items)
    · exact List.mem_singleton_self _
  · intro before item after hitems hbad
    obtain ⟨code, text, hp⟩ := entries_report {} before after item 0 fun name hwell => by
      by_contra hnew
      have hdoc : ∀ other : PyJson φ, WellFormed documented other name →
          WellFormed syntheticName other name := fun other h =>
        ⟨h.1, syntheticName_of_documented h.2.1, h.2.2⟩
      have hmem : item ∈ before ++ item :: after := by simp
      refine hbad ⟨name, ⟨hwell.1, hnames _ hitems item hmem name hwell, hwell.2.2⟩, ?_⟩
      exact fun other hother hwell' => hnew (.inr ⟨other, hother, hdoc other hwell'⟩)
    rw [Nat.zero_add] at hp
    refine ⟨_, hsynthetic _ ?_, namesEntry_entryProblem code before.length text⟩
    rw [hitems]
    exact hp
  · intro name hname hsome hblock
    rcases hblocks name hname with h | h
    · exact absurd h hsome
    · rw [h] at hblock
      cases hblock

/-- **Which files load.** -/
theorem loads_iff (py : Python φ) (env : Env) (file : Option (PyJson φ)) :
    Loads py env file ↔ Tame py env file := by
  constructor
  · rintro ⟨cfg, hok, hdomain, -, hreported⟩
    obtain ⟨hdepth, ps, r, port, hread, hproviders, hport, rfl⟩ := loadConfig_ok hok
    have hhash : ∀ names, (optionsOf file).get? "providers" = some (.list names) →
        ∀ x ∈ names, x.hashable = true := by
      intro names hnames x hx
      by_contra hash
      rw [hnames] at hproviders
      exact loadProviders_raises hx (by simpa using hash) r hproviders
    refine ⟨hdepth, hhash, loadPort_ok_iff.mp ⟨port, hport⟩,
      fun items hitems item hitem name hwell => ?_, fun name hname => ?_⟩
    · have hseen := (seen_entries {} items 0 name).mpr (.inr ⟨item, hitem, hwell⟩)
      obtain ⟨e, he, rfl⟩ :=
        List.mem_map.mp (((collected_nil.entries items 0).seen name).mp hseen)
      refine hdomain.syntheticKeys.2 e ?_
      show e ∈ (syntheticKeys _).1
      rw [hitems]
      exact he
    · by_contra hblock
      rw [not_or, Bool.not_eq_true] at hblock
      obtain ⟨p, hp, hnamed⟩ := hreported.block name hname hblock.1 hblock.2
      obtain ⟨ps', hread', -, hfile⟩ := readOptions_ok hdepth
      obtain rfl : ps = ps' := (Prod.mk.inj (Except.ok.inj (hread.symm.trans hread'))).2
      obtain ⟨r', hr', hprovided⟩ := loadProviders_ok hhash
      obtain rfl : r = r' := Except.ok.inj (hproviders.symm.trans hr')
      refine not_names_block (optionsOf file) hname (fun q hq => ?_) p hp hnamed
      rcases List.mem_append.mp hq with hq | hq
      · exact hfile q hq name hname
      · exact hprovided.problems q hq name hname
  · intro htame
    obtain ⟨ps, hread, hcontent, -⟩ := readOptions_ok htame.depth
    obtain ⟨r, hproviders, hprovided⟩ := loadProviders_ok htame.providers
    obtain ⟨port, hport⟩ := loadPort_ok_iff.mpr htame.port
    refine ⟨assemble env (optionsOf file) (ps ++ r.2) r.1 port, ?_,
      inDomain_assemble hprovided.domain htame.names, fun n hn hpos hlow => ?_,
      reported_assemble hcontent hprovided htame.names htame.blocks⟩
    · rw [loadConfig, hread]
      change (loadProviders py _ >>= fun r => loadPort py _ >>= fun port =>
        pure (assemble env (optionsOf file) (ps ++ r.2) r.1 port) : Except Raised _) = _
      rw [hproviders]
      change (loadPort py _ >>= fun port => _ : Except Raised _) = _
      rw [hport]
      rfl
    · show (checkInterval _).1 = minCheckInterval
      have hmin : minCheckInterval = 30 := rfl
      rw [hn]
      have hvalue : (intOption (.int n : PyJson φ) 60 0 3600 "check_interval").1 = n := by
        unfold intOption
        dsimp only
        rw [if_pos ⟨by omega, by omega⟩]
      unfold checkInterval
      dsimp only
      rw [hvalue]
      exact if_pos ⟨hpos, hlow⟩

end Loader

/-- Python with ASCII digits only, where floats are their texts. -/
def ascii : Python String where
  str
    | .str s | .float s => s
    | _ => ""
  digit := Char.isDigit
  decimal c := if c.isDigit then some (c.toNat - 48) else none
  tooDeep _ := false

/-- A list in the list of providers: the lookup raises, and there is no configuration. -/
theorem unhashable_provider :
    ¬ Loads ascii (fun _ => none)
      (some (.dict [("providers", .list [.list [.str "bitwarden"]])])) := by
  rintro ⟨cfg, hok, -⟩
  have hraised : loadConfig ascii (fun _ => none)
      (some (.dict [("providers", .list [.list [.str "bitwarden"]])])) = .error .typeError := rfl
  rw [hraised] at hok
  cases hok

end HaAddons.SecretsSync.Loader
