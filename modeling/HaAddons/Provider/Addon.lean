import HaAddons.Provider.Client

/-!
# The resource `homeassistant_addon`

Create adopts an add-on that is installed and installs one that is not; Update pushes what differs
from the prior state; both end with what the Bridge reports. The plugin framework hands the handlers
an object and takes one back.

* `mapStringEqual_iff`, `get?_merged` — what is compared and what is pushed, key by key.
-/

namespace HaAddons.Provider

open Bridge.Supervisor (AddOnInfo)

/-! ## Values of the framework -/

/-- A value of the framework; `types.String`, `types.Bool` and so on. -/
inductive Value (α : Type) where
  | null
  | unknown
  | known (a : α)
  deriving DecidableEq, Repr

namespace Value

variable {α : Type}

/-- `ValueString()` -/
def valueString : Value String → String
  | known s => s
  | _ => ""

/-- `ValueBool()` -/
def valueBool : Value Bool → Bool
  | known b => b
  | _ => false

@[simp] theorem valueString_known (s : String) : (known s).valueString = s := rfl

@[simp] theorem valueString_unknown : (unknown : Value String).valueString = "" := rfl

@[simp] theorem valueString_null : (null : Value String).valueString = "" := rfl

@[simp] theorem valueBool_known (b : Bool) : (known b).valueBool = b := rfl

end Value

/-- The elements of a map of the framework. -/
abbrev StringMap := Dict String (Value String)

/-- The attributes of the resource, in which `ω` stands for the options. -/
structure AddonModel (ω : Type) where
  slug : Value String
  repository : Value String
  url : Value String
  options : ω
  start : Value Bool
  boot : Value String
  version : Value String
  state : Value String
  started : Value Bool
  hostname : Value String
  dns : Value (List String)
  ingressURL : Value String
  ingressEntry : Value String
  webUIURL : Value String
  deriving DecidableEq

namespace AddonModel

variable {ω ω' : Type}

def withOptions (m : AddonModel ω) (o : ω') : AddonModel ω' :=
  { slug := m.slug, repository := m.repository, url := m.url, options := o, start := m.start,
    boot := m.boot, version := m.version, state := m.state, started := m.started,
    hostname := m.hostname, dns := m.dns, ingressURL := m.ingressURL,
    ingressEntry := m.ingressEntry, webUIURL := m.webUIURL }

end AddonModel

/-- An object of the framework: a plan or a state. -/
abbrev Object := AddonModel (Value StringMap)

/-- `addonResourceModel`; without options the map is nil. -/
abbrev Model := AddonModel (Option StringMap)

/-- `Plan.Get` and `State.Get`. An unknown map cannot be read into a Go map. -/
def Object.get (o : Object) : Option Model :=
  match o.options with
  | .null => some (o.withOptions none)
  | .unknown => none
  | .known m => some (o.withOptions (some m))

/-- `State.Set` -/
def Model.toObject (m : Model) : Object := m.withOptions (m.options.elim .null .known)

/-! ## Diagnostics -/

inductive Diagnostic where
  | unknownMap
  | invalidPlan
  | invalidState
  | mapped (e : Error)
  | pwned (detail : String)
  deriving DecidableEq

/-- All diagnostics are errors but the one on leaked passwords. -/
def Diagnostic.isError : Diagnostic → Bool
  | pwned _ => false
  | _ => true

/-- What a handler leaves in its response; `state` is none where the resource is not in it. -/
structure Outcome where
  diagnostics : List Diagnostic
  state : Option Object

def Outcome.hasError (o : Outcome) : Bool := o.diagnostics.any Diagnostic.isError

/-! ## What the handlers share -/

/-- The entries of a Go map; a nil map has none. -/
def entriesOf (m : Option StringMap) : StringMap := m.getD .empty

def mapStringEqual (a b : StringMap) : Bool :=
  a.entries.length == b.entries.length &&
    a.entries.all fun e => (b.get? e.1).any fun bv => e.2.valueString == bv.valueString

/-- The body of the options request. -/
def merged (planOpts baselineOpts : StringMap) (planBoot : String) : Dict String String :=
  let body := (planOpts.map Value.valueString).orElse (baselineOpts.map Value.valueString)
  if planBoot ≠ "" then body.insert "boot" planBoot else body

/-- A key of a decoded object; the last one counts. -/
def lookup (respBody : List (String × Json)) (key : String) : Option Json :=
  (respBody.reverse.find? (·.1 = key)).map Prod.snd

/-- The advisory in the answer to an options request. -/
def pwnedWarning (respBody : List (String × Json)) : List Diagnostic :=
  match lookup respBody "pwned" with
  | some (.bool true) =>
    match lookup respBody "pwned_message" with
    | some (.str msg) => if msg ≠ "" then [.pwned msg] else [.pwned "pwned: true (Bridge response)"]
    | _ => [.pwned "pwned: true (Bridge response)"]
  | _ => []

/-- The options or the boot mode of a plan differ from the baseline. -/
def differs (priorState plan : Model) : Bool :=
  !mapStringEqual (entriesOf priorState.options) (entriesOf plan.options) ||
    (plan.boot.valueString != priorState.boot.valueString && plan.boot.valueString != "")

def applyOptionsIfChanged (slug : String) (priorState plan : Model) :
    Action (Except Error (List Diagnostic)) :=
  if differs priorState plan then do
    let body :=
      merged (entriesOf plan.options) (entriesOf priorState.options) plan.boot.valueString
    match ← postAddonOptions slug body with
    | .error e => return .error e
    | .ok respBody => return .ok (pwnedWarning respBody)
  else return .ok []

def stringMap (d : Dict String String) : StringMap := d.map .known

/-- Only the options and the boot mode are read of it. -/
def infoToBaseline (info : AddOnInfo) : Model where
  slug := .null
  repository := .null
  url := .null
  options := info.options.map stringMap
  start := .null
  boot := .known info.boot
  version := .null
  state := .null
  started := .null
  hostname := .null
  dns := .null
  ingressURL := .null
  ingressEntry := .null
  webUIURL := .null

def applyInfoToState (model : Model) (info : AddOnInfo) : Model :=
  { model with
    version := .known info.version
    state := .known info.state
    started := .known info.started
    repository := if info.repository ≠ "" then .known info.repository else model.repository
    boot := if info.boot ≠ "" then .known info.boot else model.boot
    options := (info.options.map stringMap).or model.options
    hostname := .known info.hostname
    ingressURL := .known info.ingressURL
    ingressEntry := .known info.ingressEntry
    webUIURL := .known info.webUIURL
    dns := info.dns.elim .null .known }

/-! ## The handlers -/

/-- `MapError` of an error, which is always one diagnostic. -/
def failed (state : Option Object) (e : Error) : Outcome := ⟨[.mapped e], state⟩

/-- The last steps of Create and Update. `state` is the state of the response so far. -/
def refetch (slug : String) (plan : Model) (diags : List Diagnostic) (state : Option Object) :
    Action Outcome := do
  match ← getAddonInfo slug with
  | .error e => return ⟨diags ++ [.mapped e], state⟩
  | .ok finalInfo => return ⟨diags, some (applyInfoToState plan finalInfo).toObject⟩

/-- From the follow-up start on. -/
def startAndRefetch (slug : String) (plan : Model) (info : Option AddOnInfo)
    (diags : List Diagnostic) : Action Outcome :=
  if plan.start.valueBool && !(info.any AddOnInfo.started) then do
    match ← postAddonStart slug with
    | .error e => return ⟨diags ++ [.mapped e], none⟩
    | .ok () => refetch slug plan diags none
  else refetch slug plan diags none

/-- An add-on that is installed is taken over. -/
def adopt (slug : String) (plan : Model) (info : AddOnInfo) : Action Outcome := do
  match ← applyOptionsIfChanged slug (infoToBaseline info) plan with
  | .error e => return failed none e
  | .ok diags => startAndRefetch slug plan (some info) diags

/-- From the installation of an add-on that was not found. -/
def install (slug : String) (plan : Model) : Action Outcome := do
  match ← postAddonInstall slug with
  | .ok () => startAndRefetch slug plan none []
  | .error (.alreadyInstalled _) =>
    match ← getAddonInfo slug with
    | .error e => return failed none e
    | .ok info => adopt slug plan info
  | .error e => return failed none e

/-- Create, from the plan that could be read. -/
def createModel (plan : Model) : Action Outcome :=
  let slug := plan.slug.valueString
  if slug = "" then return ⟨[.invalidPlan], none⟩
  else do
    match ← getAddonInfo slug with
    | .ok info => adopt slug plan info
    | .error .addonNotFound => install slug plan
    | .error e => return failed none e

def create (plan : Object) : Action Outcome :=
  match plan.get with
  | none => return ⟨[.unknownMap], none⟩
  | some plan => createModel plan

/-- Read. The response holds the prior state from the start. -/
def read (prior : Object) : Action Outcome :=
  match prior.get with
  | none => return ⟨[.unknownMap], some prior⟩
  | some state => do
    match ← getAddonInfo state.slug.valueString with
    | .error .addonNotFound => return ⟨[], some prior⟩
    | .error e => return failed (some prior) e
    | .ok info => return ⟨[], some (applyInfoToState state info).toObject⟩

/-- Update, from the plan and the state that could be read. -/
def updateModel (prior : Object) (plan state : Model) : Action Outcome :=
  let slug := plan.slug.valueString
  if slug = "" then return ⟨[.invalidPlan], some prior⟩
  else do
    match ← applyOptionsIfChanged slug state plan with
    | .error e => return failed (some prior) e
    | .ok diags => refetch slug plan diags (some prior)

def update (plan prior : Object) : Action Outcome :=
  match plan.get with
  | none => return ⟨[.unknownMap], some prior⟩
  | some plan =>
    match prior.get with
    | none => return ⟨[.unknownMap], some prior⟩
    | some state => updateModel prior plan state

/-- The nonce expired, or it was used before. -/
def Error.staleNonce : Error → Bool
  | .bridge _ err _ _ => err.errorCode == "nonce_expired" || err.errorCode == "nonce_used"
  | _ => false

/-- Delete, up to what the framework does: it removes the resource where there is no error. -/
def deleteSlug (prior : Object) (slug : String) : Action Outcome := do
  match ← postAuthNonce with
  | .error e => return failed (some prior) e
  | .ok nonce =>
    match ← postAddonUninstall slug nonce with
    | .ok () => return ⟨[], none⟩
    | .error e =>
      if e.staleNonce then
        match ← postAuthNonce with
        | .error e => return failed (some prior) e
        | .ok nonce =>
          match ← postAddonUninstall slug nonce with
          | .ok () => return ⟨[], none⟩
          | .error e => return failed (some prior) e
      else return failed (some prior) e

def delete (prior : Object) : Action Outcome :=
  match prior.get with
  | none => return ⟨[.unknownMap], some prior⟩
  | some state =>
    if state.slug.valueString = "" then return ⟨[.invalidState], some prior⟩
    else deleteSlug prior state.slug.valueString

/-! ## What is compared and what is pushed -/

theorem get?_stringMap (d : Dict String String) (k : String) :
    Dict.get? (stringMap d) k = (d.get? k).map Value.known :=
  Dict.get?_map d Value.known k

theorem mapStringEqual_iff {a b : StringMap} :
    mapStringEqual a b = true ↔
      ∀ k, (a.get? k).map Value.valueString = (b.get? k).map Value.valueString := by
  have hkeys (d : StringMap) : d.entries.length = d.keys.length := (List.length_map _).symm
  simp only [mapStringEqual, Bool.and_eq_true, beq_iff_eq, List.all_eq_true, Option.any_eq_true,
    Prod.forall, Dict.mem_entries]
  constructor
  · rintro ⟨hlength, hall⟩ k
    cases ha : a.get? k with
    | some v =>
      obtain ⟨bv, hb, hv⟩ := hall k v ha
      rw [hb, Option.map_some, Option.map_some, hv]
    | none =>
      have hsub : a.keys ⊆ b.keys := by
        intro k' hk'
        obtain ⟨v, hv⟩ := Dict.mem_keys.mp hk'
        obtain ⟨bv, hb, -⟩ := hall k' v hv
        exact Dict.mem_keys.mpr ⟨bv, hb⟩
      have hperm : a.keys.Perm b.keys :=
        (List.subperm_of_subset a.nodup hsub).perm_of_length_le
          ((hkeys b).symm.trans (hlength.symm.trans (hkeys a))).le
      have hb : b.get? k = none := Dict.get?_eq_none.mpr fun hk =>
        Dict.get?_eq_none.mp ha (hperm.mem_iff.mpr hk)
      rw [hb]
  · intro h
    have hiff (k : String) : k ∈ a.keys ↔ k ∈ b.keys := by
      have hk := congrArg Option.isSome (h k)
      rw [Option.isSome_map, Option.isSome_map] at hk
      rw [Dict.mem_keys, Dict.mem_keys, ← Option.isSome_iff_exists, ← Option.isSome_iff_exists, hk]
    constructor
    · have hperm : a.keys.Perm b.keys := (List.perm_ext_iff_of_nodup a.nodup b.nodup).mpr hiff
      exact (hkeys a).trans (hperm.length_eq.trans (hkeys b).symm)
    · intro k v hv
      have hk := h k
      rw [hv, Option.map_some] at hk
      obtain ⟨bv, hb, hbv⟩ := Option.map_eq_some_iff.mp hk.symm
      exact ⟨bv, hb, hbv.symm⟩

theorem get?_merged (planOpts baselineOpts : StringMap) (planBoot k : String) :
    (merged planOpts baselineOpts planBoot).get? k =
      if k = "boot" ∧ planBoot ≠ "" then some planBoot
      else ((planOpts.get? k).or (baselineOpts.get? k)).map Value.valueString := by
  have hbody : ((planOpts.map Value.valueString).orElse
      (baselineOpts.map Value.valueString)).get? k =
        ((planOpts.get? k).or (baselineOpts.get? k)).map Value.valueString := by
    rw [Dict.get?_orElse, Dict.get?_map, Dict.get?_map]
    cases planOpts.get? k <;> rfl
  unfold merged
  by_cases hb : planBoot = ""
  · simpa [hb] using hbody
  · by_cases hk : k = "boot"
    · simp [hb, hk, Dict.get?_insert]
    · simpa [hb, hk, Dict.get?_insert] using hbody

end HaAddons.Provider
