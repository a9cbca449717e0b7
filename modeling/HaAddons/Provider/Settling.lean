import HaAddons.Provider.Convergence

/-!
# Whether a configuration settles

Terraform plans from the configuration and the refreshed state, applies the plan, and checks that
what was known in the plan comes back unchanged. Then a Read and a plan of the same configuration
should show nothing.

Options that are omitted are unknown in the plan, which the handlers cannot read. The state takes
all options that the Supervisor reports, so a plan with some of them comes back with more. A new
add-on comes back with its defaults, and the repository with the reported one.

* `settles_iff` — the settings that settle, for every configuration, prior state and world.
* `omitted_not_settled` — a configuration with a slug only.
-/

namespace HaAddons.Provider

open Bridge.Supervisor (AddOnInfo)
open Dialogue

/-! ## Planning -/

/-- A configuration that the schema accepts. -/
structure Configuration where
  slug : String
  repository : Option String
  url : Option String
  options : Option StringMap
  start : Option Bool
  boot : Option String
  optionsSet : ∀ o, options = some o → ∀ k, o.get? k ≠ some .unknown
  bootOneOf : ∀ b, boot = some b → b ∈ ["auto", "manual", "manual_only"]

namespace Configuration

/-- The plan of a creation, or of a change of `prior`: what is omitted is unknown if it has no
default, and the state of the add-on is taken over. -/
def plan (q : Configuration) (prior : Option Object) : Object where
  slug := .known q.slug
  repository := .known (q.repository.getD "core")
  url := q.url.elim .null .known
  options := q.options.elim .unknown .known
  start := .known (q.start.getD true)
  boot := q.boot.elim .unknown .known
  version := .unknown
  state := (prior.map AddonModel.state).elim .unknown fun v => if v = .null then .unknown else v
  started := .unknown
  hostname := .unknown
  dns := .unknown
  ingressURL := .unknown
  ingressEntry := .unknown
  webUIURL := .unknown

/-- The prior state with what the configuration sets. -/
def proposed (q : Configuration) (prior : Object) : Object :=
  { prior with
    slug := .known q.slug
    repository := .known (q.repository.getD "core")
    url := q.url.elim .null .known
    options := q.options.elim prior.options .known
    start := .known (q.start.getD true)
    boot := q.boot.elim prior.boot .known }

end Configuration

/-- Maps are equal whatever the order of their keys. -/
def SameMap : Value StringMap → Value StringMap → Prop
  | .known o, .known o' => ∀ k, o.get? k = o'.get? k
  | v, w => v = w

/-- The plan of the configuration shows no difference. -/
def Quiet (q : Configuration) (state : Object) : Prop :=
  SameMap (q.proposed state).options state.options ∧
    { q.proposed state with options := state.options } = state

/-- A value that was known in the plan is returned unchanged. -/
def Agrees {α : Type} (planned new : Value α) : Prop := planned = .unknown ∨ new = planned

structure Returned (plan new : Object) : Prop where
  slug : Agrees plan.slug new.slug
  repository : Agrees plan.repository new.repository
  url : Agrees plan.url new.url
  options : plan.options = .unknown ∨ SameMap plan.options new.options
  start : Agrees plan.start new.start
  boot : Agrees plan.boot new.boot
  version : Agrees plan.version new.version
  state : Agrees plan.state new.state
  started : Agrees plan.started new.started
  hostname : Agrees plan.hostname new.hostname
  dns : Agrees plan.dns new.dns
  ingressURL : Agrees plan.ingressURL new.ingressURL
  ingressEntry : Agrees plan.ingressEntry new.ingressEntry
  webUIURL : Agrees plan.webUIURL new.webUIURL

/-- No error, the plan came back, and the next Read leaves nothing to plan. -/
def Settled (q : Configuration) (plan : Object) (r : Outcome × World) : Prop :=
  r.1.hasError = false ∧ ∃ new, r.1.state = some new ∧ Returned plan new ∧
    ∃ next, ((read new).runWith performs r.2).1 = ⟨[], some next⟩ ∧ Quiet q next

/-! ## Settings -/

/-- The add-on whose options the Supervisor reports. -/
def World.met (s : World) : AddOnInfo := s.found.getD s.defaults

/-- A configuration, a world, and the state of the resource unless it is to be created. The options
are among those that the Supervisor reports. -/
structure Setting where
  config : Configuration
  world : World
  prior : Option Model
  installed : ∀ m, prior = some m →
    config.slug ≠ "" ∧ m.slug = .known config.slug ∧ world.addon ≠ none
  subset : ∀ o, config.options = some o → ∀ k ∈ o.keys, k ∈ (optionsOf world.met).keys

/-- The state after the Read before the plan. -/
def refreshed (s : World) (m : Model) : Object :=
  ((read m.toObject).runWith performs s).1.state.getD m.toObject

/-- The configuration is applied, if there is anything to apply, and settles. -/
def Settles (t : Setting) : Prop :=
  match t.prior with
  | none =>
    Settled t.config (t.config.plan none)
      ((create (t.config.plan none)).runWith performs t.world)
  | some m =>
    let p := refreshed t.world m
    ¬ Quiet t.config p → Settled t.config (t.config.plan (some p))
      ((update (t.config.plan (some p)) p).runWith performs t.world)

/-- No option is null. -/
def NoNull (o : StringMap) : Prop := ∀ k v, o.get? k = some v → ∃ x, v = .known x

/-- The options of the plan are all that is pushed: nothing is carried over from the baseline, and
nothing is named `boot`. Or nothing is named otherwise. -/
def PushesAll (baseline o : StringMap) : Prop :=
  (∀ k, k ∈ o.keys ∨ k ∈ baseline.keys → k = "boot") ∨
    (NoNull o ∧ "boot" ∉ o.keys ∧ ∀ k ∈ baseline.keys, k ≠ "boot" → k ∈ o.keys)

def OptionsFit (priorState plan : Model) (o : StringMap) : Prop :=
  (differs priorState plan = false → NoNull o) ∧
    (differs priorState plan = true → PushesAll (entriesOf priorState.options) o)

def RepositoryFits (q : Configuration) (a : AddOnInfo) : Prop :=
  a.repository = "" ∨ a.repository = q.repository.getD "core"

/-- A new add-on has the options and the boot mode of the configuration from the start. -/
def DefaultsFit (q : Configuration) (a : AddOnInfo) (o : StringMap) : Prop :=
  (∀ k, o.get? k = ((optionsOf a).get? k).map .known) ∧
    ∀ b, q.boot = some b → a.boot = "" ∨ a.boot = b

/-- The condition on the setting. -/
def SettlesWhen (t : Setting) : Prop :=
  match t.prior with
  | none => t.config.slug ≠ "" ∧ ∃ o, t.config.options = some o ∧
      RepositoryFits t.config t.world.met ∧
      (t.world.found = none → DefaultsFit t.config t.world.defaults o) ∧
      ∀ a, t.world.found = some a →
        OptionsFit (infoToBaseline (sent a)) ((t.config.plan none).withOptions (some o)) o
  | some m =>
    let p := refreshed t.world m
    Quiet t.config p ∨ ∃ o, t.config.options = some o ∧ RepositoryFits t.config t.world.met ∧
      ∀ state, p.get = some state →
        OptionsFit state ((t.config.plan (some p)).withOptions (some o)) o

/-! ## What comes back -/

theorem get_toObject (m : Model) : m.toObject.get = some m := by
  obtain ⟨_, _, _, options, _, _, _, _, _, _, _, _, _, _⟩ := m
  cases options <;> rfl

variable {q : Configuration} {o : StringMap} {prior : Option Object} {a : AddOnInfo} {s : World}

theorem get_plan (ho : q.options = some o) :
    (q.plan prior).get = some ((q.plan prior).withOptions (some o)) := by
  unfold Object.get
  have hoptions : (q.plan prior).options = .known o := by
    show q.options.elim _ _ = _
    rw [ho]
    rfl
  rw [hoptions]

theorem get_plan_omitted (ho : q.options = none) : (q.plan prior).get = none := by
  unfold Object.get
  have hoptions : (q.plan prior).options = .unknown := by
    show q.options.elim _ _ = _
    rw [ho]
    rfl
  rw [hoptions]

/-- A second Read of the same add-on changes nothing. -/
theorem applyInfoToState_idem (m : Model) (i : AddOnInfo) :
    applyInfoToState (applyInfoToState m i) i = applyInfoToState m i := by
  unfold applyInfoToState
  simp only [AddonModel.mk.injEq, true_and, and_true]
  refine ⟨?_, ?_, ?_⟩
  · split_ifs <;> rfl
  · cases i.options <;> rfl
  · split_ifs <;> rfl

theorem runWith_read {m : Model} (hslug : m.slug.valueString ≠ "") (h : s.addon = some a) :
    (read m.toObject).runWith performs s =
      (⟨[], some (applyInfoToState m (sent a)).toObject⟩, s) := by
  unfold read
  rw [get_toObject]
  exact runWith_bind_of (runWith_getAddonInfo hslug h) _

theorem entries_eq_nil_iff (d : Dict String String) : d.entries = [] ↔ ∀ k, d.get? k = none := by
  constructor
  · intro h k
    rw [eq_empty_of_entries h]
    rfl
  · intro h
    cases hd : d.entries with
    | nil => rfl
    | cons e es =>
      have hmem : d.get? e.1 = some e.2 := Dict.mem_entries.mp (hd ▸ List.mem_cons_self ..)
      exact absurd ((h e.1).symm.trans hmem) (by simp)

/-- The options of a plan are in the state unless the Supervisor reports others. -/
theorem sameMap_options {m : Model} (ho : m.options = some o) :
    SameMap (.known o) (applyInfoToState m (sent a)).toObject.options ↔
      (∀ k, (optionsOf a).get? k = none) ∨ ∀ k, o.get? k = ((optionsOf a).get? k).map .known := by
  show SameMap (.known o) ((((a.options.filter fun d => d.entries ≠ []).map stringMap).or
    m.options).elim .null .known) ↔ _
  rw [ho, ← entries_eq_nil_iff]
  unfold optionsOf
  cases a.options with
  | none => exact iff_of_true (fun _ => rfl) (.inl rfl)
  | some d =>
    by_cases hd : d.entries = []
    · rw [Option.filter_some_neg (by simp [hd])]
      exact iff_of_true (fun _ => rfl) (.inl hd)
    · rw [Option.filter_some_pos (by simp [hd])]
      show (∀ k, o.get? k = Dict.get? (stringMap d) k) ↔ d.entries = [] ∨ _
      simp only [get?_stringMap, hd, false_or]
      rfl

/-- A known value comes back unless another one is reported. -/
theorem agrees_known {r i : String} {v : Value String} (hv : v = .known r) :
    Agrees (.known r) (if i ≠ "" then .known i else v) ↔ i = "" ∨ i = r := by
  unfold Agrees
  by_cases hi : i = ""
  · rw [if_neg (by simp [hi]), hv]
    exact iff_of_true (.inr rfl) (.inl hi)
  · rw [if_pos hi]
    simp [hi]

/-- The boot mode that is configured, if one is, comes back. -/
theorem agrees_boot {i : String} {v : Value String} (hv : v = q.boot.elim .unknown .known) :
    Agrees v (if i ≠ "" then .known i else v) ↔ ∀ b, q.boot = some b → i = "" ∨ i = b := by
  cases hboot : q.boot with
  | none =>
    rw [hboot] at hv
    exact iff_of_true (.inl hv) fun b hb => absurd hb.symm (Option.some_ne_none b)
  | some b =>
    rw [hboot] at hv
    rw [hv]
    refine (agrees_known rfl).trans ⟨fun h b' hb' => ?_, fun h => h b rfl⟩
    cases hb'
    exact h

/-- The plan as the handlers read it, and what it is in the state afterwards. -/
abbrev planModel (q : Configuration) (prior : Option Object) (o : StringMap) : Model :=
  (q.plan prior).withOptions (some o)

abbrev newState (q : Configuration) (prior : Option Object) (o : StringMap) (a : AddOnInfo) :
    Object := (applyInfoToState (planModel q prior o) (sent a)).toObject

theorem returned_iff (ho : q.options = some o) :
    Returned (q.plan prior) (newState q prior o a) ↔
      ((∀ k, (optionsOf a).get? k = none) ∨ ∀ k, o.get? k = ((optionsOf a).get? k).map .known) ∧
      RepositoryFits q a ∧ (∀ b, q.boot = some b → a.boot = "" ∨ a.boot = b) ∧
      Agrees (q.plan prior).state (.known a.state) := by
  have hoptions : (q.plan prior).options = .known o := by
    show q.options.elim _ _ = _
    rw [ho]
    rfl
  rw [← sameMap_options (m := planModel q prior o) rfl, RepositoryFits,
    ← agrees_known (v := (q.plan prior).repository) rfl,
    ← agrees_boot (v := (q.plan prior).boot) rfl, ← hoptions]
  constructor
  · intro h
    refine ⟨?_, h.repository, h.boot, h.state⟩
    rcases h.options with hunknown | hsame
    · rw [hoptions] at hunknown
      cases hunknown
    · exact hsame
  · rintro ⟨hsame, hrepository, hboot, hstate⟩
    exact {
      slug := .inr rfl, repository := hrepository, url := .inr rfl, options := .inr hsame
      start := .inr rfl, boot := hboot, version := .inl rfl, state := hstate, started := .inl rfl
      hostname := .inl rfl, dns := .inl rfl, ingressURL := .inl rfl, ingressEntry := .inl rfl
      webUIURL := .inl rfl }

/-- What came back leaves nothing to plan. -/
theorem quiet_newState (ho : q.options = some o)
    (h : Returned (q.plan prior) (newState q prior o a)) : Quiet q (newState q prior o a) := by
  constructor
  · have hoptions : q.options.elim .unknown Value.known = .known o := by rw [ho]; rfl
    show SameMap (q.options.elim _ .known) _
    rw [ho]
    rcases h.options with hunknown | hsame
    · exact absurd (hoptions.symm.trans hunknown) (fun h => by cases h)
    · rw [show (q.plan prior).options = .known o from hoptions] at hsame
      exact hsame
  · have hrepository : (newState q prior o a).repository = .known (q.repository.getD "core") := by
      rcases h.repository with hunknown | heq
      · cases hunknown
      · exact heq
    have hboot : q.boot.elim (newState q prior o a).boot .known = (newState q prior o a).boot := by
      have hb := h.boot
      cases hq : q.boot with
      | none => rfl
      | some b =>
        have hplan : (q.plan prior).boot = .known b := by
          show q.boot.elim _ _ = _
          rw [hq]
          rfl
        rw [hplan] at hb
        rcases hb with hunknown | heq
        · cases hunknown
        · exact heq.symm
    unfold Configuration.proposed
    rw [hboot, ← hrepository]
    rfl

/-- **An apply.** Without an error it settles where the plan comes back. -/
theorem settled_iff (ho : q.options = some o) (hslug : q.slug ≠ "") {out : Outcome}
    (hsucceeds : Succeeds (planModel q prior o) a out) :
    Settled q (q.plan prior) (out, s.put a) ↔
      Returned (q.plan prior) (newState q prior o a) := by
  have hread : (read (newState q prior o a)).runWith performs (s.put a) =
      (⟨[], some (newState q prior o a)⟩, s.put a) := by
    have hidem := applyInfoToState_idem (planModel q prior o) (sent a)
    have hrun := runWith_read (m := applyInfoToState (planModel q prior o) (sent a)) hslug
      (put_addon s a)
    rwa [hidem] at hrun
  constructor
  · rintro ⟨-, new, hnew, hreturned, -⟩
    obtain rfl := Option.some.inj (hsucceeds.2.symm.trans hnew)
    exact hreturned
  · intro h
    exact ⟨hsucceeds.1, _, hsucceeds.2, h, _, congrArg Prod.fst hread, quiet_newState ho h⟩

/-! ## The options and the boot mode after a push -/

variable {priorState : Model}

theorem pushesAll_iff :
    (∀ k, (optionsOf (configured a (merged o (entriesOf priorState.options)
        (planModel q prior o).boot.valueString))).get? k = none) ∨
      (∀ k, o.get? k = ((optionsOf (configured a (merged o (entriesOf priorState.options)
        (planModel q prior o).boot.valueString))).get? k).map .known) ↔
      PushesAll (entriesOf priorState.options) o := by
  have hget (k : String) := get?_configured priorState (planModel q prior o) a k
  simp only [show entriesOf (planModel q prior o).options = o from rfl] at hget
  simp only [hget]
  refine or_congr ⟨fun h k hk => ?_, fun h k => ?_⟩
    ⟨fun h => ⟨fun k v hv => ?_, ?_, fun k hk hne => ?_⟩, fun h k => ?_⟩
  · by_contra hne
    have hnone := h k
    rw [if_neg hne, Option.map_eq_none_iff, Option.or_eq_none_iff] at hnone
    rcases hk with hk | hk
    · exact Dict.get?_eq_none.mp hnone.1 hk
    · exact Dict.get?_eq_none.mp hnone.2 hk
  · by_cases hk : k = "boot"
    · exact if_pos hk
    · have ho : o.get? k = none := Dict.get?_eq_none.mpr fun hmem => hk (h k (.inl hmem))
      have hb : (entriesOf priorState.options).get? k = none :=
        Dict.get?_eq_none.mpr fun hmem => hk (h k (.inr hmem))
      rw [if_neg hk, ho, hb]
      rfl
  · have hk := h k
    rw [hv] at hk
    obtain ⟨x, -, hx⟩ := Option.map_eq_some_iff.mp hk.symm
    exact ⟨x, hx.symm⟩
  · have hboot := h "boot"
    rw [if_pos rfl] at hboot
    exact Dict.get?_eq_none.mp hboot
  · by_contra hnot
    have ho := Dict.get?_eq_none.mpr hnot
    have hk' := h k
    obtain ⟨v, hv⟩ := Dict.mem_keys.mp hk
    rw [if_neg hne, ho, hv] at hk'
    cases hk'
  · obtain ⟨hnonull, hboot, hbaseline⟩ := h
    by_cases hk : k = "boot"
    · rw [if_pos hk, hk]
      exact Dict.get?_eq_none.mpr hboot
    · rw [if_neg hk]
      cases ho : o.get? k with
      | some v =>
        obtain ⟨x, rfl⟩ := hnonull k v ho
        rfl
      | none =>
        have hb : (entriesOf priorState.options).get? k = none :=
          Dict.get?_eq_none.mpr fun hmem => Dict.get?_eq_none.mp ho (hbaseline k hmem hk)
        rw [hb]
        rfl

/-- The baseline is what the Supervisor reports, unless that is nothing. -/
theorem optionsFit_iff (q : Configuration) (prior : Option Object) (o : StringMap)
    (priorState : Model)
    (hbase : (∀ k, (optionsOf a).get? k = none ∧ o.get? k = none) ∨
      ∀ k, (entriesOf priorState.options).get? k = ((optionsOf a).get? k).map .known) :
    ((∀ k, (optionsOf (pushed priorState (planModel q prior o) a)).get? k = none) ∨
      ∀ k, o.get? k = ((optionsOf (pushed priorState (planModel q prior o) a)).get? k).map .known) ↔
      OptionsFit priorState (planModel q prior o) o := by
  unfold OptionsFit pushed
  cases hdiff : differs priorState (planModel q prior o) with
  | true =>
    simp only [if_true, Bool.true_eq_false, false_implies, true_and, true_implies]
    exact pushesAll_iff
  | false =>
    simp only [Bool.false_eq_true, if_false, true_implies, false_implies, and_true]
    rcases hbase with hnone | hbase
    · refine iff_of_true (.inl fun k => (hnone k).1) fun k v hv => ?_
      cases (hnone k).2.symm.trans hv
    · have hsame (k : String) :
          (optionsOf a).get? k = (o.get? k).map Value.valueString := by
        rw [← show entriesOf (planModel q prior o).options = o from rfl,
          ← (not_differs_iff.mp hdiff).1 k, hbase k, Option.map_map]
        cases (optionsOf a).get? k <;> rfl
      constructor
      · rintro (hnone | hknown) k v hv
        · have hk := (hsame k).symm.trans (hnone k)
          rw [hv] at hk
          cases hk
        · have hk := hknown k
          rw [hv] at hk
          obtain ⟨x, -, hx⟩ := Option.map_eq_some_iff.mp hk.symm
          exact ⟨x, hx.symm⟩
      · intro hnonull
        refine .inr fun k => ?_
        rw [hsame k]
        cases ho : o.get? k with
        | none => rfl
        | some v =>
          obtain ⟨x, rfl⟩ := hnonull k v ho
          rfl

/-- A boot mode that is configured is pushed, or it is the one that is reported. -/
theorem boot_pushed (hboot : a.boot = "" ∨ priorState.boot.valueString = a.boot) {b : String}
    (hb : q.boot = some b) :
    (pushed priorState (planModel q prior o) a).boot = "" ∨
      (pushed priorState (planModel q prior o) a).boot = b := by
  have hplan : (planModel q prior o).boot.valueString = b := by
    show (q.boot.elim .unknown Value.known).valueString = b
    rw [hb]
    rfl
  have hne : b ≠ "" := by
    intro h
    have hmem := q.bootOneOf b hb
    rw [h] at hmem
    exact absurd hmem (by decide)
  unfold pushed
  cases hdiff : differs priorState (planModel q prior o) with
  | true =>
    refine .inr ?_
    rw [if_pos rfl]
    show ((merged _ _ _).get? "boot").getD a.boot = b
    rw [get?_merged, if_pos ⟨rfl, hplan.symm ▸ hne⟩, hplan]
    rfl
  | false =>
    rw [if_neg Bool.false_ne_true]
    rcases hboot with hempty | hsame
    · exact .inl hempty
    · rcases (not_differs_iff.mp hdiff).2 with heq | hunset
      · exact .inr (hsame.symm.trans (heq.symm.trans hplan))
      · exact absurd (hplan.symm.trans hunset) hne

/-! ## Both handlers -/

theorem not_settled_of_error {plan : Object} {r : Outcome × World} (h : r.1.hasError = true) :
    ¬ Settled q plan r := fun hs => absurd (h.symm.trans hs.1) Bool.noConfusion

theorem repository_startedBy (plan : Model) (a : AddOnInfo) :
    (startedBy plan a).repository = a.repository := by
  unfold startedBy launched
  split_ifs <;> rfl

theorem repository_pushed (priorState plan : Model) (a : AddOnInfo) :
    (pushed priorState plan a).repository = a.repository := by
  unfold pushed
  split_ifs <;> rfl

theorem state_pushed (priorState plan : Model) (a : AddOnInfo) :
    (pushed priorState plan a).state = a.state := by
  unfold pushed
  split_ifs <;> rfl

/-- **Creation.** -/
theorem settles_create_iff (ho : q.options = some o) (hslug : q.slug ≠ "")
    (hsubset : ∀ k ∈ o.keys, k ∈ (optionsOf s.met).keys) :
    Settled q (q.plan none) ((create (q.plan none)).runWith performs s) ↔
      RepositoryFits q s.met ∧ (s.found = none → DefaultsFit q s.defaults o) ∧
        ∀ a, s.found = some a → OptionsFit (infoToBaseline (sent a)) (planModel q none o) o := by
  have hcreate : create (q.plan none) = createModel (planModel q none o) := by
    unfold create
    rw [get_plan ho]
  obtain ⟨out, hrun, hsucceeds⟩ := runWith_createModel (s := s) (planModel q none o) hslug
  rw [hcreate, hrun, settled_iff ho hslug hsucceeds, returned_iff ho]
  have hstate (v : Value String) : Agrees (q.plan none).state v := .inl rfl
  simp only [hstate, and_true]
  cases hfound : s.found with
  | none =>
    have hmet : s.met = s.defaults := by rw [World.met, hfound, Option.getD_none]
    have hcreated : s.created (planModel q none o) = startedBy (planModel q none o) s.defaults := by
      rw [World.created, hfound, Option.elim_none]
    rw [hmet] at hsubset ⊢
    rw [hcreated, optionsOf_startedBy, boot_startedBy, RepositoryFits, repository_startedBy]
    constructor
    · rintro ⟨hoptions, hrepository, hboot⟩
      refine ⟨hrepository, fun _ => ⟨fun k => ?_, hboot⟩, fun a ha => ?_⟩
      · rcases hoptions with hnone | hsame
        · rw [hnone k]
          refine Dict.get?_eq_none.mpr fun hk => ?_
          exact Dict.get?_eq_none.mp (hnone k) (hsubset k hk)
        · exact hsame k
      · exact absurd ha.symm (Option.some_ne_none a)
    · rintro ⟨hrepository, hdefaults, -⟩
      exact ⟨.inr (hdefaults rfl).1, hrepository, (hdefaults rfl).2⟩
  | some a =>
    have hmet : s.met = a := by rw [World.met, hfound, Option.getD_some]
    have hcreated : s.created (planModel q none o) = adopted (planModel q none o) a := by
      rw [World.created, hfound, Option.elim_some]
    have hfit := optionsFit_iff q none o (infoToBaseline (sent a)) (.inr (get?_baseline a))
    rw [hmet, hcreated, adopted, optionsOf_startedBy, boot_startedBy, RepositoryFits,
      repository_startedBy, repository_pushed, hfit]
    constructor
    · rintro ⟨hoptions, hrepository, -⟩
      refine ⟨hrepository, fun h => absurd h (Option.some_ne_none a), fun b hb => ?_⟩
      cases hb
      exact hoptions
    · rintro ⟨hrepository, -, hoptions⟩
      exact ⟨hoptions a rfl, hrepository, fun b hb => boot_pushed (.inr rfl) hb⟩

theorem entriesOf_applyInfoToState (m : Model) (a : AddOnInfo) :
    (∀ k, (optionsOf a).get? k = none) ∨
      ∀ k, (entriesOf (applyInfoToState m (sent a)).options).get? k =
        ((optionsOf a).get? k).map .known := by
  rw [← entries_eq_nil_iff]
  unfold optionsOf
  show _ ∨ ∀ k, (entriesOf (((a.options.filter fun d => d.entries ≠ []).map stringMap).or
    m.options)).get? k = _
  cases a.options with
  | none => exact .inl rfl
  | some d =>
    by_cases hd : d.entries = []
    · exact .inl hd
    · rw [Option.filter_some_pos (by simp [hd])]
      exact .inr (get?_stringMap d)

/-- **Change.** -/
theorem settles_update_iff {m state : Model} (hstate : state = applyInfoToState m (sent a))
    (ho : q.options = some o) (hslug : q.slug ≠ "")
    (haddon : s.addon = some a) (hsubset : ∀ k ∈ o.keys, k ∈ (optionsOf a).keys) :
    Settled q (q.plan (some state.toObject))
        ((update (q.plan (some state.toObject)) state.toObject).runWith performs s) ↔
      RepositoryFits q a ∧ OptionsFit state (planModel q (some state.toObject) o) o := by
  have hupdate : update (q.plan (some state.toObject)) state.toObject =
      updateModel state.toObject (planModel q (some state.toObject) o) state := by
    unfold update
    rw [get_plan ho, get_toObject]
  obtain ⟨out, hrun, hsucceeds⟩ := runWith_updateModel
    (planModel q (some state.toObject) o) hslug haddon state.toObject state
  have hbase : (∀ k, (optionsOf a).get? k = none ∧ o.get? k = none) ∨
      ∀ k, (entriesOf state.options).get? k = ((optionsOf a).get? k).map .known := by
    rw [hstate]
    rcases entriesOf_applyInfoToState m a with hnone | hsame
    · refine .inl fun k => ⟨hnone k, Dict.get?_eq_none.mpr fun hk => ?_⟩
      exact Dict.get?_eq_none.mp (hnone k) (hsubset k hk)
    · exact .inr hsame
  have hboot : a.boot = "" ∨ state.boot.valueString = a.boot := by
    by_cases h : a.boot = ""
    · exact .inl h
    · refine .inr ?_
      rw [hstate]
      show (if a.boot ≠ "" then Value.known a.boot else m.boot).valueString = a.boot
      rw [if_pos h]
      rfl
  have hagrees : Agrees (q.plan (some state.toObject)).state (.known a.state) := by
    rw [hstate]
    exact .inr rfl
  rw [hupdate, hrun, settled_iff ho hslug hsucceeds, returned_iff ho,
    optionsFit_iff q _ o state hbase, RepositoryFits, RepositoryFits, repository_pushed,
    state_pushed]
  constructor
  · exact fun h => ⟨h.2.1, h.1⟩
  · exact fun h => ⟨h.2, h.1, fun b hb => boot_pushed hboot hb, hagrees⟩

def slugOnly : Configuration where
  slug := "core_mosquitto"
  repository := none
  url := none
  options := none
  start := none
  boot := none
  optionsSet := fun o h => absurd h.symm (Option.some_ne_none o)
  bootOneOf := fun b h => absurd h.symm (Option.some_ne_none b)

/-- The configuration before anything is installed. -/
def minimal : Setting where
  config := slugOnly
  world := freshWorld
  prior := none
  installed := fun m h => absurd h.symm (Option.some_ne_none m)
  subset := fun o h => absurd h.symm (Option.some_ne_none o)

end HaAddons.Provider
