import HaAddons.Provider.World

/-!
# Whether a successful apply converges

A Bridge performs every request it accepts. After Create or Update without an error the Supervisor
should hold what the plan says, and all that the plan is silent about.

A fresh installation is never told the options and the boot mode of the plan; Update compares the
plan with the prior state and not with the Supervisor, and it starts nothing. An option named `boot`
is taken for the boot mode.

* `converges_iff` — where the add-on converges, for every plan, prior state and world.
* `fresh_not_converged` — a new add-on keeps its default option.
-/

namespace HaAddons.Provider

open Bridge.Supervisor (AddOnInfo)
open Dialogue

inductive Operation where
  | create
  | update (prior : Object)

def Operation.run (op : Operation) (plan : Object) : Action Outcome :=
  match op with
  | create => Provider.create plan
  | update prior => Provider.update plan prior

/-- The options that the Supervisor has. -/
def optionsOf (a : AddOnInfo) : Dict String String := a.options.getD .empty

/-- The add-on has the options and the boot mode of the plan. -/
structure Has (plan : Model) (a : AddOnInfo) : Prop where
  options : ∀ k v, (entriesOf plan.options).get? k = some (.known v) → (optionsOf a).get? k = some v
  boot : plan.boot.valueString ≠ "" → a.boot = plan.boot.valueString

/-- What the plan is silent about is as it was. -/
def Keeps (plan : Model) (before after : AddOnInfo) : Prop :=
  ∀ k v, (entriesOf plan.options).get? k = none → (optionsOf before).get? k = some v →
    (optionsOf after).get? k = some v

structure Converged (plan : Model) (before : Option AddOnInfo) (after : AddOnInfo) : Prop where
  has : Has plan after
  keeps : ∀ a, before = some a → Keeps plan a after
  running : plan.start.valueBool = true → after.started = true

/-- Whatever is refused on the way: without an error the add-on has converged. -/
def Converges (op : Operation) (plan : Object) (s : World) : Prop :=
  (op.run plan).Ends Answers (fun o s' => o.hasError = false →
    ∃ m after, plan.get = some m ∧ s'.addon = some after ∧ Converged m s.found after) s

/-- A pushed body leaves nothing out: no option is named `boot`, and what the plan does not mention
is in the baseline as the Supervisor has it. -/
def Carries (priorState plan : Model) (a : AddOnInfo) : Prop :=
  (∀ v, (entriesOf plan.options).get? "boot" ≠ some (.known v)) ∧
    ∀ k v, (entriesOf plan.options).get? k = none → (optionsOf a).get? k = some v →
      k ≠ "boot" ∧ ((entriesOf priorState.options).get? k).map Value.valueString = some v

/-- The condition on the plan, the prior state and the add-on. -/
def ConvergesWhen (op : Operation) (plan : Object) (s : World) : Prop :=
  ∀ m, plan.get = some m → m.slug.valueString ≠ "" →
    match op with
    | .create =>
      (s.found = none → Has m s.defaults) ∧
        ∀ a, s.found = some a → differs (infoToBaseline (sent a)) m = true →
          Carries (infoToBaseline (sent a)) m a
    | .update prior =>
      ∀ state a, prior.get = some state → s.addon = some a →
        (differs state m = true → Carries state m a) ∧ (differs state m = false → Has m a) ∧
          (m.start.valueBool = true → a.started = true)

/-! ## What a push leaves -/

theorem eq_empty_of_entries {d : Dict String String} (h : d.entries = []) : d = .empty := by
  cases d
  cases h
  rfl

theorem getD_filter_empty (o : Option (Dict String String)) :
    (o.filter fun d => d.entries ≠ []).getD .empty = o.getD .empty := by
  cases o with
  | none => rfl
  | some d =>
    by_cases h : d.entries = []
    · obtain rfl := eq_empty_of_entries h
      rfl
    · simp [Option.filter, h]

theorem optionsOf_sent (a : AddOnInfo) : optionsOf (sent a) = optionsOf a :=
  getD_filter_empty a.options

theorem get?_baseline (a : AddOnInfo) (k : String) :
    (entriesOf (infoToBaseline (sent a)).options).get? k = ((optionsOf a).get? k).map .known := by
  rw [← optionsOf_sent]
  unfold optionsOf
  show (entriesOf ((sent a).options.map stringMap)).get? k = _
  cases (sent a).options with
  | none => rfl
  | some d => exact get?_stringMap d k

theorem optionsOf_startedBy (plan : Model) (a : AddOnInfo) :
    optionsOf (startedBy plan a) = optionsOf a := by
  unfold startedBy launched
  split_ifs <;> rfl

theorem boot_startedBy (plan : Model) (a : AddOnInfo) : (startedBy plan a).boot = a.boot := by
  unfold startedBy launched
  split_ifs <;> rfl

theorem started_startedBy {plan : Model} (h : plan.start.valueBool = true) (a : AddOnInfo) :
    (startedBy plan a).started = true := by
  rw [startedBy, if_pos h]
  unfold launched
  split_ifs with hstarted
  · exact hstarted
  · rfl

theorem has_congr {plan : Model} {a b : AddOnInfo} (ho : optionsOf a = optionsOf b)
    (hb : a.boot = b.boot) : Has plan a ↔ Has plan b := by
  constructor
  · exact fun h => ⟨ho ▸ h.options, hb ▸ h.boot⟩
  · exact fun h => ⟨ho ▸ h.options, hb ▸ h.boot⟩

theorem get?_configured (priorState plan : Model) (a : AddOnInfo) (k : String) :
    (optionsOf (configured a (merged (entriesOf plan.options) (entriesOf priorState.options)
      plan.boot.valueString))).get? k =
      if k = "boot" then none
      else (((entriesOf plan.options).get? k).or
        ((entriesOf priorState.options).get? k)).map Value.valueString := by
  show ((merged _ _ _).erase "boot").get? k = _
  rw [Dict.get?_erase, get?_merged]
  by_cases hk : k = "boot" <;> simp [hk]

variable {priorState plan : Model} {a : AddOnInfo}

/-- **A push.** It converges exactly where it carries all that the plan is silent about. -/
theorem pushed_iff (hdiff : differs priorState plan = true) :
    Has plan (pushed priorState plan a) ∧ Keeps plan a (pushed priorState plan a) ↔
      Carries priorState plan a := by
  rw [pushed, if_pos hdiff]
  constructor
  · rintro ⟨hhas, hkeeps⟩
    constructor
    · intro v hv
      have hget := hhas.options "boot" v hv
      rw [get?_configured, if_pos rfl] at hget
      cases hget
    · intro k v hplan ha
      have hget := hkeeps k v hplan ha
      rw [get?_configured] at hget
      by_cases hk : k = "boot"
      · rw [if_pos hk] at hget
        cases hget
      · rw [if_neg hk, hplan, Option.none_or] at hget
        exact ⟨hk, hget⟩
  · rintro ⟨hboot, hcarried⟩
    refine ⟨⟨fun k v hplan => ?_, fun hplan => ?_⟩, fun k v hplan ha => ?_⟩
    · have hk : k ≠ "boot" := fun hk => hboot v (hk ▸ hplan)
      rw [get?_configured, if_neg hk, hplan]
      rfl
    · show ((merged _ _ _).get? "boot").getD a.boot = _
      rw [get?_merged, if_pos ⟨rfl, hplan⟩]
      rfl
    · obtain ⟨hk, hprior⟩ := hcarried k v hplan ha
      rw [get?_configured, if_neg hk, hplan, Option.none_or, hprior]

theorem not_differs_iff : differs priorState plan = false ↔
    (∀ k, ((entriesOf priorState.options).get? k).map Value.valueString =
      ((entriesOf plan.options).get? k).map Value.valueString) ∧
      (plan.boot.valueString = priorState.boot.valueString ∨ plan.boot.valueString = "") := by
  rw [← mapStringEqual_iff]
  unfold differs
  cases mapStringEqual (entriesOf priorState.options) (entriesOf plan.options) <;>
    by_cases h : plan.boot.valueString = "" <;> simp [h]

/-- An add-on from which the plan does not differ has what the plan says. -/
theorem has_of_not_differs (h : differs (infoToBaseline (sent a)) plan = false) : Has plan a := by
  obtain ⟨hoptions, hboot⟩ := not_differs_iff.mp h
  constructor
  · intro k v hplan
    have hk := hoptions k
    rw [get?_baseline, hplan, Option.map_map] at hk
    obtain ⟨v', hv', heq⟩ := Option.map_eq_some_iff.mp hk
    rw [hv']
    exact congrArg some heq
  · intro hset
    rcases hboot with heq | hempty
    · exact heq.symm
    · exact absurd hempty hset

theorem keeps_refl : Keeps plan a a := fun _ _ _ h => h

/-- **Adoption.** Create converges on an add-on it finds where nothing differs, or where the push
carries. -/
theorem adopted_iff : Converged plan (some a) (adopted plan a) ↔
    (differs (infoToBaseline (sent a)) plan = true → Carries (infoToBaseline (sent a)) plan a) := by
  have hhas : Has plan (adopted plan a) ↔ Has plan (pushed (infoToBaseline (sent a)) plan a) :=
    has_congr (optionsOf_startedBy _ _) (boot_startedBy _ _)
  have hkeeps : Keeps plan a (adopted plan a) ↔
      Keeps plan a (pushed (infoToBaseline (sent a)) plan a) := by
    unfold Keeps adopted
    rw [optionsOf_startedBy]
  constructor
  · intro h hdiff
    exact (pushed_iff hdiff).mp ⟨hhas.mp h.has, hkeeps.mp (h.keeps a rfl)⟩
  · intro h
    have hpushed : Has plan (pushed (infoToBaseline (sent a)) plan a) ∧
        Keeps plan a (pushed (infoToBaseline (sent a)) plan a) := by
      cases hdiff : differs (infoToBaseline (sent a)) plan with
      | true => exact (pushed_iff hdiff).mpr (h hdiff)
      | false =>
        rw [pushed, if_neg (by rw [hdiff]; exact Bool.false_ne_true)]
        exact ⟨has_of_not_differs hdiff, keeps_refl⟩
    refine ⟨hhas.mpr hpushed.1, fun b hb => ?_, fun hstart => started_startedBy hstart _⟩
    cases hb
    exact hkeeps.mpr hpushed.2

theorem created_iff (s : World) : Converged plan s.found (s.created plan) ↔
    (s.found = none → Has plan s.defaults) ∧
      ∀ a, s.found = some a → differs (infoToBaseline (sent a)) plan = true →
        Carries (infoToBaseline (sent a)) plan a := by
  unfold World.created
  cases s.found with
  | none =>
    have hhas : Has plan (startedBy plan s.defaults) ↔ Has plan s.defaults :=
      has_congr (optionsOf_startedBy _ _) (boot_startedBy _ _)
    constructor
    · exact fun h => ⟨fun _ => hhas.mp h.has, fun a ha => absurd ha.symm (Option.some_ne_none a)⟩
    · exact fun h => ⟨hhas.mpr (h.1 rfl), fun a ha => absurd ha.symm (Option.some_ne_none a),
        fun hstart => started_startedBy hstart _⟩
  | some a =>
    rw [Option.elim_some, adopted_iff]
    constructor
    · intro h
      refine ⟨fun hnone => absurd hnone (Option.some_ne_none a), fun b hb => ?_⟩
      cases hb
      exact h
    · exact fun h => h.2 a rfl

theorem updated_iff : Converged plan (some a) (pushed priorState plan a) ↔
    (differs priorState plan = true → Carries priorState plan a) ∧
      (differs priorState plan = false → Has plan a) ∧
      (plan.start.valueBool = true → a.started = true) := by
  constructor
  · intro h
    refine ⟨fun hdiff => (pushed_iff hdiff).mp ⟨h.has, h.keeps a rfl⟩, fun hdiff => ?_,
      fun hstart => ?_⟩
    · have hhas := h.has
      rwa [pushed, if_neg (by rw [hdiff]; exact Bool.false_ne_true)] at hhas
    · exact (started_pushed _ _ _).symm.trans (h.running hstart)
  · rintro ⟨hcarries, hhas, hrunning⟩
    have hpushed :
        Has plan (pushed priorState plan a) ∧ Keeps plan a (pushed priorState plan a) := by
      cases hdiff : differs priorState plan with
      | true => exact (pushed_iff hdiff).mpr (hcarries hdiff)
      | false =>
        rw [pushed, if_neg (by rw [hdiff]; exact Bool.false_ne_true)]
        exact ⟨hhas hdiff, keeps_refl⟩
    refine ⟨hpushed.1, fun b hb => ?_, fun hstart => (started_pushed _ _ _).trans (hrunning hstart)⟩
    cases hb
    exact hpushed.2

/-! ## Both handlers -/

theorem noticed_run (op : Operation) (plan : Object) : Noticed Failed (op.run plan) := by
  cases op with
  | create => exact noticed_create plan
  | update prior => exact noticed_update plan prior

/-- Every refusal is noticed, so the run without one decides. -/
theorem converges_run {op : Operation} {plan : Object} {s : World} :
    Converges op plan s ↔ (((op.run plan).runWith performs s).1.hasError = false →
      ∃ m after, plan.get = some m ∧ ((op.run plan).runWith performs s).2.addon = some after ∧
        Converged m s.found after) := by
  constructor
  · intro h
    exact h.runWith fun s i => .performed i
  · intro h
    refine (noticed_run op plan s).mono ?_
    rintro o s' (hfailed | heq) hok
    · exact absurd (hfailed.symm.trans hok) Bool.noConfusion
    · rw [← heq] at h
      exact h hok

/-- A handler that ends without a request has an error, so nothing is promised. -/
theorem converges_of_error {op : Operation} {plan : Object} {s : World}
    (h : ((op.run plan).runWith performs s).1.hasError = true) : Converges op plan s :=
  converges_run.mpr fun hok => absurd (h.symm.trans hok) Bool.noConfusion

theorem converges_create {plan : Object} {m : Model} (hget : plan.get = some m)
    (hslug : m.slug.valueString ≠ "") (s : World) :
    Converges .create plan s ↔ Converged m s.found (s.created m) := by
  have hrun : Operation.create.run plan = createModel m := by
    show create plan = _
    unfold create
    rw [hget]
  obtain ⟨o, ho, hsucceeds⟩ := runWith_createModel (s := s) m hslug
  rw [converges_run, hrun, ho]
  constructor
  · intro h
    obtain ⟨m', after, hget', hafter, hconverged⟩ := h hsucceeds.1
    cases hget.symm.trans hget'
    cases hafter
    exact hconverged
  · exact fun h _ => ⟨m, _, hget, rfl, h⟩

theorem converges_update {plan prior : Object} {m state : Model} (hget : plan.get = some m)
    (hprior : prior.get = some state) (hslug : m.slug.valueString ≠ "") {s : World}
    (haddon : s.addon = some a) :
    Converges (.update prior) plan s ↔ Converged m (some a) (pushed state m a) := by
  have hrun : (Operation.update prior).run plan = updateModel prior m state := by
    show update plan prior = _
    unfold update
    rw [hget, hprior]
  have hfound : s.found = some a := by rw [World.found, haddon, Option.some_or]
  obtain ⟨o, ho, hsucceeds⟩ := runWith_updateModel (s := s) m hslug haddon prior state
  rw [converges_run, hrun, ho, hfound]
  constructor
  · intro h
    obtain ⟨m', after, hget', hafter, hconverged⟩ := h hsucceeds.1
    cases hget.symm.trans hget'
    cases hafter
    exact hconverged
  · exact fun h _ => ⟨m, _, hget, rfl, h⟩

/-- **Convergence.** Whatever the Bridge refuses: an operation without an error leaves the add-on as
the plan has it exactly under the condition. -/
theorem converges_iff (op : Operation) (plan : Object) (s : World) :
    Converges op plan s ↔ ConvergesWhen op plan s := by
  unfold ConvergesWhen
  cases hget : plan.get with
  | none =>
    have herror : ((op.run plan).runWith performs s).1.hasError = true := by
      cases op <;> simp only [Operation.run, create, update, hget] <;> rfl
    exact iff_of_true (converges_of_error herror) fun m hm => absurd hm.symm (Option.some_ne_none m)
  | some m =>
    by_cases hslug : m.slug.valueString = ""
    · have herror : ((op.run plan).runWith performs s).1.hasError = true := by
        cases op with
        | create =>
          simp only [Operation.run, create, hget, createModel, if_pos hslug]
          rfl
        | update prior =>
          simp only [Operation.run, update, hget]
          cases prior.get with
          | none => rfl
          | some state =>
            simp only [updateModel, if_pos hslug]
            rfl
      refine iff_of_true (converges_of_error herror) fun m' hm' hslug' => ?_
      cases hm'
      exact absurd hslug hslug'
    · cases op with
      | create =>
        rw [converges_create hget hslug, created_iff]
        constructor
        · intro h m' hm' _
          cases hm'
          exact h
        · exact fun h => h m rfl hslug
      | update prior =>
        cases hprior : prior.get with
        | none =>
          have herror :
              (((Operation.update prior).run plan).runWith performs s).1.hasError = true := by
            simp only [Operation.run, update, hget, hprior]
            rfl
          exact iff_of_true (converges_of_error herror)
            fun _ _ _ state _ hstate =>
              absurd (hstate.symm.trans hprior) (Option.some_ne_none state)
        | some state =>
          cases haddon : s.addon with
          | none =>
            have herror : (((Operation.update prior).run plan).runWith performs s).1.hasError =
                true := by
              simp only [Operation.run, update, hget, hprior]
              exact runWith_updateModel_absent hslug haddon prior state
            exact iff_of_true (converges_of_error herror)
              fun _ _ _ _ a _ ha => absurd ha.symm (Option.some_ne_none a)
          | some a =>
            rw [converges_update hget hprior hslug haddon, updated_iff]
            constructor
            · intro h m' hm' _ state' a' hstate' ha'
              cases hm'
              cases hprior.symm.trans hstate'
              cases ha'
              exact h
            · exact fun h => h m rfl hslug state a hprior rfl

/-! ## A first apply -/

def logLevel (level : String) : Dict String String := 
  ⟨[("log_level", level)], List.nodup_singleton "log_level"⟩

/-- The plan of a creation: what is not configured is unknown. -/
def debugPlan : Object where
  slug := .known "core_mosquitto"
  repository := .known "core"
  url := .null
  options := .known (stringMap (logLevel "debug"))
  start := .known true
  boot := .unknown
  version := .unknown
  state := .unknown
  started := .unknown
  hostname := .unknown
  dns := .unknown
  ingressURL := .unknown
  ingressEntry := .unknown
  webUIURL := .unknown

/-- Nothing is installed yet. -/
def freshWorld : World where
  addon := none
  pending := none
  defaults := { slug := "core_mosquitto", repository := "core", options := some (logLevel "info"),
                boot := "auto" }
  advisory := []

theorem fresh_not_converged : ¬ Converges .create debugPlan freshWorld := by
  intro h
  rw [converges_create rfl (by decide)] at h
  have hget := h.has.options "log_level" "debug" rfl
  exact absurd hget (by decide)

end HaAddons.Provider
