import HaAddons.Provider.Addon

/-!
# Whether the state follows the add-on

Terraform runs Create, Read, Update and Delete one after the other; the add-on is installed and
uninstalled by others at any time. After an operation without an error the resource should be in the
state exactly when the add-on was there at the last answer.

Read leaves the response as it is when the add-on is not found, and the response holds the prior
state.

* `membership` — it is so in every run in which no Read is told that there is no add-on.
* `removed_stays` — an add-on that was uninstalled by hand stays in the state.
-/

namespace HaAddons.Provider

open Bridge.Supervisor (AddOnInfo)
open Dialogue

/-! ## Answers among changes from outside -/

/-- Whether the add-on is there, and the last answer of the Bridge. -/
structure Scene where
  present : Bool
  last : Option (Except String Response)

def Status (o : Except String Response) (n : ℕ) : Prop := ∃ r, o = .ok r ∧ r.status = n

/-- The add-on before a request is served, the answer, and the add-on afterwards. -/
def Truthful (before : Bool) (o : Except String Response) (after : Bool) : Request → Prop
  | .info _ =>
    (Status o 200 → before = true) ∧ (Status o 404 → before = false) ∧ after = before
  | .install _ => (Status o 200 → after = true) ∧ (after = before ∨ after = true)
  | .uninstall _ _ =>
    (Status o 204 → after = false) ∧ (Status o 404 → after = false) ∧
      (after = before ∨ after = false)
  | _ => after = before

/-- Between two answers others may install or uninstall the add-on. -/
def tells (_ : Scene) (i : Request) (o : Answer i) (s' : Scene) : Prop :=
  ∃ before, Truthful before o s'.present i ∧ s'.last = some o

/-! ## Histories -/

inductive TfOp where
  | create (plan : Object)
  | read
  | update (plan : Object)
  | delete

/-- Only a resource that is not in the state is created; all else needs its prior state. -/
def program : TfOp → Option Object → Option (Action Outcome)
  | .create plan, none => some (create plan)
  | .read, some prior => some (read prior)
  | .update plan, some prior => some (update plan prior)
  | .delete, some prior => some (delete prior)
  | _, _ => none

/-- The state of Terraform, the add-on at the last answer, and whether the last operation ended
without an error. -/
structure History where
  state : Option Object
  present : Bool
  clean : Bool

/-- An operation, what it returned, and what the Bridge saw last. -/
structure Applied where
  op : TfOp
  outcome : Outcome
  scene : Scene

def history : System History Applied where
  init c := c.clean = false
  next c a := (program a.op c.state).map fun _ =>
    ⟨a.outcome.state, a.scene.present, !a.outcome.hasError⟩

/-- The operation can end so. -/
def Possible (c : History) (a : Applied) : Prop :=
  ∀ d, program a.op c.state = some d → ∃ last, d.Leads tells ⟨c.present, last⟩ a.outcome a.scene

/-- A Read is told that there is no add-on. -/
def NotFound (a : Applied) : Prop := a.op = .read ∧ ∃ o, a.scene.last = some o ∧ Status o 404

/-- The state holds the resource exactly when the add-on is there. -/
def Member (c : History) : Prop := c.clean = true → (c.state.isSome = true ↔ c.present = true)

/-! ## What each call says -/

variable {s : Scene}

theorem ends_call {α : Type} {req : Request} {result : Response → Except Error α}
    {Q : Except Error α → Scene → Prop}
    (hok : ∀ r s', tells s req (.ok r) s' → Q (result r) s')
    (herror : ∀ e s', Q (.error (.other e)) s') : (call req result).Ends tells Q s := by
  intro o s' hs
  cases o with
  | error err => exact herror _ s'
  | ok r => exact hok r s' hs

theorem ends_requireSlug {α : Type} {op slug : String} {act : Action (Except Error α)}
    {Q : Except Error α → Scene → Prop} (hact : act.Ends tells Q s)
    (herror : ∀ e s', Q (.error (.other e)) s') : (requireSlug op slug act).Ends tells Q s := by
  unfold requireSlug
  by_cases hslug : slug = ""
  · rw [if_pos hslug]
    exact herror _ s
  · rw [if_neg hslug]
    exact hact

/-- An add-on that was read is there; one that was not found was answered with 404. -/
def Told (r : Except Error AddOnInfo) (s : Scene) : Prop :=
  (∀ info, r = .ok info → s.present = true) ∧
    (r = .error .addonNotFound → ∃ o, s.last = some o ∧ Status o 404)

theorem ends_getAddonInfo (slug : String) : (getAddonInfo slug).Ends tells Told s := by
  have hother (e : String) (s' : Scene) : Told (.error (.other e)) s' :=
    ⟨fun _ h => (by cases h), fun h => (by cases h)⟩
  refine ends_requireSlug (ends_call ?_ hother) hother
  rintro r s' ⟨before, ⟨h200, -, hafter⟩, hlast⟩
  unfold infoResult
  by_cases h404 : r.status = 404
  · rw [if_pos h404]
    exact ⟨fun _ h => (by cases h), fun _ => ⟨_, hlast, r, rfl, h404⟩⟩
  · rw [if_neg h404]
    by_cases hok : r.status = 200
    · rw [if_neg (by simp [hok])]
      have hpresent : s'.present = true := hafter.trans (h200 ⟨r, rfl, hok⟩)
      refine ⟨fun _ _ => hpresent, fun h => ?_⟩
      split at h <;> cases h
    · rw [if_pos hok]
      exact ⟨fun _ h => (by cases h), fun h => (by cases h)⟩

theorem ends_postAddonUninstall (slug nonce : String) :
    (postAddonUninstall slug nonce).Ends tells (fun r s' => r = .ok () → s'.present = false) s := by
  have hother (e : String) (s' : Scene) :
      (.error (.other e) : Except Error Unit) = .ok () → s'.present = false := fun h => by cases h
  refine ends_requireSlug ?_ hother
  by_cases hnonce : nonce = ""
  · rw [if_pos hnonce]
    exact hother _ s
  · rw [if_neg hnonce]
    refine ends_call ?_ hother
    rintro r s' ⟨before, ⟨h204, h404, -⟩, -⟩ hr
    unfold uninstallResult at hr
    by_cases h : r.status = 204 ∨ r.status = 404
    · rcases h with h | h
      · exact h204 ⟨r, rfl, h⟩
      · exact h404 ⟨r, rfl, h⟩
    · rw [if_neg h] at hr
      cases hr

/-! ## What each operation leaves -/

/-- Without an error the resource is in the state, and the add-on is there. -/
def Stored (o : Outcome) (s : Scene) : Prop :=
  o.hasError = false → o.state.isSome = true ∧ s.present = true

theorem stored_of_error {o : Outcome} (h : o.hasError = true) (s : Scene) : Stored o s :=
  fun hok => absurd (h.symm.trans hok) Bool.noConfusion

theorem stored_refetch (slug : String) (plan : Model) (diags : List Diagnostic)
    (state : Option Object) (s : Scene) : (refetch slug plan diags state).Ends tells Stored s := by
  refine Ends.bind ((ends_getAddonInfo slug).mono fun r s' h => ?_)
  cases r with
  | error e =>
    refine stored_of_error ?_ s'
    show (diags ++ [Diagnostic.mapped e]).any Diagnostic.isError = true
    rw [List.any_append]
    exact Bool.or_true _
  | ok info => exact fun _ => ⟨rfl, h.1 info rfl⟩

theorem stored_startAndRefetch (slug : String) (plan : Model) (info : Option AddOnInfo)
    (diags : List Diagnostic) (s : Scene) :
    (startAndRefetch slug plan info diags).Ends tells Stored s := by
  unfold startAndRefetch
  split_ifs
  · refine ends_bind_of_forall fun r s' => ?_
    cases r with
    | error e =>
      refine stored_of_error ?_ s'
      show (diags ++ [Diagnostic.mapped e]).any Diagnostic.isError = true
      rw [List.any_append]
      exact Bool.or_true _
    | ok _ => exact stored_refetch _ _ _ _ s'
  · exact stored_refetch _ _ _ _ s

theorem stored_adopt (slug : String) (plan : Model) (info : AddOnInfo) (s : Scene) :
    (adopt slug plan info).Ends tells Stored s := by
  refine ends_bind_of_forall fun r s' => ?_
  cases r with
  | error e => exact stored_of_error rfl s'
  | ok diags => exact stored_startAndRefetch _ _ _ _ s'

theorem stored_install (slug : String) (plan : Model) (s : Scene) :
    (install slug plan).Ends tells Stored s := by
  refine ends_bind_of_forall fun r s' => ?_
  cases r with
  | ok _ => exact stored_startAndRefetch _ _ _ _ s'
  | error e =>
    cases e with
    | alreadyInstalled err =>
      refine ends_bind_of_forall fun r s' => ?_
      cases r with
      | error e => exact stored_of_error rfl s'
      | ok info => exact stored_adopt _ _ _ s'
    | addonNotFound => exact stored_of_error rfl s'
    | bridge => exact stored_of_error rfl s'
    | other => exact stored_of_error rfl s'

theorem stored_create (plan : Object) (s : Scene) : (create plan).Ends tells Stored s := by
  unfold create
  cases plan.get with
  | none => exact stored_of_error rfl s
  | some m =>
    show (if m.slug.valueString = "" then _ else _ : Action Outcome).Ends tells Stored s
    split_ifs
    · exact stored_of_error rfl s
    · refine ends_bind_of_forall fun r s' => ?_
      cases r with
      | ok info => exact stored_adopt _ _ _ s'
      | error e =>
        cases e with
        | addonNotFound => exact stored_install _ _ s'
        | alreadyInstalled err => exact stored_of_error rfl s'
        | bridge => exact stored_of_error rfl s'
        | other => exact stored_of_error rfl s'

theorem stored_update (plan prior : Object) (s : Scene) :
    (update plan prior).Ends tells Stored s := by
  unfold update
  cases plan.get with
  | none => exact stored_of_error rfl s
  | some m =>
    cases prior.get with
    | none => exact stored_of_error rfl s
    | some state =>
      show (if m.slug.valueString = "" then _ else _ : Action Outcome).Ends tells Stored s
      split_ifs
      · exact stored_of_error rfl s
      · refine ends_bind_of_forall fun r s' => ?_
        cases r with
        | error e => exact stored_of_error rfl s'
        | ok diags => exact stored_refetch _ _ _ _ s'

/-- Read is right unless it is told that there is no add-on. -/
theorem stored_read (prior : Object) (s : Scene) :
    (read prior).Ends tells
      (fun o s' => (¬ ∃ a, s'.last = some a ∧ Status a 404) → Stored o s') s := by
  unfold read
  cases prior.get with
  | none => exact fun _ => stored_of_error rfl s
  | some m =>
    refine Ends.bind ((ends_getAddonInfo _).mono fun r s' h => ?_)
    cases r with
    | ok info => exact fun _ _ => ⟨rfl, h.1 info rfl⟩
    | error e =>
      cases e with
      | addonNotFound => exact fun hnot => absurd (h.2 rfl) hnot
      | alreadyInstalled err => exact fun _ => stored_of_error rfl s'
      | bridge => exact fun _ => stored_of_error rfl s'
      | other => exact fun _ => stored_of_error rfl s'

/-- Without an error the resource is not in the state, and the add-on is gone. -/
def Removed (o : Outcome) (s : Scene) : Prop :=
  o.hasError = false → o.state = none ∧ s.present = false

theorem removed_of_error {o : Outcome} (h : o.hasError = true) (s : Scene) : Removed o s :=
  fun hok => absurd (h.symm.trans hok) Bool.noConfusion

theorem removed_delete (prior : Object) (s : Scene) : (delete prior).Ends tells Removed s := by
  unfold delete
  cases prior.get with
  | none => exact removed_of_error rfl s
  | some m =>
    show (if m.slug.valueString = "" then _ else deleteSlug prior _ : Action Outcome).Ends tells
      Removed s
    split_ifs
    · exact removed_of_error rfl s
    · refine ends_bind_of_forall fun r s' => ?_
      cases r with
      | error e => exact removed_of_error rfl s'
      | ok nonce =>
        refine Ends.bind ((ends_postAddonUninstall _ nonce).mono fun r s' h => ?_)
        cases r with
        | ok _ => exact fun _ => ⟨rfl, h rfl⟩
        | error e =>
          show (if e.staleNonce then _ else _ : Action Outcome).Ends tells Removed s'
          split_ifs
          · refine ends_bind_of_forall fun r s' => ?_
            cases r with
            | error e => exact removed_of_error rfl s'
            | ok nonce =>
              refine Ends.bind ((ends_postAddonUninstall _ nonce).mono fun r s' h => ?_)
              cases r with
              | ok _ => exact fun _ => ⟨rfl, h rfl⟩
              | error e => exact removed_of_error rfl s'
          · exact removed_of_error rfl s'

/-! ## Runs -/

/-- One operation. -/
theorem member_next {c c' : History} {a : Applied} (hpossible : Possible c a)
    (hfound : ¬ NotFound a) (hnext : history.next c a = some c') : Member c' := by
  obtain ⟨d, hd, rfl⟩ := Option.map_eq_some_iff.mp hnext
  obtain ⟨last, hleads⟩ := hpossible d hd
  have hstored (h : Stored a.outcome a.scene) :
      Member ⟨a.outcome.state, a.scene.present, !a.outcome.hasError⟩ := by
    intro hclean
    obtain ⟨hstate, hpresent⟩ := h (Bool.not_eq_true' _ ▸ hclean)
    exact iff_of_true hstate hpresent
  obtain ⟨op, outcome, scene⟩ := a
  cases op with
  | create plan =>
    cases hstate : c.state with
    | none =>
      rw [hstate] at hd
      cases hd
      exact hstored ((stored_create plan _).of_leads hleads)
    | some prior =>
      rw [hstate] at hd
      cases hd
  | read =>
    cases hstate : c.state with
    | none =>
      rw [hstate] at hd
      cases hd
    | some prior =>
      rw [hstate] at hd
      cases hd
      exact hstored ((stored_read prior _).of_leads hleads fun h => hfound ⟨rfl, h⟩)
  | update plan =>
    cases hstate : c.state with
    | none =>
      rw [hstate] at hd
      cases hd
    | some prior =>
      rw [hstate] at hd
      cases hd
      exact hstored ((stored_update plan prior _).of_leads hleads)
  | delete =>
    cases hstate : c.state with
    | none =>
      rw [hstate] at hd
      cases hd
    | some prior =>
      rw [hstate] at hd
      cases hd
      intro hclean
      obtain ⟨hnone, hgone⟩ :=
        (removed_delete prior _).of_leads hleads (Bool.not_eq_true' _ ▸ hclean)
      show outcome.state.isSome = true ↔ scene.present = true
      rw [hnone, hgone]
      exact Iff.rfl

/-- **Membership.** In every run in which no Read is told that there is no add-on, the state holds
the resource exactly when the add-on was there at the last answer of an operation without an error.
-/
theorem membership {c : History}
    (h : history.Reach (fun c a => Possible c a ∧ ¬ NotFound a) c) : Member c := by
  refine h.invariant (fun c hinit hclean => ?_) fun c a c' _ hok hnext =>
    member_next hok.1 hok.2 hnext
  exact absurd (hclean.symm.trans hinit) Bool.noConfusion

/-! ## An add-on that goes -/

/-- A plan that leaves the add-on as it is. -/
def plainPlan : Object where
  slug := .known "core_ssh"
  repository := .known "core"
  url := .null
  options := .null
  start := .known false
  boot := .unknown
  version := .unknown
  state := .unknown
  started := .unknown
  hostname := .unknown
  dns := .unknown
  ingressURL := .unknown
  ingressEntry := .unknown
  webUIURL := .unknown

def infoAnswer : Except String Response := .ok ⟨200, .json (.obj [])⟩

def missingAnswer : Except String Response := .ok ⟨404, .empty⟩

/-- What the plan is in the state, once the add-on was read. -/
def plainState : Object := (applyInfoToState (plainPlan.withOptions none) {}).toObject

def creation : Applied := ⟨.create plainPlan, ⟨[], some plainState⟩, ⟨true, some infoAnswer⟩⟩

def lateRead : Applied := ⟨.read, ⟨[], some plainState⟩, ⟨false, some missingAnswer⟩⟩

theorem status_ok {r : Response} {n : ℕ} : Status (.ok r) n ↔ r.status = n := by
  constructor
  · rintro ⟨r', hr, hn⟩
    cases hr
    exact hn
  · exact fun h => ⟨r, rfl, h⟩

theorem tells_info (s : Scene) (slug : String) :
    tells s (.info slug) infoAnswer ⟨true, some infoAnswer⟩ := by
  refine ⟨true, ⟨fun _ => rfl, fun h => ?_, rfl⟩, rfl⟩
  exact absurd (status_ok.mp h) (by decide)

theorem tells_missing (s : Scene) (slug : String) :
    tells s (.info slug) missingAnswer ⟨false, some missingAnswer⟩ := by
  refine ⟨false, ⟨fun h => ?_, fun _ => rfl, rfl⟩, rfl⟩
  exact absurd (status_ok.mp h) (by decide)

theorem possible_creation : Possible ⟨none, true, false⟩ creation := by
  intro d hd
  cases hd
  exact ⟨none, .ask (tells_info _ _) (.ask (tells_info _ _) (.done _ _))⟩

theorem possible_lateRead : Possible ⟨some plainState, true, true⟩ lateRead := by
  intro d hd
  cases hd
  exact ⟨none, .ask (tells_missing _ _) (.done _ _)⟩

theorem membership_created : Member ⟨some plainState, true, true⟩ := by
  have hfound : ¬ NotFound creation := fun h => absurd h.1 TfOp.noConfusion
  exact membership (.step (.init (show history.init ⟨none, true, false⟩ from rfl))
    ⟨possible_creation, hfound⟩ rfl)

/-- The resource is created, and then the add-on is uninstalled by hand. -/
theorem removed_stays : ∃ c, history.Reach Possible c ∧ ¬ Member c := by
  have hcreated : history.Reach Possible ⟨some plainState, true, true⟩ :=
    .step (.init (show history.init ⟨none, true, false⟩ from rfl)) possible_creation rfl
  refine ⟨⟨some plainState, false, true⟩, .step hcreated possible_lateRead rfl, fun h => ?_⟩
  exact absurd ((h rfl).mp rfl) Bool.false_ne_true

end HaAddons.Provider
