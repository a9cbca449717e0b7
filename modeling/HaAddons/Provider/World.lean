import HaAddons.Provider.Addon

/-!
# The Bridge as the provider meets it

The one add-on of the resource, and what the Bridge does to it when it performs a request. The
Bridge may refuse any request, and an answer may be lost; what it claims of the add-on is true.

* `noticed_create`, `noticed_update` — a handler that ends without an error has met a
  Bridge that performed every request.
* `runWith_createModel`, `runWith_updateModel` — what it leaves then.
-/

namespace HaAddons.Provider

open Bridge.Supervisor (AddOnInfo)
open Dialogue

/-- The add-on behind the Bridge; `pending` is what another party installs before the provider asks
for the installation, `defaults` what an installation gives. The answer to an options request has
the fields `advisory` as well. -/
structure World where
  addon : Option AddOnInfo
  pending : Option AddOnInfo
  defaults : AddOnInfo
  advisory : List (String × Json)

/-- The add-on after a start request. -/
def launched (a : AddOnInfo) : AddOnInfo :=
  if a.started then a else { a with started := true, state := "started" }

/-- The add-on after an options request: the key `boot` is the boot mode, the other keys are its
options. -/
def configured (a : AddOnInfo) (body : Dict String String) : AddOnInfo :=
  { a with options := some (body.erase "boot"), boot := (body.get? "boot").getD a.boot }

def World.put (s : World) (a : AddOnInfo) : World := { s with addon := some a }

@[simp] theorem put_addon (s : World) (a : AddOnInfo) : (s.put a).addon = some a := rfl

@[simp] theorem put_put (s : World) (a b : AddOnInfo) : (s.put a).put b = s.put b := rfl

@[simp] theorem put_advisory (s : World) (a : AddOnInfo) : (s.put a).advisory = s.advisory := rfl

/-- What the installed add-on is, once the provider asks for the installation. -/
def World.found (s : World) : Option AddOnInfo := s.addon.or s.pending

def refusal (code : String) : Body := .json (.obj [("error_code", .str code)])

/-- The answer of a Bridge that performs the request where it can be performed. -/
def World.reply (s : World) : Request → Response × World
  | .info _ =>
    match s.addon with
    | some a => (⟨200, .json (infoJson a)⟩, s)
    | none => (⟨404, refusal "not_found"⟩, s)
  | .install _ =>
    match s.found with
    | some a => (⟨409, refusal "already_installed"⟩, s.put a)
    | none => (⟨200, .empty⟩, s.put s.defaults)
  | .start _ =>
    match s.addon with
    | some a => (⟨200, .empty⟩, s.put (launched a))
    | none => (⟨404, refusal "not_found"⟩, s)
  | .options _ body =>
    match s.addon with
    | some a =>
      (⟨200, .json (.obj (infoFields (configured a body) ++ s.advisory))⟩,
        s.put (configured a body))
    | none => (⟨404, refusal "not_found"⟩, s)
  | .nonce => (⟨200, .json (.obj [("nonce", .str "nonce")])⟩, s)
  | .uninstall _ _ =>
    match s.addon with
    | some _ => (⟨204, .empty⟩, { s with addon := none })
    | none => (⟨404, refusal "not_found"⟩, s)

/-- The same as an answer that arrives. -/
def performs (s : World) (i : Request) : Answer i × World := (.ok (s.reply i).1, (s.reply i).2)

/-- An answer that says that the request was performed, or what there is of the add-on. -/
def Claims : Request → Response → Prop
  | .info _, r => r.status = 200 ∨ r.status = 404
  | .install _, r =>
    r.status = 200 ∨ (r.status = 409 ∧ (installed r).isSome)
  | .uninstall _ _, r => r.status = 204 ∨ r.status = 404
  | _, r => r.status = 200

/-- No answer, or one that claims nothing. -/
def Refuses (i : Request) : Except String Response → Prop
  | .error _ => True
  | .ok r => ¬ Claims i r

/-- A Bridge performs a request, or refuses it; the answer to a performed request may be lost. -/
inductive Answers (s : World) : (i : Request) → Answer i → World → Prop
  | performed (i : Request) : Answers s i (performs s i).1 (performs s i).2
  | refused {i : Request} {o : Answer i} {s' : World} (h : Refuses i o)
      (hs : s' = s ∨ s' = (performs s i).2) : Answers s i o s'

/-! ## Errors are noticed -/

/-- A result that ends the handler with an error. -/
def Fails {α : Type} : Except Error α → Prop
  | .error .addonNotFound => False
  | .error (.alreadyInstalled _) => False
  | .error _ => True
  | .ok _ => False

abbrev Noticed {α : Type} (bad : α → Prop) (d : Action α) : Prop := d.Faithful Answers performs bad

/-- A call whose refused requests give an error. -/
theorem noticed_call {α : Type} {req : Request} {result : Response → Except Error α}
    (h : ∀ r, ¬ Claims req r → Fails (result r)) : Noticed Fails (call req result) := by
  intro s o s' hs
  cases hs with
  | performed => exact .inr rfl
  | refused hrefused _ =>
    refine .inl ?_
    cases o with
    | error err => trivial
    | ok r => exact h r hrefused

theorem noticed_requireSlug {α : Type} {op slug : String} {act : Action (Except Error α)}
    (h : Noticed Fails act) : Noticed Fails (requireSlug op slug act) := by
  unfold requireSlug
  by_cases hslug : slug = ""
  · rw [if_pos hslug]
    exact faithful_done _ _
  · rw [if_neg hslug]
    exact h

theorem noticed_getAddonInfo (slug : String) : Noticed Fails (getAddonInfo slug) := by
  refine noticed_requireSlug (noticed_call fun r hr => ?_)
  have h404 : r.status ≠ 404 := fun h => hr (.inr h)
  have h200 : r.status ≠ 200 := fun h => hr (.inl h)
  rw [infoResult, if_neg h404, if_pos h200]
  trivial

theorem noticed_postAddonInstall (slug : String) : Noticed Fails (postAddonInstall slug) := by
  refine noticed_requireSlug (noticed_call fun r hr => ?_)
  have h200 : r.status ≠ 200 := fun h => hr (.inl h)
  unfold installResult
  by_cases h409 : r.status = 409
  · rw [if_pos h409]
    cases hi : installed r with
    | some err => exact absurd (.inr ⟨h409, by rw [hi]; rfl⟩) hr
    | none => trivial
  · rw [if_neg h409, if_pos h200]
    trivial

theorem noticed_postAddonStart (slug : String) : Noticed Fails (postAddonStart slug) := by
  refine noticed_requireSlug (noticed_call fun r hr => ?_)
  rw [startResult, if_pos (show r.status ≠ 200 from hr)]
  trivial

theorem noticed_postAddonOptions (slug : String) (body : Dict String String) :
    Noticed Fails (postAddonOptions slug body) := by
  refine noticed_requireSlug (noticed_call fun r hr => ?_)
  rw [optionsResult, if_pos (show r.status ≠ 200 from hr)]
  trivial

/-- The outcome has an error. -/
def Failed (o : Outcome) : Prop := o.hasError = true

theorem failed_append (diags : List Diagnostic) (e : Error) (state : Option Object) :
    Failed ⟨diags ++ [.mapped e], state⟩ := by
  show (diags ++ [Diagnostic.mapped e]).any Diagnostic.isError = true
  rw [List.any_append]
  exact Bool.or_true _

/-- What follows a call that fails is an outcome with an error. -/
theorem noticed_bind {α : Type} {act : Action (Except Error α)}
    {f : Except Error α → Action Outcome} (hact : Noticed Fails act)
    (herror : ∀ e, Fails (.error e : Except Error α) → ∃ o, f (.error e) = .done o ∧ Failed o)
    (hf : ∀ r, Noticed Failed (f r)) : Noticed Failed (act.bind f) := by
  refine hact.bind (fun r hr => ?_) hf
  cases r with
  | error e => exact herror e hr
  | ok a => exact hr.elim

theorem noticed_refetch (slug : String) (plan : Model) (diags : List Diagnostic)
    (state : Option Object) : Noticed Failed (refetch slug plan diags state) := by
  refine noticed_bind (noticed_getAddonInfo slug) (fun e _ => ⟨_, rfl, failed_append _ _ _⟩) ?_
  intro r
  cases r <;> exact faithful_done _ _

theorem noticed_startAndRefetch (slug : String) (plan : Model) (info : Option AddOnInfo)
    (diags : List Diagnostic) : Noticed Failed (startAndRefetch slug plan info diags) := by
  unfold startAndRefetch
  split_ifs
  · refine noticed_bind (noticed_postAddonStart slug) (fun e _ => ⟨_, rfl, failed_append _ _ _⟩) ?_
    intro r
    cases r with
    | error e => exact faithful_done _ _
    | ok _ => exact noticed_refetch _ _ _ _
  · exact noticed_refetch _ _ _ _

theorem noticed_applyOptionsIfChanged (slug : String) (priorState plan : Model) :
    Noticed Fails (applyOptionsIfChanged slug priorState plan) := by
  unfold applyOptionsIfChanged
  split_ifs
  · refine (noticed_postAddonOptions slug _).bind (fun r hr => ?_) fun r => ?_
    · cases r with
      | error e => exact ⟨_, rfl, by cases e <;> exact hr⟩
      | ok a => exact hr.elim
    · cases r <;> exact faithful_done _ _
  · exact faithful_done _ _

theorem noticed_adopt (slug : String) (plan : Model) (info : AddOnInfo) :
    Noticed Failed (adopt slug plan info) := by
  refine noticed_bind (noticed_applyOptionsIfChanged slug _ plan) (fun e _ => ⟨_, rfl, rfl⟩) ?_
  intro r
  cases r with
  | error e => exact faithful_done _ _
  | ok diags => exact noticed_startAndRefetch _ _ _ _

theorem noticed_install (slug : String) (plan : Model) : Noticed Failed (install slug plan) := by
  refine noticed_bind (noticed_postAddonInstall slug) ?_ ?_
  · intro e he
    cases e with
    | alreadyInstalled err => exact he.elim
    | addonNotFound => exact he.elim
    | bridge => exact ⟨_, rfl, rfl⟩
    | other => exact ⟨_, rfl, rfl⟩
  · intro r
    cases r with
    | ok _ => exact noticed_startAndRefetch _ _ _ _
    | error e =>
      cases e with
      | alreadyInstalled err =>
        refine noticed_bind (noticed_getAddonInfo slug) (fun e _ => ⟨_, rfl, rfl⟩) ?_
        intro r
        cases r with
        | error e => exact faithful_done _ _
        | ok info => exact noticed_adopt _ _ _
      | addonNotFound => exact faithful_done _ _
      | bridge => exact faithful_done _ _
      | other => exact faithful_done _ _

theorem noticed_createModel (plan : Model) : Noticed Failed (createModel plan) := by
  show Noticed Failed (if plan.slug.valueString = "" then _ else _)
  split_ifs
  · exact faithful_done _ _
  · refine noticed_bind (noticed_getAddonInfo _) ?_ ?_
    · intro e he
      cases e with
      | addonNotFound => exact he.elim
      | alreadyInstalled err => exact he.elim
      | bridge => exact ⟨_, rfl, rfl⟩
      | other => exact ⟨_, rfl, rfl⟩
    · intro r
      cases r with
      | ok info => exact noticed_adopt _ _ _
      | error e =>
        cases e with
        | addonNotFound => exact noticed_install _ _
        | alreadyInstalled err => exact faithful_done _ _
        | bridge => exact faithful_done _ _
        | other => exact faithful_done _ _

theorem noticed_create (plan : Object) : Noticed Failed (create plan) := by
  unfold create
  cases plan.get with
  | none => exact faithful_done _ _
  | some m => exact noticed_createModel m

theorem noticed_update (plan prior : Object) : Noticed Failed (update plan prior) := by
  unfold update
  cases plan.get with
  | none => exact faithful_done _ _
  | some m =>
    cases prior.get with
    | none => exact faithful_done _ _
    | some state =>
      show Noticed Failed (if m.slug.valueString = "" then _ else _)
      split_ifs
      · exact faithful_done _ _
      · refine noticed_bind (noticed_applyOptionsIfChanged _ _ _) (fun e _ => ⟨_, rfl, rfl⟩) ?_
        intro r
        cases r with
        | error e => exact faithful_done _ _
        | ok diags => exact noticed_refetch _ _ _ _

/-! ## What is left where every request is performed -/

variable {s : World} {a : AddOnInfo} {slug : String}

theorem put_self (h : s.addon = some a) : s.put a = s := by
  unfold World.put
  rw [← h]

theorem runWith_getAddonInfo (hslug : slug ≠ "") (h : s.addon = some a) :
    (getAddonInfo slug).runWith performs s = (.ok (sent a), s) := by
  unfold getAddonInfo
  rw [requireSlug, if_neg hslug]
  show ((received _ (performs s (.info slug)).1).bind (infoResult slug), _) = _
  have hreply : performs s (.info slug) = (.ok ⟨200, .json (infoJson a)⟩, s) := by
    simp only [performs, World.reply, h]
  rw [hreply]
  show (infoResult slug ⟨200, .json (infoJson a)⟩, s) = _
  simp [infoResult, Body.decode, decode_infoJson]

theorem runWith_getAddonInfo_absent (hslug : slug ≠ "") (h : s.addon = none) :
    (getAddonInfo slug).runWith performs s = (.error .addonNotFound, s) := by
  unfold getAddonInfo
  rw [requireSlug, if_neg hslug]
  show ((received _ (performs s (.info slug)).1).bind (infoResult slug), _) = _
  have hreply : performs s (.info slug) = (.ok ⟨404, refusal "not_found"⟩, s) := by
    simp only [performs, World.reply, h]
  rw [hreply]
  rfl

theorem runWith_postAddonStart (hslug : slug ≠ "") (h : s.addon = some a) :
    (postAddonStart slug).runWith performs s = (.ok (), s.put (launched a)) := by
  unfold postAddonStart
  rw [requireSlug, if_neg hslug]
  show ((received _ (performs s (.start slug)).1).bind (startResult slug), _) = _
  have hreply : performs s (.start slug) = (.ok ⟨200, .empty⟩, s.put (launched a)) := by
    simp only [performs, World.reply, h]
  rw [hreply]
  rfl

theorem runWith_postAddonOptions (hslug : slug ≠ "") (h : s.addon = some a)
    (body : Dict String String) :
    (postAddonOptions slug body).runWith performs s =
      (.ok (infoFields (configured a body) ++ s.advisory), s.put (configured a body)) := by
  unfold postAddonOptions
  rw [requireSlug, if_neg hslug]
  show ((received _ (performs s (.options slug body)).1).bind (optionsResult slug body), _) = _
  have hreply : performs s (.options slug body) =
      (.ok ⟨200, .json (.obj (infoFields (configured a body) ++ s.advisory))⟩,
        s.put (configured a body)) := by
    simp only [performs, World.reply, h]
  rw [hreply]
  rfl

theorem runWith_postAddonInstall (hslug : slug ≠ "") (h : s.found = none) :
    (postAddonInstall slug).runWith performs s = (.ok (), s.put s.defaults) := by
  unfold postAddonInstall
  rw [requireSlug, if_neg hslug]
  show ((received _ (performs s (.install slug)).1).bind (installResult slug), _) = _
  have hreply : performs s (.install slug) = (.ok ⟨200, .empty⟩, s.put s.defaults) := by
    simp only [performs, World.reply, h]
  rw [hreply]
  rfl

theorem runWith_postAddonInstall_raced (hslug : slug ≠ "") (h : s.found = some a) :
    ∃ err, (postAddonInstall slug).runWith performs s =
      (.error (.alreadyInstalled err), s.put a) := by
  unfold postAddonInstall
  rw [requireSlug, if_neg hslug]
  show ∃ err, ((received _ (performs s (.install slug)).1).bind (installResult slug), _) = _
  have hreply : performs s (.install slug) = (.ok ⟨409, refusal "already_installed"⟩, s.put a) := by
    simp only [performs, World.reply, h]
  rw [hreply]
  exact ⟨{ errorCode := "already_installed" }, rfl⟩

theorem pwnedWarning_isError (respBody : List (String × Json)) :
    (pwnedWarning respBody).any Diagnostic.isError = false := by
  unfold pwnedWarning
  split
  · split
    · split_ifs <;> rfl
    · rfl
  · rfl

/-- The add-on once the difference of a plan is pushed. -/
def pushed (priorState plan : Model) (a : AddOnInfo) : AddOnInfo :=
  if differs priorState plan then
    configured a
      (merged (entriesOf plan.options) (entriesOf priorState.options) plan.boot.valueString)
  else a

/-- The add-on once it is started where the plan says so. -/
def startedBy (plan : Model) (a : AddOnInfo) : AddOnInfo :=
  if plan.start.valueBool then launched a else a

/-- The outcome without an error. -/
def Succeeds (plan : Model) (a : AddOnInfo) (o : Outcome) : Prop :=
  o.hasError = false ∧ o.state = some (applyInfoToState plan (sent a)).toObject

theorem runWith_applyOptionsIfChanged (hslug : slug ≠ "") (h : s.addon = some a)
    (priorState plan : Model) :
    ∃ diags, diags.any Diagnostic.isError = false ∧
      (applyOptionsIfChanged slug priorState plan).runWith performs s =
        (.ok diags, s.put (pushed priorState plan a)) := by
  unfold applyOptionsIfChanged pushed
  split_ifs
  · exact ⟨_, pwnedWarning_isError _, runWith_bind_of (runWith_postAddonOptions hslug h _) _⟩
  · exact ⟨[], rfl, by rw [put_self h]; rfl⟩

theorem runWith_refetch (hslug : slug ≠ "") (h : s.addon = some a) (plan : Model)
    {diags : List Diagnostic} (hdiags : diags.any Diagnostic.isError = false)
    (state : Option Object) :
    ∃ o, (refetch slug plan diags state).runWith performs s = (o, s) ∧ Succeeds plan a o :=
  ⟨_, runWith_bind_of (runWith_getAddonInfo hslug h) _, hdiags, rfl⟩

theorem runWith_startAndRefetch (hslug : slug ≠ "") (h : s.addon = some a) (plan : Model)
    (info : Option AddOnInfo) (hinfo : info.any AddOnInfo.started = true → a.started = true)
    (diags : List Diagnostic) (hdiags : diags.any Diagnostic.isError = false) :
    ∃ o, (startAndRefetch slug plan info diags).runWith performs s = (o, s.put (startedBy plan a)) ∧
      Succeeds plan (startedBy plan a) o := by
  unfold startAndRefetch startedBy
  cases hstart : plan.start.valueBool with
  | false =>
    show ∃ o, (refetch slug plan diags none).runWith performs s = (o, s.put a) ∧ Succeeds plan a o
    rw [put_self h]
    exact runWith_refetch hslug h plan hdiags none
  | true =>
    cases hany : info.any AddOnInfo.started with
    | false =>
      obtain ⟨o, ho, hsucceeds⟩ :=
        runWith_refetch (s := s.put (launched a)) hslug rfl plan hdiags none
      exact ⟨o, (runWith_bind_of (runWith_postAddonStart hslug h) _).trans ho, hsucceeds⟩
    | true =>
      have hlaunched : launched a = a := if_pos (hinfo hany)
      rw [hlaunched]
      show ∃ o, (refetch slug plan diags none).runWith performs s = (o, s.put a) ∧ Succeeds plan a o
      rw [put_self h]
      exact runWith_refetch hslug h plan hdiags none

/-- The add-on that Create leaves where it found `a`. -/
def adopted (plan : Model) (a : AddOnInfo) : AddOnInfo :=
  startedBy plan (pushed (infoToBaseline (sent a)) plan a)

theorem started_pushed (priorState plan : Model) (a : AddOnInfo) :
    (pushed priorState plan a).started = a.started := by
  unfold pushed
  split_ifs <;> rfl

theorem runWith_adopt (hslug : slug ≠ "") (h : s.addon = some a) (plan : Model) :
    ∃ o, (adopt slug plan (sent a)).runWith performs s = (o, s.put (adopted plan a)) ∧
      Succeeds plan (adopted plan a) o := by
  obtain ⟨diags, hdiags, hrun⟩ :=
    runWith_applyOptionsIfChanged hslug h (infoToBaseline (sent a)) plan
  obtain ⟨o, ho, hsucceeds⟩ := runWith_startAndRefetch
    (s := s.put (pushed (infoToBaseline (sent a)) plan a)) hslug rfl plan (some (sent a))
    (fun hstarted => (started_pushed _ _ _).trans hstarted) diags hdiags
  exact ⟨o, (runWith_bind_of hrun _).trans ho, hsucceeds⟩

/-- The add-on that Create leaves. -/
def World.created (s : World) (plan : Model) : AddOnInfo :=
  s.found.elim (startedBy plan s.defaults) (adopted plan)

theorem runWith_createModel (plan : Model) (hslug : plan.slug.valueString ≠ "") :
    ∃ o, (createModel plan).runWith performs s = (o, s.put (s.created plan)) ∧
      Succeeds plan (s.created plan) o := by
  have hcreate : createModel plan = (getAddonInfo plan.slug.valueString).bind _ := if_neg hslug
  rw [hcreate]
  cases haddon : s.addon with
  | some a =>
    have hfound : s.created plan = adopted plan a := by
      simp only [World.created, World.found, haddon, Option.some_or, Option.elim_some]
    rw [hfound, runWith_bind_of (runWith_getAddonInfo hslug haddon)]
    exact runWith_adopt hslug haddon plan
  | none =>
    rw [runWith_bind_of (runWith_getAddonInfo_absent hslug haddon)]
    cases hfound : s.found with
    | none =>
      have hcreated : s.created plan = startedBy plan s.defaults := by
        simp only [World.created, hfound, Option.elim_none]
      rw [hcreated]
      obtain ⟨o, ho, hsucceeds⟩ := runWith_startAndRefetch (s := s.put s.defaults) hslug rfl plan
        none (fun h => absurd h Bool.false_ne_true) [] rfl
      exact ⟨o, (runWith_bind_of (runWith_postAddonInstall hslug hfound) _).trans ho, hsucceeds⟩
    | some a =>
      have hcreated : s.created plan = adopted plan a := by
        simp only [World.created, hfound, Option.elim_some]
      rw [hcreated]
      obtain ⟨err, herr⟩ := runWith_postAddonInstall_raced hslug hfound
      obtain ⟨o, ho, hsucceeds⟩ := runWith_adopt (s := s.put a) hslug rfl plan
      refine ⟨o, ?_, hsucceeds⟩
      exact (runWith_bind_of herr _).trans
        ((runWith_bind_of (runWith_getAddonInfo hslug (put_addon s a)) _).trans ho)

theorem runWith_updateModel (plan : Model) (hslug : plan.slug.valueString ≠ "")
    (h : s.addon = some a) (prior : Object) (state : Model) :
    ∃ o, (updateModel prior plan state).runWith performs s = (o, s.put (pushed state plan a)) ∧
      Succeeds plan (pushed state plan a) o := by
  obtain ⟨diags, hdiags, hrun⟩ := runWith_applyOptionsIfChanged hslug h state plan
  obtain ⟨o, ho, hsucceeds⟩ := runWith_refetch (s := s.put (pushed state plan a)) hslug rfl plan
    hdiags (some prior)
  refine ⟨o, ?_, hsucceeds⟩
  have hupdate : updateModel prior plan state =
      (applyOptionsIfChanged plan.slug.valueString state plan).bind _ := if_neg hslug
  rw [hupdate, runWith_bind_of hrun]
  exact ho

/-- Without the add-on there is no update. -/
theorem runWith_updateModel_absent {plan : Model} (hslug : plan.slug.valueString ≠ "")
    (h : s.addon = none) (prior : Object) (state : Model) :
    ((updateModel prior plan state).runWith performs s).1.hasError = true := by
  have hupdate : updateModel prior plan state =
      (applyOptionsIfChanged plan.slug.valueString state plan).bind _ := if_neg hslug
  rw [hupdate]
  unfold applyOptionsIfChanged
  split_ifs
  · have hreply (body : Dict String String) :
        performs s (.options plan.slug.valueString body) = (.ok ⟨404, refusal "not_found"⟩, s) := by
      simp only [performs, World.reply, h]
    simp only [postAddonOptions, requireSlug, if_neg hslug, call, bind_eq, runWith_bind,
      runWith_ask, hreply]
    rfl
  · show ((refetch plan.slug.valueString plan [] (some prior)).runWith performs s).1.hasError = true
    unfold refetch
    rw [bind_eq, runWith_bind_of (runWith_getAddonInfo_absent hslug h)]
    rfl

end HaAddons.Provider
