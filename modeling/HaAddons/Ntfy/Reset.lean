import HaAddons.Ntfy.AdminRemains
import HaAddons.Ntfy.Baseline
import HaAddons.Ntfy.Exporter

/-!
# Resetting everything

`reset_everything` deletes the users one by one, the admin of the options among them, drops the
rules and the records, and then applies the options as at the start, which creates the admin again.
What is raised on the way skips the rest.

* `runLost` is the semantics: every call of the command line may fail, before its effect or after
  it.
* `reset_keeps_admin_iff` — the admin is there afterwards exactly if it was not deleted, or if
  everything behind that went through.
* `locked_out` — the next deletion fails, and there is no admin.
-/

namespace HaAddons.Ntfy

/-! ## Bootstrap -/

structure BootstrapReport where
  actions : List String := []
  warnings : List String := []

/-- `ensure_admin`. Where the users cannot be read, nobody is there. -/
def ensureAdmin (options : Options) (unread : Option ReadError) : Action (List String) :=
  if options.adminPassword = "" then pure []
  else do
    let existing ← look fun w => (readDb unread w).toOption.any fun t =>
      t.accounts.any fun a => a.name = options.adminUser
    if existing then pure []
    else
      let created ← Script.handle (do
          NtfyCli.userAdd options.adminUser options.adminPassword .admin
          pure true : Action Bool) fun e =>
        match e with
        | .cli code _ => if code = "exists" then pure false else fail e
        | _ => fail e
      if created then
        act (.setUser options.adminUser .options)
        pure [s!"admin user {options.adminUser} created"]
      else pure []

/-- `_describe` -/
def describeReport (report : BaselineReport) : List String :=
  report.usersCreated.map (fun name => s!"user {name} created") ++
    report.rulesSet.map (fun r => s!"rule {r.1} {r.2.1} {r.2.2.text} set") ++
      report.passwordsReset.map (fun name => s!"password of {name} reset") ++
        report.orphaned.map fun item => s!"{item} now owned by gui"

/-- The class and the text of an exception. -/
def Failure.text : Failure → String
  | cli _ message => "NtfyCliError: " ++ message
  | value message => "ValueError: " ++ message
  | api e => "ApiError: " ++ e.message
  | other cls => cls ++ ": "

/-- Admin first, then the baseline; a failure in one step is a warning and the other still runs. -/
def applyOptions (options : Options) (unread : Option ReadError) : Action BootstrapReport := do
  let report ← Script.handle (do
      let actions ← ensureAdmin options unread
      pure { actions := actions } : Action BootstrapReport) fun e =>
    pure { warnings := ["admin: " ++ e.text] }
  Script.handle (do
      let result ← applyBaseline options unread
      pure ⟨report.actions ++ describeReport result, report.warnings ++ result.warnings⟩ :
        Action BootstrapReport) fun e =>
    pure { report with warnings := report.warnings ++ ["baseline: " ++ e.text] }

/-! ## The reset -/

/-- The user is deleted by a reset. -/
def Account.isReal (a : Account) : Bool :=
  a.name ≠ "*" && a.name ≠ "everyone" && a.role ≠ .anonymous

def Failure.isNotFound : Failure → Bool
  | cli code _ => code = "not_found"
  | _ => false

/-- A user that is not found is no failure. -/
def deleteOne (a : Account) : Action Unit :=
  (NtfyCli.userDelete a.name).handle fun e => if e.isNotFound then pure () else fail e

def deleteUsers : List Account → Action Unit
  | [] => pure ()
  | a :: rest => do
    if a.isReal then deleteOne a
    deleteUsers rest

def resetPhrase : String := "reset everything"

/-- What is left to do when the users are deleted. -/
def startOver (options : Options) : Action Unit := do
  NtfyCli.accessReset none
  act .clearAll
  let _ ← applyOptions options none
  if ← look fun w => hasUser w options.adminUser then pure ()
  else fail (.api ⟨"ntfy_error", "admin user was not recreated after the reset"⟩)

def resetEverything (options : Options) (confirm : String) : Action Unit := do
  if confirm ≠ resetPhrase then
    fail (.api ⟨"confirmation_required", "type \"reset everything\" to confirm"⟩)
  else if options.adminPassword = "" then
    fail (.api ⟨"conflict", "admin_password option is empty: the admin could not be recreated"⟩)
  else
    ensureSupported
    act (.backup "reset-everything")
    let users ← look World.accounts
    deleteUsers users
    startOver options

/-! ## Runs -/

/-- How a call of the command line goes: a failure comes with whether it had its effect. -/
abbrev Outcomes := List (Option (Bool × Failure))

/-- A run of a script. -/
def run {α : Type} (s : Action α) (w : World) (fs : Outcomes) :
    Except Failure α × World × Outcomes :=
  s.runLost apply (fun o _ => o.external) w fs

/-- The call had its effect. -/
def Took (f : Option (Bool × Failure)) : Bool := f.all Prod.fst

theorem run_act {o : Op} (ho : o.external = true) (w : World) (fs : Outcomes) :
    run (act o) w fs =
      (match fs.headD none with
        | none => .ok ()
        | some (_, e) => .error e,
        if Took (fs.headD none) then effect w o else w, fs.tail) := by
  simp only [run, act, Script.act, Script.runLost, ho, if_true, apply]
  cases fs.headD none with
  | none => rfl
  | some f =>
    obtain ⟨took, e⟩ := f
    cases took <;> rfl

theorem run_act_internal {o : Op} (ho : o.external = false) (w : World) (fs : Outcomes) :
    run (act o) w fs = (.ok (), effect w o, fs.tail) := by
  simp [run, act, Script.act, Script.runLost, ho, apply]

/-- What comes after a part that ends well. -/
theorem run_bind_ok {α β : Type} {s : Action α} {f : α → Action β} {w w' : World}
    {fs fs' : Outcomes} {a : α} (h : run s w fs = (.ok a, w', fs')) :
    run (s.bind f) w fs = run (f a) w' fs' := by
  simp only [run, Script.runLost_bind] at h ⊢
  rw [h]

/-- What is raised skips the rest. -/
theorem run_bind_error {α β : Type} {s : Action α} {f : α → Action β} {w w' : World}
    {fs fs' : Outcomes} {e : Failure} (h : run s w fs = (.error e, w', fs')) :
    run (s.bind f) w fs = (.error e, w', fs') := by
  simp only [run, Script.runLost_bind] at h ⊢
  rw [h]

theorem run_handle_ok {α : Type} {s : Action α} {k : Failure → Action α} {w w' : World}
    {fs fs' : Outcomes} {a : α} (h : run s w fs = (.ok a, w', fs')) :
    run (s.handle k) w fs = (.ok a, w', fs') := by
  simp only [run, Script.runLost_handle] at h ⊢
  rw [h]

theorem run_handle_error {α : Type} {s : Action α} {k : Failure → Action α} {w w' : World}
    {fs fs' : Outcomes} {e : Failure} (h : run s w fs = (.error e, w', fs')) :
    run (s.handle k) w fs = run (k e) w' fs' := by
  simp only [run, Script.runLost_handle] at h ⊢
  rw [h]

/-! ## Deletions -/

/-- The deletion of a user raises. -/
def Raises (x : Account × Option (Bool × Failure)) : Prop :=
  usernameRe x.1.name = false ∨ ∃ f, x.2 = some f ∧ f.2.isNotFound = false

/-- The deletion of a user has its effect, where it is reached. -/
def Deletes (name : String) (x : Account × Option (Bool × Failure)) : Prop :=
  x.1.name = name ∧ usernameRe name = true ∧ Took x.2 = true

/-- The users that are deleted, each with how its call goes. -/
def calls : List Account → Outcomes → List (Account × Option (Bool × Failure))
  | [], _ => []
  | a :: rest, fs =>
    if a.isReal then (a, fs.headD none) :: calls rest fs.tail else calls rest fs

/-- All deletions go through. -/
def Through (users : List Account) (fs : Outcomes) : Prop := ∀ x ∈ calls users fs, ¬ Raises x

/-- The user is deleted, before anything is raised. -/
def Deleted (name : String) (users : List Account) (fs : Outcomes) : Prop :=
  ∃ before x after, calls users fs = before ++ x :: after ∧ (∀ y ∈ before, ¬ Raises y) ∧
    Deletes name x

theorem calls_real {a : Account} {rest : List Account} {fs : Outcomes} (ha : a.isReal = true) :
    calls (a :: rest) fs = (a, fs.headD none) :: calls rest fs.tail := by
  rw [calls, if_pos ha]

theorem calls_skipped {a : Account} {rest : List Account} {fs : Outcomes} (ha : a.isReal = false) :
    calls (a :: rest) fs = calls rest fs := by
  rw [calls, if_neg (by simp [ha])]

theorem through_cons {a : Account} {rest : List Account} {fs : Outcomes} (ha : a.isReal = true) :
    Through (a :: rest) fs ↔ ¬ Raises (a, fs.headD none) ∧ Through rest fs.tail := by
  unfold Through
  rw [calls_real ha, List.forall_mem_cons]

theorem deleted_cons {name : String} {a : Account} {rest : List Account} {fs : Outcomes}
    (ha : a.isReal = true) :
    Deleted name (a :: rest) fs ↔ Deletes name (a, fs.headD none) ∨
      ¬ Raises (a, fs.headD none) ∧ Deleted name rest fs.tail := by
  unfold Deleted
  rw [calls_real ha]
  constructor
  · rintro ⟨before, x, after, hsplit, hbefore, hx⟩
    cases before with
    | nil =>
      obtain ⟨rfl, -⟩ := List.cons.inj hsplit
      exact .inl hx
    | cons y before =>
      obtain ⟨rfl, hrest⟩ := List.cons.inj hsplit
      obtain ⟨hy, hbefore⟩ := List.forall_mem_cons.mp hbefore
      exact .inr ⟨hy, before, x, after, hrest, hbefore, hx⟩
  · rintro (hx | ⟨ha, before, x, after, hrest, hbefore, hx⟩)
    · exact ⟨[], _, _, rfl, by simp, hx⟩
    · exact ⟨_ :: before, x, after, by rw [hrest]; rfl, List.forall_mem_cons.mpr ⟨ha, hbefore⟩, hx⟩

/-- Only valid names are deleted. -/
theorem Deleted.usernameRe {name : String} {users : List Account} {fs : Outcomes}
    (h : Deleted name users fs) : usernameRe name = true := by
  obtain ⟨_, _, _, -, -, hx⟩ := h
  exact hx.2.1

/-- Nobody has the name. -/
def World.Absent (w : World) (name : String) : Prop := ∀ a ∈ w.accounts, a.name ≠ name

theorem World.Absent.not_hasAdmin {w : World} {name : String} (h : w.Absent name) :
    ¬ w.HasAdmin name := by
  rintro ⟨a, ha, hname, -⟩
  exact h a ha hname

theorem absent_userDelete (w : World) (name : String) :
    (effect w (.userDelete name)).Absent name := by
  intro a ha
  exact of_decide_eq_true (List.mem_filter.mp ha).2

theorem hasAdmin_userDelete {w : World} {name other : String} (hne : other ≠ name)
    (h : w.HasAdmin name) : (effect w (.userDelete other)).HasAdmin name := by
  obtain ⟨a, ha, rfl, hrole⟩ := h
  exact ⟨a, List.mem_filter.mpr ⟨ha, decide_eq_true hne.symm⟩, rfl, hrole⟩

theorem absent_of_userDelete {w : World} {name other : String} (h : w.Absent name) :
    (effect w (.userDelete other)).Absent name :=
  fun a ha => h a (List.mem_filter.mp ha).1

/-- One deletion. -/
theorem run_deleteOne (a : Account) (w : World) (fs : Outcomes) :
    (Raises (a, fs.headD none) → ∃ e, (run (deleteOne a) w fs).1 = .error e) ∧
      (¬ Raises (a, fs.headD none) →
        (run (deleteOne a) w fs).1 = .ok () ∧ (run (deleteOne a) w fs).2.2 = fs.tail) ∧
      (run (deleteOne a) w fs).2.1 =
        if usernameRe a.name = true ∧ Took (fs.headD none) = true then effect w (.userDelete a.name)
        else w := by
  by_cases hname : usernameRe a.name = true
  · have hdelete : NtfyCli.userDelete a.name = (act (.userDelete a.name) : Action Unit) := by
      unfold NtfyCli.userDelete NtfyCli.checkUser
      rw [hname]
      rfl
    have hact := run_act (o := .userDelete a.name) rfl w fs
    rw [← hdelete] at hact
    unfold deleteOne
    cases hf : fs.headD none with
    | none =>
      rw [hf] at hact
      rw [run_handle_ok hact]
      refine ⟨?_, fun _ => ⟨rfl, rfl⟩, by simp [hname]⟩
      rintro (hfalse | ⟨f, hsome, -⟩)
      · simp [hname] at hfalse
      · cases hsome
    | some f =>
      rw [hf] at hact
      rw [run_handle_error hact]
      cases hfound : f.2.isNotFound with
      | true =>
        refine ⟨?_, fun _ => ⟨rfl, rfl⟩, by simp [hname, run, Script.runLost]⟩
        rintro (hfalse | ⟨f', hsome, hraised⟩)
        · simp [hname] at hfalse
        · obtain rfl := Option.some.inj hsome
          rw [hfound] at hraised
          cases hraised
      | false =>
        refine ⟨fun _ => ⟨f.2, rfl⟩, fun h => absurd (.inr ⟨f, rfl, hfound⟩) h, ?_⟩
        simp [hname, run, fail, Script.runLost]
  · have hraise :
        NtfyCli.userDelete a.name = (fail (.value "invalid user name") : Action Unit) := by
      unfold NtfyCli.userDelete NtfyCli.checkUser
      rw [if_neg (by simpa using hname)]
      rfl
    unfold deleteOne
    rw [hraise]
    refine ⟨fun _ => ⟨_, rfl⟩, fun h => absurd (.inl (by simpa using hname)) h, ?_⟩
    rw [if_neg fun h => hname h.1]
    rfl

/-- **What the deletions leave.** They go through or raise; the user is gone if it was deleted, and
where it was not, an admin of that name is still there. -/
theorem run_deleteUsers (name : String) (users : List Account) (w : World) (fs : Outcomes) :
    (Through users fs → (run (deleteUsers users) w fs).1 = .ok () ∧
        (run (deleteUsers users) w fs).2.2 = fs.drop (calls users fs).length) ∧
      (¬ Through users fs → ∃ e, (run (deleteUsers users) w fs).1 = .error e) ∧
      (Deleted name users fs ∨ w.Absent name →
        (run (deleteUsers users) w fs).2.1.Absent name) ∧
      (¬ Deleted name users fs → w.HasAdmin name →
        (run (deleteUsers users) w fs).2.1.HasAdmin name) := by
  induction users generalizing w fs with
  | nil =>
    refine ⟨fun _ => ⟨rfl, rfl⟩, fun h => absurd (fun x hx => nomatch hx) h, ?_, fun _ h => h⟩
    rintro (⟨before, x, after, hsplit, -⟩ | habsent)
    · simp [calls] at hsplit
    · exact habsent
  | cons a rest ih =>
    cases ha : a.isReal with
    | false =>
      have hrun : run (deleteUsers (a :: rest)) w fs = run (deleteUsers rest) w fs := by
        rw [deleteUsers, ha]
        rfl
      unfold Through Deleted
      rw [hrun, calls_skipped ha]
      exact ih w fs
    | true =>
      have hstep : deleteUsers (a :: rest) = (deleteOne a).bind fun _ => deleteUsers rest := by
        rw [deleteUsers, ha]
        rfl
      obtain ⟨hraises, hok, hworld⟩ := run_deleteOne a w fs
      rw [through_cons ha, deleted_cons ha, calls_real ha, hstep]
      cases hone : run (deleteOne a) w fs with
      | mk r wfs =>
        obtain ⟨w', fs'⟩ := wfs
        rw [hone] at hraises hok hworld
        have habsent : Deletes name (a, fs.headD none) ∨ w.Absent name → w'.Absent name := by
          intro h
          rw [show w' = _ from hworld]
          split_ifs with hd
          · rcases h with ⟨rfl, -, -⟩ | h
            · exact absent_userDelete w a.name
            · exact absent_of_userDelete h
          · rcases h with ⟨rfl, hre, htook⟩ | h
            · exact absurd ⟨hre, htook⟩ hd
            · exact h
        have hadmin : ¬ Deletes name (a, fs.headD none) → w.HasAdmin name → w'.HasAdmin name := by
          intro hnot h
          rw [show w' = _ from hworld]
          split_ifs with hd
          · refine hasAdmin_userDelete (fun heq => hnot ⟨heq, ?_, hd.2⟩) h
            exact heq ▸ hd.1
          · exact h
        by_cases hr : Raises (a, fs.headD none)
        · obtain ⟨e, rfl⟩ := hraises hr
          rw [run_bind_error hone]
          refine ⟨fun h => absurd hr h.1, fun _ => ⟨e, rfl⟩, ?_, fun h hw => ?_⟩
          · rintro ((h | h) | h)
            · exact habsent (.inl h)
            · exact absurd hr h.1
            · exact habsent (.inr h)
          · exact hadmin (fun hd => h (.inl hd)) hw
        · obtain ⟨rfl, rfl⟩ := hok hr
          obtain ⟨hthrough, hstops, hgone, hstays⟩ := ih w' fs.tail
          rw [run_bind_ok hone]
          refine ⟨fun h => ?_, fun h => hstops fun ht => h ⟨hr, ht⟩, ?_, fun h hw => ?_⟩
          · obtain ⟨hres, hrest⟩ := hthrough h.2
            refine ⟨hres, hrest.trans ?_⟩
            rw [List.length_cons, ← List.drop_one, List.drop_drop, Nat.add_comm]
          · rintro ((h | h) | h)
            · exact hgone (.inr (habsent (.inl h)))
            · exact hgone (.inl h.2)
            · exact hgone (.inr (habsent (.inr h)))
          · exact hstays (fun hd => h (.inr ⟨hr, hd⟩)) (hadmin (fun hd => h (.inl hd)) hw)

/-! ## The baseline and the admin -/

/-- The operation adds nobody of that name and takes nobody's role away. -/
def Op.Spares (name : String) : Op → Prop
  | .userAdd n _ _ => n ≠ name
  | .userDelete _ | .changeRole .. => False
  | _ => True

section Spares

variable {name : String} {α : Type}

/-- The operation leaves the accounts, but for passwords and other users. -/
theorem Op.Spares.accounts {o : Op} (ho : o.Spares name) (w : World) :
    (w.HasAdmin name → (effect w o).HasAdmin name) ∧
      (w.Absent name → (effect w o).Absent name) := by
  cases o with
  | userDelete | changeRole => exact ho.elim
  | userAdd n p r =>
    constructor
    · rintro ⟨a, ha, h⟩
      exact ⟨a, List.mem_append_left _ ha, h⟩
    · intro h a ha
      rcases List.mem_append.mp ha with ha | ha
      · exact h a ha
      · rw [List.mem_singleton.mp ha]
        exact ho
  | changePass n p =>
    have hsame : ∀ a : Account, (if a.name = n then { a with password := p } else a).name = a.name ∧
        (if a.name = n then { a with password := p } else a).role = a.role := by
      intro a
      split_ifs <;> exact ⟨rfl, rfl⟩
    constructor
    · rintro ⟨a, ha, hname, hrole⟩
      exact ⟨_, List.mem_map_of_mem ha, (hsame a).1.trans hname, (hsame a).2.trans hrole⟩
    · intro h a ha
      obtain ⟨b, hb, rfl⟩ := List.mem_map.mp ha
      exact fun heq => h b hb ((hsame b).1.symm.trans heq)
  | accessSet | resetRules | backup | setUser | dropUser | setAcl | dropAcl | stashAcl | popAclStash
  | clearAll => exact ⟨id, id⟩

/-- A script that spares the admin leaves the admin there, or absent. -/
theorem run_spares {s : Action α} (hs : s.Only (Op.Spares name)) (w : World) (fs : Outcomes) :
    (w.HasAdmin name → (run s w fs).2.1.HasAdmin name) ∧
      (w.Absent name → (run s w fs).2.1.Absent name) := by
  constructor
  · refine Script.Only.runLost (I := fun w => w.HasAdmin name) hs fun o w w' ho hw => ?_
    obtain rfl := Except.ok.inj hw
    exact (ho.accounts w).1
  · refine Script.Only.runLost (I := fun w => w.Absent name) hs fun o w w' ho hw => ?_
    obtain rfl := Except.ok.inj hw
    exact (ho.accounts w).2

theorem act_spares {o : Op} (ho : o.Spares name) : (act o).Only (Op.Spares name) :=
  Script.Only.act ho

theorem checked_spares {n : String} {everyone : Bool} {s : Action α}
    (hs : s.Only (Op.Spares name)) :
    ((NtfyCli.checkUser n everyone).bind fun _ => s).Only (Op.Spares name) := by
  unfold NtfyCli.checkUser
  split_ifs
  · exact hs
  · trivial

theorem withPassword_spares {n password : String} {o : Op} (ho : o.Spares name) :
    (do NtfyCli.checkUser n false; NtfyCli.checkPassword password; act o : Action Unit).Only
      (Op.Spares name) := by
  refine checked_spares ?_
  unfold NtfyCli.checkPassword
  split_ifs
  · trivial
  · exact act_spares ho

theorem accessSet_spares {user topic : String} {permission : Permission} :
    (NtfyCli.accessSet user topic permission).Only (Op.Spares name) := by
  refine checked_spares ?_
  unfold NtfyCli.checkTopic
  split_ifs
  · trivial
  · exact act_spares trivial

theorem noting_spares {p : Progress} {s : Action α} (hs : s.Only (Op.Spares name)) :
    (noting p s).Only (Op.Spares name) := Script.Only.handle hs fun _ => trivial

theorem addUser_spares {entry : BaselineUser} (h : entry.username ≠ name) (p : Progress) :
    (addUser entry p).Only (Op.Spares name) := by
  have hadd : (NtfyCli.userAdd entry.username entry.password .user).Only (Op.Spares name) :=
    withPassword_spares (o := .userAdd _ _ _) h
  refine Script.Only.bind (Script.Only.handle (Script.Only.bind hadd fun _ => trivial) fun e => ?_)
    fun existed => ?_
  · cases e with
    | cli code message =>
      show Script.Only _ (if _ then _ else _)
      split_ifs <;> trivial
    | value | api | other => trivial
  · show Script.Only _ (if _ then _ else _)
    split_ifs
    · trivial
    · exact Script.Only.bind (noting_spares (act_spares trivial)) fun _ => trivial

theorem applyRule_spares (entry : BaselineUser) (p : Progress) :
    (applyRule entry p).Only (Op.Spares name) := by
  unfold applyRule
  dsimp only
  split
  · exact Script.Only.bind (noting_spares accessSet_spares) fun _ =>
      Script.Only.bind (noting_spares (act_spares trivial)) fun _ => trivial
  · intro w
    show Script.Only _ (if _ then _ else _)
    split_ifs
    · exact Script.Only.bind (noting_spares accessSet_spares) fun _ => trivial
    · trivial
    · trivial

theorem applyToUser_spares (options : Options) (entry : BaselineUser) (existed : Bool)
    (p : Progress) : (applyToUser options entry existed p).Only (Op.Spares name) := by
  have hreset : (resetPassword entry p).Only (Op.Spares name) :=
    Script.Only.bind (noting_spares (withPassword_spares (o := .changePass _ _) trivial))
      fun _ => trivial
  unfold applyToUser
  split_ifs
  · trivial
  · exact Script.Only.bind hreset fun _ => trivial
  · trivial
  · exact Script.Only.bind hreset fun p => applyRule_spares entry p
  · exact applyRule_spares entry p

theorem applyEntry_spares (options : Options) {entry : BaselineUser} (h : entry.username ≠ name)
    (p : Progress) : (applyEntry options entry p).Only (Op.Spares name) := by
  unfold applyEntry
  split_ifs
  · exact applyToUser_spares options entry true p
  · exact Script.Only.bind (addUser_spares h p) fun _ => applyToUser_spares options entry _ _

/-- **The baseline spares the admin.** -/
theorem applyBaseline_spares (options : Options) (unread : Option ReadError) :
    (applyBaseline options unread).Only (Op.Spares options.adminUser) := by
  have htables : (readTables unread).Only (Op.Spares options.adminUser) := by
    intro w
    simp only [Script.bind]
    split
    · trivial
    · split_ifs <;> trivial
  refine Script.Only.bind htables fun p => Script.Only.bind (Script.Only.foldlM ?_ _ _) fun p => ?_
  · intro p entry
    unfold applyNamed
    dsimp only
    split_ifs with hname
    · trivial
    · refine Script.Only.handle (applyEntry_spares options hname _) fun e => ?_
      obtain ⟨p, e⟩ := e
      cases e <;> trivial
  · refine Script.Only.bind (fun _ => trivial) fun snap =>
      Script.Only.bind (Script.Only.foldlM ?_ _ _) fun orphaned =>
        Script.Only.bind (Script.Only.foldlM ?_ _ _) fun _ => trivial
    · rintro orphaned ⟨user, origin⟩
      unfold orphanUser
      dsimp only
      split_ifs
      · exact Script.Only.bind (act_spares trivial) fun _ => trivial
      · trivial
    · rintro orphaned ⟨user, topic, origin⟩
      unfold orphanRule
      dsimp only
      split_ifs
      · exact Script.Only.bind (act_spares trivial) fun _ => trivial
      · trivial

end Spares

/-! ## The reset and the admin -/

section Reset

variable {options : Options} {w : World} {fs : Outcomes} {name : String} {α β : Type}

/-- An admin of that name stays, and so does the absence of the name. -/
def Kept (name : String) (w w' : World) : Prop :=
  (w.HasAdmin name → w'.HasAdmin name) ∧ (w.Absent name → w'.Absent name)

theorem Kept.trans {w₁ w₂ w₃ : World} (h : Kept name w₁ w₂) (h' : Kept name w₂ w₃) :
    Kept name w₁ w₃ := ⟨fun hw => h'.1 (h.1 hw), fun hw => h'.2 (h.2 hw)⟩

theorem kept_bind (s : Action α) {f : α → Action β} (hf : ∀ a, (f a).Only (Op.Spares name)) :
    Kept name (run s w fs).2.1 (run (s.bind f) w fs).2.1 := by
  rcases hrun : run s w fs with ⟨r, w', fs'⟩
  cases r with
  | ok a =>
    rw [run_bind_ok hrun]
    exact run_spares (hf a) w' fs'
  | error e =>
    rw [run_bind_error hrun]
    exact ⟨id, id⟩

theorem kept_handle (s : Action α) {k : Failure → Action α}
    (hk : ∀ e, (k e).Only (Op.Spares name)) :
    Kept name (run s w fs).2.1 (run (s.handle k) w fs).2.1 := by
  rcases hrun : run s w fs with ⟨r, w', fs'⟩
  cases r with
  | ok a =>
    rw [run_handle_ok hrun]
    exact ⟨id, id⟩
  | error e =>
    rw [run_handle_error hrun]
    exact run_spares (hk e) w' fs'

/-- `ensure_admin` adds nothing where the user is there. -/
theorem ensureAdmin_present (h : w.HasAdmin options.adminUser) :
    (run (ensureAdmin options none) w fs).2.1 = w := by
  obtain ⟨a, ha, hname, -⟩ := h
  have hexisting : (readDb none w).toOption.any (fun t =>
      t.accounts.any fun a => a.name = options.adminUser) = true := by
    cases hdb : w.db with
    | none => simp [World.accounts, World.tables, hdb] at ha
    | some t =>
      have hmem : a ∈ t.accounts := by simpa [World.accounts, World.tables, hdb] using ha
      simpa [readDb, hdb, Except.toOption] using ⟨a, hmem, hname⟩
  unfold ensureAdmin
  split_ifs
  · rfl
  · show (run (if _ then _ else _) w fs).2.1 = w
    rw [if_pos hexisting]
    rfl

variable (fs) in
/-- `ensure_admin` makes an admin where nobody has the name, if its call has its effect. -/
theorem ensureAdmin_absent (hpw : options.adminPassword ≠ "")
    (hname : usernameRe options.adminUser = true) (h : w.Absent options.adminUser) :
    (Took (fs.headD none) = true →
        (run (ensureAdmin options none) w fs).2.1.HasAdmin options.adminUser) ∧
      (Took (fs.headD none) = false →
        (run (ensureAdmin options none) w fs).2.1.Absent options.adminUser) := by
  have hexisting : (readDb none w).toOption.any (fun t =>
      t.accounts.any fun a => a.name = options.adminUser) = false := by
    cases hdb : w.db with
    | none => simp [readDb, hdb, Except.toOption]
    | some t =>
      have hall : ∀ a ∈ t.accounts, a.name ≠ options.adminUser := by
        intro a ha
        exact h a (by simpa [World.accounts, World.tables, hdb] using ha)
      simpa [readDb, hdb, Except.toOption] using hall
  have hadd : NtfyCli.userAdd options.adminUser options.adminPassword .admin =
      (act (.userAdd options.adminUser options.adminPassword .admin) : Action Unit) := by
    unfold NtfyCli.userAdd NtfyCli.checkUser NtfyCli.checkPassword
    rw [hname, if_neg hpw]
    rfl
  have hkept : Kept options.adminUser
      (run (act (.userAdd options.adminUser options.adminPassword .admin)) w fs).2.1
      (run (ensureAdmin options none) w fs).2.1 := by
    unfold ensureAdmin
    rw [if_neg hpw]
    show Kept _ _ (run (if _ then _ else _) w fs).2.1
    rw [if_neg fun hc => Bool.false_ne_true (hexisting.symm.trans hc), hadd]
    refine (kept_bind _ fun _ => ?_).trans ((kept_handle _ fun e => ?_).trans (kept_bind _
      fun created => ?_))
    · trivial
    · cases e with
      | cli code message =>
        show Script.Only _ (if _ then _ else _)
        split_ifs <;> trivial
      | value | api | other => trivial
    · show Script.Only _ (if _ then _ else _)
      split_ifs
      · exact Script.Only.bind (act_spares trivial) fun _ => trivial
      · trivial
  rw [run_act rfl] at hkept
  constructor
  · intro htook
    refine hkept.1 ?_
    rw [if_pos htook]
    exact ⟨_, List.mem_append_right _ (List.mem_singleton_self _), rfl, rfl⟩
  · intro htook
    refine hkept.2 ?_
    rw [if_neg (by rw [htook]; exact Bool.false_ne_true)]
    exact h

variable (options w fs) in
/-- The baseline keeps what `ensure_admin` leaves. -/
theorem kept_applyOptions :
    Kept options.adminUser (run (ensureAdmin options none) w fs).2.1
      (run (applyOptions options none) w fs).2.1 := by
  refine (kept_bind _ fun _ => ?_).trans ((kept_handle _ fun _ => ?_).trans (kept_bind _
    fun report => ?_))
  · trivial
  · trivial
  · exact Script.Only.handle (Script.Only.bind (applyBaseline_spares options none) fun _ => trivial)
      fun _ => trivial

variable (options w fs) in
/-- Applying the options keeps the admin, and creates it where nobody has the name. -/
theorem applyOptions_admin :
    (w.HasAdmin options.adminUser →
        (run (applyOptions options none) w fs).2.1.HasAdmin options.adminUser) ∧
      (options.adminPassword ≠ "" → usernameRe options.adminUser = true →
        w.Absent options.adminUser →
        (Took (fs.headD none) = true →
            (run (applyOptions options none) w fs).2.1.HasAdmin options.adminUser) ∧
          (Took (fs.headD none) = false →
            (run (applyOptions options none) w fs).2.1.Absent options.adminUser)) := by
  have hkept := kept_applyOptions options w fs
  constructor
  · intro h
    refine hkept.1 ?_
    rw [ensureAdmin_present h]
    exact h
  · intro hpw hname h
    obtain ⟨htook, hlost⟩ := ensureAdmin_absent fs hpw hname h
    exact ⟨fun h => hkept.1 (htook h), fun h => hkept.2 (hlost h)⟩

variable (options w fs) in
/-- The rest of a reset keeps the admin, and creates it where nobody has the name. -/
theorem startOver_admin :
    (w.HasAdmin options.adminUser →
        (run (startOver options) w fs).2.1.HasAdmin options.adminUser) ∧
      (options.adminPassword ≠ "" → usernameRe options.adminUser = true →
        w.Absent options.adminUser →
        ((run (startOver options) w fs).2.1.HasAdmin options.adminUser ↔
          fs.headD none = none ∧ Took (fs.tail.tail.headD none) = true)) := by
  have hreset := run_act (o := .resetRules none) rfl w fs
  cases hf : fs.headD none with
  | some f =>
    have hrun : run (startOver options) w fs = (.error f.2, _, fs.tail) :=
      run_bind_error (by rw [hf] at hreset; exact hreset)
    have hsame : (run (startOver options) w fs).2.1.accounts = w.accounts := by
      rw [hrun]
      dsimp only
      split_ifs <;> rfl
    constructor
    · rintro ⟨a, ha, h⟩
      exact ⟨a, hsame ▸ ha, h⟩
    · intro _ _ habsent
      refine ⟨fun ⟨a, ha, hname, _⟩ => absurd hname (habsent a (hsame ▸ ha)), ?_⟩
      rintro ⟨hnone, -⟩
      cases hnone
  | none =>
    rw [hf] at hreset
    have hclear := run_act_internal (o := .clearAll) rfl (effect w (.resetRules none)) fs.tail
    -- neither call touches the accounts
    have hrun : run (startOver options) w fs =
        run _ (effect (effect w (.resetRules none)) .clearAll) fs.tail.tail :=
      (run_bind_ok hreset).trans (run_bind_ok hclear)
    have hlast : Kept options.adminUser
        (run (applyOptions options none) (effect (effect w (.resetRules none)) .clearAll)
          fs.tail.tail).2.1 (run (startOver options) w fs).2.1 := by
      rw [hrun]
      refine kept_bind (applyOptions options none) fun _ w => ?_
      show Script.Only _ (if _ then _ else _)
      split_ifs <;> trivial
    have hmade :=
      applyOptions_admin options (effect (effect w (.resetRules none)) .clearAll) fs.tail.tail
    constructor
    · exact fun h => hlast.1 (hmade.1 h)
    · intro hpw hname habsent
      obtain ⟨htook, hlost⟩ := hmade.2 hpw hname habsent
      constructor
      · intro hadmin
        refine ⟨rfl, ?_⟩
        by_contra hnot
        exact (hlast.2 (hlost (by simpa using hnot))).not_hasAdmin hadmin
      · exact fun h => hlast.1 (htook h.2)

/-- After the deletion of the admin all deletions and the reset of the rules go through, and the
call that creates the admin has its effect. -/
def Restored (users : List Account) (fs : Outcomes) : Prop :=
  Through users fs ∧ (fs.drop (calls users fs).length).headD none = none ∧
    Took ((fs.drop ((calls users fs).length + 2)).headD none) = true

/-- What a reset deletes, and what comes after it. -/
theorem reset_deletes (hpw : options.adminPassword ≠ "") (hadmin : w.HasAdmin options.adminUser) :
    (run ((deleteUsers w.accounts).bind fun _ => startOver options) w fs).2.1.HasAdmin
        options.adminUser ↔
      (Deleted options.adminUser w.accounts fs → Restored w.accounts fs) := by
  obtain ⟨hthrough, hstops, hgone, hstays⟩ :=
    run_deleteUsers options.adminUser w.accounts w fs
  by_cases ht : Through w.accounts fs
  · obtain ⟨hok, hrest⟩ := hthrough ht
    rcases hrun : run (deleteUsers w.accounts) w fs with ⟨r, w', fs'⟩
    rw [hrun] at hok hrest hgone hstays
    obtain rfl : r = .ok () := hok
    obtain rfl : fs' = _ := hrest
    obtain ⟨hkeeps, hmakes⟩ :=
      startOver_admin options w' (fs.drop (calls w.accounts fs).length)
    rw [run_bind_ok hrun]
    by_cases hd : Deleted options.adminUser w.accounts fs
    · rw [hmakes hpw hd.usernameRe (hgone (.inl hd))]
      simp [Restored, hd, ht, ← List.drop_one, List.drop_drop]
    · exact ⟨fun _ h => absurd h hd, fun _ => hkeeps (hstays hd hadmin)⟩
  · obtain ⟨e, hraised⟩ := hstops ht
    rcases hrun : run (deleteUsers w.accounts) w fs with ⟨r, w', fs'⟩
    rw [hrun] at hraised hgone hstays
    obtain rfl : r = .error e := hraised
    rw [run_bind_error hrun]
    constructor
    · exact fun h hd => absurd h (hgone (.inl hd)).not_hasAdmin
    · intro h
      exact hstays (fun hd => ht (h hd).1) hadmin

/-- A reset whose guards hold. -/
theorem resetEverything_confirmed (hpw : options.adminPassword ≠ "") :
    resetEverything options resetPhrase =
      ensureSupported.bind fun _ => (act (.backup "reset-everything")).bind fun _ =>
        Script.bind (look World.accounts) fun users =>
          (deleteUsers users).bind fun _ => startOver options := by
  unfold resetEverything
  rw [if_neg (not_not.mpr rfl), if_neg hpw]
  rfl

/-- **When the admin survives a reset.** With another phrase, or where the backup fails, nothing is
deleted. Otherwise the admin is there afterwards exactly if it was not deleted, or if everything
behind that went through. -/
theorem reset_keeps_admin_iff (options : Options) (confirm : String) (w : World) (fs : Outcomes)
    (hpw : options.adminPassword ≠ "") (hadmin : w.HasAdmin options.adminUser) :
    (run (resetEverything options confirm) w fs).2.1.HasAdmin options.adminUser ↔
      (confirm = resetPhrase → fs.headD none = none →
        Deleted options.adminUser w.accounts fs.tail → Restored w.accounts fs.tail) := by
  by_cases hconfirm : confirm = resetPhrase
  · have hbackup := run_act (o := .backup "reset-everything") rfl w fs
    have hsupported : run ensureSupported w fs = (.ok (), w, fs) := by
      obtain ⟨a, ha, -⟩ := hadmin
      cases hdb : w.db with
      | none => simp [World.accounts, World.tables, hdb] at ha
      | some t =>
        show run (if w.db.isSome = true then _ else _) w fs = _
        rw [hdb]
        rfl
    rw [hconfirm, resetEverything_confirmed hpw, run_bind_ok hsupported]
    cases hf : fs.headD none with
    | some f =>
      rw [hf] at hbackup
      rw [run_bind_error hbackup]
      refine ⟨fun _ _ h => absurd h (Option.some_ne_none f), fun _ => ?_⟩
      dsimp only
      split_ifs <;> exact hadmin
    | none =>
      rw [hf] at hbackup
      rw [run_bind_ok hbackup]
      exact (reset_deletes hpw hadmin).trans ⟨fun h _ _ => h, fun h => h rfl rfl⟩
  · unfold resetEverything
    rw [if_pos hconfirm]
    exact ⟨fun _ h => absurd h hconfirm, fun _ => hadmin⟩

/-- Everything goes through. -/
theorem reset_keeps_admin_smooth :
    (run (resetEverything { adminPassword := "pw" } resetPhrase) sampleWorld []).2.1.HasAdmin
      "admin" :=
  (reset_keeps_admin_iff { adminPassword := "pw" } resetPhrase sampleWorld [] (by decide)
    ⟨_, List.mem_cons_self, rfl, rfl⟩).mpr fun _ _ _ =>
      ⟨by unfold Through Raises; decide +kernel, rfl, rfl⟩

/-- The admin is deleted first. The deletion of `alice` fails, and nothing creates the admin
again. -/
theorem locked_out :
    sampleWorld.HasAdmin "admin" ∧
      ¬ (run (resetEverything { adminPassword := "pw" } resetPhrase) sampleWorld
        [none, none, some (false, .cli "timeout" "ntfy did not answer")]).2.1.HasAdmin "admin" := by
  have hnames : (run (resetEverything { adminPassword := "pw" } resetPhrase) sampleWorld
      [none, none, some (false, .cli "timeout" "ntfy did not answer")]).2.1.accounts.map
        (fun a => a.name) = ["alice"] := by
    decide +kernel
  refine ⟨⟨_, List.mem_cons_self, rfl, rfl⟩, ?_⟩
  intro ⟨a, ha, hname, _⟩
  have hmem : a.name ∈ ["alice"] := hnames ▸ List.mem_map_of_mem ha
  rw [hname] at hmem
  exact absurd hmem (by decide)

end Reset

end HaAddons.Ntfy
