import HaAddons.Ntfy.AdminRemains
import HaAddons.Ntfy.Endpoints

/-!
# Services that reject

A service on users and rules validates before it writes: it is `Careful`. What comes after the first
write may still fail, but is `Silent`, which is to say that it does not reject.

* `createUser_careful`, `changePassword_careful`, `deleteUser_careful`, `changeRole_careful` and
  `setRule_careful`.
* `changePassword_ends` — the password is changed exactly where it is `PasswordTaken`.
* `changeRole_silent`, `changeRole_refused` — for a user who exists, the change of the role rejects
  exactly where it is `RoleRefused`.
-/

namespace HaAddons.Ntfy

/-! ## Conditions -/

/-- `change_password` takes the password. -/
structure PasswordTaken (w : World) (name password : String) : Prop where
  db : w.db.isSome = true
  real : name ≠ "everyone"
  wellFormed : usernameRe name = true
  user : hasUser w name = true
  nonempty : password ≠ ""
  short : password.toUTF8.size ≤ 72

/-- `change_role` refuses the role of a user who exists. -/
def RoleRefused (options : Options) (w : World) (name role : String) : Prop :=
  (role ≠ "user" ∧ role ≠ "admin") ∨
    role = "user" ∧ ∃ user, ((buildUsers options w).find? fun u => u.name = name) = some user ∧
      user.role ≠ .user ∧ user.protectedReason ≠ none

/-! ## Services on users and rules -/

section Services

/-- `apply`, where the password is stored as its hash. -/
def hashedApply (d : Ntfyd) (o : Op) (w : World) : Except Failure World :=
  .ok (effect w (o.hashed d.hash))

/-- `ioFails`, of the operations on users and rules. -/
def accountFails (o : Op) (_ : World) (e : Failure) : Prop :=
  (ApiOp.account o).isCli = false ∧ 500 ≤ e.status

variable {α β : Type} (d : Ntfyd)

/-- The script ends with `Q` or raises, but does not reject. -/
abbrev Silent (s : Action α) (w : World) (Q : α → World → Prop) : Prop :=
  s.Ends (hashedApply d) accountFails Q (fun e _ => ¬ e.Rejects) w

/-- The script rejects before its first operation only. -/
abbrev Careful (s : Action α) (w : World) : Prop :=
  s.Guarded (hashedApply d) accountFails Failure.Rejects w

variable {d} {options : Options} {w : World} {name : String} {Q : Unit → World → Prop}

theorem not_rejects {e : Failure} (he : 500 ≤ e.status) : ¬ e.Rejects := fun h =>
  absurd h.2 (Nat.not_lt.mpr he)

theorem Silent.bind {s : Action α} {f : α → Action β} {Q : β → World → Prop}
    (h : Silent d s w fun a w => Silent d (f a) w Q) : Silent d (s.bind f) w Q :=
  Script.Ends.bind h

theorem look_silent {f : World → α} {g : α → Action β} {Q : β → World → Prop}
    (h : Silent d (g (f w)) w Q) : Silent d ((look f).bind g) w Q := h

theorem act_silent {o : Op} (h : Q () (effect w (o.hashed d.hash))) : Silent d (act o) w Q := by
  refine Script.Ends.act (fun w' hw => ?_) fun e he => ?_
  · obtain rfl := Except.ok.inj hw
    exact h
  · rcases he with hfail | herr
    · exact not_rejects hfail.2
    · cases herr

theorem raise_value (message : String) (w : World) (Q : α → World → Prop) :
    Silent d (fail (.value message)) w Q :=
  not_rejects (le_refl 500)

/-! ### The adapter -/

theorem checkUser_silent {everyone : Bool} (h : Q () w) :
    Silent d (NtfyCli.checkUser name everyone) w Q := by
  unfold NtfyCli.checkUser
  split_ifs
  · exact h
  · exact raise_value _ w Q

theorem checkPassword_silent {password : String} (h : Q () w) :
    Silent d (NtfyCli.checkPassword password) w Q := by
  unfold NtfyCli.checkPassword
  split_ifs
  · exact raise_value _ w Q
  · exact h

theorem checkTopic_silent {topic : String} (h : Q () w) :
    Silent d (NtfyCli.checkTopic topic) w Q := by
  unfold NtfyCli.checkTopic
  split_ifs
  · exact raise_value _ w Q
  · exact h

theorem userAdd_silent {password : String} {role : Role}
    (h : Q () (effect w (.userAdd name (d.hash password) role))) :
    Silent d (NtfyCli.userAdd name password role) w Q :=
  .bind (checkUser_silent (.bind (checkPassword_silent (act_silent h))))

theorem userChangePass_silent {password : String}
    (h : Q () (effect w (.changePass name (d.hash password)))) :
    Silent d (NtfyCli.userChangePass name password) w Q :=
  .bind (checkUser_silent (.bind (checkPassword_silent (act_silent h))))

theorem userDelete_silent (h : Q () (effect w (.userDelete name))) :
    Silent d (NtfyCli.userDelete name) w Q :=
  .bind (checkUser_silent (act_silent h))

theorem userChangeRole_silent {role : Role} (h : Q () (effect w (.changeRole name role))) :
    Silent d (NtfyCli.userChangeRole name role) w Q :=
  .bind (checkUser_silent (act_silent h))

theorem accessSet_silent {user topic : String} {permission : Permission}
    (h : Q () (effect w (.accessSet user topic permission))) :
    Silent d (NtfyCli.accessSet user topic permission) w Q :=
  .bind (checkUser_silent (.bind (checkTopic_silent (act_silent h))))

/-! ### A user who is there -/

def World.Has (w : World) (name : String) : Prop := ∃ a ∈ w.accounts, a.name = name

theorem World.Has.update {f : Account → Account} {other : String} (h : w.Has name)
    (hf : ∀ a : Account, (f a).name = a.name) {w' : World}
    (hw : w'.accounts = updateAccount other f w.accounts) : w'.Has name := by
  obtain ⟨a, ha, rfl⟩ := h
  refine ⟨if a.name = other then f a else a, ?_, ?_⟩
  · rw [hw]
    exact List.mem_map_of_mem ha
  · split_ifs
    · exact hf a
    · rfl

theorem World.Has.changePass (h : w.Has name) (other password : String) :
    (effect w (.changePass other password)).Has name :=
  h.update (f := fun a => { a with password := password }) (fun _ => rfl) rfl

theorem World.Has.changeRole (h : w.Has name) (other : String) (role : Role) :
    (effect w (.changeRole other role)).Has name :=
  h.update (f := fun a => { a with role := role }) (fun _ => rfl) rfl

theorem has_userAdd (w : World) (name password : String) (role : Role) :
    (effect w (.userAdd name password role)).Has name :=
  ⟨⟨⟨name, role, none, false⟩, password⟩, List.mem_append_right _ List.mem_cons_self, rfl⟩

theorem exists_find_of_has (options : Options) (h : w.Has name) :
    ∃ user, ((buildUsers options w).find? fun u => u.name = name) = some user := by
  obtain ⟨a, ha, rfl⟩ := h
  refine Option.isSome_iff_exists.mp (List.find?_isSome.mpr ⟨buildUser options w a, ?_, ?_⟩)
  · exact (List.mem_insertionSort _).mpr (List.mem_map_of_mem ha)
  · exact decide_eq_true rfl

theorem has_of_find {user : User}
    (h : ((buildUsers options w).find? fun u => u.name = name) = some user) : w.Has name := by
  obtain ⟨a, ha, hname, -⟩ := exists_of_find?_buildUsers h
  exact ⟨a, ha, hname⟩

theorem getUser_found {Q : User → World → Prop} {R : Failure → World → Prop} {user : User}
    (hfind : ((buildUsers options w).find? fun u => u.name = name) = some user) (h : Q user w) :
    (getUser options name).Ends (hashedApply d) accountFails Q R w := by
  rw [getUser_eq]
  show Script.Ends _ _ _ _ (Option.elim _ _ _) w
  rw [hfind]
  exact h

theorem getUser_silent {Q : User → World → Prop} (h : w.Has name) (hQ : ∀ user, Q user w) :
    Silent d (getUser options name) w Q := by
  obtain ⟨user, hfind⟩ := exists_find_of_has options h
  exact getUser_found hfind (hQ user)

/-! ### The services -/

theorem checkRole_only {K : Op → Prop} (role : String) : (checkRole role).Only K := by
  unfold checkRole
  split_ifs <;> trivial

theorem createUser_careful (name password role : String) :
    Careful d (createUser options name password role) w := by
  refine .bind ensureSupported_only fun _ => ?_
  show Careful d ((checkNewName name).bind fun _ => _) w
  unfold checkNewName
  split_ifs
  · trivial
  refine Script.Guarded.bind (s := checkRole role) (checkRole_only role) fun r =>
    .bind (checkPassword_only password) fun _ => ?_
  show Careful d (if hasUser w name then _ else _) w
  split_ifs
  · trivial
  · refine .of_never (Silent.bind (userAdd_silent (Silent.bind (act_silent ?_))))
    have hadded := has_userAdd w name (d.hash password) r
    exact getUser_silent (w := effect (effect w _) (.setUser name .gui)) hadded fun _ => trivial

theorem changePassword_careful (name password : String) :
    Careful d (changePassword name password) w :=
  .bind ensureSupported_only fun _ => .bind (requireRealUser_only name) fun _ =>
    .bind (checkPassword_only password) fun _ => .of_never (userChangePass_silent trivial)

theorem deleteUser_careful (name confirm : String) :
    Careful d (deleteUser options name confirm) w := by
  refine .bind ensureSupported_only fun _ => .bind (requireRealUser_only name) fun _ =>
    .bind (getUser_only options name) fun user => ?_
  cases user.protectedReason with
  | some reason => trivial
  | none =>
    show Careful d (if confirm ≠ name then _ else _) w
    split_ifs
    · trivial
    · exact .of_never (.bind (act_silent (.bind (userDelete_silent (act_silent trivial)))))

theorem dropRules_silent (user : String) (rows : List (String × Permission)) (h : w.Has name) :
    Silent d (dropRules user rows) w fun _ w => w.Has name := by
  induction rows generalizing w with
  | nil => exact h
  | cons row rest ih => exact .bind (act_silent (ih h))

theorem stashRules_silent (user : String) (rows : List (String × Permission)) (h : w.Has name) :
    Silent d (stashRules user rows) w fun _ w => w.Has name :=
  look_silent (.bind (act_silent (dropRules_silent user rows h)))

theorem restoreRules_silent (user : String) (rules : List StashedRule) (h : w.Has name) :
    Silent d (restoreRules user rules) w fun _ w => w.Has name := by
  induction rules generalizing w with
  | nil => exact h
  | cons rule rest ih =>
    refine .bind (Script.Ends.handle ?_)
    refine (accessSet_silent (Q := fun _ w => w.Has name) h).mono (fun _ w h => ?_) fun e w he => ?_
    · exact Silent.bind (act_silent (ih h))
    · exact Silent.bind (act_silent he)

theorem promote_silent (h : w.Has name) : Silent d (promote options name) w fun _ _ => True := by
  have hpromoted := h.changeRole name .admin
  refine look_silent ?_
  show Silent d (if snapshotAcl w name = [] then _ else _) w _
  split_ifs
  · exact .bind (userChangeRole_silent (.bind (getUser_silent hpromoted fun _ => trivial)))
  · refine .bind (act_silent (.bind (userChangeRole_silent (.bind ?_))))
    refine (stashRules_silent name _ hpromoted).mono ?_ fun _ _ h => h
    exact fun _ w hw => Silent.bind (getUser_silent hw fun _ => trivial)

theorem demote_silent (h : w.Has name) : Silent d (demote options name) w fun _ _ => True := by
  refine .bind (userChangeRole_silent (look_silent (.bind (act_silent (.bind ?_)))))
  have hdemoted : (effect (effect w (.changeRole name .user)) (.popAclStash name)).Has name :=
    h.changeRole name .user
  refine (restoreRules_silent name _ hdemoted).mono ?_ fun _ _ h => h
  exact fun _ w hw => Silent.bind (getUser_silent hw fun _ => trivial)

theorem changeRole_careful (name role : String) :
    Careful d (changeRole options name role) w := by
  refine .bind ensureSupported_only fun _ => ?_
  refine Script.Guarded.bind (s := checkRole role) (checkRole_only role) fun r =>
    .bind (requireRealUser_only name) fun _ => ?_
  rw [getUser_eq]
  show Careful d (Script.bind (Option.elim _ _ _) _) w
  cases hfind : (buildUsers options w).find? fun u => u.name = name with
  | none => trivial
  | some user =>
    show Careful d (if user.role = r then _ else _) w
    split_ifs
    · trivial
    · split
      · trivial
      · exact .of_never (promote_silent (has_of_find hfind))
      · exact .of_never (demote_silent (has_of_find hfind))

theorem ensureSupported_silent (h : Q () w) : Silent d ensureSupported w Q := by
  show Silent d (if w.db.isSome then _ else _) w Q
  split_ifs
  · exact h
  · exact not_rejects (by decide)

theorem requireRealUser_ends {R : Failure → World → Prop} (hname : name ≠ "everyone")
    (huser : hasUser w name = true) (h : Q () w) :
    (requireRealUser name).Ends (hashedApply d) accountFails Q R w := by
  unfold requireRealUser
  rw [if_neg hname]
  show Script.Ends _ _ _ _ (if hasUser w name then _ else _) w
  rw [if_pos huser]
  exact h

/-- A role that is not refused. -/
theorem changeRole_silent {role : String} (hname : name ≠ "everyone") (huser : hasUser w name = true)
    (hhas : w.Has name) (hrole : ¬ RoleRefused options w name role) :
    Silent d (changeRole options name role) w fun _ _ => True := by
  obtain ⟨user, hfind⟩ := exists_find_of_has options hhas
  refine .bind (ensureSupported_silent (Silent.bind (s := checkRole role) ?_))
  unfold checkRole
  split_ifs with hdemoted hpromoted
  · refine Silent.bind (requireRealUser_ends hname huser (.bind (getUser_found hfind ?_)))
    show Silent d (if user.role = .user then _ else _) w _
    split_ifs with hsame
    · trivial
    · cases hp : user.protectedReason with
      | none => exact demote_silent hhas
      | some reason =>
        exact absurd (.inr ⟨hdemoted, user, hfind, hsame, by simp [hp]⟩) hrole
  · refine Silent.bind (requireRealUser_ends hname huser (.bind (getUser_found hfind ?_)))
    show Silent d (if user.role = .admin then _ else _) w _
    split_ifs
    · trivial
    · exact promote_silent hhas
  · exact absurd (.inl ⟨hdemoted, hpromoted⟩) hrole

theorem requireRuleUser_only {K : Op → Prop} (user : String) : (requireRuleUser user).Only K := by
  unfold requireRuleUser
  split_ifs
  · trivial
  · intro w
    show Script.Only _ (if hasUser w user then _ else _)
    split_ifs
    · intro w
      show Script.Only _ (if _ then _ else _)
      split_ifs <;> trivial
    · trivial

theorem checkApiTopic_only {K : Op → Prop} (topic : String) : (checkApiTopic topic).Only K := by
  unfold checkApiTopic
  split_ifs <;> trivial

theorem setRule_careful (user topic permission : String) :
    Careful d (setRule user topic permission) w := by
  refine .bind ensureSupported_only fun _ => ?_
  cases permission? permission with
  | none => trivial
  | some p =>
    refine Script.Guarded.bind (checkApiTopic_only topic) fun _ =>
      .bind (requireRuleUser_only user) fun _ => .of_never ?_
    refine look_silent (.bind (accessSet_silent (look_silent ?_)))
    cases (effect w (.accessSet user topic p)).rule? user topic with
    | none => exact not_rejects (by decide)
    | some stored => exact .bind (act_silent trivial)

/-! ### A new password -/

/-- `change_password` takes exactly such passwords. -/
theorem changePassword_ends (name password : String) :
    (changePassword name password).Ends (hashedApply d) accountFails
      (fun _ w' => PasswordTaken w name password ∧
        w' = effect w (.changePass name (d.hash password)))
      (fun _ _ => ¬ PasswordTaken w name password) w := by
  refine Script.Ends.bind ?_
  show Script.Ends _ _ _ _ (if w.db.isSome then _ else _) w
  split_ifs with hdb
  swap
  · exact fun h => hdb h.db
  refine Script.Ends.bind (s := requireRealUser name) ?_
  unfold requireRealUser
  split_ifs with hreal
  · exact fun h => h.real hreal
  show Script.Ends _ _ _ _ (if hasUser w name then _ else _) w
  split_ifs with huser
  swap
  · exact fun h => huser h.user
  refine Script.Ends.bind (s := checkPassword password) ?_
  unfold checkPassword
  split_ifs with hempty hlong
  · exact fun h => h.nonempty hempty
  · exact fun h => absurd h.short (Nat.not_le.mpr hlong)
  refine Script.Ends.bind (s := NtfyCli.checkUser name false) ?_
  unfold NtfyCli.checkUser
  split_ifs with hname
  swap
  · exact fun h => hname (by simp [h.wellFormed])
  refine Script.Ends.bind (s := NtfyCli.checkPassword password) ?_
  unfold NtfyCli.checkPassword
  rw [if_neg hempty]
  refine Script.Ends.act (fun w' hw => ?_) fun e he => ?_
  · exact ⟨⟨hdb, hreal, by simpa using hname, huser, hempty, Nat.not_lt.mp hlong⟩,
      (Except.ok.inj hw).symm⟩
  · rcases he with hfail | herr
    · exact absurd hfail.1 (by simp [ApiOp.isCli, Op.external])
    · cases herr

theorem PasswordTaken.has {password : String} (h : PasswordTaken w name password) : w.Has name := by
  obtain ⟨a, ha, hname⟩ := List.any_eq_true.mp h.user
  have hstar : name ≠ "*" := by
    rintro rfl
    exact absurd h.wellFormed (by decide)
  exact ⟨a, ha, by simpa [dbUserToApi, hstar] using hname⟩

theorem hasUser_changePass (w : World) (name other password : String) :
    hasUser (effect w (.changePass other password)) name = hasUser w name := by
  show (updateAccount other _ w.accounts).any _ = w.accounts.any _
  rw [updateAccount, List.any_map]
  congr 1
  funext a
  show decide ((if a.name = other then { a with password := password } else a).name = _) = _
  split_ifs <;> rfl

theorem admins_updateAccount (name password : String) (accounts : List Account) :
    ((updateAccount name (fun a => { a with password := password }) accounts).filter
      (·.role = .admin)).map (·.name) = (accounts.filter (·.role = .admin)).map (·.name) := by
  induction accounts with
  | nil => rfl
  | cons a rest ih =>
    by_cases ha : a.name = name <;> by_cases hrole : a.role = .admin <;>
      simp_all [updateAccount]

/-- No user shows the password. -/
theorem buildUsers_changePass (options : Options) (w : World) (name password : String) :
    buildUsers options (effect w (.changePass name password)) = buildUsers options w := by
  have hrow : ∀ a : Account, buildUser options (effect w (.changePass name password))
      (if a.name = name then { a with password := password } else a) = buildUser options w a := by
    intro a
    have hadmins : ((effect w (.changePass name password)).accounts.filter
        (·.role = .admin)).map (·.name) = (w.accounts.filter (·.role = .admin)).map (·.name) :=
      admins_updateAccount name password w.accounts
    unfold buildUser protection
    rw [hadmins]
    split_ifs <;> rfl
  have hmap : (effect w (.changePass name password)).accounts.map
      (buildUser options (effect w (.changePass name password))) =
        w.accounts.map (buildUser options w) := by
    show (updateAccount name _ w.accounts).map _ = _
    rw [updateAccount, List.map_map]
    exact List.map_congr_left fun a _ => hrow a
  rw [buildUsers, hmap]
  rfl

theorem roleRefused_changePass {user password role : String} :
    RoleRefused options (effect w (.changePass user password)) name role ↔
      RoleRefused options w name role := by
  rw [RoleRefused, buildUsers_changePass]
  rfl

/-- A role that is refused. -/
theorem changeRole_refused {role : String} (hdb : w.db.isSome = true) (hname : name ≠ "everyone")
    (huser : hasUser w name = true) (hrole : RoleRefused options w name role) :
    (changeRole options name role).Ends (hashedApply d) accountFails (fun _ _ => False)
      (fun e w' => e.Rejects ∧ w' = w) w := by
  refine Script.Ends.bind ?_
  show Script.Ends _ _ _ _ (if w.db.isSome then _ else _) w
  rw [if_pos hdb]
  refine Script.Ends.bind (s := checkRole role) ?_
  unfold checkRole
  rcases hrole with ⟨hnu, hna⟩ | ⟨rfl, user, hfind, hrole, hp⟩
  · rw [if_neg hnu, if_neg hna]
    exact ⟨by decide, rfl⟩
  · rw [if_pos rfl]
    refine Script.Ends.bind (requireRealUser_ends hname huser (.bind (getUser_found hfind ?_)))
    rw [if_neg hrole]
    obtain ⟨reason, hreason⟩ := Option.ne_none_iff_exists'.mp hp
    rw [hreason]
    exact ⟨(by decide : 400 ≤ errorStatus "protected" ∧ errorStatus "protected" < 500), rfl⟩

/-- A new password is a change. -/
theorem changePass_ne {a : Account} {password : String} (ha : a ∈ w.accounts)
    (hnew : a.password ≠ password) : effect w (.changePass a.name password) ≠ w := by
  intro heq
  have hmem : a ∈ updateAccount a.name (fun b => { b with password := password }) w.accounts := by
    have : a ∈ (effect w (.changePass a.name password)).accounts := by rw [heq]; exact ha
    exact this
  obtain ⟨b, -, hb⟩ := List.mem_map.mp hmem
  split_ifs at hb with hname
  · exact hnew (by rw [← hb])
  · exact hname (by rw [← hb])

end Services

end HaAddons.Ntfy
