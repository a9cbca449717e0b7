import HaAddons.Ntfy.Rejection

/-!
# What a rejected request changes

The handlers read the request, which changes nothing, and call one service. `patch_user` calls two of
them one after the other: the password is changed before the role is looked at.

* `unchanged_iff` — a rejected request changes nothing, whatever ntfy draws and whatever else fails,
  unless it is `HalfDone`: a `PATCH` with a password that is taken and a role that is refused.
* `half_done_alice` — such a request.
-/

namespace HaAddons.Ntfy

open AdminUi (Text)

/-! ## The condition -/

/-- The body has a password and a role, and nothing else. -/
def TwoFields (q : ApiRequest) (password role : String) : Prop :=
  ∃ fields, q.json = some (.obj fields) ∧
    let body : Dict String Json := fields.foldl (fun d e => d.insert e.1 e.2) .empty
    (∀ k ∈ body.keys, k = "password" ∨ k = "role") ∧
      body.get? "password" = some (.str password) ∧ body.get? "role" = some (.str role)

/-- A `PATCH` of a user with a password that is taken and a role that is refused. -/
def HalfDone (options : Options) (unquote : Text → String) (c : ApiCall) (w : ApiWorld) : Prop :=
  ∃ q password role, c.target unquote = .ok (.patchUser, q) ∧ TwoFields q password role ∧
    PasswordTaken w.world (q.param "name") password ∧
      RoleRefused options w.world (q.param "name") role

/-! ## Services in a handler -/

section Handlers

variable {α β : Type} (d : Ntfyd)

/-- The script rejects before its first operation only. -/
abbrev Unchanging (s : ApiAction α) (w : ApiWorld) : Prop :=
  s.Guarded (apiApply d) (fun o w e => ioFails o w e = true) Failure.Rejects w

/-- The script does not reject. -/
abbrev Unrejecting (s : ApiAction α) (w : ApiWorld) (Q : α → ApiWorld → Prop) : Prop :=
  s.Ends (apiApply d) (fun o w e => ioFails o w e = true) Q (fun e _ => ¬ e.Rejects) w

/-- The script runs no operation. -/
abbrev Reads (s : ApiAction α) : Prop := s.Only fun _ => False

variable {d} {options : Options} {w : ApiWorld} {q : ApiRequest}

theorem world_ofWorld {v : World} {tokens : List StoredToken}
    (h : ∀ t, v.db = some t → t.tokens = tokens.map StoredToken.user) :
    (ApiWorld.ofWorld v tokens).world = v := by
  obtain ⟨db, origins⟩ := v
  cases db with
  | none => rfl
  | some t =>
    show World.mk (some ⟨t.accounts, t.rules, tokens.map StoredToken.user⟩) origins = _
    rw [← h t rfl]

theorem tokens_world (w : ApiWorld) : w.world.tables.tokens = w.tokens.map StoredToken.user := by
  obtain ⟨db, origins⟩ := w
  cases db <;> rfl

theorem world_account (d : Ntfyd) (w : ApiWorld) (o : Op) :
    (apiEffect d w (.account o)).world = effect w.world (o.hashed d.hash) := by
  refine world_ofWorld fun t ht => ?_
  have hkept : (effect w.world (o.hashed d.hash)).tables.tokens =
      (tokensAfter w.tokens o).map StoredToken.user := by
    cases o with
    | userDelete name =>
      show w.world.tables.tokens.filter (· ≠ name) = _
      rw [tokens_world, List.filter_map]
      rfl
    | userAdd | changePass | changeRole | accessSet | resetRules | backup | setUser | dropUser
    | setAcl | dropAcl | stashAcl | popAclStash | clearAll => exact tokens_world w
  rw [← hkept, World.tables, ht]
  rfl

/-- **What the services see** of the API's world. -/
theorem account_embeds (d : Ntfyd) : Script.Embeds (hashedApply d) (apiApply d) accountFails
    (fun o w e => ioFails o w e = true) ApiOp.account ApiWorld.world where
  ok o w w' h := by
    obtain rfl := Except.ok.inj h
    rw [world_account]
    rfl
  error o w e h := by
    rcases h with hfail | herr
    · exact .inl (by simpa [ioFails, accountFails] using hfail)
    · cases herr

theorem Unchanging.lift {s : Action α} (h : Careful d s w.world) : Unchanging d (lift s) w :=
  Script.Guarded.embed (account_embeds d) h

theorem Reads.lift {s : Action α} (h : s.Only fun _ => False) : Reads (lift s) :=
  Script.Only.embed h

/-- A handler that answers with what a careful service returns. -/
theorem Unchanging.returning {s : ApiAction α} {f : α → β} (h : Unchanging d s w) :
    Unchanging d (s.bind fun a => .done (f a)) w :=
  Script.Guarded.followed h (.of_forall (fun _ _ => trivial) fun _ _ => trivial)

theorem apiAct_unrejecting {o : ApiOp} {Q : Unit → ApiWorld → Prop} (h : Q () (apiEffect d w o)) :
    Unrejecting d (apiAct o) w Q := by
  refine Script.Ends.act (fun w' hw => ?_) fun e he => ?_
  · obtain rfl := Except.ok.inj hw
    exact h
  · rcases he with hfail | herr
    · exact not_rejects (by simpa using (Bool.and_eq_true_iff.mp hfail).2)
    · cases herr

/-! ## Reading a request -/

theorem body_reads (q : ApiRequest) : Reads q.body := by
  unfold ApiRequest.body
  split <;> trivial

theorem strictBody_reads (q : ApiRequest) (allowed : List String) :
    Reads (strictBody q allowed) := by
  refine Script.Only.bind (body_reads q) fun body => ?_
  split <;> trivial

theorem stringField_reads (body : Dict String Json) (key : String) :
    Reads (stringField body key) := by
  unfold stringField
  split <;> trivial

theorem requiredString_reads (body : Dict String Json) (key : String) :
    Reads (requiredString body key) := by
  refine Script.Only.bind (stringField_reads body key) fun s => ?_
  split <;> trivial

theorem aclField_reads (body : Dict String Json) (key : String) : Reads (aclField body key) := by
  unfold aclField
  split
  · split_ifs <;> trivial
  · trivial

theorem requiredArg_reads (q : ApiRequest) (name : String) : Reads (requiredArg q name) := by
  unfold requiredArg
  split <;> trivial

theorem textField_reads (body : Dict String Json) (name : String) :
    Reads (textField body name) := by
  unfold textField
  split <;> trivial

theorem requiredText_reads (body : Dict String Json) (name : String) :
    Reads (requiredText body name) := by
  unfold requiredText
  split
  · trivial
  · trivial
  · split_ifs <;> trivial
  · trivial

theorem listUsers_reads (options : Options) : Reads (lift (listUsers options)) :=
  .lift (Script.Only.bind ensureSupported_only fun _ _ => trivial)

theorem listRules_reads (user topic : Option String) : Reads (lift (listRules user topic)) :=
  .lift (Script.Only.bind ensureSupported_only fun _ _ => trivial)

theorem tokenMeta_reads (origins : Origins) (row : StoredToken) :
    Reads (tokenMeta origins row) := by
  unfold tokenMeta
  dsimp only
  split_ifs
  · trivial
  · split <;> trivial

theorem tokenMetas_reads (origins : Origins) (rows : List StoredToken) :
    Reads (tokenMetas origins rows) := by
  induction rows with
  | nil => trivial
  | cons row rows ih =>
    exact (tokenMeta_reads origins row).bind fun _ => Script.Only.bind ih fun _ => trivial

theorem listTokens_reads (user : Option String) : Reads (listTokens user) :=
  Script.Only.bind (Reads.lift ensureSupported_only) fun _ _ _ => tokenMetas_reads _ _

/-! ## Handlers -/

variable (options q)

theorem createUserHandler_unchanging : Unchanging d (createUserHandler options q) w :=
  .bind (strictBody_reads q _) fun body => .bind (requiredString_reads body _) fun name =>
    .bind (requiredString_reads body _) fun password => .bind (stringField_reads body _) fun _ =>
      Unchanging.returning (.lift (createUser_careful name password _))

theorem deleteUserHandler_unchanging : Unchanging d (deleteUserHandler options q) w :=
  .bind (strictBody_reads q _) fun body => .bind (stringField_reads body _) fun _ =>
    Unchanging.returning (.lift (deleteUser_careful _ _))

theorem putAcl_unchanging : Unchanging d (putAcl q) w :=
  .bind (strictBody_reads q _) fun body => .bind (aclField_reads body _) fun user =>
    .bind (aclField_reads body _) fun topic => .bind (aclField_reads body _) fun permission =>
      Unchanging.returning (.lift (setRule_careful user topic permission))

theorem accessReset_unrejecting {user topic : String} {Q : Unit → ApiWorld → Prop}
    (h : Q () (apiEffect d w (.accessReset user topic))) :
    Unrejecting d (accessReset user topic) w Q := by
  unfold accessReset NtfyCli.checkUser NtfyCli.checkTopic
  split_ifs
  · exact not_rejects (le_refl 500)
  · exact apiAct_unrejecting h
  · exact not_rejects (le_refl 500)
  · exact not_rejects (le_refl 500)

theorem removeRule_unchanging (user topic : String) : Unchanging d (removeRule user topic) w := by
  refine .bind (Reads.lift ensureSupported_only) fun _ => .bind (Reads.lift (checkApiTopic_only topic))
    fun _ => ?_
  show Unchanging d (if (w.world.rule? user topic).isSome then _ else _) w
  split_ifs
  · exact .of_never (.bind (accessReset_unrejecting (apiAct_unrejecting trivial)))
  · trivial

theorem deleteAcl_unchanging : Unchanging d (deleteAcl q) w :=
  .bind (requiredArg_reads q _) fun user => .bind (requiredArg_reads q _) fun topic =>
    Unchanging.returning (removeRule_unchanging user topic)

theorem requireTokenUser_only {K : Op → Prop} (user : String) : (requireTokenUser user).Only K := by
  unfold requireTokenUser
  split_ifs
  · trivial
  · intro w
    show Script.Only _ (if _ then _ else _)
    split_ifs <;> trivial

/-- A command that comes after the adapter's checks. -/
theorem orBadRequest_unchanging {o : ApiOp} (ho : o.isCli = true) :
    Unchanging d (orBadRequest (apiAct o)) w := by
  refine ⟨fun _ _ => trivial, fun e he => ?_⟩
  rcases he with hfail | herr
  · simp [ioFails, ho] at hfail
  · cases herr

theorem tokenAdd_unchanging (user : String) (label expires : Option String) :
    Unchanging d (orBadRequest (tokenAdd user label expires)) w := by
  unfold tokenAdd NtfyCli.checkUser
  split_ifs
  · trivial
  · trivial
  · exact orBadRequest_unchanging (o := .tokenAdd user _ expires) rfl
  · trivial
  · trivial
  · trivial

theorem tokenMeta_unrejecting (origins : Origins) (row : StoredToken)
    {Q : TokenMeta → ApiWorld → Prop} (h : ∀ m, Q m w) : Unrejecting d (tokenMeta origins row) w Q := by
  unfold tokenMeta
  dsimp only
  split_ifs
  · exact h _
  · split
    · exact h _
    · exact not_rejects (le_refl 500)

theorem createToken_unchanging (user : String) (label expires : Option String) :
    Unchanging d (createToken d user label expires) w := by
  refine .bind (Reads.lift ensureSupported_only) fun _ => .bind (Reads.lift (requireTokenUser_only user))
    fun _ => ?_
  show Unchanging d (if _ then _ else _) w
  split_ifs
  · trivial
  · trivial
  · refine Script.Guarded.followed (tokenAdd_unchanging user _ _)
      (.of_forall (fun _ w => ?_) fun _ _ => trivial)
    refine Script.Ends.bind (apiAct_unrejecting (Script.Ends.get ?_))
    split
    · exact not_rejects (by decide)
    · exact Script.Ends.get (Script.Ends.bind (tokenMeta_unrejecting _ _ fun _ => trivial))

theorem tokenRemove_unchanging (user token : String) :
    Unchanging d (orBadRequest (tokenRemove user token)) w := by
  unfold tokenRemove NtfyCli.checkUser
  split_ifs
  · exact orBadRequest_unchanging (o := .tokenRemove user token) rfl
  · trivial
  · trivial
  · trivial

theorem createTokenHandler_unchanging : Unchanging d (createTokenHandler d q) w :=
  .bind (body_reads q) fun body => .bind (requiredText_reads body _) fun user =>
    .bind (textField_reads body _) fun label => .bind (textField_reads body _) fun expires =>
      Unchanging.returning (createToken_unchanging user label expires)

theorem revealToken_reads (user id : String) : Reads (revealToken user id) := by
  refine Script.Only.bind (Reads.lift ensureSupported_only) fun _ => fun w => ?_
  simp only [Script.bind]
  split <;> trivial

theorem revealTokenHandler_reads : Reads (revealTokenHandler q) :=
  Script.Only.bind (body_reads q) fun body => Script.Only.bind (requiredText_reads body _)
    fun user => Script.Only.bind (requiredText_reads body _) fun id =>
      Script.Only.bind (revealToken_reads user id) fun _ => trivial

theorem revokeToken_unchanging (user id : String) : Unchanging d (revokeToken user id) w := by
  refine .bind (Reads.lift ensureSupported_only) fun _ => ?_
  show Unchanging d ((Script.done (tokenValue w user id)).bind _) w
  simp only [Script.bind]
  split
  · trivial
  · exact Script.Guarded.followed (tokenRemove_unchanging user _)
      (.of_forall (fun _ _ => apiAct_unrejecting trivial) fun _ _ => trivial)

theorem revokeTokenHandler_unchanging : Unchanging d (revokeTokenHandler q) w := by
  unfold revokeTokenHandler
  split
  · exact Unchanging.returning (revokeToken_unchanging _ _)
  · trivial

theorem userDetail_reads : Reads (userDetail options q) := by
  refine Script.Only.bind (listUsers_reads options) fun users => ?_
  split
  · trivial
  · intro w w'
    exact (tokenMetas_reads _ _).bind fun tokens =>
      Script.Only.bind (listRules_reads _ _) fun _ => trivial

/-! ## The two halves of `patch_user` -/

theorem patchRole_unchanging (name : String) (role : Option String) :
    Unchanging d (patchRole options name role) w := by
  cases role with
  | some role => exact Unchanging.returning (.lift (changeRole_careful name role))
  | none =>
    refine .of_only (Script.Only.bind (listUsers_reads options) fun users => ?_)
    split <;> trivial

/-- Without a role, the second half only looks. -/
theorem patchRole_none (name : String) :
    Unrejecting d (patchRole options name none) w fun _ _ => True := by
  have hlist : Silent d (listUsers options) w.world fun _ _ => True :=
    .bind (ensureSupported_silent trivial)
  refine Script.Ends.bind ((hlist.embed (account_embeds d)).mono (fun users w _ => ?_)
    fun _ _ h => h)
  split
  · exact not_rejects (le_refl 500)
  · trivial

theorem strictBody_done {q : ApiRequest} (allowed : List String) {body : Dict String Json}
    (hbody : q.body = .done body) : (∃ e, strictBody q allowed = .raise e) ∨
      strictBody q allowed = .done body ∧ ∀ k ∈ body.keys, k ∈ allowed := by
  unfold strictBody
  rw [hbody]
  simp only [Script.bind_eq, Script.bind]
  cases hunknown : (body.keys.filter fun k => !allowed.contains k).insertionSort (· ≤ ·) with
  | cons key rest => exact .inl ⟨_, rfl⟩
  | nil =>
    refine .inr ⟨rfl, fun k hk => ?_⟩
    by_contra hnot
    have hmem : k ∈ body.keys.filter fun k => !allowed.contains k :=
      List.mem_filter.mpr ⟨hk, by simpa using hnot⟩
    rw [← List.mem_insertionSort (· ≤ ·), hunknown] at hmem
    cases hmem

theorem strictBody_allowed {q : ApiRequest} {allowed : List String} {body : Dict String Json}
    (hbody : q.body = .done body) (h : ∀ k ∈ body.keys, k ∈ allowed) :
    strictBody q allowed = .done body := by
  unfold strictBody
  have hnone : (body.keys.filter fun k => !allowed.contains k) = [] := by
    rw [List.filter_eq_nil_iff]
    intro k hk
    simp [h k hk]
  simp only [hbody, Script.bind_eq, Script.bind, hnone]
  rfl

theorem strictBody_cases (q : ApiRequest) (allowed : List String) :
    (∃ e, strictBody q allowed = .raise e) ∨ ∃ body, strictBody q allowed = .done body ∧
      (∀ k ∈ body.keys, k ∈ allowed) ∧ (body.entries = [] ∨ ∃ fields, q.json = some (.obj fields) ∧
        body = fields.foldl (fun d e => d.insert e.1 e.2) .empty) := by
  have hread : (∃ e, q.body = .raise e) ∨ ∃ body, q.body = .done body ∧ (body.entries = [] ∨
      ∃ fields, q.json = some (.obj fields) ∧
        body = fields.foldl (fun d e => d.insert e.1 e.2) .empty) := by
    unfold ApiRequest.body
    split
    · exact .inr ⟨.empty, rfl, .inl rfl⟩
    · exact .inr ⟨.empty, rfl, .inl rfl⟩
    · exact .inr ⟨_, rfl, .inr ⟨_, by assumption, rfl⟩⟩
    · exact .inl ⟨_, rfl⟩
  rcases hread with ⟨e, he⟩ | ⟨body, hbody, hfields⟩
  · refine .inl ⟨e, ?_⟩
    unfold strictBody
    rw [he]
    rfl
  · rcases strictBody_done allowed hbody with herr | ⟨hdone, hkeys⟩
    · exact .inl herr
    · exact .inr ⟨body, hdone, hkeys, hfields⟩

theorem stringField_cases (body : Dict String Json) (key : String) :
    (∃ e, stringField body key = .raise e) ∨ stringField body key = .done none ∨
      ∃ s, stringField body key = .done (some s) ∧ body.get? key = some (.str s) := by
  unfold stringField
  split
  · exact .inr (.inl rfl)
  · exact .inr (.inr ⟨_, rfl, by assumption⟩)
  · exact .inl ⟨_, rfl⟩

/-- Both halves, where the second does not refuse what the first has begun. -/
theorem patchUser_both {name password role : String}
    (h : PasswordTaken w.world name password → ¬ RoleRefused options w.world name role) :
    Unchanging d ((lift (changePassword name password)).bind fun _ =>
      patchRole options name (some role)) w := by
  refine Script.Guarded.followed (Unchanging.lift (changePassword_careful name password)) ?_
  have hchange := (changePassword_ends (d := d) (w := w.world) name password).embed
    (account_embeds d)
  refine hchange.mono (fun _ w' hw => ?_) fun _ _ _ => trivial
  obtain ⟨htaken, hw⟩ := hw
  have hsilent : Silent d (changeRole options name role) w'.world fun _ _ => True := by
    rw [hw]
    refine changeRole_silent htaken.real ?_ (htaken.has.changePass _ _) ?_
    · rw [hasUser_changePass]
      exact htaken.user
    · rw [roleRefused_changePass]
      exact h htaken
  exact Script.Ends.bind ((hsilent.embed (account_embeds d)).mono (fun _ _ _ => trivial)
    fun _ _ h => h)

/-- The body has these two fields, or it does not and the handler calls one service at most. -/
theorem patchUser_unchanging (h : ∀ password role, TwoFields q password role →
      PasswordTaken w.world (q.param "name") password →
      ¬ RoleRefused options w.world (q.param "name") role) :
    Unchanging d (patchUser options q) w := by
  unfold patchUser
  rcases strictBody_cases q ["password", "role"] with ⟨e, hbody⟩ | ⟨body, hbody, hkeys, hfields⟩
  · rw [hbody]
    trivial
  rw [hbody]
  show Unchanging d (if body.entries = [] then _ else _) w
  split_ifs with hempty
  · trivial
  obtain ⟨fields, hjson, hfold⟩ := hfields.resolve_left hempty
  rcases stringField_cases body "password" with ⟨e, hp⟩ | hp | ⟨password, hp, hpassword⟩
  · rw [hp]
    trivial
  · rw [hp]
    show Unchanging d ((stringField body "role").bind fun role => patchRole options _ role) w
    exact .bind (stringField_reads body "role") fun role => patchRole_unchanging options _ role
  · rw [hp]
    rcases stringField_cases body "role" with ⟨e, hr⟩ | hr | ⟨role, hr, hrole⟩
    · rw [hr]
      trivial
    · rw [hr]
      show Unchanging d ((lift (changePassword _ password)).bind fun _ =>
        patchRole options _ none) w
      exact Script.Guarded.followed (Unchanging.lift (changePassword_careful _ _))
        (.of_forall (fun _ _ => patchRole_none options _) fun _ _ => trivial)
    · rw [hr]
      have htwo : TwoFields q password role := by
        refine ⟨fields, hjson, fun k hk => ?_, ?_, ?_⟩
        · exact by simpa using hkeys k (hfold ▸ hk)
        · exact hfold ▸ hpassword
        · exact hfold ▸ hrole
      exact patchUser_both options (h password role htwo)

/-- A password that is taken and a role that is refused. -/
theorem patchUser_half {password role : String} (htwo : TwoFields q password role)
    (htaken : PasswordTaken w.world (q.param "name") password)
    (hrefused : RoleRefused options w.world (q.param "name") role)
    (hnew : effect w.world (.changePass (q.param "name") (d.hash password)) ≠ w.world) :
    (patchUser options q).Ends (apiApply d) (fun o w e => ioFails o w e = true)
      (fun _ _ => False) (fun e w' => e.Rejects ∧ w' ≠ w) w := by
  obtain ⟨fields, hjson, hkeys, hpassword, hrole⟩ := htwo
  generalize hbody : (fields.foldl (fun d e => d.insert e.1 e.2) .empty : Dict String Json) = body
    at hkeys hpassword hrole
  have hread : q.body = .done body := by
    rw [ApiRequest.body, hjson, ← hbody]
    rfl
  have hallowed : ∀ k ∈ body.keys, k ∈ ["password", "role"] := fun k hk => by
    simpa using hkeys k hk
  have hnonempty : body.entries ≠ [] := by
    intro hempty
    rw [Dict.get?, hempty] at hpassword
    cases hpassword
  have hfields : stringField body "password" = .done (some password) ∧
      stringField body "role" = .done (some role) := by
    rw [stringField, stringField, hpassword, hrole]
    exact ⟨rfl, rfl⟩
  unfold patchUser
  rw [strictBody_allowed hread hallowed]
  show Script.Ends _ _ _ _ (if body.entries = [] then _ else _) w
  rw [if_neg hnonempty, hfields.1, hfields.2]
  show Script.Ends _ _ _ _ ((lift (changePassword _ password)).bind fun _ =>
    patchRole options _ (some role)) w
  have hchange := (changePassword_ends (d := d) (w := w.world) (q.param "name") password).embed
    (account_embeds d)
  refine Script.Ends.bind (hchange.mono (fun _ w' hw => ?_) fun _ _ hnot => absurd htaken hnot)
  obtain ⟨-, hw⟩ := hw
  have hrefuses : (changeRole options (q.param "name") role).Ends (hashedApply d) accountFails
      (fun _ _ => False) (fun e v => e.Rejects ∧ v = w'.world) w'.world := by
    refine changeRole_refused ?_ htaken.real ?_ ?_
    · rw [hw]
      rfl
    · rw [hw, hasUser_changePass]
      exact htaken.user
    · rw [hw, roleRefused_changePass]
      exact hrefused
  refine Script.Ends.bind ((hrefuses.embed (account_embeds d)).mono (fun _ _ h => h.elim)
    fun e v hv => ⟨hv.1, fun hsame => hnew ?_⟩)
  rw [← hw, ← hv.2, hsame]

/-! ## All requests -/

variable (c : ApiCall) (unquote : Text → String)

theorem answer_unchanging (h : ¬ HalfDone options unquote c w) :
    Unchanging d (answer options unquote d c) w := by
  unfold answer
  cases htarget : c.target unquote with
  | error e => cases e <;> trivial
  | ok target =>
    obtain ⟨endpoint, q⟩ := target
    cases endpoint with
    | listUsers => exact .of_only (Script.Only.bind (listUsers_reads options) fun _ => trivial)
    | createUser => exact createUserHandler_unchanging options q
    | userDetail => exact .of_only (userDetail_reads options q)
    | patchUser =>
      refine patchUser_unchanging options q fun password role htwo htaken hrefused => ?_
      exact h ⟨q, password, role, htarget, htwo, htaken, hrefused⟩
    | deleteUser => exact deleteUserHandler_unchanging options q
    | listAcl => exact .of_only (Script.Only.bind (listRules_reads _ _) fun _ => trivial)
    | putAcl => exact putAcl_unchanging q
    | deleteAcl => exact deleteAcl_unchanging q
    | listTokens => exact .of_only (Script.Only.bind (listTokens_reads _) fun _ => trivial)
    | createToken => exact createTokenHandler_unchanging q
    | revealToken => exact .of_only (revealTokenHandler_reads q)
    | revokeToken => exact revokeTokenHandler_unchanging q

/-- **A rejected request changes nothing** unless it is half done. -/
theorem unchanged_iff (w : ApiWorld) :
    (∀ d fs e w', (answer options unquote d c).evalAmong (apiApply d) ioFails w fs =
      (.error e, w') → e.Rejects → w' = w) ↔ ¬ HalfDone options unquote c w := by
  constructor
  · rintro h ⟨q, password, role, htarget, htwo, htaken, hrefused⟩
    obtain ⟨a, ha, hname⟩ := htaken.has
    have hlonger : a.password ≠ a.password ++ "+" := by
      intro heq
      simpa using congrArg String.length heq
    let d : Ntfyd := ⟨fun _ => a.password ++ "+", "", 0, 0⟩
    have hnew : effect w.world (.changePass (q.param "name") (d.hash password)) ≠ w.world := by
      rw [← hname]
      exact changePass_ne ha hlonger
    have hends := (patchUser_half (d := d) options q htwo htaken hrefused hnew).evalAmong []
    have hanswer : answer options unquote d c = patchUser options q := by
      rw [answer, htarget]
      rfl
    cases hrun : (patchUser options q).evalAmong (apiApply d) ioFails w [] with
    | mk result w' =>
      rw [hrun] at hends
      cases result with
      | ok a => exact hends
      | error e => exact hends.2 (h d [] e w' (by rw [hanswer]; exact hrun) hends.1)
  · intro h d fs e w' hrun he
    have hends := (answer_unchanging (d := d) options c unquote h).ends.evalAmong fs
    rw [hrun] at hends
    exact hends he

end Handlers

/-- A new password with a role that does not exist. -/
def patchAlice : ApiCall where
  method := "PATCH".toList
  path := "/api/users/alice".toList
  arg := fun _ => none
  json := some (.obj [("password", .str "new"), ("role", .str "owner")])

/-- The answer is a 400, and the password is changed. -/
theorem half_done_alice : ¬ ∀ (d : Ntfyd) (fs : List (Option Failure)) (e : Failure) (w' : ApiWorld),
    (answer {} String.ofList d patchAlice).evalAmong (apiApply d) ioFails
      (.ofWorld sampleWorld []) fs = (.error e, w') → e.Rejects → w' = .ofWorld sampleWorld [] := by
  intro h
  let d : Ntfyd := ⟨fun p => "$2a$10$" ++ p, "", 0, 0⟩
  have hrun : (answer {} String.ofList d patchAlice).evalAmong (apiApply d) ioFails
      (.ofWorld sampleWorld []) [] =
        (.error (.api ⟨"bad_request", "role must be user or admin"⟩),
          .ofWorld (effect sampleWorld (.changePass "alice" (d.hash "new"))) []) := by
    rfl
  have hsame := h d [] _ _ hrun (by decide)
  exact absurd hsame (by decide)

end HaAddons.Ntfy
