import HaAddons.Ntfy.Baseline

/-!
# What the baseline owns

The rules the options own stay theirs while an entry names them, and what others own is left alone,
whatever calls of the command line fail.

* `ownership_kept` — both, where the failures spare the user of the entry.
* `ownership_lost` — a call that fails before the entry has named its rule, and a password that is
  set again.
-/

namespace HaAddons.Ntfy

/-! ## Accounts of a name -/

def accountsOf (w : World) (name : String) : List Account :=
  w.accounts.filter fun a => a.name = name

/-- The accounts of a name without their passwords. -/
def rowsOf (w : World) (name : String) : List UserRow := (accountsOf w name).map Account.toUserRow

variable {w : World}

theorem accountsOf_userAdd {name other password : String} (h : other ≠ name) (role : Role) :
    accountsOf (effect w (.userAdd name password role)) other = accountsOf w other := by
  show (w.tables.accounts ++ [_]).filter _ = w.tables.accounts.filter _
  rw [List.filter_append, List.filter_singleton]
  simp [Ne.symm h]

/-- Where a password is set, names stay. -/
theorem accountsOf_changePass (name other password : String) :
    accountsOf (effect w (.changePass name password)) other =
      updateAccount name (fun a => { a with password := password }) (accountsOf w other) := by
  show (updateAccount name _ w.tables.accounts).filter _ = updateAccount name _ _
  unfold updateAccount
  rw [List.filter_map]
  congr 1
  refine List.filter_congr fun a _ => ?_
  by_cases h : a.name = name <;> simp [h]

theorem rowsOf_changePass (name other password : String) :
    rowsOf (effect w (.changePass name password)) other = rowsOf w other := by
  unfold rowsOf
  rw [accountsOf_changePass, updateAccount, List.map_map]
  refine List.map_congr_left fun a _ => ?_
  by_cases h : a.name = name <;> simp [h]

theorem accountsOf_changePass_of_ne {name other : String} (h : other ≠ name) (password : String) :
    accountsOf (effect w (.changePass name password)) other = accountsOf w other := by
  rw [accountsOf_changePass, updateAccount]
  refine (List.map_congr_left fun a ha => ?_).trans (List.map_id _)
  have hother : a.name = other := by simpa using (List.mem_filter.mp ha).2
  exact if_neg fun hc => h (hother.symm.trans hc)

/-! ## What an entry may change -/

/-- Nobody but the options has the rule, and it is there or no entry is about it. -/
def Settled (options : Options) (p : Progress) (w : World) (user topic : String) : Prop :=
  w.origins.getAcl user topic ≠ .options ∧
    ((p.rules.get? (user, topic)).isSome ∨ ∀ e ∈ options.baselineUsers, e.key ≠ (user, topic))

/-- The user is there, or no entry is about it. -/
def Present (options : Options) (p : Progress) (name : String) : Prop :=
  (p.roles.get? name).isSome ∨ ∀ e ∈ options.baselineUsers, e.username ≠ name

/-- No password of the user is set again. -/
def Quiet (options : Options) (name : String) : Prop :=
  options.baselineOverwritePasswords = false ∨ ∀ e ∈ options.baselineUsers, e.username ≠ name

/-- From one point of the loop to a later one. -/
structure Advance (options : Options) (p : Progress) (w : World) (p' : Progress) (w' : World) :
    Prop where
  roles : ∀ n r, p.roles.get? n = some r → p'.roles.get? n = some r
  admins : ∀ n, p.roles.get? n ≠ some .admin → p'.roles.get? n ≠ some .admin
  rules : ∀ k, (p.rules.get? k).isSome → (p'.rules.get? k).isSome
  named : p.namedRules ⊆ p'.namedRules
  owned : ∀ u t, w.origins.getAcl u t = .options → w'.origins.getAcl u t = .options
  rule : ∀ u t, Settled options p w u t →
    w'.rule? u t = w.rule? u t ∧ w'.origins.getAcl u t = w.origins.getAcl u t
  user : ∀ n, Present options p n →
    w'.origins.getUser n = w.origins.getUser n ∧ rowsOf w' n = rowsOf w n
  password : ∀ n, Present options p n → Quiet options n → accountsOf w' n = accountsOf w n

namespace Advance

variable {options : Options} {p p' p'' q : Progress} {w w' w'' : World}

theorem refl : Advance options p w p w :=
  ⟨fun _ _ h => h, fun _ h => h, fun _ h => h, fun _ h => h, fun _ _ h => h, fun _ _ _ => ⟨rfl, rfl⟩,
    fun _ _ => ⟨rfl, rfl⟩, fun _ _ _ => rfl⟩

theorem present (h : Advance options p w p' w') {n : String} (hn : Present options p n) :
    Present options p' n := by
  refine hn.imp_left fun hsome => ?_
  obtain ⟨r, hr⟩ := Option.isSome_iff_exists.mp hsome
  rw [h.roles n r hr]
  rfl

theorem settled (h : Advance options p w p' w') {u t : String} (hs : Settled options p w u t) :
    Settled options p' w' u t := by
  refine ⟨?_, hs.2.imp_left (h.rules _)⟩
  rw [(h.rule u t hs).2]
  exact hs.1

theorem trans (h : Advance options p w p' w') (h' : Advance options p' w' p'' w'') :
    Advance options p w p'' w'' where
  roles n r hr := h'.roles n r (h.roles n r hr)
  admins n hn := h'.admins n (h.admins n hn)
  rules k hk := h'.rules k (h.rules k hk)
  named := fun _ hk => h'.named (h.named hk)
  owned u t ho := h'.owned u t (h.owned u t ho)
  rule u t hs :=
    ⟨(h'.rule u t (h.settled hs)).1.trans (h.rule u t hs).1,
      (h'.rule u t (h.settled hs)).2.trans (h.rule u t hs).2⟩
  user n hn :=
    ⟨(h'.user n (h.present hn)).1.trans (h.user n hn).1,
      (h'.user n (h.present hn)).2.trans (h.user n hn).2⟩
  password n hn hq := (h'.password n (h.present hn) hq).trans (h.password n hn hq)

/-- Reports and the names of users do not matter. -/
theorem noted (h : Advance options p w p' w') (hroles : q.roles = p'.roles)
    (hrules : q.rules = p'.rules) (hnamed : p'.namedRules ⊆ q.namedRules) :
    Advance options p w q w' where
  roles := by
    rw [hroles]
    exact h.roles
  admins := by
    rw [hroles]
    exact h.admins
  rules := by
    rw [hrules]
    exact h.rules
  named := fun _ hk => hnamed (h.named hk)
  owned := h.owned
  rule := h.rule
  user := h.user
  password := h.password

variable {entry : BaselineUser}

/-- The user of the entry is there, after all. -/
theorem exists_user (hnew : p.roles.get? entry.username = none) :
    Advance options p w { p with roles := p.roles.insert entry.username .user } w := by
  have hroles : ∀ n, (p.roles.insert entry.username .user).get? n =
      if n = entry.username then some .user else p.roles.get? n := fun n => Dict.get?_insert ..
  refine { refl with roles := fun n r hr => ?_, admins := fun n hn => ?_ }
  · show (p.roles.insert entry.username .user).get? n = some r
    rw [hroles, if_neg, hr]
    intro hname
    rw [hname, hnew] at hr
    cases hr
  · show (p.roles.insert entry.username .user).get? n ≠ some .admin
    rw [hroles]
    split_ifs
    · intro h
      cases h
    · exact hn

theorem ne_of_present (hentry : entry ∈ options.baselineUsers)
    (hnew : p.roles.get? entry.username = none) {n : String} (hn : Present options p n) :
    n ≠ entry.username := by
  intro hname
  rcases hn with hsome | hnone
  · rw [hname, hnew] at hsome
    cases hsome
  · exact hnone entry hentry hname.symm

/-- The user of the entry is added. -/
theorem added_user (hentry : entry ∈ options.baselineUsers)
    (hnew : p.roles.get? entry.username = none) :
    Advance options p w { p with roles := p.roles.insert entry.username .user }
      (effect (effect w (.userAdd entry.username entry.password .user))
        (.setUser entry.username .options)) :=
  { (exists_user hnew : Advance options p w _ w) with
    owned := fun _ _ ho => ho
    rule := fun _ _ _ => ⟨rfl, rfl⟩
    user := fun n hn => by
      have hne := ne_of_present hentry hnew hn
      refine ⟨(Origins.getUser_setUser ..).trans (if_neg hne), ?_⟩
      exact congrArg (List.map Account.toUserRow) (accountsOf_userAdd hne .user)
    password := fun n hn _ => accountsOf_userAdd (ne_of_present hentry hnew hn) .user }

/-- The password of the entry's user is set again. -/
theorem reset_password (hentry : entry ∈ options.baselineUsers)
    (hoverwrite : options.baselineOverwritePasswords = true) :
    Advance options p w p (effect w (.changePass entry.username entry.password)) :=
  { refl with
    user := fun n _ => ⟨rfl, rowsOf_changePass ..⟩
    password := fun n _ hq => by
      refine accountsOf_changePass_of_ne (fun hname => ?_) _
      rcases hq with hoff | hnone
      · rw [hoverwrite] at hoff
        cases hoff
      · exact hnone entry hentry hname.symm }

/-- The rule of the entry is set, with a record or without. -/
theorem set_rule (hkey : ¬ Settled options p w entry.username entry.topic) {w' : World}
    (hw : w' = effect w (.accessSet entry.username entry.topic entry.permission) ∨
      w' = effect (effect w (.accessSet entry.username entry.topic entry.permission))
        (.setAcl entry.username entry.topic .options)) :
    Advance options p w (p.ruleSet entry) w' := by
  have hrule : ∀ u t, w'.rule? u t = if u = entry.username ∧ t = entry.topic then
      some entry.permission else w.rule? u t := by
    intro u t
    rcases hw with rfl | rfl <;> exact World.rule?_accessSet ..
  have horigin : ∀ u t, w'.origins.getAcl u t = w.origins.getAcl u t ∨
      (u = entry.username ∧ t = entry.topic) ∧ w'.origins.getAcl u t = .options := by
    intro u t
    rcases hw with rfl | rfl
    · exact .inl rfl
    · have hset := Origins.getAcl_setAcl w.origins entry.username entry.topic u t .options
      by_cases hc : u = entry.username ∧ t = entry.topic
      · exact .inr ⟨hc, hset.trans (if_pos hc)⟩
      · exact .inl (hset.trans (if_neg hc))
  have hdb : accountsOf w' = accountsOf w := by rcases hw with rfl | rfl <;> rfl
  have huser : ∀ n, w'.origins.getUser n = w.origins.getUser n := by
    rcases hw with rfl | rfl <;> exact fun _ => rfl
  have hother : ∀ u t, Settled options p w u t → ¬ (u = entry.username ∧ t = entry.topic) := by
    rintro u t hs ⟨rfl, rfl⟩
    exact hkey hs
  exact { (refl : Advance options p w p w) with
    rules := fun k hk => by
      show ((p.rules.insert entry.key entry.permission).get? k).isSome
      rw [Dict.get?_insert]
      split_ifs
      · rfl
      · exact hk
    owned := fun u t ho => by
      rcases horigin u t with hsame | ⟨-, hset⟩
      · exact hsame.trans ho
      · exact hset
    rule := fun u t hs => by
      refine ⟨(hrule u t).trans (if_neg (hother u t hs)), ?_⟩
      exact (horigin u t).resolve_right fun hc => hother u t hs hc.1
    user := fun n _ => ⟨huser n, by rw [rowsOf, rowsOf, hdb]⟩
    password := fun n _ _ => by rw [hdb] }

end Advance

/-! ## One entry -/

section Entry

variable {may : Op → World → Failure → Prop} {options : Options} {entry : BaselineUser}
  {p : Progress}

/-- The user of the entry can be set up, if need be, and no call for that fails. That the user is
there already is no failure. -/
structure SetsUp (may : Op → World → Failure → Prop) (entry : BaselineUser) : Prop where
  name : usernameRe entry.username = true
  password : entry.password ≠ ""
  add : ∀ w e, may (.userAdd entry.username entry.password .user) w e →
    ∃ message, e = .cli "exists" message
  reset : ∀ w e, ¬ may (.changePass entry.username entry.password) w e

/-- The entry gets as far as to name its rule. -/
structure Ready (may : Op → World → Failure → Prop) (options : Options) (entry : BaselineUser)
    (p : Progress) : Prop where
  topic : entry.topic ≠ ""
  role : p.roles.get? entry.username ≠ some .admin
  user : (p.roles.get? entry.username).isSome ∧ options.baselineOverwritePasswords = false ∨
    SetsUp may entry

theorem noting_ends {α : Type} {s : Action α} {Q : α → World → Prop}
    {R : Progress × Failure → World → Prop}
    (h : s.Ends apply may Q (fun e w' => R (p, e) w') w) : (noting p s).Ends apply may Q R w :=
  Script.Ends.handle h

theorem addUser_ends (hmay : OnlyExternal may) (hentry : entry ∈ options.baselineUsers)
    (hnew : p.roles.get? entry.username = none) :
    (addUser entry p).Ends apply may (fun r w' => Advance options p w r.1 w')
      (fun r w' => Advance options p w r.1 w' ∧ ¬ SetsUp may entry) w := by
  refine Script.Ends.bind (Script.Ends.handle (Script.Ends.bind (NtfyCli.userAdd_ends ?_ ?_)))
  · refine Script.Ends.bind (noting_ends (act_internal hmay rfl ?_))
    exact (Advance.added_user hentry hnew).noted rfl rfl fun _ h => h
  · intro e he
    have hraised : (∀ message, e ≠ .cli "exists" message) →
        Advance options p w p w ∧ ¬ SetsUp may entry := fun hne =>
      ⟨.refl, fun hs => by
        obtain ⟨message, hexists⟩ := hs.add w e (he hs.name hs.password)
        exact hne message hexists⟩
    cases e with
    | cli code message =>
      show (if code = "exists" then _ else _ : EntryAction Bool).Ends apply may _ _ w
      by_cases hcode : code = "exists"
      · rw [if_pos hcode]
        exact Advance.exists_user hnew
      · rw [if_neg hcode]
        exact hraised fun _ hc => hcode (by cases hc; rfl)
    | value message => exact hraised fun _ hc => by cases hc
    | api err => exact hraised fun _ hc => by cases hc
    | other cls => exact hraised fun _ hc => by cases hc

theorem resetPassword_ends (hentry : entry ∈ options.baselineUsers)
    (hoverwrite : options.baselineOverwritePasswords = true) :
    (resetPassword entry p).Ends apply may (fun r w' => Advance options p w r w')
      (fun r w' => Advance options p w r.1 w' ∧ ¬ SetsUp may entry) w := by
  refine Script.Ends.bind (noting_ends (NtfyCli.userChangePass_ends ?_ fun e he => ⟨.refl, ?_⟩))
  · exact (Advance.reset_password hentry hoverwrite).noted rfl rfl fun _ h => h
  · exact fun hs => hs.reset w e (he hs.name hs.password)

theorem applyRule_ends (hmay : OnlyExternal may) (hentry : entry ∈ options.baselineUsers) :
    (applyRule entry p).Ends apply may
      (fun r w' => Advance options p w r w' ∧ entry.key ∈ r.namedRules)
      (fun r w' => Advance options p w r.1 w' ∧ entry.key ∈ r.1.namedRules) w := by
  have hnamed : entry.key ∈ entry.key :: p.namedRules := List.mem_cons_self
  have hstart : ∀ {q : Progress}, q.roles = p.roles → q.rules = p.rules →
      q.namedRules = entry.key :: p.namedRules →
        Advance options p w q w ∧ entry.key ∈ q.namedRules := fun hroles hrules hq => by
    rw [hq]
    exact ⟨Advance.refl.noted hroles hrules fun k hk => hq ▸ List.mem_cons_of_mem _ hk, hnamed⟩
  unfold applyRule
  cases hrule : p.rules.get? entry.key with
  | none =>
    have hkey : ¬ Settled options p w entry.username entry.topic := fun hs => by
      rcases hs.2 with hsome | hnone
      · rw [← BaselineUser.key, hrule] at hsome
        cases hsome
      · exact hnone entry hentry rfl
    dsimp only
    rw [hrule]
    refine Script.Ends.bind (noting_ends (NtfyCli.accessSet_ends ?_ fun _ => hstart rfl rfl rfl))
    refine Script.Ends.bind (noting_ends (act_internal hmay rfl ⟨?_, hnamed⟩))
    exact (Advance.set_rule hkey (.inr rfl)).noted rfl rfl fun _ h => List.mem_cons_of_mem _ h
  | some current =>
    dsimp only
    rw [hrule]
    refine Script.Ends.get ?_
    split_ifs with horigin hperm
    · have hkey : ¬ Settled options p w entry.username entry.topic := fun hs => hs.1 horigin
      refine Script.Ends.bind (noting_ends (NtfyCli.accessSet_ends ?_ fun _ => hstart rfl rfl rfl))
      refine ⟨?_, hnamed⟩
      exact (Advance.set_rule hkey (.inl rfl)).noted rfl rfl fun _ h => List.mem_cons_of_mem _ h
    · exact hstart rfl rfl rfl
    · exact hstart rfl rfl rfl

theorem applyToUser_ends (hmay : OnlyExternal may) (hentry : entry ∈ options.baselineUsers)
    {existed : Bool} {Reaches : Prop} (htopic : Reaches → entry.topic ≠ "")
    (hrole : Reaches → p.roles.get? entry.username ≠ some .admin)
    (huser : Reaches → existed = true → options.baselineOverwritePasswords = true →
      SetsUp may entry) :
    (applyToUser options entry existed p).Ends apply may
      (fun r w' => Advance options p w r w' ∧ (Reaches → entry.key ∈ r.namedRules))
      (fun r w' => Advance options p w r.1 w' ∧ (Reaches → entry.key ∈ r.1.namedRules)) w := by
  have hlast : ∀ {q : Progress} {w₁ : World}, Advance options p w q w₁ →
      (if entry.topic = "" then pure q else applyRule entry q).Ends apply may
        (fun r w' => Advance options p w r w' ∧ (Reaches → entry.key ∈ r.namedRules))
        (fun r w' => Advance options p w r.1 w' ∧ (Reaches → entry.key ∈ r.1.namedRules)) w₁ := by
    intro q w₁ h
    split_ifs with ht
    · exact ⟨h, fun hr => absurd ht (htopic hr)⟩
    · exact (applyRule_ends hmay hentry).mono (fun _ _ h' => ⟨h.trans h'.1, fun _ => h'.2⟩)
        fun _ _ h' => ⟨h.trans h'.1, fun _ => h'.2⟩
  unfold applyToUser
  by_cases hadmin : p.roles.get? entry.username = some .admin
  · rw [if_pos hadmin]
    exact ⟨Advance.refl.noted rfl rfl fun _ h => h, fun hr => absurd hadmin (hrole hr)⟩
  rw [if_neg hadmin]
  by_cases hreset : (existed && options.baselineOverwritePasswords) = true
  · rw [if_pos hreset]
    rw [Bool.and_eq_true] at hreset
    refine Script.Ends.bind ((resetPassword_ends hentry hreset.2).mono (fun _ _ h => hlast h) ?_)
    exact fun _ _ h => ⟨h.1, fun hr => absurd (huser hr hreset.1 hreset.2) h.2⟩
  · rw [if_neg hreset]
    exact hlast .refl

/-- **One entry.** It changes only what it may, and names its rule if it gets that far. -/
theorem applyEntry_ends (hmay : OnlyExternal may) (hentry : entry ∈ options.baselineUsers) :
    (applyEntry options entry p).Ends apply may
      (fun r w' => Advance options p w r w' ∧
        (Ready may options entry p → entry.key ∈ r.namedRules))
      (fun r w' => Advance options p w r.1 w' ∧
        (Ready may options entry p → entry.key ∈ r.1.namedRules)) w := by
  unfold applyEntry
  by_cases hold : (p.roles.get? entry.username).isSome = true
  · rw [if_pos hold]
    refine applyToUser_ends hmay hentry Ready.topic Ready.role fun hr _ hoverwrite => ?_
    refine hr.user.resolve_left fun hoff => ?_
    rw [hoverwrite] at hoff
    cases hoff.2
  · rw [if_neg hold]
    have hnew : p.roles.get? entry.username = none := Option.not_isSome_iff_eq_none.mp hold
    have hsets : Ready may options entry p → SetsUp may entry := fun hr =>
      hr.user.resolve_left fun hsome => hold hsome.1
    refine Script.Ends.bind ((addUser_ends hmay hentry hnew).mono (fun r w₁ h => ?_) fun _ _ h =>
      ⟨h.1, fun hr => absurd (hsets hr) h.2⟩)
    refine (applyToUser_ends hmay hentry Ready.topic (fun hr => h.admins _ hr.role)
      fun hr _ _ => hsets hr).mono ?_ ?_
    · exact fun _ _ h' => ⟨h.trans h'.1, h'.2⟩
    · exact fun _ _ h' => ⟨h.trans h'.1, h'.2⟩

end Entry

/-! ## All entries -/

section Loop

variable {may : Op → World → Failure → Prop} {options : Options} {entry : BaselineUser}
  {p : Progress}

theorem Ready.advance {p' : Progress} {w' : World} (hr : Ready may options entry p)
    (h : Advance options p w p' w') : Ready may options entry p' where
  topic := hr.topic
  role := h.admins _ hr.role
  user := hr.user.imp_left fun hold => by
    obtain ⟨r, hrole⟩ := Option.isSome_iff_exists.mp hold.1
    rw [h.roles _ r hrole]
    exact ⟨rfl, hold.2⟩

/-- The loop's body, for any of the entries. -/
theorem applyNamed_ends (hmay : OnlyExternal may) {e : BaselineUser}
    (he : e ∈ options.baselineUsers) :
    (applyNamed options p e).Ends apply may
      (fun r w' => Advance options p w r w' ∧
        (e.username ≠ options.adminUser → Ready may options e p → e.key ∈ r.namedRules))
      (fun _ w' => ∃ q, Advance options p w q w') w := by
  unfold applyNamed
  dsimp only
  by_cases hadmin : e.username = options.adminUser
  · rw [if_pos hadmin]
    exact ⟨Advance.refl.noted rfl rfl fun _ h => h, fun hne => absurd hadmin hne⟩
  rw [if_neg hadmin]
  have hstart : Advance options p w { p with namedUsers := e.username :: p.namedUsers } w :=
    Advance.refl.noted rfl rfl fun _ h => h
  refine Script.Ends.handle ((applyEntry_ends hmay he).mono (fun r w' h => ?_) fun r w' h => ?_)
  · exact ⟨hstart.trans h.1, fun _ hr => h.2 (hr.advance hstart)⟩
  · obtain ⟨q, failure⟩ := r
    have hwarned : ∀ message, Advance options p w (q.warn message) w' ∧
        (e.username ≠ options.adminUser → Ready may options e p →
          e.key ∈ (q.warn message).namedRules) := fun _ =>
      ⟨(hstart.trans h.1).noted rfl rfl fun _ h => h, fun _ hr => h.2 (hr.advance hstart)⟩
    cases failure with
    | cli _ message => exact hwarned _
    | value message => exact hwarned _
    | api _ => exact ⟨q, hstart.trans h.1⟩
    | other _ => exact ⟨q, hstart.trans h.1⟩

/-- The loop over the entries. -/
theorem applyEntries_ends (hmay : OnlyExternal may) :
    (options.baselineUsers.foldlM (applyNamed options) p).Ends apply may
      (fun r w' => Advance options p w r w' ∧ ∀ e ∈ options.baselineUsers,
        e.username ≠ options.adminUser → Ready may options e p → e.key ∈ r.namedRules)
      (fun _ w' => ∃ q, Advance options p w q w') w := by
  let I : List BaselineUser → Progress → World → Prop := fun rest r w' =>
    rest ⊆ options.baselineUsers ∧ Advance options p w r w' ∧ ∀ e ∈ options.baselineUsers,
      e.username ≠ options.adminUser → Ready may options e p → e ∈ rest ∨ e.key ∈ r.namedRules
  have hloop : (options.baselineUsers.foldlM (applyNamed options) p).Ends apply may (I [])
      (fun _ w' => ∃ q, Advance options p w q w') w := by
    refine Script.Ends.foldlM (I := I) (fun e rest r w' hI => ?_)
      ⟨fun _ h => h, .refl, fun e he _ _ => .inl he⟩
    obtain ⟨hsub, hadv, hnamed⟩ := hI
    refine (applyNamed_ends hmay (hsub List.mem_cons_self)).mono (fun r' w'' h => ?_) ?_
    · refine ⟨fun _ h' => hsub (List.mem_cons_of_mem _ h'), hadv.trans h.1, fun e' he' hne hr => ?_⟩
      rcases hnamed e' he' hne hr with hmem | hdone
      · rcases List.mem_cons.mp hmem with rfl | hrest
        · exact .inr (h.2 hne (hr.advance hadv))
        · exact .inl hrest
      · exact .inr (h.1.named hdone)
    · rintro _ w'' ⟨q, hq⟩
      exact ⟨q, hadv.trans hq⟩
  refine hloop.mono (fun r w' h => ⟨h.2.1, fun e he hne hr => ?_⟩) fun _ _ h => h
  exact (h.2.2 e he hne hr).resolve_left List.not_mem_nil

end Loop

/-! ## What left the options -/

/-- From the end of the loop to the end of the run. -/
structure Orphans (named : List (String × String)) (w w' : World) : Prop where
  db : w'.db = w.db
  acl : ∀ u t, w'.origins.getAcl u t = w.origins.getAcl u t ∨
    w.origins.getAcl u t = .options ∧ (u, t) ∉ named
  user : ∀ n, w'.origins.getUser n = w.origins.getUser n ∨ w.origins.getUser n = .options

theorem getUser_of_mem {doc : Origins} {name : String} {origin : Origin}
    (h : (name, origin) ∈ doc.users.entries) : doc.getUser name = origin := by
  rw [Origins.getUser, Dict.mem_entries.mp h]
  rfl

theorem getAcl_of_mem {doc : Origins} {user topic : String} {origin : Origin}
    (h : (user, topic, origin) ∈ doc.aclRecords) : doc.getAcl user topic = origin := by
  obtain ⟨e, he, hr⟩ := List.mem_flatMap.mp h
  obtain ⟨r, hmem, heq⟩ := List.mem_map.mp hr
  cases heq
  rw [Origins.getAcl, Dict.mem_entries.mp he, Option.getD_some, Dict.mem_entries.mp hmem]
  rfl

theorem orphan_ends {may : Op → World → Failure → Prop} (hmay : OnlyExternal may)
    {options : Options} {p : Progress} :
    (orphan options p).Ends apply may (fun _ w' => Orphans p.namedRules w w') (fun _ _ => False)
      w := by
  refine Script.Ends.get (Script.Ends.bind ?_)
  let I : List (String × Origin) → List String → World → Prop := fun rest _ w' =>
    rest ⊆ w.origins.users.entries ∧ Orphans p.namedRules w w'
  refine (Script.Ends.foldlM (I := I) (fun record rest orphaned w' hI => ?_)
    ⟨fun _ h => h, ⟨rfl, fun _ _ => .inl rfl, fun _ => .inl rfl⟩⟩).mono (fun orphaned w' h => ?_)
    fun _ _ h => h
  · obtain ⟨user, origin⟩ := record
    obtain ⟨hsub, hw⟩ := hI
    have hrest : rest ⊆ w.origins.users.entries := fun _ h => hsub (List.mem_cons_of_mem _ h)
    show (if _ then _ else _ : Action (List String)).Ends apply may _ _ w'
    split_ifs with hc
    · refine Script.Ends.bind (act_internal hmay rfl ⟨hrest, hw.db, hw.acl, fun n => ?_⟩)
      have hset : (effect w' (.setUser user .gui)).origins.getUser n = _ :=
        Origins.getUser_setUser w'.origins user n .gui
      by_cases hn : n = user
      · subst hn
        exact .inr ((getUser_of_mem (hsub List.mem_cons_self)).trans hc.1)
      · rw [hset, if_neg hn]
        exact hw.user n
    · exact ⟨hrest, hw⟩
  · refine Script.Ends.bind ?_
    let J : List (String × String × Origin) → List String → World → Prop := fun rest _ w' =>
      rest ⊆ w.origins.aclRecords ∧ Orphans p.namedRules w w'
    refine (Script.Ends.foldlM (I := J) (fun record rest orphaned w' hJ => ?_)
      ⟨fun _ h => h, h.2⟩).mono (fun orphaned w' h => h.2) fun _ _ h => h
    obtain ⟨user, topic, origin⟩ := record
    obtain ⟨hsub, hw⟩ := hJ
    have hrest : rest ⊆ w.origins.aclRecords := fun _ h => hsub (List.mem_cons_of_mem _ h)
    show (if _ then _ else _ : Action (List String)).Ends apply may _ _ w'
    split_ifs with hc
    · refine Script.Ends.bind (act_internal hmay rfl ⟨hrest, hw.db, fun u t => ?_, hw.user⟩)
      have hset : (effect w' (.setAcl user topic .gui)).origins.getAcl u t = _ :=
        Origins.getAcl_setAcl w'.origins user topic u t .gui
      by_cases hkey : u = user ∧ t = topic
      · obtain ⟨rfl, rfl⟩ := hkey
        exact .inr ⟨(getAcl_of_mem (hsub List.mem_cons_self)).trans hc.1, hc.2⟩
      · rw [hset, if_neg hkey]
        exact hw.acl u t
    · exact ⟨hrest, hw⟩

/-! ## Whole runs -/

/-- Where the loop starts. -/
def start (w : World) : Progress := ⟨{}, rolesOf w.accounts, w.tables.rules, [], []⟩

theorem rolesOf_cases (accounts : List Account) (name : String) :
    ((∃ a ∈ accounts, a.name = name) → ((rolesOf accounts).get? name).isSome) ∧
      ∀ r, (rolesOf accounts).get? name = some r → ∃ a ∈ accounts, a.name = name ∧ a.role = r := by
  induction accounts using List.reverseRecOn with
  | nil => exact ⟨fun ⟨a, ha, _⟩ => absurd ha List.not_mem_nil, fun r hr => by cases hr⟩
  | append_singleton as a ih =>
    have hget : (rolesOf (as ++ [a])).get? name =
        if name = a.name then some a.role else (rolesOf as).get? name := by
      rw [rolesOf, List.foldl_append]
      exact Dict.get?_insert ..
    rw [hget]
    by_cases h : name = a.name
    · rw [if_pos h]
      exact ⟨fun _ => rfl, fun r hr => ⟨a, by simp, h.symm, Option.some.inj hr⟩⟩
    · rw [if_neg h]
      refine ⟨fun ⟨b, hb, hname⟩ => ih.1 ⟨b, ?_, hname⟩, fun r hr => ?_⟩
      · rcases List.mem_append.mp hb with hmem | hlast
        · exact hmem
        · obtain rfl := List.mem_singleton.mp hlast
          exact absurd hname.symm h
      · obtain ⟨b, hb, hrole⟩ := ih.2 r hr
        exact ⟨b, List.mem_append_left _ hb, hrole⟩

/-- What a run keeps. -/
structure Keeps (may : Op → World → Failure → Prop) (options : Options) (w w' : World) : Prop where
  owned : ∀ e ∈ options.baselineUsers, e.username ≠ options.adminUser →
    Ready may options e (start w) → w.origins.getAcl e.username e.topic = .options →
      w'.origins.getAcl e.username e.topic = .options
  rule : ∀ u t, Settled options (start w) w u t →
    w'.rule? u t = w.rule? u t ∧ w'.origins.getAcl u t = w.origins.getAcl u t
  user : ∀ n, Present options (start w) n → w.origins.getUser n ≠ .options →
    w'.origins.getUser n = w.origins.getUser n
  rows : ∀ n, Present options (start w) n → rowsOf w' n = rowsOf w n
  password : ∀ n, Present options (start w) n → Quiet options n → accountsOf w' n = accountsOf w n

section Runs

variable {may : Op → World → Failure → Prop} {options : Options}

theorem Advance.keeps {p : Progress} {w' : World} (h : Advance options (start w) w p w') :
    Keeps may options w w' where
  owned _ _ _ _ ho := h.owned _ _ ho
  rule := h.rule
  user n hn _ := (h.user n hn).1
  rows n hn := (h.user n hn).2
  password := h.password

theorem Advance.keeps_orphans {p : Progress} {w₁ w' : World}
    (h : Advance options (start w) w p w₁) (hnamed : ∀ e ∈ options.baselineUsers,
      e.username ≠ options.adminUser → Ready may options e (start w) → e.key ∈ p.namedRules)
    (ho : Orphans p.namedRules w₁ w') : Keeps may options w w' := by
  have htables : w'.tables = w₁.tables := by rw [World.tables, ho.db, World.tables]
  have haccounts : ∀ n, accountsOf w' n = accountsOf w₁ n := fun n => by
    rw [accountsOf, World.accounts, htables]
    rfl
  refine ⟨fun e he hne hr horigin => ?_, fun u t hs => ⟨?_, ?_⟩, fun n hn horigin => ?_,
    fun n hn => ?_, fun n hn hq => ?_⟩
  · have h₁ := h.owned _ _ horigin
    rcases ho.acl e.username e.topic with hsame | ⟨-, hleft⟩
    · exact hsame.trans h₁
    · exact absurd (hnamed e he hne hr) hleft
  · rw [World.rule?, htables]
    exact (h.rule u t hs).1
  · have h₁ := (h.rule u t hs).2
    rcases ho.acl u t with hsame | ⟨howned, -⟩
    · exact hsame.trans h₁
    · exact absurd (h₁.symm.trans howned) hs.1
  · have h₁ := (h.user n hn).1
    rcases ho.user n with hsame | howned
    · exact hsame.trans h₁
    · exact absurd (h₁.symm.trans howned) horigin
  · rw [rowsOf, haccounts]
    exact (h.user n hn).2
  · rw [haccounts]
    exact h.password n hn hq

theorem applyBaseline_ends (hmay : OnlyExternal may) (unread : Option ReadError) :
    (applyBaseline options unread).Ends apply may (fun _ w' => Keeps may options w w')
      (fun _ w' => Keeps may options w w') w := by
  have hrest : ((options.baselineUsers.foldlM (applyNamed options) (start w)).bind
      (orphan options)).Ends apply may (fun _ w' => Keeps may options w w')
        (fun _ w' => Keeps may options w w') w := by
    refine Script.Ends.bind ((applyEntries_ends hmay).mono (fun p w₁ h => ?_) ?_)
    · exact (orphan_ends hmay).mono (fun _ _ ho => h.1.keeps_orphans h.2 ho) fun _ _ hf => hf.elim
    · rintro _ w' ⟨q, hq⟩
      exact hq.keeps
  refine Script.Ends.bind (Script.Ends.get ?_)
  unfold readDb
  cases hdb : w.db with
  | none =>
    have hstart : start w = ⟨{}, .empty, .empty, [], []⟩ := by
      rw [start, World.accounts, World.tables, hdb]
      rfl
    rw [hstart] at hrest
    exact hrest
  | some t =>
    cases unread with
    | none =>
      have hstart : start w = ⟨{}, rolesOf t.accounts, t.rules, [], []⟩ := by
        rw [start, World.accounts, World.tables, hdb]
        rfl
      rw [hstart] at hrest
      exact hrest
    | some e =>
      show (if e.val.code ≠ "db_unavailable" then _ else _ : Action Progress).Ends apply may _ _ w
      rw [if_pos e.property]
      exact (Advance.refl : Advance options (start w) w (start w) w).keeps

end Runs

/-! ## Ownership -/

/-- The world after a run. -/
def afterBaseline (options : Options) (unread : Option ReadError)
    (may : Op → World → Failure → Bool) (w : World) (failures : List (Option Failure)) : World :=
  ((applyBaseline options unread).evalAmong apply may w failures).2

/-- Whatever call of the command line fails. -/
def anyCall (o : Op) (_ : World) (_ : Failure) : Bool := o.external

def Failure.isExists : Failure → Bool
  | .cli code _ => code = "exists"
  | _ => false

/-- Whatever fails, but the calls that set up the user of the entry: these may only find that the
user is there. -/
def sparing (entry : BaselineUser) (o : Op) (_ : World) (e : Failure) : Bool :=
  o.external &&
    match o with
    | .userAdd name password _ =>
      !(name = entry.username && password = entry.password) || e.isExists
    | .changePass name password => !(name = entry.username && password = entry.password)
    | _ => true

/-- The entry names the rule. -/
structure Names (options : Options) (w : World) (entry : BaselineUser) (user topic : String) :
    Prop where
  mem : entry ∈ options.baselineUsers
  key : entry.key = (user, topic)
  topic : topic ≠ ""
  adminUser : user ≠ options.adminUser
  role : ∀ a ∈ w.accounts, a.name = user → a.role ≠ .admin

/-- The user of the entry needs no setting up, or its name and password are accepted. -/
def Acceptable (options : Options) (w : World) (entry : BaselineUser) : Prop :=
  (∃ a ∈ w.accounts, a.name = entry.username) ∧ options.baselineOverwritePasswords = false ∨
    usernameRe entry.username = true ∧ entry.password ≠ ""

/-- A run of the baseline takes from the options nothing that they name, and from others nothing. -/
structure OwnershipKept (options : Options) (unread : Option ReadError) (w : World) : Prop where
  named : ∀ entry user topic, Names options w entry user topic → Acceptable options w entry →
    w.origins.getAcl user topic = .options → ∀ failures,
      (afterBaseline options unread (sparing entry) w failures).origins.getAcl user topic = .options
  rule : ∀ user topic, w.origins.getAcl user topic ≠ .options →
    ((w.rule? user topic).isSome ∨ ∀ e ∈ options.baselineUsers, e.key ≠ (user, topic)) →
      ∀ failures,
        (afterBaseline options unread anyCall w failures).rule? user topic = w.rule? user topic ∧
          (afterBaseline options unread anyCall w failures).origins.getAcl user topic =
            w.origins.getAcl user topic
  user : ∀ name, w.origins.getUser name ≠ .options →
    ((∃ a ∈ w.accounts, a.name = name) ∨ ∀ e ∈ options.baselineUsers, e.username ≠ name) →
      ∀ failures,
        (afterBaseline options unread anyCall w failures).origins.getUser name =
            w.origins.getUser name ∧
          rowsOf (afterBaseline options unread anyCall w failures) name = rowsOf w name
  password : ∀ name,
    ((∃ a ∈ w.accounts, a.name = name) ∧ options.baselineOverwritePasswords = false ∨
      ∀ e ∈ options.baselineUsers, e.username ≠ name) → ∀ failures,
        accountsOf (afterBaseline options unread anyCall w failures) name = accountsOf w name

theorem afterBaseline_keeps {options : Options} {unread : Option ReadError}
    {may : Op → World → Failure → Bool} (hmay : OnlyExternal fun o w e => may o w e = true)
    (failures : List (Option Failure)) :
    Keeps (fun o w e => may o w e = true) options w
      (afterBaseline options unread may w failures) := by
  have hends := @applyBaseline_ends w _ options hmay unread
  have hrun := hends.evalAmong failures
  unfold afterBaseline
  split at hrun <;> simp_all

theorem ready_of_names {options : Options} {entry : BaselineUser} {user topic : String}
    (hn : Names options w entry user topic) (ha : Acceptable options w entry) :
    Ready (fun o w e => sparing entry o w e = true) options entry (start w) := by
  obtain ⟨rfl, rfl⟩ : entry.username = user ∧ entry.topic = topic := Prod.mk.inj hn.key
  refine ⟨hn.topic, fun hadmin => ?_, ?_⟩
  · obtain ⟨a, hmem, hname, hrole⟩ := (rolesOf_cases w.accounts entry.username).2 _ hadmin
    exact hn.role a hmem hname hrole
  · rcases ha with ⟨hold, hoff⟩ | ⟨hname, hpassword⟩
    · exact .inl ⟨(rolesOf_cases w.accounts entry.username).1 hold, hoff⟩
    · refine .inr ⟨hname, hpassword, fun w' e he => ?_, fun w' e he => ?_⟩
      · have hexists : e.isExists = true := by simpa [sparing, Op.external] using he
        cases e with
        | cli code message => exact ⟨message, by simpa [Failure.isExists] using hexists⟩
        | value | api | other => cases hexists
      · simp [sparing] at he

/-- **Ownership is kept.** -/
theorem ownership_kept (options : Options) (unread : Option ReadError) (w : World) :
    OwnershipKept options unread w := by
  have hany : OnlyExternal fun o w e => anyCall o w e = true := fun _ _ _ he => he
  have hpresent : ∀ {name}, ((∃ a ∈ w.accounts, a.name = name) ∨
      ∀ e ∈ options.baselineUsers, e.username ≠ name) → Present options (start w) name :=
    fun h => h.imp_left (rolesOf_cases w.accounts _).1
  constructor
  · intro entry user topic hn ha horigin failures
    have hsparing : OnlyExternal fun o w e => sparing entry o w e = true := fun _ _ _ he =>
      (Bool.and_eq_true_iff.mp he).1
    have hkept := @afterBaseline_keeps w options unread _ hsparing failures
    have hready := ready_of_names hn ha
    obtain ⟨rfl, rfl⟩ : entry.username = user ∧ entry.topic = topic := Prod.mk.inj hn.key
    exact hkept.owned entry hn.mem hn.adminUser hready horigin
  · intro user topic horigin hrule failures
    exact (afterBaseline_keeps hany failures).rule user topic ⟨horigin, hrule⟩
  · intro name horigin hname failures
    have hkept := @afterBaseline_keeps w options unread _ hany failures
    exact ⟨hkept.user name (hpresent hname) horigin, hkept.rows name (hpresent hname)⟩
  · intro name hname failures
    exact (afterBaseline_keeps hany failures).password name (hpresent (hname.imp_left And.left))
      (hname.imp_left And.right)

def sampleEntry : BaselineUser := ⟨"alice", "s3cret-pw-1", "t1", true⟩

def sampleOptions : Options :=
  { baselineUsers := [sampleEntry], baselineOverwritePasswords := true }

/-- The user of the entry, as somebody has created it. -/
def sampleAccount : Account := ⟨⟨"alice", .user, none, false⟩, "other-pw-9"⟩

/-- The entry's user and rule, with these records. -/
def ownedWorld (user rule : Origin) : World where
  db := some ⟨[sampleAccount], Dict.empty.insert ("alice", "t1") .ro, []⟩
  origins := (Origins.empty.setUser "alice" user).setAcl "alice" "t1" rule

/-- The rule cannot be set again, and stays the options'. -/
theorem ownership_kept_locked :
    (afterBaseline sampleOptions none (sparing sampleEntry) (ownedWorld .options .options)
      [none, some (.cli "locked" "database is locked")]).origins.getAcl "alice" "t1" = .options := by
  refine (ownership_kept sampleOptions none (ownedWorld .options .options)).named sampleEntry
    "alice" "t1" ⟨?_, rfl, by decide, by decide, ?_⟩ (.inr ⟨by decide +kernel, by decide⟩)
    (by decide +kernel) _
  · exact List.mem_singleton.mpr rfl
  · intro a ha _
    obtain rfl : a = sampleAccount := List.mem_singleton.mp ha
    decide

/-- **What is lost.** A rule that its entry has not named yet when the call fails; a password that
somebody else has set; and the record of a rule that is not there. -/
theorem ownership_lost :
    (¬ ∀ options w entry user topic, Names options w entry user topic →
      w.origins.getAcl user topic = .options → ∀ failures,
        (afterBaseline options none anyCall w failures).origins.getAcl user topic = .options) ∧
    (¬ ∀ options w user, w.origins.users.get? user = some .gui → ∀ failures,
      accountsOf (afterBaseline options none anyCall w failures) user = accountsOf w user) ∧
    ¬ ∀ options w user topic, ((w.origins.acls.get? user).getD .empty).get? topic = some .iac →
      ∀ failures, (afterBaseline options none anyCall w failures).origins.getAcl user topic = .iac := by
  refine ⟨fun h => ?_, fun h => ?_, fun h => ?_⟩
  · have hlost := h sampleOptions (ownedWorld .options .options) sampleEntry "alice" "t1"
      ⟨List.mem_singleton.mpr rfl, rfl, by decide, by decide, fun a ha _ => by
        obtain rfl : a = sampleAccount := List.mem_singleton.mp ha
        decide⟩ (by decide +kernel) [some (.cli "locked" "database is locked")]
    exact absurd hlost (by decide +kernel)
  · have hset := h sampleOptions (ownedWorld .gui .gui) "alice" (by decide +kernel) []
    exact absurd hset (by decide +kernel)
  · have hstale := h sampleOptions
      { ownedWorld .iac .iac with db := some ⟨[sampleAccount], .empty, []⟩ } "alice" "t1"
      (by decide +kernel) []
    exact absurd hstale (by decide +kernel)

end HaAddons.Ntfy
