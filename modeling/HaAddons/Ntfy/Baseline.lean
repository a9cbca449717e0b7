import HaAddons.Ntfy.Cli

/-!
# The options baseline

`apply_baseline`: every entry of the options gets its user and its rule, entry by entry. A failure
ends its entry, with what the entry has already noted, and becomes a warning. Afterwards what the
options own and no entry has named becomes `gui`.
-/

namespace HaAddons.Ntfy

structure BaselineReport where
  usersCreated : List String := []
  rulesSet : List (String × String × Permission) := []
  rulesKept : List (String × String) := []
  orphaned : List String := []
  warnings : List String := []
  passwordsReset : List String := []
  deriving DecidableEq, Repr

/-- What `apply_baseline` notes while it goes through the entries. -/
structure Progress where
  report : BaselineReport
  roles : Dict String Role
  rules : Dict (String × String) Permission
  namedUsers : List String
  namedRules : List (String × String)

def Progress.warn (p : Progress) (message : String) : Progress :=
  { p with report := { p.report with warnings := p.report.warnings ++ [message] } }

/-! ## Reading the database -/

/-- How reading a database that is there fails. -/
abbrev ReadError := { e : ApiError // e.code ≠ "db_unavailable" }

def readDb (unread : Option ReadError) (w : World) : Except ApiError Tables :=
  match w.db, unread with
  | none, _ => .error ⟨"db_unavailable", "auth database is not available"⟩
  | some _, some e => .error e
  | some t, none => .ok t

/-- The roles by name. -/
def rolesOf (accounts : List Account) : Dict String Role :=
  accounts.foldl (fun roles a => roles.insert a.name a.role) .empty

/-- Where there is no database, nobody is in it. -/
def readTables (unread : Option ReadError) : Action Progress := do
  match ← look (readDb unread) with
  | .ok t => pure ⟨{}, rolesOf t.accounts, t.rules, [], []⟩
  | .error e =>
    if e.code ≠ "db_unavailable" then fail (.api e)
    else pure ⟨{}, .empty, .empty, [], []⟩

/-! ## One entry -/

/-- What is raised in an entry comes with what has been noted so far. -/
abbrev EntryAction := Script Op Failure World (Progress × Failure)

def noting {α : Type} (p : Progress) (s : Action α) : EntryAction α := s.handle fun e => .raise (p, e)

/-- The user of an entry that is not there. Says whether it was, after all. -/
def addUser (entry : BaselineUser) (p : Progress) : EntryAction (Progress × Bool) := do
  let name := entry.username
  let existed ← (NtfyCli.userAdd name entry.password .user >>= fun _ => pure false).handle fun e =>
    match e with
    | .cli code _ => if code = "exists" then pure true else .raise (p, e)
    | _ => .raise (p, e)
  let p := { p with roles := p.roles.insert name .user }
  if existed then pure (p, true)
  else
    noting p (act (.setUser name .options))
    pure ({ p with report := { p.report with usersCreated := p.report.usersCreated ++ [name] } }, false)

def resetPassword (entry : BaselineUser) (p : Progress) : EntryAction Progress := do
  let name := entry.username
  noting p (NtfyCli.userChangePass name entry.password)
  pure { p with report := { p.report with passwordsReset := p.report.passwordsReset ++ [name] } }

def BaselineUser.permission (entry : BaselineUser) : Permission :=
  if entry.writeAccess then .rw else .ro

def BaselineUser.key (entry : BaselineUser) : String × String := (entry.username, entry.topic)

/-- `p.rules[key] = permission`, and the rule is reported as set. -/
def Progress.ruleSet (p : Progress) (entry : BaselineUser) : Progress :=
  let rule := (entry.username, entry.topic, entry.permission)
  { p with
    rules := p.rules.insert entry.key entry.permission
    report := { p.report with rulesSet := p.report.rulesSet ++ [rule] } }

/-- The rule of an entry. -/
def applyRule (entry : BaselineUser) (p : Progress) : EntryAction Progress := do
  let p := { p with namedRules := entry.key :: p.namedRules }
  match p.rules.get? entry.key with
  | none =>
    noting p (NtfyCli.accessSet entry.username entry.topic entry.permission)
    noting { p with rules := p.rules.insert entry.key entry.permission }
      (act (.setAcl entry.username entry.topic .options))
    pure (p.ruleSet entry)
  | some current =>
    if (← Script.get fun w => w.origins.getAcl entry.username entry.topic) = .options then
      if current ≠ entry.permission then
        noting p (NtfyCli.accessSet entry.username entry.topic entry.permission)
        pure (p.ruleSet entry)
      else pure p
    else
      pure { p with report := { p.report with rulesKept := p.report.rulesKept ++ [entry.key] } }

def adminWarning (name : String) : String :=
  s!"user {name} has the admin role: baseline gets no rules and no password reset"

/-- The rest of an entry, when its user is there. -/
def applyToUser (options : Options) (entry : BaselineUser) (existed : Bool) (p : Progress) :
    EntryAction Progress := do
  if p.roles.get? entry.username = some .admin then
    pure (p.warn (adminWarning entry.username))
  else
    let p ← if existed && options.baselineOverwritePasswords then resetPassword entry p else pure p
    if entry.topic = "" then pure p else applyRule entry p

/-- `_apply_entry` -/
def applyEntry (options : Options) (entry : BaselineUser) (p : Progress) : EntryAction Progress :=
  if (p.roles.get? entry.username).isSome then applyToUser options entry true p
  else do
    let (p, existed) ← addUser entry p
    applyToUser options entry existed p

/-! ## All entries -/

/-- The body of the loop over the entries. -/
def applyNamed (options : Options) (p : Progress) (entry : BaselineUser) : Action Progress :=
  let name := entry.username
  if name = options.adminUser then
    pure (p.warn s!"entry {name} names the admin user and is ignored")
  else
    (applyEntry options entry { p with namedUsers := name :: p.namedUsers }).handle fun (p, e) =>
      match e with
      | .cli _ message | .value message => pure (p.warn s!"entry {name} failed: {message}")
      | e => fail e

/-- A user that left the options. -/
def orphanUser (options : Options) (namedUsers : List String) (orphaned : List String)
    (record : String × Origin) : Action (List String) := do
  let (user, origin) := record
  if origin = .options ∧ user ≠ options.adminUser ∧ user ∉ namedUsers then
    act (.setUser user .gui)
    pure (orphaned ++ [user])
  else pure orphaned

/-- A rule that left the options. -/
def orphanRule (namedRules : List (String × String)) (orphaned : List String)
    (record : String × String × Origin) : Action (List String) := do
  let (user, topic, origin) := record
  if origin = .options ∧ (user, topic) ∉ namedRules then
    act (.setAcl user topic .gui)
    pure (orphaned ++ [s!"{user}:{topic}"])
  else pure orphaned

/-- The records of rules, one after the other. -/
def Origins.aclRecords (doc : Origins) : List (String × String × Origin) :=
  doc.acls.entries.flatMap fun e => e.2.entries.map fun r => (e.1, r.1, r.2)

/-- `_orphan` -/
def orphan (options : Options) (p : Progress) : Action BaselineReport := do
  let snap ← look fun w => w.origins
  let orphaned ← snap.users.entries.foldlM (orphanUser options p.namedUsers) p.report.orphaned
  let orphaned ← snap.aclRecords.foldlM (orphanRule p.namedRules) orphaned
  pure { p.report with orphaned := orphaned }

def applyBaseline (options : Options) (unread : Option ReadError) : Action BaselineReport := do
  let p ← readTables unread
  let p ← options.baselineUsers.foldlM (applyNamed options) p
  orphan options p

end HaAddons.Ntfy
