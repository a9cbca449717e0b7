import HaAddons.Ntfy.Cli
import HaAddons.Ntfy.Rights

/-!
# Users and role changes

Creating and deleting users, and changing their passwords and roles. A promotion makes ntfy delete
the rules of the user, so they are put into the stash of the origin store; a demotion sets them again,
one by one.

Every call holds the context's lock from its first read to its last write, so calls come one after
the other.
-/

namespace HaAddons.Ntfy

/-! ## Users -/

/-- A user as the API shows it. -/
structure User where
  name : String
  role : Role
  tier : Option String
  origin : Origin
  provisioned : Bool
  protectedReason : Option String
  aclCount : ℕ
  tokenCount : ℕ
  deriving DecidableEq, Repr

/-- `_protection`, for one user. -/
def protection (options : Options) (rows : List Account) (row : Account) : Option String :=
  let admins := (rows.filter (·.role = .admin)).map (·.name)
  if row.name = "everyone" then some "anonymous"
  else if row.name = options.adminUser then some "options_admin"
  else if row.role = .admin ∧ admins = [row.name] then some "last_admin"
  else none

def buildUser (options : Options) (w : World) (row : Account) : User where
  name := row.name
  role := row.role
  tier := row.tier
  origin := w.origins.getUser row.name
  provisioned := row.provisioned
  protectedReason := protection options w.accounts row
  aclCount := w.tables.rules.keys.countP (·.1 = row.name)
  tokenCount := w.tables.tokens.count row.name

def buildUsers (options : Options) (w : World) : List User :=
  (w.accounts.map (buildUser options w)).insertionSort fun a b =>
    toLex (decide (a.name = "everyone"), a.name) ≤ toLex (decide (b.name = "everyone"), b.name)

def ensureSupported : Action Unit := do
  if ← look fun w => w.db.isSome then pure ()
  else fail (.api ⟨"db_unavailable", "auth database is not available"⟩)

/-- `db.has_user` -/
def hasUser (w : World) (name : String) : Bool := w.accounts.any fun a => a.name = dbUserToApi name

def getUser (options : Options) (name : String) : Action User := do
  match ← look fun w => (buildUsers options w).find? fun u => u.name = name with
  | some user => pure user
  | none => fail (.api ⟨"not_found", "user not found"⟩)

def requireRealUser (name : String) : Action Unit := do
  if name = "everyone" then
    fail (.api ⟨"bad_request", "not allowed for the anonymous user everyone"⟩)
  else if ← look fun w => w.accounts.any fun a => a.name = dbUserToApi name then pure ()
  else fail (.api ⟨"not_found", "user not found"⟩)

def checkPassword (password : String) : Action Unit :=
  if password = "" then fail (.api ⟨"bad_request", "password must not be empty"⟩)
  else if password.toUTF8.size > 72 then
    fail (.api ⟨"bad_request", "password must be at most 72 bytes"⟩)
  else pure ()

def checkNewName (name : String) : Action Unit :=
  if name = "everyone" ∨ name = "*" ∨ usernameRe name = false then
    fail (.api ⟨"bad_request", "invalid user name"⟩)
  else pure ()

/-- `_check_role` -/
def checkRole (role : String) : Action Role :=
  if role = "user" then pure .user
  else if role = "admin" then pure .admin
  else fail (.api ⟨"bad_request", "role must be user or admin"⟩)

def createUser (options : Options) (name password role : String) : Action User := do
  ensureSupported
  checkNewName name
  let role ← checkRole role
  checkPassword password
  if ← look fun w => hasUser w name then
    fail (.api ⟨"conflict", "user already exists"⟩)
  else
    NtfyCli.userAdd name password role
    act (.setUser name .gui)
    getUser options name

def changePassword (name password : String) : Action Unit := do
  ensureSupported
  requireRealUser name
  checkPassword password
  NtfyCli.userChangePass name password

def deleteUser (options : Options) (name confirm : String) : Action Unit := do
  ensureSupported
  requireRealUser name
  let user ← getUser options name
  match user.protectedReason with
  | some reason => fail (.api ⟨"protected", s!"user is protected ({reason})"⟩)
  | none =>
    if confirm ≠ name then
      fail (.api ⟨"confirmation_required", "type the user name to confirm the deletion"⟩)
    else
      act (.backup "user-delete")
      NtfyCli.userDelete name
      act (.dropUser name)

/-! ## The change -/

/-- The topics and permissions of a user's rules. -/
def snapshotAcl (w : World) (name : String) : List (String × Permission) :=
  ((w.tables.rules.entries.filter fun e => e.1.1 = name).map fun e => (e.1.2, e.2)).insertionSort
    fun a b => a.1 ≤ b.1

/-- The rules of a user, with their origins. -/
def activeRules (w : World) (name : String) : List StashedRule :=
  (snapshotAcl w name).map fun r => ⟨r.1, r.2, w.origins.getAcl name r.1⟩

/-- Drop the origin records of the rules. -/
def dropRules (name : String) : List (String × Permission) → Action Unit
  | [] => pure ()
  | row :: rest => do
    act (.dropAcl name row.1)
    dropRules name rest

/-- Put the rules of a snapshot into the stash. -/
def stashRules (name : String) (snapshot : List (String × Permission)) : Action Unit := do
  let rules ← look fun w =>
    snapshot.map fun r => (⟨r.1, r.2, w.origins.getAcl name r.1⟩ : StashedRule)
  act (.stashAcl name rules)
  dropRules name snapshot

def promote (options : Options) (name : String) : Action (User × ℕ) := do
  let snapshot ← look fun w => snapshotAcl w name
  if snapshot = [] then
    NtfyCli.userChangeRole name .admin
  else
    act (.backup "role-change")
    NtfyCli.userChangeRole name .admin
    stashRules name snapshot
  let user ← getUser options name
  pure (user, snapshot.length)

/-- Set the stashed rules again. Where one fails, it and the rest go back into the stash. -/
def restoreRules (name : String) : List StashedRule → Action Unit
  | [] => pure ()
  | rule :: rest => do
    (NtfyCli.accessSet name rule.topic rule.permission).handle fun e => do
      act (.stashAcl name (rule :: rest))
      fail e
    act (.setAcl name rule.topic rule.origin)
    restoreRules name rest

def demote (options : Options) (name : String) : Action (User × ℕ) := do
  NtfyCli.userChangeRole name .user
  let pending ← look fun w => w.origins.stash name
  act (.popAclStash name)
  restoreRules name pending
  let user ← getUser options name
  pure (user, 0)

def changeRole (options : Options) (name role : String) : Action (User × ℕ) := do
  ensureSupported
  let role ← checkRole role
  requireRealUser name
  let user ← getUser options name
  if user.role = role then pure (user, 0)
  else
    match role, user.protectedReason with
    | .user, some reason => fail (.api ⟨"protected", s!"user is protected ({reason})"⟩)
    | .admin, _ => promote options name
    | _, _ => demote options name

end HaAddons.Ntfy
