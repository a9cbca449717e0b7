import HaAddons.AdminUi.Router
import HaAddons.Lib.Json
import HaAddons.Ntfy.Accounts
import HaAddons.Ntfy.Exporter

/-!
# The API of users, rules and tokens

The handlers of `/api/users`, `/api/acl` and `/api/tokens` with the services they call. A handler may
call several services one after the other.

The world of `Cli` is extended by the rows of the token table. What ntfy draws by itself, such as a
salted hash or the value of a token, is given as an `Ntfyd`.
-/

namespace HaAddons.Ntfy

open AdminUi (Text Registration Router)

/-! ## The world -/

/-- The tables of the database. The password of an account is its hash here. -/
structure ApiTables where
  accounts : List Account
  rules : Dict (String × String) Permission
  tokens : List StoredToken
  deriving DecidableEq

/-- The database, if its file exists, and the origin store. -/
structure ApiWorld where
  db : Option ApiTables
  origins : Origins
  deriving DecidableEq

/-- What ntfy draws in a call. -/
structure Ntfyd where
  hash : String → String
  token : String
  expires : ℤ
  now : ℤ

namespace ApiWorld

def tokens (w : ApiWorld) : List StoredToken := (w.db.map ApiTables.tokens).getD []

/-- The part that users and rules are about. -/
def world (w : ApiWorld) : World :=
  ⟨w.db.map fun t => ⟨t.accounts, t.rules, t.tokens.map StoredToken.user⟩, w.origins⟩

def ofWorld (w : World) (tokens : List StoredToken) : ApiWorld :=
  ⟨w.db.map fun t => ⟨t.accounts, t.rules, tokens⟩, w.origins⟩

end ApiWorld

/-! ## Operations -/

inductive ApiOp where
  | account (o : Op)
  | accessReset (user topic : String)
  | tokenAdd (user label : String) (expires : Option String)
  | tokenRemove (user token : String)
  | setToken (user tokenId : String) (origin : Origin)
  | dropToken (user tokenId : String)

/-- Calls of the command line. -/
def ApiOp.isCli : ApiOp → Bool
  | account o => o.external && !(match o with | .backup _ => true | _ => false)
  | accessReset .. | tokenAdd .. | tokenRemove .. => true
  | setToken .. | dropToken .. => false

/-- ntfy stores the hash of a password. -/
def Op.hashed (hash : String → String) : Op → Op
  | .userAdd name password role => .userAdd name (hash password) role
  | .changePass name password => .changePass name (hash password)
  | o => o

/-- The tokens that are left. ntfy deletes those of a user who is deleted. -/
def tokensAfter (tokens : List StoredToken) : Op → List StoredToken
  | .userDelete name => tokens.filter fun t => t.user ≠ name
  | _ => tokens

def apiEffect (d : Ntfyd) (w : ApiWorld) : ApiOp → ApiWorld
  | .account o => .ofWorld (effect w.world (o.hashed d.hash)) (tokensAfter w.tokens o)
  | .accessReset user topic =>
    { w with db := w.db.map fun t => { t with rules := t.rules.erase (user, topic) } }
  | .tokenAdd user label expires =>
    let row : StoredToken :=
      ⟨user, d.token, label, if expires = none then 0 else d.expires, d.now, "", false⟩
    { w with db := w.db.map fun t => { t with tokens := t.tokens ++ [row] } }
  | .tokenRemove user token =>
    { w with db := w.db.map fun t =>
        { t with tokens := t.tokens.filter fun r => ¬ (r.user = user ∧ r.token = token) } }
  | .setToken user tokenId origin => { w with origins := w.origins.setToken user tokenId origin }
  | .dropToken user tokenId => { w with origins := w.origins.dropToken user tokenId }

def apiApply (d : Ntfyd) (o : ApiOp) (w : ApiWorld) : Except Failure ApiWorld := .ok (apiEffect d w o)

abbrev ApiAction := Script ApiOp Failure ApiWorld Failure

/-- A service on users and rules. -/
def lift {α : Type} (s : Action α) : ApiAction α := s.embed ApiOp.account ApiWorld.world

def apiAct (o : ApiOp) : ApiAction Unit := Script.act id o

def apiLook {α : Type} (f : ApiWorld → α) : ApiAction α := Script.get f

def apiFail {α : Type} (code message : String) : ApiAction α := .raise (.api ⟨code, message⟩)

/-! ## Validators -/

/-- `^[0-9]+[smhd]$` with `re.match` -/
def durationRe (s : String) : Bool :=
  let s := s.toList
  match (if s.getLast? = some '\n' then s.dropLast else s).reverse with
  | [] => false
  | c :: digits => c ∈ ['s', 'm', 'h', 'd'] && digits ≠ [] && digits.all isAsciiDigit

/-- `^tk_[a-z0-9]{29}$` with `re.match` -/
def tokenRe (s : String) : Bool :=
  let s := s.toList
  let s := if s.getLast? = some '\n' then s.dropLast else s
  "tk_".toList.isPrefixOf s && s.length = 32 &&
    (s.drop 3).all fun c => isAsciiDigit c || ('a' ≤ c && c ≤ 'z')

def permission? (s : String) : Option Permission :=
  [Permission.rw, .ro, .wo, .deny].find? fun p => p.text = s

/-! ## Users and rules -/

def listUsers (options : Options) : Action (List User) := do
  ensureSupported
  look fun w => buildUsers options w

/-- All rules, sorted by user and topic, with their origins. -/
def aclRules (w : World) : List AclRule :=
  (w.tables.rules.entries.insertionSort fun a b => toLex a.1 ≤ toLex b.1).map fun e =>
    ⟨e.1.1, e.1.2, e.2, w.origins.getAcl e.1.1 e.1.2⟩

def listRules (user topic : Option String) : Action (List AclRule) := do
  ensureSupported
  look fun w => (aclRules w).filter fun r => user.all (· = r.user) && topic.all (· = r.topic)

def checkApiTopic (topic : String) : Action Unit :=
  if '%' ∈ topic.toList ∨ topicPatternRe topic = false then
    fail (.api ⟨"bad_request", "invalid topic pattern"⟩)
  else pure ()

/-- A rule may be set for the user. -/
def requireRuleUser (user : String) : Action Unit := do
  if user = "everyone" then pure ()
  else if ← look fun w => hasUser w user then
    if ← look fun w => w.accounts.any fun a => a.name = user && a.role = .admin then
      fail (.api ⟨"bad_request", "admin users have access to all topics; rules are not allowed"⟩)
    else pure ()
  else fail (.api ⟨"not_found", "user not found"⟩)

def setRule (user topic permission : String) : Action AclRule := do
  ensureSupported
  match permission? permission with
  | none => fail (.api ⟨"bad_request", "permission must be one of rw, ro, wo, deny"⟩)
  | some p => do
    checkApiTopic topic
    requireRuleUser user
    let origin ← look fun w =>
      if (w.rule? user topic).isSome && w.origins.getAcl user topic = .iac then Origin.iac
      else .gui
    NtfyCli.accessSet user topic p
    match ← look fun w => w.rule? user topic with
    | none => fail (.api ⟨"ntfy_error", "rule was not stored"⟩)
    | some stored => do
      act (.setAcl user topic origin)
      look fun w => ⟨user, topic, stored, w.origins.getAcl user topic⟩

def accessReset (user topic : String) : ApiAction Unit := do
  lift (NtfyCli.checkUser user true)
  lift (NtfyCli.checkTopic topic)
  apiAct (.accessReset user topic)

def removeRule (user topic : String) : ApiAction Unit := do
  lift ensureSupported
  lift (checkApiTopic topic)
  if ← apiLook fun w => (w.world.rule? user topic).isSome then
    accessReset user topic
    lift (act (.dropAcl user topic))
  else apiFail "not_found" "rule not found"

/-! ## Tokens -/

structure TokenMeta where
  id : String
  user : String
  start : String
  label : String
  expires : ℤ
  expiresAt : Option String
  lastAccess : ℤ
  lastOrigin : String
  origin : Origin
  deriving DecidableEq

/-- `token_meta_from_row`; it raises where the expiry has no four-digit year. -/
def tokenMeta (origins : Origins) (row : StoredToken) : ApiAction TokenMeta :=
  let result (expiresAt : Option String) : TokenMeta :=
    ⟨tokenId row.token, row.user, String.ofList (row.token.toList.take 7), row.label, row.expires,
      expiresAt, row.lastAccess, row.lastOrigin, origins.getToken row.user (tokenId row.token)⟩
  if row.expires = 0 then pure (result none)
  else
    match isoUtc row.expires with
    | some text => pure (result (some text))
    | none => .raise (.other "ValueError")

def tokenMetas (origins : Origins) : List StoredToken → ApiAction (List TokenMeta)
  | [] => pure []
  | row :: rows => do
    let first ← tokenMeta origins row
    let rest ← tokenMetas origins rows
    pure (first :: rest)

/-- The rows of a user, or all. -/
def tokenRowsOf (w : ApiWorld) (user : Option String) : List StoredToken :=
  (w.tokens.filter fun r => user.all fun name => r.user = dbUserToApi name).insertionSort fun a b =>
    toLex (a.user, toLex (a.lastAccess, a.label)) ≤ toLex (b.user, toLex (b.lastAccess, b.label))

def listTokens (user : Option String) : ApiAction (List TokenMeta) := do
  lift ensureSupported
  let rows ← apiLook fun w => tokenRowsOf w user
  let origins ← apiLook fun w => w.origins
  tokenMetas origins rows

def requireTokenUser (user : String) : Action Unit := do
  if user = "everyone" then fail (.api ⟨"bad_request", "tokens cannot belong to everyone"⟩)
  else if ← look fun w => user ≠ "" && hasUser w user then pure ()
  else fail (.api ⟨"not_found", s!"user {user} does not exist"⟩)

/-- `except ValueError`: what the adapter finds is a bad request. -/
def orBadRequest {α : Type} (s : ApiAction α) : ApiAction α :=
  s.handle fun e =>
    match e with
    | .value message => apiFail "bad_request" message
    | e => .raise e

/-- The adapter's checks come before its call; an empty label or duration is none. -/
def tokenAdd (user : String) (label expires : Option String) : ApiAction Unit := do
  lift (NtfyCli.checkUser user false)
  if label.any (fun l => !labelRe l) then .raise (.value "invalid label")
  else if expires.any (fun x => !durationRe x) then .raise (.value "invalid expiry duration")
  else apiAct (.tokenAdd user (label.getD "") expires)

def nonEmpty (s : Option String) : Option String := s.filter (· ≠ "")

def createToken (d : Ntfyd) (user : String) (label expires : Option String) :
    ApiAction (TokenMeta × String) := do
  lift ensureSupported
  lift (requireTokenUser user)
  if label.any (fun l => !labelRe l) then apiFail "bad_request" "invalid label"
  else if expires.any (fun x => !durationRe x) then
    apiFail "bad_request" "invalid expiry duration, use e.g. 30m, 12h or 7d"
  else
    orBadRequest (tokenAdd user (nonEmpty label) (nonEmpty expires))
    apiAct (.setToken user (tokenId d.token) .gui)
    match ← apiLook fun w => (tokenRowsOf w (some user)).find? fun r =>
        tokenId r.token = tokenId d.token with
    | none => apiFail "ntfy_error" "created token not found in the database"
    | some row => do
      let origins ← apiLook fun w => w.origins
      let created ← tokenMeta origins row
      pure (created, d.token)

/-- `db.reveal_token` -/
def tokenValue (w : ApiWorld) (user id : String) : Option String :=
  ((tokenRowsOf w (some user)).find? fun r => tokenId r.token = id).map StoredToken.token

def revealToken (user id : String) : ApiAction String := do
  lift ensureSupported
  match ← apiLook fun w => tokenValue w user id with
  | none => apiFail "not_found" "token not found"
  | some value => pure value

def tokenRemove (user token : String) : ApiAction Unit := do
  lift (NtfyCli.checkUser user false)
  if tokenRe token then apiAct (.tokenRemove user token) else .raise (.value "invalid token")

def revokeToken (user id : String) : ApiAction Unit := do
  lift ensureSupported
  match ← apiLook fun w => tokenValue w user id with
  | none => apiFail "not_found" "token not found"
  | some value => do
    orBadRequest (tokenRemove user value)
    apiAct (.dropToken user id)

end HaAddons.Ntfy
