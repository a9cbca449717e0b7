import HaAddons.Ntfy.Api

/-!
# The endpoints

The handlers of users, rules and tokens, their routes, and the status of an answer.
-/

namespace HaAddons.Ntfy

open AdminUi (Text Registration Router)

/-! ## Answers -/

/-- `ERROR_STATUS`, with the codes that the add-on registers. -/
def errorStatus (code : String) : ℕ :=
  if code = "bad_request" ∨ code = "confirmation_required" then 400
  else if code = "ingress_only" then 403
  else if code = "not_found" then 404
  else if code = "method_not_allowed" then 405
  else if code = "conflict" ∨ code = "protected" then 409
  else if code = "payload_too_large" then 413
  else if code = "ntfy_error" then 502
  else if code = "db_unavailable" ∨ code = "db_unsupported" ∨ code = "locked" then 503
  else 500

/-- `CLI_ERROR_TO_API` -/
def cliErrorToApi (code : String) : String :=
  if code = "exists" then "conflict"
  else if code = "not_found" then "not_found"
  else if code = "invalid" then "bad_request"
  else if code = "provisioned" then "protected"
  else if code = "locked" then "locked"
  else "ntfy_error"

/-- The status of the answer to a request that raises. -/
def Failure.status : Failure → ℕ
  | .api e => errorStatus e.code
  | .cli code _ => errorStatus (cliErrorToApi code)
  | .value _ | .other _ => 500

/-- The answer is a 4xx error. -/
def Failure.Rejects (e : Failure) : Prop := 400 ≤ e.status ∧ e.status < 500

instance (e : Failure) : Decidable e.Rejects := inferInstanceAs (Decidable (_ ∧ _))

inductive Payload where
  | users (users : List User)
  | created (user : User)
  | detail (user : User) (acl : List AclRule) (tokens : List TokenMeta)
  | patched (user : User) (droppedRules : ℕ)
  | rules (rules : List AclRule)
  | rule (rule : AclRule)
  | tokens (tokens : List TokenMeta)
  | token (token : TokenMeta) (value : String)
  | value (value : String)
  | nothing

/-! ## Requests -/

/-- A request, with its path parameters and the first values of its query. -/
structure ApiRequest where
  param : String → String
  arg : String → Option String
  json : Option Json

/-- `req.body()` -/
def ApiRequest.body (q : ApiRequest) : ApiAction (Dict String Json) :=
  match q.json with
  | none | some .null => pure .empty
  | some (.obj fields) => pure (fields.foldl (fun d e => d.insert e.1 e.2) .empty)
  | some _ => apiFail "bad_request" "JSON object expected"

/-- `_strict_body` -/
def strictBody (q : ApiRequest) (allowed : List String) : ApiAction (Dict String Json) := do
  let body ← q.body
  match (body.keys.filter fun k => !allowed.contains k).insertionSort fun a b => a ≤ b with
  | [] => pure body
  | key :: _ => apiFail "bad_request" s!"unknown field: {key}"

/-- `_string` -/
def stringField (body : Dict String Json) (key : String) : ApiAction (Option String) :=
  match body.get? key with
  | none => pure none
  | some (.str s) => pure (some s)
  | some _ => apiFail "bad_request" s!"{key} must be a string"

def requiredString (body : Dict String Json) (key : String) : ApiAction String := do
  match ← stringField body key with
  | none => apiFail "bad_request" s!"{key} is required"
  | some s => pure s

/-! ## Handlers of users -/

section

variable (options : Options) (d : Ntfyd) (q : ApiRequest)

def createUserHandler : ApiAction Payload := do
  let body ← strictBody q ["name", "password", "role"]
  let name ← requiredString body "name"
  let password ← requiredString body "password"
  let role ← stringField body "role"
  let user ← lift (createUser options name password ((nonEmpty role).getD "user"))
  pure (.created user)

def userDetail : ApiAction Payload := do
  let name := q.param "name"
  let users ← lift (listUsers options)
  match users.find? fun u => u.name = name with
  | none => apiFail "not_found" "user not found"
  | some user => do
    let rows ← apiLook fun w => tokenRowsOf w (some name)
    let origins ← apiLook fun w => w.origins
    let tokens ← tokenMetas origins rows
    let acl ← lift (listRules (some name) none)
    pure (.detail user acl tokens)

/-- The second half of `patch_user`. -/
def patchRole (name : String) : Option String → ApiAction Payload
  | some role => do
    let r ← lift (changeRole options name role)
    pure (.patched r.1 r.2)
  | none => do
    let users ← lift (listUsers options)
    match users.find? fun u => u.name = name with
    | none => .raise (.other "StopIteration")
    | some user => pure (.patched user 0)

def patchUser : ApiAction Payload := do
  let name := q.param "name"
  let body ← strictBody q ["password", "role"]
  if body.entries = [] then apiFail "bad_request" "password or role is required"
  else
    let password ← stringField body "password"
    let role ← stringField body "role"
    match password with
    | none => patchRole options name role
    | some password => do
      lift (changePassword name password)
      patchRole options name role

def deleteUserHandler : ApiAction Payload := do
  let body ← strictBody q ["confirm"]
  let confirm ← stringField body "confirm"
  lift (deleteUser options (q.param "name") (confirm.getD ""))
  pure .nothing

/-! ## Handlers of rules -/

/-- A field of `put_acl`: a string that is not empty. -/
def aclField (body : Dict String Json) (key : String) : ApiAction String :=
  match body.get? key with
  | some (.str s) => if s = "" then apiFail "bad_request" s!"{key} is required" else pure s
  | _ => apiFail "bad_request" s!"{key} is required"

def putAcl : ApiAction Payload := do
  let body ← strictBody q ["user", "topic", "permission"]
  let user ← aclField body "user"
  let topic ← aclField body "topic"
  let permission ← aclField body "permission"
  let rule ← lift (setRule user topic permission)
  pure (.rule rule)

/-- `_required` -/
def requiredArg (name : String) : ApiAction String :=
  match nonEmpty (q.arg name) with
  | none => apiFail "bad_request" s!"query parameter {name} is required"
  | some value => pure value

def deleteAcl : ApiAction Payload := do
  let user ← requiredArg q "user"
  let topic ← requiredArg q "topic"
  removeRule user topic
  pure .nothing

/-! ## Handlers of tokens -/

/-- `_text`: a field that may be absent or null. -/
def textField (body : Dict String Json) (name : String) : ApiAction (Option String) :=
  match body.get? name with
  | none | some .null => pure none
  | some (.str s) => pure (some s)
  | some _ => apiFail "bad_request" s!"{name} must be a string"

/-- `_text` with `required` -/
def requiredText (body : Dict String Json) (name : String) : ApiAction String :=
  match body.get? name with
  | none | some .null => apiFail "bad_request" s!"{name} is required"
  | some (.str s) =>
    if s = "" then apiFail "bad_request" s!"{name} must be a non-empty string" else pure s
  | some _ => apiFail "bad_request" s!"{name} must be a non-empty string"

def createTokenHandler : ApiAction Payload := do
  let body ← q.body
  let user ← requiredText body "user"
  let label ← textField body "label"
  let expires ← textField body "expires"
  let r ← createToken d user label expires
  pure (.token r.1 r.2)

def revealTokenHandler : ApiAction Payload := do
  let body ← q.body
  let user ← requiredText body "user"
  let id ← requiredText body "id"
  let value ← revealToken user id
  pure (.value value)

def revokeTokenHandler : ApiAction Payload := do
  match nonEmpty (q.arg "user"), nonEmpty (q.arg "id") with
  | some user, some id => do
    revokeToken user id
    pure .nothing
  | _, _ => apiFail "bad_request" "user and id are required"

end

/-! ## Routes -/

inductive Endpoint where
  | listUsers
  | createUser
  | userDetail
  | patchUser
  | deleteUser
  | listAcl
  | putAcl
  | deleteAcl
  | listTokens
  | createToken
  | revealToken
  | revokeToken
  deriving DecidableEq, Repr

def Endpoint.handle (options : Options) (d : Ntfyd) (q : ApiRequest) : Endpoint → ApiAction Payload
  | .listUsers => do
    let users ← lift (Ntfy.listUsers options)
    pure (.users users)
  | .createUser => createUserHandler options q
  | .userDetail => Ntfy.userDetail options q
  | .patchUser => Ntfy.patchUser options q
  | .deleteUser => deleteUserHandler options q
  | .listAcl => do
    let rules ← lift (listRules (nonEmpty (q.arg "user")) (nonEmpty (q.arg "topic")))
    pure (.rules rules)
  | .putAcl => Ntfy.putAcl q
  | .deleteAcl => Ntfy.deleteAcl q
  | .listTokens => do
    let tokens ← Ntfy.listTokens (nonEmpty (q.arg "user"))
    pure (.tokens tokens)
  | .createToken => createTokenHandler d q
  | .revealToken => revealTokenHandler q
  | .revokeToken => revokeTokenHandler q

/-- What the three `register` functions add. -/
def accountRoutes : List (Registration Endpoint) :=
  [⟨"GET".toList, "/api/users".toList, .listUsers, false⟩,
    ⟨"POST".toList, "/api/users".toList, .createUser, false⟩,
    ⟨"GET".toList, "/api/users/\x7bname\x7d".toList, .userDetail, false⟩,
    ⟨"PATCH".toList, "/api/users/\x7bname\x7d".toList, .patchUser, false⟩,
    ⟨"DELETE".toList, "/api/users/\x7bname\x7d".toList, .deleteUser, false⟩,
    ⟨"GET".toList, "/api/acl".toList, .listAcl, false⟩,
    ⟨"PUT".toList, "/api/acl".toList, .putAcl, false⟩,
    ⟨"DELETE".toList, "/api/acl".toList, .deleteAcl, false⟩,
    ⟨"GET".toList, "/api/tokens".toList, .listTokens, false⟩,
    ⟨"POST".toList, "/api/tokens".toList, .createToken, false⟩,
    ⟨"POST".toList, "/api/tokens/reveal".toList, .revealToken, false⟩,
    ⟨"DELETE".toList, "/api/tokens".toList, .revokeToken, false⟩]

/-- A request as it comes from the server. Its path parameters are still quoted. -/
structure ApiCall where
  method : Text
  path : Text
  arg : String → Option String
  json : Option Json

/-- The endpoint of a call, and the request that its handler gets. -/
def ApiCall.target (unquote : Text → String) (c : ApiCall) :
    Except AdminUi.ApiError (Endpoint × ApiRequest) :=
  ((Router.build id accountRoutes).match c.method c.path).map fun r =>
    (r.1, ⟨fun name => ((r.2.get? name.toList).map unquote).getD "", c.arg, c.json⟩)

def answer (options : Options) (unquote : Text → String) (d : Ntfyd) (c : ApiCall) :
    ApiAction Payload :=
  match c.target unquote with
  | .error .methodNotAllowed => apiFail "method_not_allowed" "method not allowed"
  | .error _ => apiFail "not_found" "not found"
  | .ok (endpoint, q) => endpoint.handle options d q

/-- What fails in a call whose CLI calls do not: backups and the origin store, never with a 4xx. -/
def ioFails (o : ApiOp) (_ : ApiWorld) (e : Failure) : Bool := !o.isCli && 500 ≤ e.status

end HaAddons.Ntfy
