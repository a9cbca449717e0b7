import HaAddons.Lib.Dialogue
import HaAddons.Lib.PercentEncoding
import HaAddons.Bridge.SupervisorClient
import HaAddons.Bridge.Nonce

/-!
# The two destructive endpoints

`POST /v1/addons/{slug}/uninstall` and `POST /v1/addons/{slug}/options` refuse the slugs in
`critical_addons` before they ask for a nonce or a lock, and then call the Supervisor with the slug in
the path. What the nonce manager, the slug mutexes and the Supervisor answer is left to the outside
world; requests are served concurrently. All texts are bytes, as they are in Go.

The guard compares the slug as the router hands it over. That is the escaped spelling where the
request has one, and the Supervisor decodes it again: `core%5Fssh` passes the guard and uninstalls
`core_ssh` (`critical_uninstalled`).

* `critical_untouched` — in every run in which no request spells a critical slug in another way, no
  uninstall or options call reaches a critical slug.
-/

namespace HaAddons.Bridge.Handlers

open Supervisor URL Percent

/-! ## Requests and answers -/

/-- A request to the Supervisor as it is sent. -/
structure Call where
  method : String
  path : Bytes
  rawQuery : Bytes
  body : Option Bytes
  deriving DecidableEq

/-- What the handlers ask of the nonce manager, the slug mutexes and the Supervisor. -/
inductive Ask where
  | validate (presented actorFP requestID : String)
  | tryAcquire (slug : Bytes)
  | release (slug : Bytes)
  | supervisor (c : Call)
  deriving DecidableEq

inductive AcquireError where
  | lockedTimeout
  | other
  deriving DecidableEq

def Answer : Ask → Type
  | .validate _ _ _ => Except Nonce.ValidateError Unit
  | .tryAcquire _ => Except AcquireError Unit
  | .release _ => Unit
  | .supervisor _ => Except Bytes (ℕ × Bytes)

abbrev Handler := Dialogue Ask Answer

/-- An error with its text as bytes, and the sentinel it wraps. -/
structure WireError where
  message : Bytes
  sentinel : Option Sentinel := none
  deriving DecidableEq

def WireError.ofGoError (e : GoError) : WireError := ⟨utf8 e.message, e.sentinel⟩

/-! ## The Supervisor client on the wire -/

inductive SendError where
  | badURL (err : Bytes)
  | failed (err : Bytes)
  deriving DecidableEq

/-- `NewRequestWithContext` and `Do`. -/
def send (method : String) (path : Bytes) (body : Option Bytes) :
    Handler (Except SendError (ℕ × Bytes)) :=
  match parse path with
  | .error e => .done (.error (.badURL (utf8 e.text)))
  | .ok u =>
    .ask (.supervisor ⟨method, u.escapedPath, u.rawQuery, body⟩) fun answer : Except Bytes (ℕ × Bytes) =>
      .done (answer.mapError .failed)

def buildError (path err : Bytes) : WireError :=
  ⟨utf8 "supervisor: build " ++ path ++ utf8 " request: " ++ err, none⟩

def transportError (path err : Bytes) : WireError :=
  ⟨utf8 "supervisor: " ++ path ++ utf8 ": " ++ err, none⟩

def tryPost (path : Bytes) (body : Option Bytes) : Handler (Except WireError (ℕ × Bytes)) := do
  match ← send "POST" path body with
  | .error (.badURL err) => return .error (buildError path err)
  | .error (.failed err) => return .error (transportError path err)
  | .ok r => return .ok r

def appsPath (slug : Bytes) (op : String) : Bytes := utf8 "/apps/" ++ (slug ++ utf8 ("/" ++ op))

def addonsPath (slug : Bytes) (op : String) : Bytes := utf8 "/addons/" ++ (slug ++ utf8 ("/" ++ op))

/-- `postV2V1` and `postWithBodyV2V1`. -/
def postFallback (slug : Bytes) (op : String) (body : Option Bytes) :
    Handler (Except WireError Unit) := do
  match ← tryPost (appsPath slug op) body with
  | .error e => return .error e
  | .ok (status, _) =>
    if status = 200 then return .ok ()
    else
      match ← tryPost (addonsPath slug op) body with
      | .error _ => return .error (.ofGoError (classifyStatus "POST" op status))
      | .ok (status2, _) =>
        if status2 = 200 then return .ok ()
        else return .error (.ofGoError (classifyStatus "POST" op status2))

def uninstallCall (slug : Bytes) : Handler (Except WireError Unit) :=
  postFallback slug "uninstall" none

def optionsCall (codec : Codec) (slug : Bytes) (opts : Json) : Handler (Except WireError Unit) :=
  match codec.marshal opts with
  | .error err => return .error ⟨utf8 ("supervisor: marshal options body: " ++ err), none⟩
  | .ok b => postFallback slug "options" (some b)

def decodeDiagnostic (codec : Codec) (context : String) (body : Bytes) :
    Except WireError OptionsValidateDiagnostic :=
  match (codec.decode body).bind (OptionsValidateDiagnostic.decode {}) with
  | .ok diag => .ok diag
  | .error err => .error ⟨utf8 ("supervisor: decode " ++ context ++ ": " ++ err), none⟩

def validateOptionsCall (codec : Codec) (slug : Bytes) (opts : Json) :
    Handler (Except WireError OptionsValidateDiagnostic) :=
  match codec.marshal opts with
  | .error err => return .error ⟨utf8 ("supervisor: marshal options/validate body: " ++ err), none⟩
  | .ok b => do
    let v2 := appsPath slug "options/validate"
    match ← send "POST" v2 (some b) with
    | .error (.badURL err) =>
      return .error ⟨utf8 "supervisor: build " ++ v2 ++ utf8 ": " ++ err, none⟩
    | .error (.failed err) => return .error (transportError v2 err)
    | .ok (status, body) =>
      if status = 200 then return decodeDiagnostic codec "options/validate" body
      else
        match ← send "POST" (addonsPath slug "options/validate") (some b) with
        | .error _ => return .error (.ofGoError (classifyStatus "POST" "options/validate" status))
        | .ok (status2, _) =>
          if status2 = 200 then
            -- The source decodes the first answer here, which is closed.
            return .error ⟨utf8
              "supervisor: decode options/validate (v1): http: read on closed response body", none⟩
          else return .error (.ofGoError (classifyStatus "POST" "options/validate" status2))

def getAddonInfoFromPath (codec : Codec) (path : Bytes) : Handler (Except WireError AddOnInfo) := do
  match ← send "GET" path none with
  | .error (.badURL err) => return .error (buildError path err)
  | .error (.failed err) => return .error (transportError path err)
  | .ok (status, body) =>
    if status ≠ 200 then
      return .error
        ⟨utf8 "supervisor: " ++ path ++ utf8 (" status " ++ toString status), none⟩
    else
      match (codec.decode body).bind (dataOf AddOnInfo.decode {}) with
      | .ok info => return .ok (Client.normalize info)
      | .error err =>
        return .error ⟨utf8 "supervisor: decode " ++ path ++ utf8 (": " ++ err), none⟩

/-- The error text contains `text`. -/
def WireError.mentions (e : WireError) (text : String) : Bool := utf8 text <:+: e.message

def getAddonInfo (codec : Codec) (slug : Bytes) : Handler (Except WireError AddOnInfo) := do
  match ← getAddonInfoFromPath codec (appsPath slug "info") with
  | .ok info => return .ok info
  | .error v2Err =>
    match ← getAddonInfoFromPath codec (addonsPath slug "info") with
    | .ok info => return .ok info
    | .error v1Err =>
      if (v2Err.mentions "status 404" || v2Err.mentions "status 403") &&
          v1Err.mentions "status 404" then
        return .error ⟨utf8 Sentinel.notFound.text, some .notFound⟩
      else return .error v1Err

/-- `MapError` of an error. -/
def mapError (e : WireError) : ℕ × String :=
  match e.sentinel with
  | some .notFound => (404, "not_found")
  | some .alreadyInstalled => (409, "already_installed")
  | some .criticalAddon => (403, "critical_addon_protected")
  | some .locked => (423, "locked")
  | some .transient | none => (502, "upstream_error")

/-! ## The handlers -/

structure Config where
  criticalAddons : List Bytes
  codec : Codec
  fingerprint : String → String

/-- A request that carries a valid bearer: the path of its target, undecoded, and what the handlers
read of it. A missing header is empty. -/
structure HttpRequest where
  target : Bytes
  forceDestroy : String
  body : Bytes
  actor : String
  requestID : String

inductive ReplyBody where
  | none
  | errorCode (code : String)
  | diagnostic (d : OptionsValidateDiagnostic)
  | info (a : AddOnInfo)
  deriving DecidableEq

structure Reply where
  status : ℕ
  body : ReplyBody
  deriving DecidableEq

def errorReply (status : ℕ) (code : String) : Reply := ⟨status, .errorCode code⟩

def upstreamReply (e : WireError) : Reply := errorReply (mapError e).1 (mapError e).2

/-- What both handlers do before their own work: the guard, the nonce and the lock. -/
def guarded (q : Config) (r : HttpRequest) (slug : Bytes) (work : Handler Reply) : Handler Reply :=
  if slug = [] then return errorReply 404 "not_found"
  else if slug ∈ q.criticalAddons then return errorReply 403 "critical_addon_protected"
  else if r.forceDestroy = "" then return errorReply 401 "nonce_expired"
  else
    .ask (.validate r.forceDestroy (q.fingerprint r.actor) r.requestID) fun
      | .error .used => return errorReply 401 "nonce_used"
      | .error .expired => return errorReply 401 "nonce_expired"
      | .ok () =>
        .ask (.tryAcquire slug) fun
          | .error .lockedTimeout => return errorReply 423 "locked"
          | .error .other => return errorReply 502 "upstream_error"
          | .ok () => work.bind fun reply => .ask (.release slug) fun () => .done reply

def uninstall (q : Config) (r : HttpRequest) (slug : Bytes) : Handler Reply :=
  guarded q r slug do
    match ← uninstallCall slug with
    | .error e => return upstreamReply e
    | .ok () => return ⟨204, .none⟩

/-- `json.Unmarshal` into a `map[string]any`; an empty body leaves the nil map. -/
def decodeOptions (codec : Codec) (body : Bytes) : Except String Json :=
  if body = [] then .ok .null
  else
    match codec.unmarshal body with
    | .error err => .error err
    | .ok (.obj fields) => .ok (.obj fields)
    | .ok .null => .ok .null
    | .ok j => j.mismatch "map[string]interface {}"

def options (q : Config) (r : HttpRequest) (slug : Bytes) : Handler Reply :=
  guarded q r slug
    (match decodeOptions q.codec r.body with
    | .error _ => return errorReply 400 "invalid_body"
    | .ok opts => do
      match ← validateOptionsCall q.codec slug opts with
      | .error e => return upstreamReply e
      | .ok diag =>
        if diag.valid = false then return ⟨400, .diagnostic diag⟩
        else
          match ← optionsCall q.codec slug opts with
          | .error e =>
            if e.mentions "status 4" then return errorReply 400 (mapError e).2
            else return upstreamReply e
          | .ok () =>
            match ← getAddonInfo q.codec slug with
            | .error e => return upstreamReply e
            | .ok info => return ⟨200, .info info⟩)

inductive Endpoint where
  | uninstall
  | options
  deriving DecidableEq, Repr

/-- The router: the escaped path is matched where there is one, and the parameter is cut out of it. -/
def route (u : URL) : Option (Endpoint × Bytes) := do
  let routePath := if u.rawPath ≠ [] then u.rawPath else u.path
  let rest ← routePath.dropPrefix? (utf8 "/v1/addons/")
  let slug := rest.takeWhile (· ≠ 0x2f)
  let tail := rest.dropWhile (· ≠ 0x2f)
  if tail = utf8 "/uninstall" then return (.uninstall, slug)
  else if tail = utf8 "/options" then return (.options, slug)
  else none

/-- Where a request goes; none where the server refuses its target. -/
def routed (r : HttpRequest) : Option (Endpoint × Bytes) :=
  (setPath r.target []).toOption.bind route

def serve (q : Config) (r : HttpRequest) : Handler Reply :=
  match setPath r.target [] with
  | .error _ => return ⟨400, .none⟩
  | .ok u =>
    match route u with
    | none => return ⟨404, .none⟩
    | some (.uninstall, slug) => uninstall q r slug
    | some (.options, slug) => options q r slug

/-- The server: requests are served concurrently. -/
def server (q : Config) : System (HaAddons.Config (List Ask) (Handler Reply))
    (Move HttpRequest (∀ i, Answer i)) :=
  (Dialogue.pool (serve q)).system

end HaAddons.Bridge.Handlers
