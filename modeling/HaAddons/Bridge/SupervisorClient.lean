import HaAddons.Lib.Json
import Mathlib.Data.List.Infix

/-!
# The Supervisor client

`supervisor.Client` asks the V2 path `/apps/…` first and falls back to the V1 path `/addons/…`.
Each operation has its own copy of the fallback.

The answers come from `exec`, one for each request; a body that breaks off counts as a failed
request. `Codec` reads a body as a document and writes one; what the document says to a Go struct
is `HaAddons.Json`.
-/

namespace HaAddons.Bridge.Supervisor

abbrev Bytes := List UInt8

/-! ## Contract types -/

/-- `contract.AddOnInfo`. A nil map or slice is `none`. -/
structure AddOnInfo where
  slug : String := ""
  name : String := ""
  version : String := ""
  state : String := ""
  started : Bool := false
  options : Option (Dict String String) := none
  boot : String := ""
  repository : String := ""
  hostname : String := ""
  dns : Option (List String) := none
  ingressURL : String := ""
  ingressEntry : String := ""
  webUIURL : String := ""
  deriving DecidableEq

def AddOnInfo.fields : List String :=
  ["slug", "name", "version", "state", "started", "options", "boot", "repository", "hostname",
    "dns", "ingress_url", "ingress_entry", "webui_url"]

def AddOnInfo.set (a : AddOnInfo) (field : String) (v : Json) : Except String AddOnInfo :=
  match field with
  | "slug" => return { a with slug := ← Json.string a.slug v }
  | "name" => return { a with name := ← Json.string a.name v }
  | "version" => return { a with version := ← Json.string a.version v }
  | "state" => return { a with state := ← Json.string a.state v }
  | "started" => return { a with started := ← Json.boolean a.started v }
  | "options" => return { a with options := ← Json.stringMap "string" "" Json.string a.options v }
  | "boot" => return { a with boot := ← Json.string a.boot v }
  | "repository" => return { a with repository := ← Json.string a.repository v }
  | "hostname" => return { a with hostname := ← Json.string a.hostname v }
  | "dns" => return { a with dns := ← Json.slice "string" "" Json.string a.dns v }
  | "ingress_url" => return { a with ingressURL := ← Json.string a.ingressURL v }
  | "ingress_entry" => return { a with ingressEntry := ← Json.string a.ingressEntry v }
  | "webui_url" => return { a with webUIURL := ← Json.string a.webUIURL v }
  | _ => return a

def AddOnInfo.decode : Json.Decoder AddOnInfo :=
  Json.struct "contract.AddOnInfo" AddOnInfo.fields AddOnInfo.set

structure OptionsValidateDiagnostic where
  message : String := ""
  valid : Bool := false
  pwned : Option Bool := none
  deriving DecidableEq, Repr

def OptionsValidateDiagnostic.set (d : OptionsValidateDiagnostic) (field : String) (v : Json) :
    Except String OptionsValidateDiagnostic :=
  match field with
  | "message" => return { d with message := ← Json.string d.message v }
  | "valid" => return { d with valid := ← Json.boolean d.valid v }
  | "pwned" => return { d with pwned := ← Json.pointer false Json.boolean d.pwned v }
  | _ => return d

def OptionsValidateDiagnostic.decode : Json.Decoder OptionsValidateDiagnostic :=
  Json.struct "supervisor.OptionsValidateDiagnostic" ["message", "valid", "pwned"]
    OptionsValidateDiagnostic.set

/-- The envelope `{"data": …}` around a value. -/
def dataOf {α : Type} (decode : Json.Decoder α) : Json.Decoder α :=
  Json.struct "struct" ["data"] fun a _ v => decode a v

/-- The envelope `{"data": {field: […]}}` of a list of add-ons. -/
def listOf (field : String) : Json.Decoder (Option (List AddOnInfo)) :=
  dataOf (Json.struct "struct" [field] fun a _ v =>
    Json.slice "contract.AddOnInfo" {} AddOnInfo.decode a v)

/-! ## Requests and answers -/

structure Request where
  method : String
  path : String
  body : Option Bytes := none
  deriving DecidableEq

/-- A response body: what is left to read of it, and whether it was closed. -/
structure Body where
  unread : Bytes
  closed : Bool := false
  deriving DecidableEq

structure Response where
  status : ℕ
  body : Body
  deriving DecidableEq

/-- A request that cannot be built, one that fails on the way, or an answer. -/
inductive Outcome where
  | badURL (err : String)
  | failed (err : String)
  | response (r : Response)
  deriving DecidableEq

/-- `encoding/json` on bytes: `unmarshal` wants one document and nothing after it, `decode` takes the
first one. -/
structure Codec where
  unmarshal : Bytes → Except String Json
  decode : Bytes → Except String Json
  marshal : Json → Except String Bytes

structure Client where
  exec : Request → Outcome
  codec : Codec

/-- Read what is left. -/
def Response.drain (r : Response) : Response :=
  if r.body.closed then r else { r with body := { r.body with unread := [] } }

def Response.close (r : Response) : Response := { r with body := { r.body with closed := true } }

/-- `json.NewDecoder(resp.Body).Decode`. -/
def Response.decode (c : Codec) (r : Response) : Except String Json :=
  if r.body.closed then .error "http: read on closed response body" else c.decode r.body.unread

/-! ## Errors -/

inductive Sentinel where
  | notFound
  | alreadyInstalled
  | criticalAddon
  | locked
  | transient
  deriving DecidableEq, Repr

def Sentinel.text : Sentinel → String
  | notFound => "supervisor: not found"
  | alreadyInstalled => "supervisor: already installed"
  | criticalAddon => "supervisor: critical addon protected"
  | locked => "supervisor: slug currently locked"
  | transient => "supervisor: transient failure"

/-- An error with its text, and the sentinel it wraps. -/
structure GoError where
  message : String
  sentinel : Option Sentinel := none
  deriving DecidableEq, Repr

def classifyStatus (method op : String) (code : ℕ) : GoError :=
  let wrap (s : Sentinel) : GoError :=
    ⟨s.text ++ ": supervisor: " ++ method ++ " " ++ op ++ " status " ++ toString code, some s⟩
  if code = 404 then wrap .notFound
  else if code = 409 then wrap .alreadyInstalled
  else if code = 423 then wrap .locked
  else if code = 403 then wrap .criticalAddon
  else wrap .transient

/-- The error text contains `status code`. -/
def isHTTPStatus (err : GoError) (code : ℕ) : Bool :=
  ("status " ++ toString code).toList <:+: err.message.toList

namespace Client

variable (c : Client)

/-- Build and send a request. -/
def send (req : Request) : Except GoError Response :=
  match c.exec req with
  | .badURL err => .error ⟨"supervisor: build " ++ req.path ++ " request: " ++ err, none⟩
  | .failed err => .error ⟨"supervisor: " ++ req.path ++ ": " ++ err, none⟩
  | .response r => .ok r

def statusError (path : String) (code : ℕ) : GoError :=
  ⟨"supervisor: " ++ path ++ " status " ++ toString code, none⟩

/-! ## Reading -/

/-- `started` follows from `state` where it is not set. -/
def normalize (a : AddOnInfo) : AddOnInfo :=
  if a.started then a else { a with started := a.state = "started" }

def normalizeStarted (items : Option (List AddOnInfo)) : Option (List AddOnInfo) :=
  items.map (List.map normalize)

/-- The bytes of the field name with its quotes occur somewhere in the body. -/
def containsField (body : Bytes) (field : String) : Bool :=
  field.toUTF8.data.toList <:+: body

/-- The array of a list body: `apps` if the body has those bytes and reads so, else `addons`. -/
def listItems (body : Bytes) : Except String (Option (List AddOnInfo)) :=
  let v1 := (c.codec.unmarshal body).bind (listOf "addons" none)
  match (c.codec.unmarshal body).bind (listOf "apps" none) with
  | .ok apps => if containsField body "\"apps\"" then .ok apps else v1
  | .error _ => v1

def listAddonsFromPath (path : String) : Except GoError (Option (List AddOnInfo)) := do
  let r ← c.send ⟨"GET", path, none⟩
  if r.status ≠ 200 then throw (statusError path r.status)
  match c.listItems r.body.unread with
  | .ok items => return normalizeStarted items
  | .error err => throw ⟨"supervisor: decode " ++ path ++ " envelope: " ++ err, none⟩

def listAddons : Except GoError (Option (List AddOnInfo)) :=
  match c.listAddonsFromPath "/apps" with
  | .ok items => .ok items
  | .error err =>
    match c.listAddonsFromPath "/addons" with
    | .ok items => .ok items
    | .error _ => .error err

def getAddonInfoFromPath (path : String) : Except GoError AddOnInfo := do
  let r ← c.send ⟨"GET", path, none⟩
  if r.status ≠ 200 then throw (statusError path r.status)
  match (r.decode c.codec).bind (dataOf AddOnInfo.decode {}) with
  | .ok info => return normalize info
  | .error err => throw ⟨"supervisor: decode " ++ path ++ ": " ++ err, none⟩

def getAddonInfo (slug : String) : Except GoError AddOnInfo :=
  match c.getAddonInfoFromPath ("/apps/" ++ slug ++ "/info") with
  | .ok info => .ok info
  | .error v2Err =>
    match c.getAddonInfoFromPath ("/addons/" ++ slug ++ "/info") with
    | .ok info => .ok info
    | .error v1Err =>
      if (isHTTPStatus v2Err 404 || isHTTPStatus v2Err 403) && isHTTPStatus v1Err 404 then
        .error ⟨Sentinel.notFound.text, some .notFound⟩
      else .error v1Err

/-! ## Writing -/

/-- POST with or without a body to the V2 path, then to the V1 path. No answer's body is read. -/
def postFallback (slug op : String) (body : Option Bytes) : Except GoError Unit := do
  let r ← c.send ⟨"POST", "/apps/" ++ slug ++ "/" ++ op, body⟩
  if r.status = 200 then return ()
  match c.send ⟨"POST", "/addons/" ++ slug ++ "/" ++ op, body⟩ with
  | .error _ => throw (classifyStatus "POST" op r.status)
  | .ok r₂ => if r₂.status = 200 then return () else throw (classifyStatus "POST" op r₂.status)

def postV2V1 (slug op : String) : Except GoError Unit := c.postFallback slug op none

def postWithBodyV2V1 (slug op : String) (body : Bytes) : Except GoError Unit :=
  c.postFallback slug op (some body)

def uninstall (slug : String) : Except GoError Unit := c.postV2V1 slug "uninstall"

def start (slug : String) : Except GoError Unit := c.postV2V1 slug "start"

def stop (slug : String) : Except GoError Unit := c.postV2V1 slug "stop"

def options (slug : String) (body : Json) : Except GoError Unit :=
  match c.codec.marshal body with
  | .error err => .error ⟨"supervisor: marshal options body: " ++ err, none⟩
  | .ok b => c.postWithBodyV2V1 slug "options" b

def validateOptions (slug : String) (body : Json) : Except GoError OptionsValidateDiagnostic :=
  match c.codec.marshal body with
  | .error err => .error ⟨"supervisor: marshal options/validate body: " ++ err, none⟩
  | .ok b =>
    let v2 := "/apps/" ++ slug ++ "/options/validate"
    match c.exec ⟨"POST", v2, some b⟩ with
    | .badURL err => .error ⟨"supervisor: build " ++ v2 ++ ": " ++ err, none⟩
    | .failed err => .error ⟨"supervisor: " ++ v2 ++ ": " ++ err, none⟩
    | .response resp =>
      if resp.status = 200 then
        match (resp.decode c.codec).bind (OptionsValidateDiagnostic.decode {}) with
        | .ok diag => .ok diag
        | .error err => .error ⟨"supervisor: decode options/validate: " ++ err, none⟩
      else
        let resp := resp.drain.close
        match c.exec ⟨"POST", "/addons/" ++ slug ++ "/options/validate", some b⟩ with
        | .badURL _ | .failed _ =>
          .error (classifyStatus "POST" "options/validate" resp.status)
        | .response resp2 =>
          if resp2.status = 200 then
            -- The source decodes the V2 answer here, which is closed, and not `resp2`.
            match (resp.decode c.codec).bind (OptionsValidateDiagnostic.decode {}) with
            | .ok diag => .ok diag
            | .error err => .error ⟨"supervisor: decode options/validate (v1): " ++ err, none⟩
          else .error (classifyStatus "POST" "options/validate" resp2.status)

end Client

/-! ## The seven operations -/

inductive Op where
  | listAddons
  | getAddonInfo
  | start
  | stop
  | uninstall
  | options (payload : Json)
  | validateOptions (payload : Json)

/-- What an operation returns on success. -/
inductive Value where
  | addons (items : Option (List AddOnInfo))
  | info (a : AddOnInfo)
  | diagnostic (d : OptionsValidateDiagnostic)
  | done
  deriving DecidableEq

def Client.call (c : Client) (slug : String) : Op → Except GoError Value
  | .listAddons => c.listAddons.map .addons
  | .getAddonInfo => (c.getAddonInfo slug).map .info
  | .start => (c.start slug).map fun _ => .done
  | .stop => (c.stop slug).map fun _ => .done
  | .uninstall => (c.uninstall slug).map fun _ => .done
  | .options payload => (c.options slug payload).map fun _ => .done
  | .validateOptions payload => (c.validateOptions slug payload).map .diagnostic

/-- The request of an operation below `/apps` or `/addons`; none if the payload has no JSON. -/
def Op.request (codec : Codec) (root slug : String) : Op → Option Request
  | .listAddons => some ⟨"GET", root, none⟩
  | .getAddonInfo => some ⟨"GET", root ++ "/" ++ slug ++ "/info", none⟩
  | .start => some ⟨"POST", root ++ "/" ++ slug ++ "/" ++ "start", none⟩
  | .stop => some ⟨"POST", root ++ "/" ++ slug ++ "/" ++ "stop", none⟩
  | .uninstall => some ⟨"POST", root ++ "/" ++ slug ++ "/" ++ "uninstall", none⟩
  | .options payload =>
    (codec.marshal payload).toOption.map fun b =>
      ⟨"POST", root ++ "/" ++ slug ++ "/" ++ "options", some b⟩
  | .validateOptions payload =>
    (codec.marshal payload).toOption.map fun b =>
      ⟨"POST", root ++ "/" ++ slug ++ "/options/validate", some b⟩

/-- A V2 answer that says the same as a V1 answer. The list of add-ons is under `addons` in V1,
which has no `apps`, and under `apps` in V2; all other answers are alike. -/
def Equivalent (codec : Codec) (b1 b2 : Bytes) : Op → Prop
  | .listAddons => ∃ doc1 doc2 items,
      codec.unmarshal b1 = .ok doc1 ∧ listOf "addons" none doc1 = .ok items ∧
        listOf "apps" none doc1 = .ok none ∧
      codec.unmarshal b2 = .ok doc2 ∧ listOf "apps" none doc2 = .ok items ∧
        Client.containsField b2 "\"apps\"" = true
  | _ => b1 = b2

/-- The V1 answer is understood: not the one of `ValidateOptions`; and a list only where the bytes
`"apps"` do not occur in it, or where it has no array of add-ons. -/
def Understood (codec : Codec) (b1 : Bytes) : Op → Prop
  | .listAddons => Client.containsField b1 "\"apps\"" = false ∨
      (codec.unmarshal b1).bind (listOf "addons" none) = .ok none
  | .validateOptions _ => False
  | _ => True

/-- An answer whose body has not been touched. -/
def answer (status : ℕ) (body : Bytes) : Outcome := .response ⟨status, ⟨body, false⟩⟩

section Answers

variable {c : Client} {req : Request} {status : ℕ} {body b1 b2 : Bytes}

theorem Client.send_answer (h : c.exec req = answer status body) :
    c.send req = .ok ⟨status, ⟨body, false⟩⟩ := by
  simp [Client.send, h, answer]

theorem Client.listAddonsFromPath_ok {path : String} {items : Option (List AddOnInfo)}
    (h : c.exec ⟨"GET", path, none⟩ = answer 200 body) (hitems : c.listItems body = .ok items) :
    c.listAddonsFromPath path = .ok (Client.normalizeStarted items) := by
  simp [Client.listAddonsFromPath, Client.send_answer h, hitems, bind, Except.bind, pure,
    Except.pure]

theorem Client.listAddonsFromPath_status {path : String} (hstatus : status ≠ 200)
    (h : c.exec ⟨"GET", path, none⟩ = answer status body) :
    c.listAddonsFromPath path = .error (Client.statusError path status) := by
  simp [Client.listAddonsFromPath, Client.send_answer h, hstatus, bind, Except.bind, throw,
    throwThe, MonadExceptOf.throw]

theorem Client.getAddonInfoFromPath_status {path : String} (hstatus : status ≠ 200)
    (h : c.exec ⟨"GET", path, none⟩ = answer status body) :
    c.getAddonInfoFromPath path = .error (Client.statusError path status) := by
  simp [Client.getAddonInfoFromPath, Client.send_answer h, hstatus, bind, Except.bind, throw,
    throwThe, MonadExceptOf.throw]

/-- What an answer with status 200 to a `/info` request gives. -/
def Client.infoOf (codec : Codec) (body : Bytes) : Except String AddOnInfo :=
  ((codec.decode body).bind (dataOf AddOnInfo.decode {})).map Client.normalize

theorem Client.getAddonInfoFromPath_ok {path : String}
    (h : c.exec ⟨"GET", path, none⟩ = answer 200 body) (info : AddOnInfo) :
    c.getAddonInfoFromPath path = .ok info ↔ Client.infoOf c.codec body = .ok info := by
  simp only [Client.getAddonInfoFromPath, Client.send_answer h, bind, Except.bind, pure,
    Except.pure, Response.decode, ne_eq, not_true_eq_false, if_false, Bool.false_eq_true,
    Client.infoOf, Except.map]
  cases c.codec.decode body with
  | error e => simp [throw, throwThe, MonadExceptOf.throw]
  | ok doc =>
    simp only
    cases dataOf AddOnInfo.decode {} doc <;> simp [throw, throwThe, MonadExceptOf.throw]

theorem Client.getAddonInfoFromPath_failed {path err : String}
    (h : c.exec ⟨"GET", path, none⟩ = .failed err) :
    c.getAddonInfoFromPath path = .error ⟨"supervisor: " ++ path ++ ": " ++ err, none⟩ := by
  simp [Client.getAddonInfoFromPath, Client.send, h, bind, Except.bind]

theorem Client.getAddonInfo_error {slug : String} {e2 e1 : GoError}
    (h2 : c.getAddonInfoFromPath ("/apps/" ++ slug ++ "/info") = .error e2)
    (h1 : c.getAddonInfoFromPath ("/addons/" ++ slug ++ "/info") = .error e1) :
    ∃ e, c.getAddonInfo slug = .error e := by
  simp only [Client.getAddonInfo, h2, h1]
  split
  · exact ⟨_, rfl⟩
  · exact ⟨_, rfl⟩

/-- The V1 list is read as a V2 list without add-ons when it has the bytes `"apps"`. -/
theorem Client.listItems_equivalent (h : Equivalent c.codec b1 b2 .listAddons) :
    ∃ items, (c.codec.unmarshal b1).bind (listOf "addons" none) = .ok items ∧
      c.listItems b2 = .ok items ∧
      c.listItems b1 =
        .ok (if Client.containsField b1 "\"apps\"" then none else items) := by
  obtain ⟨doc1, doc2, items, hd1, hi1, hn1, hd2, hi2, hf2⟩ := h
  refine ⟨items, by simp [hd1, Except.bind, hi1], ?_, ?_⟩
  · simp [Client.listItems, hd2, Except.bind, hi2, hf2]
  · simp only [Client.listItems, hd1, Except.bind, hi1, hn1]
    split <;> rfl

theorem Client.postFallback_ok {slug op : String} {payload : Option Bytes}
    (h : c.exec ⟨"POST", "/apps/" ++ slug ++ "/" ++ op, payload⟩ = answer 200 body) :
    c.postFallback slug op payload = .ok () := by
  simp [Client.postFallback, Client.send_answer h, bind, Except.bind, pure, Except.pure]

theorem Client.postFallback_v1 {slug op : String} {payload : Option Bytes}
    (hstatus : status ≠ 200)
    (h : c.exec ⟨"POST", "/apps/" ++ slug ++ "/" ++ op, payload⟩ = answer status body)
    (h₁ : c.exec ⟨"POST", "/addons/" ++ slug ++ "/" ++ op, payload⟩ = answer 200 b1) :
    c.postFallback slug op payload = .ok () := by
  simp [Client.postFallback, Client.send_answer h, Client.send_answer h₁, hstatus, bind,
    Except.bind, pure, Except.pure]

end Answers

section Transparency

variable {c : Client} {slug : String} {op : Op} {req1 req2 : Request} {status : ℕ}
  {body b1 b2 : Bytes} {v : Value}

/-- What an operation returns when the V2 path answers 200 with a body, whatever else there is. -/
def ReturnsOn (codec : Codec) (slug : String) (op : Op) (req2 : Request) (b2 : Bytes) (v : Value) :
    Prop :=
  ∀ c : Client, c.codec = codec → c.exec req2 = answer 200 b2 → c.call slug op = .ok v

/-- A Supervisor that answers one request and fails all others. -/
def Client.only (codec : Codec) (req : Request) (body : Bytes) : Client where
  exec r := if r = req then answer 200 body else .failed "connection refused"
  codec := codec

theorem Client.only_exec (codec : Codec) (req : Request) (body : Bytes) :
    (Client.only codec req body).exec req = answer 200 body := if_pos rfl

theorem Client.only_other (codec : Codec) (body : Bytes) {r req : Request} (h : r ≠ req) :
    (Client.only codec req body).exec r = .failed "connection refused" := if_neg h

theorem ReturnsOn.only {codec : Codec} (h : ReturnsOn codec slug op req2 b2 v) :
    (Client.only codec req2 b2).call slug op = .ok v :=
  h _ rfl (Client.only_exec codec req2 b2)

theorem list_transparent (hv2 : c.exec ⟨"GET", "/apps", none⟩ = answer status body)
    (hstatus : status ≠ 200) (hv1 : c.exec ⟨"GET", "/addons", none⟩ = answer 200 b1)
    (heq : Equivalent c.codec b1 b2 .listAddons)
    (hok : ReturnsOn c.codec slug .listAddons ⟨"GET", "/apps", none⟩ b2 v) :
    c.call slug .listAddons = .ok v ↔ Understood c.codec b1 .listAddons := by
  obtain ⟨items, hitems, hb2, hb1⟩ := Client.listItems_equivalent heq
  have hlist := Client.listAddonsFromPath_ok (Client.only_exec c.codec ⟨"GET", "/apps", none⟩ b2) hb2
  have hok := hok.only
  simp only [Client.call, Client.listAddons, hlist, Except.map, Except.ok.injEq] at hok
  simp only [Client.call, Client.listAddons, Client.listAddonsFromPath_status hstatus hv2,
    Client.listAddonsFromPath_ok hv1 hb1, Except.map, Except.ok.injEq, ← hok, Value.addons.injEq,
    Understood, hitems]
  cases Client.containsField b1 "\"apps\"" with
  | false => simp
  | true => cases items <;> simp [Client.normalizeStarted]

theorem info_transparent
    (hv2 : c.exec ⟨"GET", "/apps/" ++ slug ++ "/info", none⟩ = answer status body)
    (hstatus : status ≠ 200)
    (hv1 : c.exec ⟨"GET", "/addons/" ++ slug ++ "/info", none⟩ = answer 200 b1)
    (hok : ReturnsOn c.codec slug .getAddonInfo ⟨"GET", "/apps/" ++ slug ++ "/info", none⟩ b1 v) :
    c.call slug .getAddonInfo = .ok v := by
  have hexec := Client.only_exec c.codec ⟨"GET", "/apps/" ++ slug ++ "/info", none⟩ b1
  have hok := hok.only
  have h2 := Client.getAddonInfoFromPath_ok hexec
  have h1 := Client.getAddonInfoFromPath_ok hv1
  cases hinfo : Client.infoOf c.codec b1 with
  | ok info =>
    rw [← hok]
    simp [Client.call, Client.getAddonInfo, Client.getAddonInfoFromPath_status hstatus hv2,
      (h1 info).mpr hinfo, (h2 info).mpr hinfo]
  | error e =>
    -- Then the V2 answer itself is not understood, and the operation asks the V1 path.
    exfalso
    cases hget : (Client.only c.codec ⟨"GET", "/apps/" ++ slug ++ "/info", none⟩
        b1).getAddonInfoFromPath ("/apps/" ++ slug ++ "/info") with
    | ok info => cases hinfo.symm.trans ((h2 info).mp hget)
    | error err =>
      have hother := Client.only_other c.codec b1
        (show (⟨"GET", "/addons/" ++ slug ++ "/info", none⟩ : Request) ≠
          ⟨"GET", "/apps/" ++ slug ++ "/info", none⟩ by simp)
      obtain ⟨e, he⟩ := Client.getAddonInfo_error hget (Client.getAddonInfoFromPath_failed hother)
      simp [Client.call, he, Except.map] at hok

/-- The operations that only post. -/
theorem post_transparent {name : String} {payload : Option Bytes}
    (hcall : ∀ c' : Client, c'.codec = c.codec →
      c'.call slug op = (c'.postFallback slug name payload).map fun _ => .done)
    (hv2 : c.exec ⟨"POST", "/apps/" ++ slug ++ "/" ++ name, payload⟩ = answer status body)
    (hstatus : status ≠ 200)
    (hv1 : c.exec ⟨"POST", "/addons/" ++ slug ++ "/" ++ name, payload⟩ = answer 200 b1)
    (hok : ReturnsOn c.codec slug op ⟨"POST", "/apps/" ++ slug ++ "/" ++ name, payload⟩ b2 v) :
    c.call slug op = .ok v := by
  have hpost := Client.postFallback_ok (Client.only_exec c.codec
    ⟨"POST", "/apps/" ++ slug ++ "/" ++ name, payload⟩ b2)
  have hok := hok.only
  rw [hcall (Client.only c.codec _ b2) rfl, hpost] at hok
  rw [hcall c rfl, Client.postFallback_v1 hstatus hv2 hv1]
  exact hok

theorem validate_untransparent {payload : Json} {b : Bytes}
    (hb : c.codec.marshal payload = .ok b)
    (hv2 : c.exec ⟨"POST", "/apps/" ++ slug ++ "/options/validate", some b⟩ = answer status body)
    (hstatus : status ≠ 200)
    (hv1 : c.exec ⟨"POST", "/addons/" ++ slug ++ "/options/validate", some b⟩ = answer 200 b1) :
    c.call slug (.validateOptions payload) ≠ .ok v := by
  simp [Client.call, Client.validateOptions, hb, hv2, hv1, answer, hstatus, Response.drain,
    Response.close, Response.decode, Except.bind, Except.map]

/-- **Transparency of the fallback.** The V2 path answers with a status other than 200 and the V1
path with 200 and `b1`. Then the operation returns what it returns on the equivalent V2 answer,
if and only if the V1 answer is one the client understands. -/
theorem v1_answer_iff (h2 : op.request c.codec "/apps" slug = some req2)
    (h1 : op.request c.codec "/addons" slug = some req1)
    (hv2 : c.exec req2 = answer status body) (hstatus : status ≠ 200)
    (hv1 : c.exec req1 = answer 200 b1) (heq : Equivalent c.codec b1 b2 op)
    (hok : ReturnsOn c.codec slug op req2 b2 v) :
    c.call slug op = .ok v ↔ Understood c.codec b1 op := by
  cases op with
  | listAddons =>
    cases h2
    cases h1
    exact list_transparent hv2 hstatus hv1 heq hok
  | getAddonInfo =>
    cases h2
    cases h1
    obtain rfl : b1 = b2 := heq
    exact iff_of_true (info_transparent hv2 hstatus hv1 hok) trivial
  | start | stop | uninstall =>
    cases h2
    cases h1
    exact iff_of_true (post_transparent (fun _ _ => rfl) hv2 hstatus hv1 hok) trivial
  | options payload =>
    cases hb : c.codec.marshal payload with
    | error e => simp [Op.request, hb, Except.toOption] at h2
    | ok b =>
      obtain rfl : ⟨"POST", "/apps/" ++ slug ++ "/" ++ "options", some b⟩ = req2 := by
        simpa [Op.request, hb, Except.toOption] using h2
      obtain rfl : ⟨"POST", "/addons/" ++ slug ++ "/" ++ "options", some b⟩ = req1 := by
        simpa [Op.request, hb, Except.toOption] using h1
      refine iff_of_true (post_transparent (fun c' hc => ?_) hv2 hstatus hv1 hok) trivial
      simp [Client.call, Client.options, Client.postWithBodyV2V1, hc, hb]
  | validateOptions payload =>
    cases hb : c.codec.marshal payload with
    | error e => simp [Op.request, hb, Except.toOption] at h2
    | ok b =>
      obtain rfl : ⟨"POST", "/apps/" ++ slug ++ "/options/validate", some b⟩ = req2 := by
        simpa [Op.request, hb, Except.toOption] using h2
      obtain rfl : ⟨"POST", "/addons/" ++ slug ++ "/options/validate", some b⟩ = req1 := by
        simpa [Op.request, hb, Except.toOption] using h1
      exact iff_of_false (validate_untransparent hb hv2 hstatus hv1) id

end Transparency

/-! ## Concrete answers -/

def emptyPayload : Bytes := "\x7b\x7d".toUTF8.data.toList

/-- A codec that knows some texts and what they say. -/
def tableCodec (table : List (Bytes × Json)) : Codec where
  unmarshal b :=
    ((table.find? (·.1 = b)).map Prod.snd).elim (.error "unexpected end of JSON input") .ok
  decode b := ((table.find? (·.1 = b)).map Prod.snd).elim (.error "EOF") .ok
  marshal _ := .ok emptyPayload

/-- An old Supervisor: it knows no `/apps`, and answers everything else with `v1`. -/
def oldSupervisor (codec : Codec) (v1 : Bytes) : Client where
  exec req := if "/apps".toList <+: req.path.toList then answer 404 [] else answer 200 v1
  codec := codec

def validText : Bytes := "\x7b\"message\":\"\",\"valid\":true\x7d".toUTF8.data.toList

def validCodec : Codec :=
  tableCodec [(validText, .obj [("message", .str ""), ("valid", .bool true)])]

theorem validateOptions_returnsOn :
    ReturnsOn validCodec "mqtt" (.validateOptions (.obj []))
      ⟨"POST", "/apps/mqtt/options/validate", some emptyPayload⟩ validText
      (.diagnostic { valid := true }) := by
  intro c hc hexec
  have hmarshal : c.codec.marshal (.obj []) = .ok emptyPayload := by
    rw [hc]
    rfl
  have hdiag : (c.codec.decode validText).bind (OptionsValidateDiagnostic.decode {}) =
      .ok { valid := true } := by
    rw [hc]
    rfl
  simp [Client.call, Client.validateOptions, hmarshal, hexec, answer, Response.decode, hdiag,
    Except.map]

/-- **The V1 diagnostic is lost.** `ValidateOptions` answers an error where V2 gives a diagnostic. -/
theorem validateOptions_v1_lost :
    ¬ ∀ (c : Client) slug op req2 req1 status body b1 b2 v,
      op.request c.codec "/apps" slug = some req2 →
        op.request c.codec "/addons" slug = some req1 → c.exec req2 = answer status body →
          status ≠ 200 → c.exec req1 = answer 200 b1 → Equivalent c.codec b1 b2 op →
            ReturnsOn c.codec slug op req2 b2 v → c.call slug op = .ok v := by
  intro hall
  have hcall := hall (oldSupervisor validCodec validText) "mqtt" (.validateOptions (.obj []))
    _ _ 404 [] validText validText _ rfl rfl (by decide) (by decide) (by decide) rfl
    validateOptions_returnsOn
  have hlost : ((oldSupervisor validCodec validText).call "mqtt"
      (.validateOptions (.obj []))).toOption = none := by decide
  simp [hcall, Except.toOption] at hlost

/-- The list of an add-on as V1 and as V2 has it. -/
def v1List : Bytes :=
  "\x7b\"data\":\x7b\"addons\":[\x7b\"slug\":\"mqtt\",\"state\":\"started\"\x7d]\x7d\x7d".toUTF8.data.toList

def v2List : Bytes :=
  "\x7b\"data\":\x7b\"apps\":[\x7b\"slug\":\"mqtt\",\"state\":\"started\"\x7d]\x7d\x7d".toUTF8.data.toList

def listDoc (field : String) : Json :=
  .obj [("data", .obj [(field, .arr [.obj [("slug", .str "mqtt"), ("state", .str "started")]])])]

def listCodec : Codec := tableCodec [(v1List, listDoc "addons"), (v2List, listDoc "apps")]

theorem listAddons_returnsOn :
    ReturnsOn listCodec "" .listAddons ⟨"GET", "/apps", none⟩ v2List
      (.addons (some [{ slug := "mqtt", state := "started", started := true }])) := by
  intro c hc hexec
  have hitems : c.listItems v2List = .ok (some [{ slug := "mqtt", state := "started" }]) := by
    simp only [Client.listItems, hc]
    rfl
  simp only [Client.call, Client.listAddons, Client.listAddonsFromPath_ok hexec hitems, Except.map]
  rfl

/-- An old Supervisor's list is returned as a new one's. -/
theorem v1_answer_iff_list :
    (oldSupervisor listCodec v1List).call "" .listAddons =
      .ok (.addons (some [{ slug := "mqtt", state := "started", started := true }])) := by
  have hv2 : (oldSupervisor listCodec v1List).exec ⟨"GET", "/apps", none⟩ = answer 404 [] := by
    decide
  have hv1 : (oldSupervisor listCodec v1List).exec ⟨"GET", "/addons", none⟩ =
      answer 200 v1List := by decide
  refine (v1_answer_iff rfl rfl hv2 (by decide) hv1 ?_ listAddons_returnsOn).mpr ?_
  · exact ⟨listDoc "addons", listDoc "apps", _, rfl, rfl, rfl, rfl, rfl, by decide⟩
  · exact .inl (by decide)

end HaAddons.Bridge.Supervisor
