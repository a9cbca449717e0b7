import HaAddons.Bridge.ReadBack

/-!
# The client of the Bridge

The calls that the provider makes. Each is one request; what comes back decides the result. A
request that has no answer fails with the text of the transport's error.

* `decode_infoJson` — what the Bridge writes of an add-on is what the client reads, but for fields
  that are left out when they are empty.
-/

namespace HaAddons.Provider

open Bridge.Supervisor (AddOnInfo)

/-! ## Requests and answers -/

inductive Request where
  | info (slug : String)
  | install (slug : String)
  | start (slug : String)
  | options (slug : String) (body : Dict String String)
  | nonce
  | uninstall (slug nonce : String)
  deriving DecidableEq

namespace Request

def method : Request → String
  | info _ => "GET"
  | _ => "POST"

def path : Request → String
  | info slug => "/v1/addons/" ++ slug ++ "/info"
  | install slug => "/v1/addons/" ++ slug ++ "/install"
  | start slug => "/v1/addons/" ++ slug ++ "/start"
  | options slug _ => "/v1/addons/" ++ slug ++ "/options"
  | nonce => "/v1/auth/nonce"
  | uninstall slug _ => "/v1/addons/" ++ slug ++ "/uninstall"

/-- The header `X-Force-Destroy`; empty where it is not set. -/
def forceDestroy : Request → String
  | uninstall _ n => n
  | _ => ""

/-- The document in the body. -/
def body : Request → Option Json
  | options _ body => some (.obj (body.entries.map fun e => (e.1, .str e.2)))
  | _ => none

end Request

/-- What a body holds. Text may follow the document, which only `json.Unmarshal` minds; `err` is what
it says then. -/
inductive Body where
  | empty
  | invalid (err : String)
  | json (doc : Json)
  | followed (doc : Json) (err : String)

structure Response where
  status : ℕ
  body : Body

abbrev Answer : Request → Type := fun _ => Except String Response

/-- `contract.ErrorResponse` -/
structure ErrorResponse where
  errorCode : String := ""
  message : String := ""
  requestID : String := ""
  deriving DecidableEq, Repr

def ErrorResponse.set (e : ErrorResponse) (field : String) (v : Json) :
    Except String ErrorResponse :=
  match field with
  | "error_code" => return { e with errorCode := ← Json.string e.errorCode v }
  | "message" => return { e with message := ← Json.string e.message v }
  | "request_id" => return { e with requestID := ← Json.string e.requestID v }
  | _ => return e

def ErrorResponse.fields : List String := ["error_code", "message", "request_id"]

def ErrorResponse.decode : Json.Decoder ErrorResponse :=
  Json.struct "contract.ErrorResponse" fields ErrorResponse.set

/-- `json.Unmarshal` whose error is dropped: a field of another type keeps what it has, and the
fields after it are still read. -/
def ErrorResponse.read : Json → ErrorResponse
  | .obj entries =>
    entries.foldl (fun e entry =>
      match Json.matchField fields entry.1 with
      | some field => (e.set field entry.2).toOption.getD e
      | none => e) {}
  | _ => {}

/-- Errors of the client: the two sentinels, an answer of the Bridge, and all others. -/
inductive Error where
  | addonNotFound
  | alreadyInstalled (err : ErrorResponse)
  | bridge (status : ℕ) (err : ErrorResponse) (method path : String)
  | other (text : String)
  deriving DecidableEq

abbrev Action := Dialogue Request Answer

/-! ## Decoding -/

/-- `json.NewDecoder(resp.Body).Decode(&v)` -/
def Body.decode {α : Type} (decode : Json.Decoder α) (zero : α) : Body → Except String α
  | empty => .error "EOF"
  | invalid err => .error err
  | json doc | followed doc _ => decode zero doc

/-- `json.Unmarshal` of a body, where it raises no error. -/
def Body.unmarshal {α : Type} (decode : Json.Decoder α) (zero : α) : Body → Option α
  | json doc => (decode zero doc).toOption
  | _ => none

/-- The error of an answer, as far as its body can be read. -/
def errorResponse (r : Response) : ErrorResponse :=
  match r.body with
  | .json doc => ErrorResponse.read doc
  | _ => {}

def decodeError (req : Request) (r : Response) : Error :=
  .bridge r.status (errorResponse r) req.method req.path

/-- The nonce of a `contract.NonceResponse`. -/
def nonceResponse : Json.Decoder String :=
  Json.struct "contract.NonceResponse" ["nonce", "expires_at"] fun n field v =>
    if field = "nonce" then Json.string n v else (Json.string "" v).map fun _ => n

/-! ## The calls -/

/-- `doRequest` and `doRequestWithHeader`: the answer, where there is one. -/
def received (req : Request) (o : Except String Response) : Except Error Response :=
  o.mapError fun err => .other ("client: " ++ req.method ++ " " ++ req.path ++ ": " ++ err)

/-- A request, and what is made of the response. -/
def call {α : Type} (req : Request) (result : Response → Except Error α) :
    Action (Except Error α) :=
  .ask req fun o => .done ((received req o).bind result)

def requireSlug {α : Type} (op slug : String) (act : Action (Except Error α)) :
    Action (Except Error α) :=
  if slug = "" then .done (.error (.other ("client: " ++ op ++ " requires non-empty slug")))
  else act

def infoResult (slug : String) (r : Response) : Except Error AddOnInfo :=
  if r.status = 404 then .error .addonNotFound
  else if r.status ≠ 200 then .error (decodeError (.info slug) r)
  else
    match r.body.decode AddOnInfo.decode {} with
    | .error err => .error (.other ("client: decode addon info: " ++ err))
    | .ok info => .ok info

def getAddonInfo (slug : String) : Action (Except Error AddOnInfo) :=
  requireSlug "GetAddonInfo" slug (call (.info slug) (infoResult slug))

def nonceResult (r : Response) : Except Error String :=
  if r.status ≠ 200 then .error (decodeError .nonce r)
  else
    match r.body.decode nonceResponse "" with
    | .error err => .error (.other ("client: decode nonce: " ++ err))
    | .ok nonce => .ok nonce

def postAuthNonce : Action (Except Error String) := call .nonce nonceResult

/-- The error of an answer that says that the add-on is installed. -/
def installed (r : Response) : Option ErrorResponse :=
  (r.body.unmarshal ErrorResponse.decode {}).filter fun err => err.errorCode = "already_installed"

def installResult (slug : String) (r : Response) : Except Error Unit :=
  if r.status = 409 then
    match installed r with
    | some err => .error (.alreadyInstalled err)
    | none => .error (decodeError (.install slug) r)
  else if r.status ≠ 200 then .error (decodeError (.install slug) r)
  else .ok ()

def postAddonInstall (slug : String) : Action (Except Error Unit) :=
  requireSlug "PostAddonInstall" slug (call (.install slug) (installResult slug))

def startResult (slug : String) (r : Response) : Except Error Unit :=
  if r.status ≠ 200 then .error (decodeError (.start slug) r) else .ok ()

def postAddonStart (slug : String) : Action (Except Error Unit) :=
  requireSlug "PostAddonstart" slug (call (.start slug) (startResult slug))

/-- The fields of the answer. -/
def optionsResult (slug : String) (body : Dict String String) (r : Response) :
    Except Error (List (String × Json)) :=
  if r.status ≠ 200 then .error (decodeError (.options slug body) r)
  else
    match r.body with
    | .empty | .json .null => .ok []
    | .json (.obj fields) => .ok fields
    | .json doc =>
      .error (.other ("client: decode options response body: json: cannot unmarshal " ++
        doc.kind ++ " into Go value of type map[string]interface {}"))
    | .invalid err | .followed _ err => .error (.other ("client: decode options response body: " ++ err))

def postAddonOptions (slug : String) (body : Dict String String) :
    Action (Except Error (List (String × Json))) :=
  requireSlug "PostAddonOptions" slug (call (.options slug body) (optionsResult slug body))

def uninstallResult (slug nonce : String) (r : Response) : Except Error Unit :=
  if r.status = 204 ∨ r.status = 404 then .ok ()
  else .error (decodeError (.uninstall slug nonce) r)

def postAddonUninstall (slug nonce : String) : Action (Except Error Unit) :=
  requireSlug "PostAddonUninstall" slug
    (if nonce = "" then
      .done (.error (.other "client: PostAddonUninstall requires non-empty nonce"))
    else call (.uninstall slug nonce) (uninstallResult slug nonce))

/-! ## What the Bridge writes -/

def textField (name value : String) : List (String × Json) :=
  if value = "" then [] else [(name, .str value)]

def optionsField (o : Option (Dict String String)) : List (String × Json) :=
  (o.filter fun d => d.entries ≠ []).elim [] fun d =>
    [("options", .obj (d.entries.map fun e => (e.1, .str e.2)))]

def dnsField (o : Option (List String)) : List (String × Json) :=
  (o.filter fun names => names ≠ []).elim [] fun names => [("dns", .arr (names.map .str))]

/-- `contract.AddOnInfo` as JSON. The fields with `omitempty` are left out where they are empty. -/
def infoFields (a : AddOnInfo) : List (String × Json) :=
  [("slug", .str a.slug), ("name", .str a.name), ("version", .str a.version),
      ("state", .str a.state), ("started", .bool a.started)] ++ optionsField a.options ++
    [("boot", .str a.boot), ("repository", .str a.repository)] ++ textField "hostname" a.hostname ++
    dnsField a.dns ++
    textField "ingress_url" a.ingressURL ++ textField "ingress_entry" a.ingressEntry ++
    textField "webui_url" a.webUIURL

def infoJson (a : AddOnInfo) : Json := .obj (infoFields a)

/-- What is left of an add-on after it was written and read: no empty map and no empty list. -/
def sent (a : AddOnInfo) : AddOnInfo :=
  { a with
    options := a.options.filter fun d => d.entries ≠ []
    dns := a.dns.filter fun names => names ≠ [] }

open Bridge (setEntry decode_obj)

theorem setEntry_field {a : AddOnInfo} {name : String} (h : name ∈ AddOnInfo.fields) (v : Json) :
    setEntry a (name, v) = AddOnInfo.set a name v := by
  have hname : ∀ n ∈ AddOnInfo.fields, Json.matchField AddOnInfo.fields n = some n := by decide
  unfold setEntry
  rw [hname name h]

/-- A new key goes to the end. -/
theorem entries_insert_new {κ ν : Type} [DecidableEq κ] {d : Dict κ ν} {k : κ} (h : k ∉ d.keys)
    (v : ν) : (d.insert k v).entries = d.entries ++ [(k, v)] := by
  simp only [Dict.insert, dif_neg h]

theorem foldlM_insert_texts {entries : List (String × String)}
    (hnodup : (entries.map Prod.fst).Nodup) (acc : Dict String String)
    (hnew : ∀ e ∈ entries, e.1 ∉ acc.keys) :
    ∃ d, (entries.map fun e => (e.1, Json.str e.2)).foldlM
        (fun d e => (Json.string "" e.2).map (Dict.insert d e.1)) acc =
          (Except.ok d : Except String (Dict String String)) ∧
      d.entries = acc.entries ++ entries := by
  induction entries generalizing acc with
  | nil => exact ⟨acc, rfl, (List.append_nil _).symm⟩
  | cons e entries ih =>
    obtain ⟨henotin, hnodup⟩ := List.nodup_cons.mp hnodup
    obtain ⟨henew, hnew⟩ := List.forall_mem_cons.mp hnew
    have hnew' : ∀ e' ∈ entries, e'.1 ∉ (acc.insert e.1 e.2).keys := by
      intro e' he' hmem
      rcases Dict.mem_keys_insert.mp hmem with heq | hmem
      · exact henotin (heq ▸ List.mem_map_of_mem he')
      · exact hnew e' he' hmem
    obtain ⟨d, hd, hentries⟩ := ih hnodup (acc.insert e.1 e.2) hnew'
    refine ⟨d, hd, ?_⟩
    rw [hentries, entries_insert_new henew, List.append_assoc]
    rfl

theorem stringMap_texts (d : Dict String String) :
    Json.stringMap "string" "" Json.string none
      (.obj (d.entries.map fun e => (e.1, .str e.2))) = .ok (some d) := by
  obtain ⟨d', hd', hentries⟩ := foldlM_insert_texts d.nodup .empty fun _ _ hmem =>
    absurd hmem List.not_mem_nil
  obtain rfl : d' = d := by
    cases d'
    cases d
    exact Dict.mk.injEq .. ▸ hentries
  exact congrArg (Except.map some) hd'

theorem slice_texts (names : List String) :
    Json.slice "string" "" Json.string none (.arr (names.map .str)) = .ok (some names) := by
  have hmap : (names.map Json.str).mapM (Json.string "") = .ok names := by
    induction names with
    | nil => rfl
    | cons n names ih =>
      rw [List.map_cons, List.mapM_cons, ih]
      rfl
  exact congrArg (Except.map some) hmap

theorem ok_bind {α β : Type} (a : α) (f : α → Except String β) : (Except.ok a >>= f) = f a := rfl

/-- A text field sets its field, also where it is left out because it is empty. -/
theorem foldlM_textField {name : String} (hname : name ∈ AddOnInfo.fields)
    (f : AddOnInfo → String → AddOnInfo)
    (hset : ∀ a t, AddOnInfo.set a name (.str t) = .ok (f a t)) {a : AddOnInfo}
    (hempty : f a "" = a) (t : String) : (textField name t).foldlM setEntry a = .ok (f a t) := by
  unfold textField
  by_cases h : t = ""
  · rw [if_pos h, h, hempty]
    rfl
  · rw [if_neg h, List.foldlM_cons, setEntry_field hname, hset]
    rfl

theorem foldlM_optionsField {a : AddOnInfo} (h : a.options = none)
    (o : Option (Dict String String)) :
    (optionsField o).foldlM setEntry a =
      .ok { a with options := o.filter fun d => d.entries ≠ [] } := by
  have hset (d : Dict String String) : AddOnInfo.set a "options"
      (.obj (d.entries.map fun e => (e.1, .str e.2))) = .ok { a with options := some d } := by
    show (Json.stringMap "string" "" Json.string a.options _).bind _ = _
    rw [h, stringMap_texts]
    rfl
  unfold optionsField
  cases o.filter fun d => d.entries ≠ [] with
  | none => exact congrArg Except.ok (by rw [← h])
  | some d =>
    rw [Option.elim_some, List.foldlM_cons, setEntry_field (by decide), hset]
    rfl

theorem foldlM_dnsField {a : AddOnInfo} (h : a.dns = none) (o : Option (List String)) :
    (dnsField o).foldlM setEntry a = .ok { a with dns := o.filter fun names => names ≠ [] } := by
  have hset (names : List String) : AddOnInfo.set a "dns" (.arr (names.map .str)) =
      .ok { a with dns := some names } := by
    show (Json.slice "string" "" Json.string a.dns _).bind _ = _
    rw [h, slice_texts]
    rfl
  unfold dnsField
  cases o.filter fun names => names ≠ [] with
  | none => exact congrArg Except.ok (by rw [← h])
  | some names =>
    rw [Option.elim_some, List.foldlM_cons, setEntry_field (by decide), hset]
    rfl

theorem decode_infoJson (a : AddOnInfo) : AddOnInfo.decode {} (infoJson a) = .ok (sent a) := by
  let head : AddOnInfo :=
    { slug := a.slug, name := a.name, version := a.version, state := a.state, started := a.started }
  have hhead : ([("slug", .str a.slug), ("name", .str a.name), ("version", .str a.version),
      ("state", .str a.state), ("started", .bool a.started)] : List (String × Json)).foldlM
        setEntry {} = .ok head := rfl
  have hmiddle (b : AddOnInfo) : ([("boot", .str a.boot), ("repository", .str a.repository)] :
      List (String × Json)).foldlM setEntry b =
        .ok { b with boot := a.boot, repository := a.repository } := rfl
  rw [infoJson, infoFields, decode_obj]
  simp only [List.foldlM_append]
  rw [hhead, ok_bind, foldlM_optionsField rfl, ok_bind, hmiddle, ok_bind,
    foldlM_textField (by decide) (fun b t => { b with hostname := t }) (fun _ _ => rfl) rfl,
    ok_bind, foldlM_dnsField rfl, ok_bind,
    foldlM_textField (by decide) (fun b t => { b with ingressURL := t }) (fun _ _ => rfl) rfl,
    ok_bind,
    foldlM_textField (by decide) (fun b t => { b with ingressEntry := t }) (fun _ _ => rfl) rfl,
    ok_bind,
    foldlM_textField (by decide) (fun b t => { b with webUIURL := t }) (fun _ _ => rfl) rfl]
  rfl

end HaAddons.Provider
