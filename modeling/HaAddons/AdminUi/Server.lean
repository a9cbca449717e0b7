import HaAddons.Lib.Json
import HaAddons.AdminUi.Router

/-!
# The server

A request is gated, then it is a static file or a route's. What the answer is, which handler ran,
how much of the body was read, and whether the connection is closed.

* `dispatch_refused`, `dispatch_route` — the gate, and what is behind it without ingress.
* `route_ran` — a handler that runs was matched, and its body was read.
-/

namespace HaAddons.AdminUi

/-! ## Headers -/

/-- The header is one of `X-Remote-User-*` and `X-Ingress-*`. -/
def isIdentity (name : Text) : Bool :=
  "x-remote-user-".toList.isPrefixOf (lower name) || "x-ingress-".toList.isPrefixOf (lower name)

/-- What a handler can ask of the headers. -/
structure HeaderView where
  get : Text → Option Text
  items : Headers

def plainHeaders (h : Headers) : HeaderView := ⟨h.get, h⟩

/-- `_PublicHeaders` -/
def publicHeaders (h : Headers) : HeaderView where
  get name := if isIdentity name then none else h.get name
  items := h.filter fun e => !isIdentity e.1

def isIngress (peer : Text) (h : Headers) (remote : Text) : Bool :=
  peer = remote && (h.get "X-Ingress-Path".toList).any (· ≠ [])

/-! ## Requests -/

/-- `Request`; the query is not yet parsed, and the parameters are not yet unquoted. -/
structure Request where
  method : Text
  path : Text
  params : Dict Text Text
  query : Text
  headers : HeaderView
  json : Option Json
  isPublic : Bool

/-- What comes of a handler: a result, or an exception with the status it is mapped to. -/
inductive Result where
  | nothing
  | download
  | pair (status : ℕ)
  | value
  | raised (status : ℕ)
  deriving DecidableEq

/-- The status of an answer with a result; none for an exception. -/
def Result.status : Result → Option ℕ
  | nothing => some 204
  | download => some 200
  | pair status => some status
  | value => some 200
  | raised _ => none

/-- The registrations of a server, and what it depends on. -/
structure Site (η : Type) where
  upper : Text → Text
  registrations : List (Registration η)
  ingressRemote : Text
  /-- the entity tag of a static file -/
  resolveAsset : Text → Option Text
  loads : Text → Option Json
  netlocOk : Text → Bool
  handle : η → Request → Result

variable {η : Type}

def Site.router (site : Site η) : Router η := Router.build site.upper site.registrations

/-- What a request left: no status where no answer was sent, the handler that ran, whether a static
file was served, the length of the body that was read, and `close_connection`. -/
structure Answer (η : Type) where
  status : Option ℕ
  ran : Option (η × Request)
  asset : Bool
  consumed : ℕ
  close : Bool

/-! ## The body -/

def maxBody : ℤ := 65536

def bodyMethods : List Text := ["POST", "PUT", "PATCH", "DELETE"].map String.toList

/-- `s.strip()` -/
def stripSpace (s : Text) : Text := ((s.dropWhile isSpace).reverse.dropWhile isSpace).reverse

/-- Digits with single underscores between them. -/
def intDigits (s : Text) : Option ℤ :=
  if (s.splitOn '_').all fun part => part ≠ [] && part.all Char.isDigit then
    some ((s.filter (· ≠ '_')).foldl (fun n c => 10 * n + (c.toNat - '0'.toNat)) 0 : ℕ)
  else none

/-- `int(s)` -/
def pyInt (s : Text) : Option ℤ :=
  match stripSpace s with
  | '-' :: t => (intDigits t).map fun n => -n
  | '+' :: t => intDigits t
  | t => intDigits t

/-- `int(headers.get("Content-Length") or 0)` -/
def contentLength (h : Headers) : Option ℤ :=
  let value := (h.get "Content-Length".toList).getD []
  if value = [] then some 0 else pyInt value

/-- `_read_body`: the document, and the length of what was read. -/
def readBody (loads : Text → Option Json) (h : Headers) (stream : Text) :
    Except ApiError (Option Json) × ℕ :=
  if (h.get "Transfer-Encoding".toList).any (· ≠ []) then (.error .badRequest, 0)
  else
    match contentLength h with
    | none => (.error .badRequest, 0)
    | some length =>
      if length < 0 then (.error .badRequest, 0)
      else if length > maxBody then (.error .payloadTooLarge, 0)
      else if length = 0 then (.ok none, 0)
      else if !"application/json".toList.isPrefixOf
          (lower ((h.get "Content-Type".toList).getD [])) then (.error .badRequest, 0)
      else
        let raw := stream.take length.toNat
        match loads raw with
        | none => (.error .badRequest, raw.length)
        | some doc => (.ok (some doc), raw.length)

/-! ## Dispatch -/

/-- The request target as it was sent, without its query. -/
def rawPath (requestline path : Text) : Text :=
  match requestline.splitOn ' ' with
  | _ :: word :: _ => beforeQuery word
  | _ => beforeQuery path

def refused : Answer η := ⟨some 403, none, false, 0, true⟩

/-- `_error` -/
def failedWith (status : ℕ) (ran : Option (η × Request)) (consumed : ℕ) : Answer η :=
  ⟨some status, ran, false, consumed, true⟩

/-- The end of `_dispatch`: the handler's result, or its exception. -/
def finish (site : Site η) (close : Bool) (handler : η) (request : Request) (consumed : ℕ) :
    Answer η :=
  match site.handle handler request with
  | .raised status => failedWith status (some (handler, request)) consumed
  | result => ⟨result.status, some (handler, request), false, consumed, close⟩

/-- From the router on. -/
def route (site : Site η) (viaIngress : Bool) (h : Head) (p : Parsed) (path query stream : Text) :
    Answer η :=
  match site.router.match p.command path with
  | .error e => failedWith e.status none 0
  | .ok (handler, params) =>
    let body :=
      if bodyMethods.contains p.command then readBody site.loads h.headers stream
      else (.ok none, 0)
    match body.1 with
    | .error e => failedWith e.status none body.2
    | .ok json =>
      let request : Request :=
        { method := p.command, path := path, params := params, query := query
          headers := if viaIngress then plainHeaders h.headers else publicHeaders h.headers
          json := json, isPublic := !viaIngress }
      finish site p.close handler request body.2

/-- `etag_matches` -/
def etagMatches (header : Option Text) (etag : Text) : Bool :=
  match header with
  | none => false
  | some value => value ≠ [] && (value.splitOn ',').any fun part =>
      let candidate := stripSpace part
      candidate = ['*'] || ((candidate.dropPrefix? "W/".toList).getD candidate) = etag

/-- `_dispatch` -/
def dispatch (site : Site η) (peer : Text) (h : Head) (p : Parsed) (stream : Text) : Answer η :=
  let viaIngress := isIngress peer h.headers site.ingressRemote
  if !viaIngress && !site.router.isPublic p.command (rawPath h.requestline p.path) then refused
  else
    match urlsplit site.netlocOk p.path with
    | none => ⟨none, none, false, 0, true⟩
    | some (path, query) =>
      match (if p.command = "GET".toList ∧ viaIngress then site.resolveAsset path else none) with
      | some etag =>
        let status := if etagMatches (h.headers.get "If-None-Match".toList) etag then 304 else 200
        ⟨some status, none, true, 0, p.close⟩
      | none => route site viaIngress h p path query stream

/-! ## Without ingress -/

/-- The body of a request, as the handler's request gets it. -/
def bodyOf (site : Site η) (h : Head) (method stream : Text) : Except ApiError (Option Json) × ℕ :=
  if bodyMethods.contains method then readBody site.loads h.headers stream else (.ok none, 0)

theorem bodyOf_of_mem (site : Site η) (h : Head) {method stream : Text}
    (hmethod : method ∈ bodyMethods) :
    bodyOf site h method stream = readBody site.loads h.headers stream :=
  if_pos (List.contains_iff_mem.mpr hmethod)

theorem bodyOf_of_not_mem (site : Site η) (h : Head) {method stream : Text}
    (hmethod : method ∉ bodyMethods) : bodyOf site h method stream = (.ok none, 0) :=
  if_neg fun hcontains => hmethod (List.contains_iff_mem.mp hcontains)

/-- The request as the handler sees it. -/
def requestOf (viaIngress : Bool) (h : Head) (method path query : Text) (params : Dict Text Text)
    (json : Option Json) : Request where
  method := method
  path := path
  params := params
  query := query
  headers := if viaIngress then plainHeaders h.headers else publicHeaders h.headers
  json := json
  isPublic := !viaIngress

section

variable {site : Site η} {viaIngress : Bool} {h : Head} {p : Parsed} {path query stream : Text}

theorem route_of_unmatched {e : ApiError} (hmatch : site.router.match p.command path = .error e) :
    route site viaIngress h p path query stream = failedWith e.status none 0 := by
  unfold route
  rw [hmatch]

theorem route_of_unreadable {handler : η} {params : Dict Text Text} {e : ApiError}
    (hmatch : site.router.match p.command path = .ok (handler, params))
    (hbody : (bodyOf site h p.command stream).1 = .error e) :
    route site viaIngress h p path query stream =
      failedWith e.status none (bodyOf site h p.command stream).2 := by
  unfold bodyOf at hbody ⊢
  unfold route
  simp only [hmatch, hbody]

theorem route_of_read {handler : η} {params : Dict Text Text} {json : Option Json}
    (hmatch : site.router.match p.command path = .ok (handler, params))
    (hbody : (bodyOf site h p.command stream).1 = .ok json) :
    route site viaIngress h p path query stream =
      finish site p.close handler (requestOf viaIngress h p.command path query params json)
        (bodyOf site h p.command stream).2 := by
  unfold bodyOf at hbody ⊢
  unfold route
  simp only [hmatch, hbody]
  rfl

theorem finish_ran (close : Bool) (handler : η) (request : Request) (consumed : ℕ) :
    (finish site close handler request consumed).ran = some (handler, request) ∧
      (finish site close handler request consumed).asset = false := by
  unfold finish
  split <;> exact ⟨rfl, rfl⟩

theorem status_ne_403 (e : ApiError) : e.status ≠ 403 := by
  cases e <;> decide

/-- No static file comes from the router. -/
theorem route_asset : (route site viaIngress h p path query stream).asset = false := by
  cases hmatch : site.router.match p.command path with
  | error e => rw [route_of_unmatched hmatch]; rfl
  | ok found =>
    cases hbody : (bodyOf site h p.command stream).1 with
    | error e => rw [route_of_unreadable hmatch hbody]; rfl
    | ok json => rw [route_of_read hmatch hbody]; exact (finish_ran ..).2

/-- The router runs a handler, or the status is not the gate's. -/
theorem route_ran_or_status : (route site viaIngress h p path query stream).ran ≠ none ∨
    (route site viaIngress h p path query stream).status ≠ some 403 := by
  cases hmatch : site.router.match p.command path with
  | error e =>
    rw [route_of_unmatched hmatch]
    exact .inr fun h => status_ne_403 e (Option.some.inj h)
  | ok found =>
    cases hbody : (bodyOf site h p.command stream).1 with
    | error e =>
      rw [route_of_unreadable hmatch hbody]
      exact .inr fun h => status_ne_403 e (Option.some.inj h)
    | ok json =>
      rw [route_of_read hmatch hbody, (finish_ran ..).1]
      exact .inl (Option.some_ne_none _)

/-- A handler that runs was matched, and its body was read. -/
theorem route_ran {handler : η} {request : Request}
    (hran : (route site viaIngress h p path query stream).ran = some (handler, request)) :
    ∃ params json, site.router.match p.command path = .ok (handler, params) ∧
      (bodyOf site h p.command stream).1 = .ok json ∧
      request = requestOf viaIngress h p.command path query params json := by
  cases hmatch : site.router.match p.command path with
  | error e =>
    rw [route_of_unmatched hmatch] at hran
    cases hran
  | ok found =>
    cases hbody : (bodyOf site h p.command stream).1 with
    | error e =>
      rw [route_of_unreadable hmatch hbody] at hran
      cases hran
    | ok json =>
      rw [route_of_read hmatch hbody, (finish_ran ..).1] at hran
      obtain ⟨rfl, rfl⟩ := Prod.mk.inj (Option.some.inj hran)
      exact ⟨_, _, rfl, rfl, rfl⟩

variable {peer : Text}

theorem dispatch_refused (hingress : isIngress peer h.headers site.ingressRemote = false)
    (hpublic : site.router.isPublic p.command (rawPath h.requestline p.path) = false) :
    dispatch site peer h p stream = refused := by
  unfold dispatch
  simp only [hingress, hpublic, Bool.not_false, Bool.and_self, if_true]

/-- What is behind the gate without ingress: the router alone. -/
theorem dispatch_route (hingress : isIngress peer h.headers site.ingressRemote = false)
    (hpublic : site.router.isPublic p.command (rawPath h.requestline p.path) = true)
    (hurl : urlsplit site.netlocOk p.path = some (path, query)) :
    dispatch site peer h p stream = route site false h p path query stream := by
  unfold dispatch
  simp only [hingress, hpublic, hurl, Bool.not_false, Bool.not_true, Bool.and_false,
    Bool.false_eq_true, and_false, if_false]

end

end HaAddons.AdminUi
