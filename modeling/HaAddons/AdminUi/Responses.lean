import HaAddons.AdminUi.Reply
import HaAddons.AdminUi.KeepAlive

/-!
# One response to each request

A request behind the gate should get one response that a client can read to its end, whatever the
target is and whatever the handler returns or raises. Splitting the target, turning the result into
a response and printing a traceback stand outside of the `try` block or in its last `except`.

* `send_iff` — which responses can be sent and are read back.
* `clean_iff` — the requests that get exactly the response that is meant.
* `dispatch_close` — the server of `Server` is this one without its texts.
* `target_unsplit` — a target on which no response is sent.
-/

namespace HaAddons.AdminUi

/-! ## What the server depends on -/

/-- A text of the server's own. -/
structure PlainText where
  text : Text
  latin1 : ∀ c ∈ text, c.toNat < 256
  oneLine : ∀ c ∈ text, isLineEnd c = false

/-- An `ApiError`. -/
structure Failure where
  code : Text
  message : Text
  status : ℤ

/-- Any other exception. -/
structure Exn where
  traceback : Text
  /-- what the first mapper for its class makes of it -/
  mapped : Option Failure
  /-- `print(traceback.format_exc())` does not raise -/
  printable : Bool

structure Asset where
  body : Text
  ctype : PlainText
  etag : PlainText

/-- What comes of `json.loads`. -/
inductive Loaded where
  | malformed
  | raised (e : Exn)
  | value (doc : Json)

/-- What comes of a handler; its values are of type `δ`. -/
inductive HandlerResult (δ : Type) where
  | nothing
  | value (v : δ)
  | pair (status : ℤ) (v : δ)
  | download (filename contentType data : Text)
  | failed (f : Failure)
  | raised (e : Exn)

structure Backend (η δ : Type) where
  upper : Text → Text
  registrations : List (Registration η)
  ingressRemote : Text
  netlocOk : Text → Bool
  resolveAsset : Text → Except Exn (Option Asset)
  loads : Text → Loaded
  /-- `json.dumps`; none where the value is nested too deep -/
  dumps : δ → Option {text : Text // text ≠ []}
  handle : η → Request → HandlerResult δ
  csp : Option PlainText
  reason : ℤ → PlainText
  server : PlainText
  date : PlainText

variable {η δ : Type}

def Backend.router (b : Backend η δ) : Router η := Router.build b.upper b.registrations

/-! ## Texts of the responses -/

def hexFour (n : ℕ) : Text :=
  let digits := Nat.toDigits 16 n
  List.replicate (4 - digits.length) '0' ++ digits

/-- A character as `json.dumps` writes it in a string. -/
def jsonChar (c : Char) : Text :=
  if c = '"' then "\\\"".toList
  else if c = '\\' then "\\\\".toList
  else if c = '\n' then "\\n".toList
  else if c = '\r' then "\\r".toList
  else if c = '\t' then "\\t".toList
  else if c.toNat = 0x08 then "\\b".toList
  else if c.toNat = 0x0c then "\\f".toList
  else if 0x20 ≤ c.toNat ∧ c.toNat ≤ 0x7e then [c]
  else if c.toNat < 0x10000 then '\\' :: 'u' :: hexFour c.toNat
  else
    '\\' :: 'u' :: hexFour (0xd800 + (c.toNat - 0x10000) / 0x400) ++
      '\\' :: 'u' :: hexFour (0xdc00 + (c.toNat - 0x10000) % 0x400)

def jsonString (s : Text) : Text := '"' :: s.flatMap jsonChar ++ ['"']

/-- `json.dumps({"error": code, "message": message}, sort_keys=True)` -/
def errorBody (code message : Text) : Text :=
  "\x7b\"error\": ".toList ++ jsonString code ++ ", \"message\": ".toList ++ jsonString message ++
    "\x7d".toList

def badRequest (message : String) : Failure := ⟨"bad_request".toList, message.toList, 400⟩

def internalError : Failure := ⟨"internal_error".toList, "internal error".toList, 500⟩

/-- The code and the message of an error of the router; the message is the code if none is given. -/
def ApiError.failure : ApiError → Failure
  | badRequest => HaAddons.AdminUi.badRequest "bad_request"
  | payloadTooLarge => ⟨"payload_too_large".toList, "request body too large".toList, 413⟩
  | notFound => ⟨"not_found".toList, "not found".toList, 404⟩
  | methodNotAllowed => ⟨"method_not_allowed".toList, "method not allowed".toList, 405⟩

/-! ## The `try` block -/

/-- `_read_body` -/
def readJson (loads : Text → Loaded) (h : Headers) (stream : Text) :
    Except (HandlerResult δ) (Option Json) :=
  if (h.get "Transfer-Encoding".toList).any (· ≠ []) then
    .error (.failed (badRequest "chunked bodies are not supported"))
  else
    match contentLength h with
    | none => .error (.failed (badRequest "invalid Content-Length"))
    | some length =>
      if length < 0 then .error (.failed (badRequest "invalid Content-Length"))
      else if length > maxBody then .error (.failed ApiError.payloadTooLarge.failure)
      else if length = 0 then .ok none
      else if !"application/json".toList.isPrefixOf
          (lower ((h.get "Content-Type".toList).getD [])) then
        .error (.failed (badRequest "content type must be application/json"))
      else
        match loads (stream.take length.toNat) with
        | .malformed => .error (.failed (badRequest "invalid JSON"))
        | .raised e => .error (.raised e)
        | .value doc => .ok (some doc)

/-- What the `try` block comes to. -/
inductive Tried (δ : Type) where
  /-- a static file, and whether the client has it -/
  | asset (a : Asset) (current : Bool)
  | came (r : HandlerResult δ)

namespace Backend

variable (b : Backend η δ)

/-- From the router on. -/
def routed (viaIngress : Bool) (h : Head) (p : Parsed) (path query stream : Text) :
    HandlerResult δ :=
  match b.router.match p.command path with
  | .error e => .failed e.failure
  | .ok (handler, params) =>
    match (if bodyMethods.contains p.command then readJson b.loads h.headers stream else .ok none)
    with
    | .error r => r
    | .ok json => b.handle handler (requestOf viaIngress h p.command path query params json)

def tried (viaIngress : Bool) (h : Head) (p : Parsed) (path query stream : Text) : Tried δ :=
  match (if p.command = "GET".toList ∧ viaIngress then b.resolveAsset path else .ok none) with
  | .error e => .came (.raised e)
  | .ok (some a) =>
    .asset a (etagMatches (h.headers.get "If-None-Match".toList) a.etag.text)
  | .ok none => .came (b.routed viaIngress h p path query stream)

end Backend

/-! ## Responses -/

inductive Kind where
  | html
  | static
  | api
  deriving DecidableEq

/-- The arguments of `_send`. -/
structure Sending where
  status : ℤ
  body : Text
  ctype : Text
  cache : Text
  extra : Headers
  kind : Kind

def jsonType : Text := "application/json; charset=utf-8".toList

/-- `_json` -/
def sendJson (status : ℤ) (body : Text) : Sending :=
  ⟨status, body, jsonType, "no-store".toList, [], .api⟩

def sendFailure (f : Failure) : Sending := sendJson f.status (errorBody f.code f.message)

def sendAsset (path : Text) (a : Asset) (current : Bool) : Sending where
  status := if current then 304 else 200
  body := if current then [] else a.body
  ctype := a.ctype.text
  cache := "no-cache".toList
  extra := [("ETag".toList, a.etag.text)]
  kind := if path = "/".toList then .html else .static

def disposition (filename : Text) : Text :=
  "attachment; filename=\"".toList ++ filename ++ ['"']

def sendDownload (filename contentType data : Text) : Sending :=
  ⟨200, data, contentType, "no-store".toList,
    [("Content-Disposition".toList, disposition filename)], .api⟩

/-- `security_headers` -/
def securityHeaders (kind : Kind) (csp : Option PlainText) : Headers :=
  [("X-Content-Type-Options".toList, "nosniff".toList),
    ("Referrer-Policy".toList, "same-origin".toList)] ++
  match csp with
  | none => []
  | some csp => if kind = .api then [] else [("Content-Security-Policy".toList, csp.text)]

/-- What was sent on the connection, `close_connection`, and whether an exception left
`_dispatch`. -/
structure Written where
  sent : Text
  close : Bool
  escaped : Bool

/-- An exception ends the connection, and what was not yet flushed is lost. -/
def escape : Written := ⟨[], true, true⟩

/-- The request line has no version, so only a body is sent. -/
def isSimple (h : Head) : Bool := (words h.requestline).length = 2

def isLatin1 (s : Text) : Bool := s.all fun c => c.toNat < 256

namespace Backend

variable (b : Backend η δ)

def fields (close : Bool) (s : Sending) : Headers :=
  [("Server".toList, b.server.text), ("Date".toList, b.date.text),
    ("Content-Type".toList, s.ctype), ("Content-Length".toList, Nat.toDigits 10 s.body.length),
    ("Cache-Control".toList, s.cache)] ++
  securityHeaders s.kind b.csp ++ s.extra ++
  if close then [("Connection".toList, "close".toList)] else []

/-- `_send` -/
def send (simple : Bool) (method : Text) (close : Bool) (s : Sending) : Written :=
  let body := if method = "HEAD".toList then [] else s.body
  if simple then ⟨body, close, false⟩
  else if (b.fields close s).all fun e => isLatin1 e.2 then
    ⟨encodeReply (b.reason s.status).text s.status (b.fields close s) body, close, false⟩
  else escape

/-- `close_connection` and the response; none where an exception leaves. -/
def respond (path : Text) (close : Bool) : Tried δ → Option (Bool × Sending)
  | .asset a current => some (close, sendAsset path a current)
  | .came .nothing => some (close, ⟨204, [], jsonType, "no-store".toList, [], .api⟩)
  | .came (.value v) => (b.dumps v).map fun text => (close, sendJson 200 text.1)
  | .came (.pair status v) => (b.dumps v).map fun text => (close, sendJson status text.1)
  | .came (.download filename contentType data) =>
    some (close, sendDownload filename contentType data)
  | .came (.failed f) => some (true, sendFailure f)
  | .came (.raised e) =>
    match e.mapped with
    | some f => some (true, sendFailure f)
    | none => if e.printable then some (true, sendFailure internalError) else none

/-- `_dispatch`, behind the gate. -/
def letIn (viaIngress : Bool) (h : Head) (p : Parsed) (stream : Text) : Written :=
  match urlsplit b.netlocOk p.path with
  | none => escape
  | some (path, query) =>
    match b.respond path p.close (b.tried viaIngress h p path query stream) with
    | none => escape
    | some (close, s) => b.send (isSimple h) p.command close s

/-- `_dispatch` -/
def dispatch (peer : Text) (h : Head) (p : Parsed) (stream : Text) : Written :=
  let viaIngress := isIngress peer h.headers b.ingressRemote
  if !viaIngress && !b.router.isPublic p.command (rawPath h.requestline p.path) then
    b.send (isSimple h) p.command true
      (sendJson 403 "\x7b\"error\": \"ingress_only\"\x7d".toList)
  else b.letIn viaIngress h p stream

/-! ## What should be sent -/

/-- The response that is meant for what the `try` block comes to. -/
def meant (path : Text) : Tried δ → Option Sending
  | .asset a current => some (sendAsset path a current)
  | .came .nothing => some ⟨204, [], jsonType, "no-store".toList, [], .api⟩
  | .came (.value v) => (b.dumps v).map fun text => sendJson 200 text.1
  | .came (.pair status v) => (b.dumps v).map fun text => sendJson status text.1
  | .came (.download filename contentType data) => some (sendDownload filename contentType data)
  | .came (.failed f) => some (sendFailure f)
  | .came (.raised e) => some (sendFailure (e.mapped.getD internalError))

/-- A client reads this response, and nothing of the stream behind it. Without a version, it reads
until the connection is closed. -/
def Reads (simple : Bool) (method : Text) (w : Written) (s : Sending) : Prop :=
  if simple then w.sent = (if method = "HEAD".toList then [] else s.body) ∧ w.close = true
  else ∀ rest, readReply method (w.sent ++ rest) =
    some (replyTo method s.status (b.fields w.close s) s.body, rest)

/-- No exception leaves, and the client reads the one response that is meant. -/
def Clean (peer : Text) (h : Head) (p : Parsed) (stream : Text) : Prop :=
  (b.dispatch peer h p stream).escaped = false ∧
    ∀ path query, urlsplit b.netlocOk p.path = some (path, query) →
      ∃ s, b.meant path (b.tried (isIngress peer h.headers b.ingressRemote) h p path query
          stream) = some s ∧
        b.Reads (isSimple h) p.command (b.dispatch peer h p stream) s

end Backend

/-! ## When it is -/

/-- The text may stand in a header. -/
def OneLine (s : Text) : Prop := ∀ c ∈ s, c.toNat < 256 ∧ isLineEnd c = false

theorem oneLine_of_all {s : Text} (h : s.all (fun c => c.toNat < 256 && !isLineEnd c) = true) :
    OneLine s := by
  intro c hc
  have hboth := List.all_eq_true.mp h c hc
  rw [Bool.and_eq_true, decide_eq_true_eq, Bool.not_eq_true'] at hboth
  exact hboth

/-- A response to this method with this status may have a body. -/
def CanHaveBody (method : Text) (status : ℤ) : Prop :=
  200 ≤ status ∧ status ≤ 999 ∧ (method = "HEAD".toList ∨ bodiless status = false)

/-- The result or the exception can be sent. -/
def Answerable (b : Backend η δ) (simple : Bool) (method : Text) (close : Bool) : Tried δ → Prop
  | .asset _ _ => simple = true → close = true
  | .came .nothing => simple = true → close = true
  | .came (.value v) => b.dumps v ≠ none ∧ (simple = true → close = true)
  | .came (.pair status v) =>
    b.dumps v ≠ none ∧ if simple then close = true else CanHaveBody method status
  | .came (.download filename contentType _) =>
    if simple then close = true else OneLine filename ∧ OneLine contentType
  | .came (.failed f) => simple = true ∨ CanHaveBody method f.status
  | .came (.raised e) =>
    match e.mapped with
    | some f => simple = true ∨ CanHaveBody method f.status
    | none => e.printable = true

/-- The target can be split, and what the request comes to can be sent. -/
def Backend.CleanWhen (b : Backend η δ) (peer : Text) (h : Head) (p : Parsed) (stream : Text) :
    Prop :=
  ∃ path query, urlsplit b.netlocOk p.path = some (path, query) ∧
    Answerable b (isSimple h) p.command p.close
      (b.tried (isIngress peer h.headers b.ingressRemote) h p path query stream)

/-! ## The headers of a response -/

/-- The extra headers that the server sends. -/
structure Sending.Fit (s : Sending) : Prop where
  cache : s.cache = "no-store".toList ∨ s.cache = "no-cache".toList
  extra : s.extra = [] ∨ ∃ name v, s.extra = [(name, v)] ∧
    (name = "ETag".toList ∨ name = "Content-Disposition".toList)

section Fields

variable {b : Backend η δ} {close : Bool} {s : Sending}

theorem fieldName_of_all {name : Text} (h : (name ≠ [] && name.all isNameChar) = true) :
    FieldName name := by
  rw [Bool.and_eq_true, decide_eq_true_eq] at h
  exact ⟨h.1, List.all_eq_true.mp h.2⟩

theorem digit_latin1 {c : Char} (h : c.isDigit = true) : c.toNat < 256 := by
  simp only [Char.isDigit, Bool.and_eq_true, decide_eq_true_eq, UInt32.le_iff_toNat_le] at h
  have hle : c.val.toNat ≤ 57 := h.2
  show c.val.toNat < 256
  omega

theorem securityHeaders_values {P : Char → Prop}
    (hP : ∀ c, isLineEnd c = false → c.toNat < 256 → P c) (kind : Kind) (csp : Option PlainText) :
    ∀ e ∈ securityHeaders kind csp, FieldName e.1 ∧ ∀ c ∈ e.2, P c := by
  have hconst {v : Text} (hv : v.all (fun c => c.toNat < 256 && !isLineEnd c) = true) :
      ∀ c ∈ v, P c :=
    fun c hc => hP c (oneLine_of_all hv c hc).2 (oneLine_of_all hv c hc).1
  unfold securityHeaders
  rw [List.forall_mem_append, List.forall_mem_cons, List.forall_mem_singleton]
  refine ⟨⟨⟨fieldName_of_all (by decide), hconst (by decide)⟩,
    fieldName_of_all (by decide), hconst (by decide)⟩, ?_⟩
  cases csp with
  | none => exact fun e he => absurd he List.not_mem_nil
  | some csp =>
    by_cases hkind : kind = .api
    · simp only [if_pos hkind]
      exact fun e he => absurd he List.not_mem_nil
    · simp only [if_neg hkind, List.forall_mem_singleton]
      exact ⟨fieldName_of_all (by decide), fun c hc => hP c (csp.oneLine c hc) (csp.latin1 c hc)⟩

/-- The headers are the server's own but for the content type and the extra ones. -/
theorem fields_values {P : Char → Prop} (hP : ∀ c, isLineEnd c = false → c.toNat < 256 → P c)
    (hs : s.Fit) :
    (∀ e ∈ b.fields close s, ∀ c ∈ e.2, P c) ↔
      (∀ c ∈ s.ctype, P c) ∧ ∀ e ∈ s.extra, ∀ c ∈ e.2, P c := by
  have hplain (t : PlainText) : ∀ c ∈ t.text, P c :=
    fun c hc => hP c (t.oneLine c hc) (t.latin1 c hc)
  have hdigits : ∀ c ∈ Nat.toDigits 10 s.body.length, P c := by
    intro c hc
    have hdigit := List.all_eq_true.mp (isDigit_toDigits s.body.length) c hc
    exact hP c (digit_plain hdigit).2.1 (digit_latin1 hdigit)
  have hcache : ∀ c ∈ s.cache, P c := by
    have hline : OneLine s.cache := by
      rcases hs.cache with h | h
      · rw [h]
        exact oneLine_of_all (by decide)
      · rw [h]
        exact oneLine_of_all (by decide)
    exact fun c hc => hP c (hline c hc).2 (hline c hc).1
  have hclose : ∀ e ∈ (if close then [("Connection".toList, "close".toList)] else []),
      ∀ c ∈ e.2, P c := by
    have hline : OneLine "close".toList := oneLine_of_all (by decide)
    split_ifs
    · rw [List.forall_mem_singleton]
      exact fun c hc => hP c (hline c hc).2 (hline c hc).1
    · exact fun e he => absurd he List.not_mem_nil
  simp only [Backend.fields, List.forall_mem_append, List.forall_mem_cons]
  constructor
  · intro h
    exact ⟨h.1.1.1.2.2.1, h.1.2⟩
  · intro h
    refine ⟨⟨⟨⟨hplain _, hplain _, h.1, hdigits, hcache, ?_⟩, ?_⟩, h.2⟩, hclose⟩
    · exact fun e he => absurd he List.not_mem_nil
    · exact fun e he => (securityHeaders_values hP s.kind b.csp e he).2

theorem extra_names (hs : s.Fit) : s.extra.length ≤ 1 ∧ ∀ e ∈ s.extra, FieldName e.1 := by
  rcases hs.extra with h | ⟨name, v, h, hname⟩
  · rw [h]
    exact ⟨Nat.zero_le _, fun e he => absurd he List.not_mem_nil⟩
  · rw [h, List.forall_mem_singleton]
    refine ⟨le_rfl, ?_⟩
    have hnames : FieldName "ETag".toList ∧ FieldName "Content-Disposition".toList :=
      ⟨fieldName_of_all (by decide), fieldName_of_all (by decide)⟩
    rcases hname with rfl | rfl
    · exact hnames.1
    · exact hnames.2

theorem get_cons_of_ne {name name' v : Text} {fields : Headers} (h : lower name ≠ lower name') :
    Headers.get ((name, v) :: fields) name' = fields.get name' := by
  unfold Headers.get
  rw [List.find?_cons_of_neg (by simpa using h)]

theorem get_cons_self {name v : Text} {fields : Headers} :
    Headers.get ((name, v) :: fields) name = some v := by
  unfold Headers.get
  rw [List.find?_cons_of_pos (by simp)]
  rfl

theorem get_contentLength :
    (b.fields close s).get "Content-Length".toList = some (Nat.toDigits 10 s.body.length) := by
  unfold Backend.fields
  rw [List.append_assoc, List.append_assoc, List.cons_append, List.cons_append, List.cons_append,
    List.cons_append, get_cons_of_ne (by decide), get_cons_of_ne (by decide),
    get_cons_of_ne (by decide), get_cons_self]

theorem fields_framed (hs : s.Fit) : Framed (b.fields close s) s.body where
  names := by
    simp only [Backend.fields, List.forall_mem_append, List.forall_mem_cons]
    refine ⟨⟨⟨⟨?_, ?_, ?_, ?_, ?_, ?_⟩, ?_⟩, (extra_names hs).2⟩, ?_⟩
    · exact fieldName_of_all (by decide)
    · exact fieldName_of_all (by decide)
    · exact fieldName_of_all (by decide)
    · exact fieldName_of_all (by decide)
    · exact fieldName_of_all (by decide)
    · exact fun e he => absurd he List.not_mem_nil
    · exact fun e he =>
        (securityHeaders_values (fun c _ _ => trivial) s.kind b.csp e he).1
    · split_ifs
      · rw [List.forall_mem_singleton]
        exact fieldName_of_all (by decide)
      · exact fun e he => absurd he List.not_mem_nil
  few := by
    have hextra := (extra_names hs).1
    have hsecurity : (securityHeaders s.kind b.csp).length ≤ 3 := by
      unfold securityHeaders
      cases b.csp with
      | none => simp
      | some csp => split_ifs <;> simp
    have hclose : (if close then [("Connection".toList, "close".toList)] else []).length ≤ 1 := by
      split_ifs <;> simp
    simp only [Backend.fields, List.length_append, List.length_cons, List.length_nil, maxHeaders]
    omega
  length := get_contentLength

end Fields

/-! ## Which responses can be sent -/

section Send

variable {b : Backend η δ} {simple close : Bool} {method : Text} {s : Sending}

theorem isLatin1_iff {fields : Headers} :
    (fields.all fun e => isLatin1 e.2) = true ↔ ∀ e ∈ fields, ∀ c ∈ e.2, c.toNat < 256 := by
  simp only [List.all_eq_true, isLatin1, decide_eq_true_eq]

/-- The headers can be sent and read exactly if the content type and the extra ones can. -/
theorem fields_oneLine (hs : s.Fit) :
    (∀ e ∈ b.fields close s, OneLine e.2) ↔ OneLine s.ctype ∧ ∀ e ∈ s.extra, OneLine e.2 :=
  fields_values (fun _ hend hlatin => ⟨hlatin, hend⟩) hs

/-- **A response is sent and read back** exactly if its status is final and has the body, and the
content type and the extra headers can be sent; without a version, if the connection is closed. -/
theorem send_iff (hs : s.Fit) :
    ((b.send simple method close s).escaped = false ∧
        b.Reads simple method (b.send simple method close s) s) ↔
      if simple then close = true
      else FinalStatus method s.status s.body ∧ OneLine s.ctype ∧ ∀ e ∈ s.extra, OneLine e.2 := by
  cases simple with
  | true => simp only [Backend.send, Backend.Reads, if_true, true_and]
  | false =>
    simp only [Bool.false_eq_true, if_false]
    rw [← @fields_oneLine η δ b close s hs]
    by_cases hlatin : ((b.fields close s).all fun e => isLatin1 e.2) = true
    · have hread := @readReply_iff method (b.reason s.status).text s.status (b.fields close s)
        s.body (fields_framed hs) (b.reason s.status).oneLine
      simp only [Backend.send, Backend.Reads, Bool.false_eq_true, if_false, if_pos hlatin, true_and]
      refine Iff.trans hread (and_congr_right fun _ => ?_)
      constructor
      · exact fun h e he c hc => ⟨isLatin1_iff.mp hlatin e he c hc, h e he c hc⟩
      · exact fun h e he c hc => (h e he c hc).2
    · simp only [Backend.send, Bool.false_eq_true, if_false, if_neg hlatin]
      constructor
      · exact fun h => absurd h.1 Bool.noConfusion
      · exact fun h => absurd (isLatin1_iff.mpr fun e he c hc => (h.2 e he c hc).1) hlatin

end Send

/-! ## Responses to requests -/

/-- The response can be sent, and is read back. -/
def Sending.Final (s : Sending) (method : Text) : Prop :=
  FinalStatus method s.status s.body ∧ OneLine s.ctype ∧ ∀ e ∈ s.extra, OneLine e.2

theorem oneLine_jsonType : OneLine jsonType := oneLine_of_all (by decide)

theorem PlainText.isOneLine (t : PlainText) : OneLine t.text :=
  fun c hc => ⟨t.latin1 c hc, t.oneLine c hc⟩

theorem sendJson_final {method text : Text} {status : ℤ} (htext : text ≠ []) :
    (sendJson status text).Final method ↔ CanHaveBody method status := by
  have hrest : OneLine jsonType ∧ ∀ e ∈ ([] : Headers), OneLine e.2 :=
    ⟨oneLine_jsonType, fun e he => absurd he List.not_mem_nil⟩
  have hbody : FinalStatus method status text ↔ CanHaveBody method status := by
    unfold FinalStatus CanHaveBody
    refine and_congr_right fun _ => and_congr_right fun _ => ?_
    cases bodiless status <;> simp [htext]
  exact ⟨fun h => hbody.mp h.1, fun h => ⟨hbody.mpr h, hrest⟩⟩

theorem finalStatus_ok (method body : Text) : FinalStatus method 200 body :=
  ⟨by decide, by decide, fun h => absurd h (by decide)⟩

theorem canHaveBody_ok (method : Text) : CanHaveBody method 200 :=
  ⟨by decide, by decide, Or.inr rfl⟩

theorem errorBody_ne_nil (code message : Text) : errorBody code message ≠ [] := by
  unfold errorBody
  exact List.append_ne_nil_of_right_ne_nil _ (by decide)

theorem sendFailure_final {method : Text} (f : Failure) :
    (sendFailure f).Final method ↔ CanHaveBody method f.status :=
  sendJson_final (errorBody_ne_nil _ _)

theorem noContent_final (method : Text) :
    Sending.Final ⟨204, [], jsonType, "no-store".toList, [], .api⟩ method :=
  ⟨⟨by decide, by decide, fun _ => Or.inr rfl⟩, oneLine_jsonType,
    fun e he => absurd he List.not_mem_nil⟩

theorem sendAsset_final (method path : Text) (a : Asset) (current : Bool) :
    (sendAsset path a current).Final method := by
  refine ⟨?_, a.ctype.isOneLine, List.forall_mem_singleton.mpr a.etag.isOneLine⟩
  cases current with
  | true =>
    show FinalStatus method 304 []
    exact ⟨by decide, by decide, fun _ => Or.inr rfl⟩
  | false => exact finalStatus_ok method a.body

theorem sendDownload_final {method filename contentType data : Text} :
    (sendDownload filename contentType data).Final method ↔
      OneLine filename ∧ OneLine contentType := by
  have hquotes : OneLine (disposition filename) ↔ OneLine filename := by
    have hstart : OneLine "attachment; filename=\"".toList := oneLine_of_all (by decide)
    have hend : OneLine ['"'] := oneLine_of_all (by decide)
    unfold disposition OneLine
    rw [List.forall_mem_append, List.forall_mem_append]
    exact ⟨fun h => h.1.2, fun h => ⟨⟨hstart, h⟩, hend⟩⟩
  unfold Sending.Final sendDownload
  rw [List.forall_mem_singleton, hquotes]
  exact ⟨fun h => ⟨h.2.2, h.2.1⟩, fun h => ⟨finalStatus_ok method data, h.2, h.1⟩⟩

section Requests

variable {b : Backend η δ} {path : Text} {close : Bool}

theorem sendJson_fit (status : ℤ) (text : Text) : (sendJson status text).Fit :=
  ⟨Or.inl rfl, Or.inl rfl⟩

/-- What is sent is what is meant. -/
theorem meant_of_respond {t : Tried δ} {r : Bool × Sending} (h : b.respond path close t = some r) :
    b.meant path t = some r.2 ∧ r.2.Fit := by
  cases t with
  | asset a current =>
    rw [← Option.some.inj h]
    exact ⟨rfl, Or.inr rfl, Or.inr ⟨_, _, rfl, Or.inl rfl⟩⟩
  | came result =>
    cases result with
    | nothing =>
      rw [← Option.some.inj h]
      exact ⟨rfl, Or.inl rfl, Or.inl rfl⟩
    | value v =>
      obtain ⟨text, htext, rfl⟩ := Option.map_eq_some_iff.mp h
      exact ⟨by rw [Backend.meant, htext]; rfl, sendJson_fit _ _⟩
    | pair status v =>
      obtain ⟨text, htext, rfl⟩ := Option.map_eq_some_iff.mp h
      exact ⟨by rw [Backend.meant, htext]; rfl, sendJson_fit _ _⟩
    | download filename contentType data =>
      rw [← Option.some.inj h]
      exact ⟨rfl, Or.inl rfl, Or.inr ⟨_, _, rfl, Or.inr rfl⟩⟩
    | failed f =>
      rw [← Option.some.inj h]
      exact ⟨rfl, sendJson_fit _ _⟩
    | raised e =>
      cases hmapped : e.mapped with
      | some f =>
        simp only [Backend.respond, hmapped] at h
        rw [← Option.some.inj h]
        exact ⟨by rw [Backend.meant, hmapped]; rfl, sendJson_fit _ _⟩
      | none =>
        simp only [Backend.respond, hmapped] at h
        split_ifs at h
        rw [← Option.some.inj h]
        exact ⟨by rw [Backend.meant, hmapped]; rfl, sendJson_fit _ _⟩

/-- What can be sent with and without a version. -/
def CanSend (simple : Bool) (method : Text) (r : Bool × Sending) : Prop :=
  if simple then r.1 = true else r.2.Final method

/-- A JSON value can be sent exactly if it can be written and the status has a body. -/
theorem dumped_iff {simple : Bool} {method : Text} {status : ℤ} {v : δ} :
    (b.dumps v ≠ none ∧ if simple then close = true else CanHaveBody method status) ↔
      ∃ r, (b.dumps v).map (fun text => (close, sendJson status text.1)) = some r ∧
        CanSend simple method r := by
  cases hdumps : b.dumps v with
  | none => simp
  | some text =>
    have hfinal := @sendJson_final method text.1 status text.2
    constructor
    · intro h
      refine ⟨_, rfl, ?_⟩
      cases simple with
      | true => exact h.2
      | false => exact hfinal.mpr h.2
    · intro h
      obtain ⟨r, hr, hsend⟩ := h
      rw [← Option.some.inj hr] at hsend
      refine ⟨Option.some_ne_none _, ?_⟩
      cases simple with
      | true => exact hsend
      | false => exact hfinal.mp hsend

/-- The same for a response that is always made. -/
theorem canSend_iff {simple : Bool} {method : Text} {s : Sending} :
    (∃ r, some (close, s) = some r ∧ CanSend simple method r) ↔
      if simple then close = true else s.Final method := by
  constructor
  · intro h
    obtain ⟨r, hr, hsend⟩ := h
    rw [← Option.some.inj hr] at hsend
    exact hsend
  · exact fun h => ⟨_, rfl, h⟩

theorem failure_iff {simple : Bool} {method : Text} {f : Failure} :
    (simple = true ∨ CanHaveBody method f.status) ↔
      ∃ r, some (true, sendFailure f) = some r ∧ CanSend simple method r := by
  rw [canSend_iff, sendFailure_final]
  cases simple <;> simp

/-- The response that is made can be sent exactly if the result or the exception can. -/
theorem respond_iff (simple : Bool) (method : Text) (t : Tried δ) :
    Answerable b simple method close t ↔
      ∃ r, b.respond path close t = some r ∧ CanSend simple method r := by
  cases t with
  | asset a current =>
    rw [Backend.respond, canSend_iff, Answerable]
    cases simple <;> simp [sendAsset_final]
  | came result =>
    cases result with
    | nothing =>
      rw [Backend.respond, canSend_iff, Answerable]
      cases simple with
      | true => simp
      | false => exact iff_of_true (fun h => absurd h Bool.noConfusion) (noContent_final method)
    | value v =>
      rw [Backend.respond, ← dumped_iff, Answerable]
      cases simple <;> simp [canHaveBody_ok]
    | pair status v => exact dumped_iff
    | download filename contentType data =>
      rw [Backend.respond, canSend_iff, sendDownload_final, Answerable]
    | failed f => exact failure_iff
    | raised e =>
      rw [Answerable, Backend.respond]
      cases e.mapped with
      | some f => exact failure_iff
      | none =>
        cases hprint : e.printable with
        | false => simp
        | true =>
          refine iff_of_true rfl (failure_iff.mp (Or.inr ?_))
          exact ⟨by decide, by decide, Or.inr rfl⟩

theorem dispatch_admitted {peer : Text} {h : Head} {p : Parsed} {stream : Text}
    (hadmitted : isIngress peer h.headers b.ingressRemote = true ∨
      b.router.isPublic p.command (rawPath h.requestline p.path) = true) :
    b.dispatch peer h p stream = b.letIn (isIngress peer h.headers b.ingressRemote) h p stream := by
  have hopen : (!isIngress peer h.headers b.ingressRemote &&
      !b.router.isPublic p.command (rawPath h.requestline p.path)) = false := by
    rcases hadmitted with hi | hi <;> simp [hi]
  unfold Backend.dispatch
  simp only [hopen, Bool.false_eq_true, if_false]

/-- **One response to each request** that passes the gate, exactly if its target can be split and
its result or exception can be sent. -/
theorem clean_iff {peer : Text} {h : Head} {p : Parsed} {stream : Text}
    (hadmitted : isIngress peer h.headers b.ingressRemote = true ∨
      b.router.isPublic p.command (rawPath h.requestline p.path) = true) :
    b.Clean peer h p stream ↔ b.CleanWhen peer h p stream := by
  unfold Backend.Clean Backend.CleanWhen
  rw [dispatch_admitted hadmitted, Backend.letIn]
  cases hurl : urlsplit b.netlocOk p.path with
  | none =>
    constructor
    · exact fun h => Bool.noConfusion h.1
    · intro h
      obtain ⟨_, _, hsplit, -⟩ := h
      cases hsplit
  | some split =>
    obtain ⟨path, query⟩ := split
    have hanswer := @respond_iff η δ b path p.close (isSimple h) p.command
      (b.tried (isIngress peer h.headers b.ingressRemote) h p path query stream)
    cases hrespond : b.respond path p.close
        (b.tried (isIngress peer h.headers b.ingressRemote) h p path query stream) with
    | none =>
      simp only [hrespond]
      rw [hrespond] at hanswer
      constructor
      · exact fun h => Bool.noConfusion h.1
      · intro h
        obtain ⟨_, _, heq, h⟩ := h
        obtain ⟨rfl, rfl⟩ := Prod.mk.inj (Option.some.inj heq)
        obtain ⟨r, hr, -⟩ := hanswer.mp h
        cases hr
    | some r =>
      obtain ⟨close, s⟩ := r
      obtain ⟨hmeant, hfit⟩ := meant_of_respond hrespond
      have hsend := @send_iff η δ b (isSimple h) close p.command s hfit
      rw [hrespond] at hanswer
      simp only [hrespond]
      constructor
      · intro h
        obtain ⟨s', hs', hreads⟩ := h.2 path query rfl
        obtain rfl := Option.some.inj (hs'.symm.trans hmeant)
        exact ⟨path, query, rfl, hanswer.mpr ⟨_, rfl, hsend.mp ⟨h.1, hreads⟩⟩⟩
      · intro h
        obtain ⟨_, _, heq, h⟩ := h
        obtain ⟨rfl, rfl⟩ := Prod.mk.inj (Option.some.inj heq)
        obtain ⟨r, hr, hcan⟩ := hanswer.mp h
        obtain rfl := Option.some.inj hr
        obtain ⟨hnone, hreads⟩ := hsend.mpr hcan
        refine ⟨hnone, ?_⟩
        intro path' query' heq
        obtain ⟨rfl, rfl⟩ := Prod.mk.inj (Option.some.inj heq)
        exact ⟨s, hmeant, hreads⟩

end Requests

/-! ## The server without its texts -/

/-- What `Site` keeps of a result. -/
def HandlerResult.result : HandlerResult δ → Result
  | .nothing => .nothing
  | .value _ => .value
  | .pair status _ => .pair status.toNat
  | .download _ _ _ => .download
  | .failed f => .raised f.status.toNat
  | .raised e => .raised (e.mapped.getD internalError).status.toNat

def Backend.site (b : Backend η δ) : Site η where
  upper := b.upper
  registrations := b.registrations
  ingressRemote := b.ingressRemote
  resolveAsset path := ((b.resolveAsset path).toOption.getD none).map fun a => a.etag.text
  loads raw := match b.loads raw with
    | .value doc => some doc
    | _ => none
  netlocOk := b.netlocOk
  handle handler request := (b.handle handler request).result

section Site

variable {b : Backend η δ} {viaIngress : Bool} {h : Head} {p : Parsed} {path query stream : Text}

/-- Both read the same documents, and refuse the same bodies. -/
theorem readBody_site (h : Headers) :
    (readBody b.site.loads h stream).1.toOption = (@readJson δ b.loads h stream).toOption := by
  unfold readBody readJson
  by_cases hchunked : (h.get "Transfer-Encoding".toList).any (· ≠ []) = true
  · rw [if_pos hchunked, if_pos hchunked]
    rfl
  · rw [if_neg hchunked, if_neg hchunked]
    cases contentLength h with
    | none => rfl
    | some length =>
      simp only
      split_ifs
      · rfl
      · rfl
      · rfl
      · rfl
      · simp only [Backend.site]
        cases b.loads (stream.take length.toNat) <;> rfl

/-- A body that is refused is answered as an exception is. -/
theorem readJson_raises {loads : Text → Loaded} {h : Headers} {r : HandlerResult δ}
    (hread : readJson loads h stream = .error r) : ∃ status, r.result = .raised status := by
  have hfailed (f : Failure) {q : HandlerResult δ} (hq : HandlerResult.failed f = q) :
      ∃ status, q.result = .raised status := ⟨f.status.toNat, by rw [← hq]; rfl⟩
  unfold readJson at hread
  by_cases hchunked : (h.get "Transfer-Encoding".toList).any (· ≠ []) = true
  · rw [if_pos hchunked] at hread
    exact hfailed _ (Except.error.inj hread)
  · rw [if_neg hchunked] at hread
    cases hlength : contentLength h with
    | none =>
      simp only [hlength] at hread
      exact hfailed _ (Except.error.inj hread)
    | some length =>
      simp only [hlength] at hread
      split_ifs at hread
      · exact hfailed _ (Except.error.inj hread)
      · exact hfailed _ (Except.error.inj hread)
      · exact hfailed _ (Except.error.inj hread)
      · cases hloads : loads (stream.take length.toNat) with
        | malformed =>
          simp only [hloads] at hread
          exact hfailed _ (Except.error.inj hread)
        | raised e =>
          simp only [hloads] at hread
          exact ⟨(e.mapped.getD internalError).status.toNat, by
            rw [← Except.error.inj hread]; rfl⟩
        | value doc =>
          simp only [hloads] at hread
          cases hread

theorem respond_raised {result : HandlerResult δ} {status : ℕ} {close : Bool} {r : Bool × Sending}
    (hraised : result.result = .raised status)
    (hr : b.respond path close (.came result) = some r) : r.1 = true := by
  cases result with
  | failed f => rw [← Option.some.inj hr]
  | raised e =>
    unfold Backend.respond at hr
    cases hmapped : e.mapped with
    | some f =>
      simp only [hmapped] at hr
      rw [← Option.some.inj hr]
    | none =>
      simp only [hmapped] at hr
      split_ifs at hr
      rw [← Option.some.inj hr]
  | nothing => cases hraised
  | value v => cases hraised
  | pair status v => cases hraised
  | download filename contentType data => cases hraised

theorem respond_kept {result : HandlerResult δ} {close : Bool} {r : Bool × Sending}
    (hkept : ∀ status, result.result ≠ .raised status)
    (hr : b.respond path close (.came result) = some r) : r.1 = close := by
  cases result with
  | failed f => exact absurd rfl (hkept _)
  | raised e => exact absurd rfl (hkept _)
  | nothing => rw [← Option.some.inj hr]
  | value v =>
    obtain ⟨text, -, rfl⟩ := Option.map_eq_some_iff.mp hr
    rfl
  | pair status v =>
    obtain ⟨text, -, rfl⟩ := Option.map_eq_some_iff.mp hr
    rfl
  | download filename contentType data => rw [← Option.some.inj hr]

/-- The body of a request, read by both. -/
theorem bodyOf_site (h : Head) (method : Text) :
    (bodyOf b.site h method stream).1.toOption =
      (if bodyMethods.contains method then @readJson δ b.loads h.headers stream
        else .ok none).toOption := by
  unfold bodyOf
  split_ifs
  · exact readBody_site h.headers
  · rfl

/-- From the router on, both close the same connections. -/
theorem route_close {r : Bool × Sending}
    (hr : b.respond path p.close (.came (b.routed viaIngress h p path query stream)) = some r) :
    (route b.site viaIngress h p path query stream).close = r.1 := by
  unfold Backend.routed at hr
  cases hmatch : b.router.match p.command path with
  | error e =>
    simp only [hmatch] at hr
    rw [@route_of_unmatched η b.site _ _ _ _ _ _ _ hmatch]
    exact (respond_raised rfl hr).symm
  | ok found =>
    obtain ⟨handler, params⟩ := found
    simp only [hmatch] at hr
    have hbody := @bodyOf_site η δ b stream h p.command
    cases hread : (if bodyMethods.contains p.command then @readJson δ b.loads h.headers stream
        else .ok none) with
    | error q =>
      rw [hread] at hr hbody
      cases hdoc : (bodyOf b.site h p.command stream).1 with
      | ok json => rw [hdoc] at hbody; cases hbody
      | error e =>
        rw [@route_of_unreadable η b.site _ _ _ _ _ _ _ _ _ hmatch hdoc]
        split_ifs at hread
        obtain ⟨status, hstatus⟩ := readJson_raises hread
        exact (respond_raised hstatus hr).symm
    | ok json =>
      simp only [hread] at hr
      rw [hread] at hbody
      cases hdoc : (bodyOf b.site h p.command stream).1 with
      | error e => rw [hdoc] at hbody; cases hbody
      | ok json' =>
        rw [hdoc] at hbody
        obtain rfl := Option.some.inj hbody
        rw [@route_of_read η b.site _ _ _ _ _ _ _ _ _ hmatch hdoc]
        set request := requestOf viaIngress h p.command path query params json'
        by_cases hraised : ∃ status, (b.handle handler request).result = .raised status
        · obtain ⟨status, hstatus⟩ := hraised
          rw [respond_raised hstatus hr]
          exact @finish_raised η b.site _ _ _ _ _ hstatus
        · have hkept := not_exists.mp hraised
          rw [respond_kept hkept hr]
          exact (@finish_kept η b.site _ _ _ _ hkept).1

theorem send_close {simple : Bool} {method : Text} {close : Bool} {s : Sending}
    (h : (b.send simple method close s).escaped = false) :
    (b.send simple method close s).close = close := by
  unfold Backend.send at h ⊢
  cases simple with
  | true => rfl
  | false =>
    by_cases hlatin : ((b.fields close s).all fun e => isLatin1 e.2) = true
    · simp only [Bool.false_eq_true, if_false, if_pos hlatin]
    · simp only [Bool.false_eq_true, if_false, if_neg hlatin] at h
      cases h

/-- Where no static file is served, the router is asked. -/
theorem tried_routed (hassets : ∀ path, ∃ a, b.resolveAsset path = .ok a)
    (hnone : ¬ (p.command = "GET".toList ∧ viaIngress = true ∧
      (b.site.resolveAsset path).isSome = true)) :
    b.tried viaIngress h p path query stream =
      .came (b.routed viaIngress h p path query stream) := by
  obtain ⟨a, ha⟩ := hassets path
  unfold Backend.tried
  by_cases hget : p.command = "GET".toList ∧ viaIngress = true
  · cases a with
    | none => rw [if_pos hget, ha]
    | some asset =>
      refine absurd ⟨hget.1, hget.2, ?_⟩ hnone
      simp [Backend.site, ha, Except.toOption]
  · rw [if_neg hget]

/-- **Without its texts**, the server closes the same connections, where no exception leaves. -/
theorem dispatch_close {peer : Text} (hassets : ∀ path, ∃ a, b.resolveAsset path = .ok a)
    (hsent : (b.dispatch peer h p stream).escaped = false) :
    (dispatch b.site peer h p stream).close = (b.dispatch peer h p stream).close := by
  by_cases hadmitted : Admitted b.site peer h p
  · rw [dispatch_admitted hadmitted, Backend.letIn] at hsent ⊢
    cases hurl : urlsplit b.netlocOk p.path with
    | none =>
      simp only [hurl] at hsent
      cases hsent
    | some split =>
      obtain ⟨path, query⟩ := split
      simp only [hurl] at hsent ⊢
      cases hrespond : b.respond path p.close
          (b.tried (isIngress peer h.headers b.ingressRemote) h p path query stream) with
      | none =>
        simp only [hrespond] at hsent
        cases hsent
      | some r =>
        simp only [hrespond] at hsent ⊢
        rw [send_close hsent]
        by_cases hasset : p.command = "GET".toList ∧
            isIngress peer h.headers b.ingressRemote = true ∧
            (b.site.resolveAsset path).isSome = true
        · obtain ⟨etag, hetag⟩ := Option.isSome_iff_exists.mp hasset.2.2
          obtain ⟨a, ha⟩ := hassets path
          rw [(@dispatch_asset η b.site _ _ _ _ _ _ _ hasset.1 hasset.2.1 hurl hetag).2]
          cases a with
          | none => simp [Backend.site, ha, Except.toOption] at hetag
          | some asset =>
            have htried : b.tried (isIngress peer h.headers b.ingressRemote) h p path query stream =
                .asset asset
                  (etagMatches (h.headers.get "If-None-Match".toList) asset.etag.text) := by
              unfold Backend.tried
              rw [if_pos ⟨hasset.1, hasset.2.1⟩, ha]
            rw [htried] at hrespond
            rw [← Option.some.inj hrespond]
        · rw [tried_routed hassets hasset] at hrespond
          rw [@dispatch_routed η b.site _ _ _ _ _ _ hadmitted hurl hasset]
          exact route_close hrespond
  · have hshut := @gate_shut η b.site peer h p stream hadmitted
    obtain ⟨hingress, hpublic⟩ := not_or.mp hadmitted
    have hclosed : (!isIngress peer h.headers b.ingressRemote &&
        !b.router.isPublic p.command (rawPath h.requestline p.path)) = true :=
      Bool.and_eq_true_iff.mpr ⟨(Bool.not_eq_true' _).mpr ((Bool.not_eq_true _).mp hingress),
        (Bool.not_eq_true' _).mpr ((Bool.not_eq_true _).mp hpublic)⟩
    unfold Backend.dispatch at hsent ⊢
    simp only [hclosed, if_true] at hsent ⊢
    rw [hshut, send_close hsent]
    rfl

end Site

/-! ## A target that cannot be split -/

def plainText (s : String) (h : s.toList.all (fun c => c.toNat < 256 && !isLineEnd c) = true) :
    PlainText where
  text := s.toList
  latin1 c hc := (oneLine_of_all h c hc).1
  oneLine c hc := (oneLine_of_all h c hc).2

theorem plain_ok : "OK".toList.all (fun c => c.toNat < 256 && !isLineEnd c) = true := by decide

/-- A server with one route. A host with one of the two brackets is not valid. -/
def oneRoute : Backend ℕ Text where
  upper := id
  registrations := [⟨"GET".toList, "/api/a".toList, 1, false⟩]
  ingressRemote := ingressPeer
  netlocOk netloc := '[' ∈ netloc ↔ ']' ∈ netloc
  resolveAsset _ := .ok none
  loads _ := .malformed
  dumps v := if h : v ≠ [] then some ⟨v, h⟩ else none
  handle _ _ := .value "1".toList
  csp := none
  reason _ := plainText "OK" plain_ok
  server := plainText "OK" plain_ok
  date := plainText "OK" plain_ok

def ingressHead (requestline : String) : Head :=
  ⟨requestline.toList, [("X-Ingress-Path".toList, "/".toList)]⟩

theorem clean_iff_get :
    (oneRoute.Clean ingressPeer (ingressHead "GET /api/a HTTP/1.1")
        ⟨"GET".toList, "/api/a".toList, false⟩ [] ↔
      oneRoute.CleanWhen ingressPeer (ingressHead "GET /api/a HTTP/1.1")
        ⟨"GET".toList, "/api/a".toList, false⟩ []) ∧
    oneRoute.CleanWhen ingressPeer (ingressHead "GET /api/a HTTP/1.1")
        ⟨"GET".toList, "/api/a".toList, false⟩ [] :=
  ⟨clean_iff (Or.inl (by decide)),
    "/api/a".toList, [], by decide, by decide, fun h => absurd h (by decide)⟩

/-- The host of the target has a bracket that is not closed: no response is sent. -/
theorem target_unsplit :
    (ingressHead "GET http://[ HTTP/1.1").parse =
        some ⟨"GET".toList, "http://[".toList, false⟩ ∧
      isIngress ingressPeer (ingressHead "GET http://[ HTTP/1.1").headers oneRoute.ingressRemote =
        true ∧
      ¬ oneRoute.Clean ingressPeer (ingressHead "GET http://[ HTTP/1.1")
        ⟨"GET".toList, "http://[".toList, false⟩ [] :=
  ⟨by decide, by decide, fun h => absurd h.1 (by decide)⟩

end HaAddons.AdminUi
