import HaAddons.Provider.Addon
import HaAddons.Bridge.Handlers

/-!
# Pushing options end to end

The request that the client builds is served by the options handler of the Bridge, which asks the
nonce manager, the slug mutexes and the Supervisor.

The handler demands the header `X-Force-Destroy`, and the client sends it with an uninstallation
only: every push is refused before the handler asks anything.

* `push_refused` — every push ends with an error, and the Supervisor is asked nothing.
* `push_never_works` — so no push reaches the options call.
-/

namespace HaAddons.Provider

open Bridge Bridge.Handlers
open Dialogue

/-! ## The client before the Bridge -/

/-- A Bridge as it serves one provider; `other` are the handlers of the other endpoints. -/
structure Link where
  config : Handlers.Config
  actor : String
  requestID : String
  other : Request → Handler (Except String Response)

/-- The request as it arrives. -/
def Link.httpRequest (l : Link) (req : Request) (u : URL) : HttpRequest where
  target := u.escapedPath
  forceDestroy := req.forceDestroy
  body := (req.body.bind fun doc => (l.config.codec.marshal doc).toOption).getD []
  actor := l.actor
  requestID := l.requestID

def replyBody : ReplyBody → Body
  | .none => .empty
  | .errorCode code => .json (.obj [("error_code", .str code)])
  | .diagnostic d =>
    .json (.obj ([("message", .str d.message), ("valid", .bool d.valid)] ++
      d.pwned.elim [] fun b => [("pwned", .bool b)]))
  | .info a => .json (infoJson a)

def response (r : Reply) : Except String Response := .ok ⟨r.status, replyBody r.body⟩

/-- A request goes to the handlers, once its URL is built. -/
def Link.transmit (l : Link) (req : Request) : Handler (Except String Response) :=
  match URL.parse (utf8 req.path) with
  | .error e => .done (.error e.text)
  | .ok u => (serve l.config (l.httpRequest req u)).bind fun r => .done (response r)

def Link.serves (l : Link) : (req : Request) → Handler (Answer req)
  | .options slug body => l.transmit (.options slug body)
  | req => l.other req

/-- `applyOptionsIfChanged` on such a Bridge. -/
def pushes (l : Link) (slug : String) (priorState plan : Model) :
    Handler (Except Error (List Diagnostic)) :=
  (applyOptionsIfChanged slug priorState plan).subst l.serves

/-! ## What should come of it -/

/-- Nothing is in the way: the nonce is good, the lock is free, and the Supervisor answers 200 to
everything, finds the options valid and reports the add-on in a readable way. -/
def Accepts (codec : Supervisor.Codec) : (i : Ask) → Handlers.Answer i → Prop
  | .validate _ _ _, o => o = .ok ()
  | .tryAcquire _, o => o = .ok ()
  | .release _, _ => True
  | .supervisor c, o => ∃ body, o = .ok (200, body) ∧
      (utf8 "/options/validate" <:+ c.path →
        ∃ d, decodeDiagnostic codec "options/validate" body = .ok d ∧ d.valid = true) ∧
      (utf8 "/info" <:+ c.path →
        ∃ a, (codec.decode body).bind (Supervisor.dataOf Supervisor.AddOnInfo.decode {}) = .ok a)

/-- The questions so far, where all of them are answered so. -/
def accepting (codec : Supervisor.Codec) (s : List Ask) (i : Ask) (o : Handlers.Answer i)
    (s' : List Ask) : Prop := s' = s ++ [i] ∧ Accepts codec i o

/-- The Supervisor's options call with a body. -/
def OptionsCall (codec : Supervisor.Codec) (slug : String) (body : Dict String String) (i : Ask) :
    Prop :=
  ∃ c u, i = .supervisor c ∧ c.path = URL.escapedPath u ∧
    (URL.parse (appsPath (utf8 slug) "options") = .ok u ∨
      URL.parse (addonsPath (utf8 slug) "options") = .ok u) ∧
    c.body = (Request.options slug body).body.bind fun doc => (codec.marshal doc).toOption

/-- A push reaches the options call once, with the merged body, and ends well. -/
def PushWorks (l : Link) (slug : String) (priorState plan : Model) : Prop :=
  let call := OptionsCall l.config.codec slug
    (merged (entriesOf plan.options) (entriesOf priorState.options) plan.boot.valueString)
  ∀ r log, (pushes l slug priorState plan).Leads (accepting l.config.codec) [] r log →
    (∃ diags, r = .ok diags) ∧
      ∃ before i after, log = before ++ i :: after ∧ call i ∧ ∀ j ∈ before ++ after, ¬ call j

/-! ## What comes of it -/

theorem guarded_unforced (q : Handlers.Config) {r : HttpRequest} (h : r.forceDestroy = "")
    (slug : Bytes) (work : Handler Reply) :
    ∃ reply, guarded q r slug work = .done reply ∧ reply.status ≠ 200 := by
  unfold guarded
  by_cases hslug : slug = []
  · exact ⟨_, if_pos hslug, by decide⟩
  · rw [if_neg hslug]
    by_cases hcritical : slug ∈ q.criticalAddons
    · exact ⟨_, if_pos hcritical, by decide⟩
    · rw [if_neg hcritical, if_pos h]
      exact ⟨_, rfl, by decide⟩

/-- Without the header no request is served, and nothing is asked. -/
theorem serve_unforced (q : Handlers.Config) {r : HttpRequest} (h : r.forceDestroy = "") :
    ∃ reply, serve q r = .done reply ∧ reply.status ≠ 200 := by
  unfold serve
  split
  · exact ⟨_, rfl, by decide⟩
  · split
    · exact ⟨_, rfl, by decide⟩
    · exact guarded_unforced q h _ _
    · exact guarded_unforced q h _ _

theorem transmit_unforced (l : Link) (req : Request) (h : req.forceDestroy = "") :
    (∃ err, l.transmit req = .done (.error err)) ∨
      ∃ r, l.transmit req = .done (.ok r) ∧ r.status ≠ 200 := by
  unfold Link.transmit
  cases URL.parse (utf8 req.path) with
  | error e => exact .inl ⟨_, rfl⟩
  | ok u =>
    obtain ⟨reply, hreply, hstatus⟩ := serve_unforced l.config (r := l.httpRequest req u) h
    refine .inr ⟨⟨reply.status, replyBody reply.body⟩, ?_, hstatus⟩
    show (serve l.config _).bind _ = _
    rw [hreply]
    rfl

/-- The client's options request is answered with an error. -/
theorem postAddonOptions_refused (l : Link) (slug : String) (body : Dict String String) :
    ∃ e, (postAddonOptions slug body).subst l.serves = .done (.error e) := by
  unfold postAddonOptions requireSlug
  by_cases hslug : slug = ""
  · rw [if_pos hslug]
    exact ⟨_, rfl⟩
  · rw [if_neg hslug]
    show ∃ e, (l.transmit (.options slug body)).bind _ = _
    rcases transmit_unforced l (.options slug body) rfl with ⟨err, herr⟩ | ⟨r, hr, hstatus⟩
    · rw [herr]
      exact ⟨_, rfl⟩
    · rw [hr]
      exact ⟨_, congrArg done (if_pos hstatus)⟩

/-- **Every push is refused.** It ends with an error before anything is asked. -/
theorem push_refused (l : Link) (slug : String) {priorState plan : Model}
    (h : differs priorState plan = true) :
    ∃ e, pushes l slug priorState plan = .done (.error e) := by
  obtain ⟨e, he⟩ := postAddonOptions_refused l slug
    (merged (entriesOf plan.options) (entriesOf priorState.options) plan.boot.valueString)
  refine ⟨e, ?_⟩
  unfold pushes applyOptionsIfChanged
  rw [if_pos h, bind_eq, subst_bind, he]
  rfl

/-- **No push works**, whatever the Bridge, the prior state and the plan. -/
theorem push_never_works (l : Link) (slug : String) {priorState plan : Model}
    (h : differs priorState plan = true) : ¬ PushWorks l slug priorState plan := by
  intro hworks
  obtain ⟨e, he⟩ := push_refused l slug h
  obtain ⟨⟨diags, hdiags⟩, -⟩ := hworks (.error e) [] (he ▸ .done _ _)
  cases hdiags

/-! ## One option -/

/-- A Bridge without critical add-ons; the codec is given on bodies with a log level. -/
def plainLink : Link where
  config :=
    { criticalAddons := []
      codec :=
        { unmarshal := fun body =>
            if body = utf8 "\x7b\"log_level\":\"debug\"\x7d" then
              .ok (.obj [("log_level", .str "debug")])
            else .error "invalid character"
          decode := fun _ => .error "EOF"
          marshal := fun j =>
            match j with
            | .obj [("log_level", .str level)] =>
              .ok (utf8 ("\x7b\"log_level\":\"" ++ level ++ "\"\x7d"))
            | _ => .error "unsupported value" }
      fingerprint := id }
  actor := "token"
  requestID := "request"
  other := fun _ => .done (.error "connection refused")

/-- An add-on with another log level, as it is adopted. -/
def quietBaseline : Model :=
  infoToBaseline { options := some ⟨[("log_level", "info")], List.nodup_singleton "log_level"⟩ }

def debugModel : Model :=
  infoToBaseline { options := some ⟨[("log_level", "debug")], List.nodup_singleton "log_level"⟩ }

theorem push_never_works_debug : ¬ PushWorks plainLink "core_mosquitto" quietBaseline debugModel :=
  push_never_works plainLink "core_mosquitto" (by decide)

/-- The log level of an adopted add-on is not changed. -/
theorem log_level_not_pushed : ¬ PushWorks plainLink "core_mosquitto" quietBaseline debugModel := by
  intro hworks
  have hdiff : differs quietBaseline debugModel = true := by decide
  obtain ⟨e, he⟩ := push_refused plainLink "core_mosquitto" hdiff
  obtain ⟨⟨diags, hdiags⟩, -⟩ := hworks (.error e) [] (he ▸ .done _ _)
  cases hdiags

end HaAddons.Provider
