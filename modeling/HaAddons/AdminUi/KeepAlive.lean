import HaAddons.Lib.System
import HaAddons.AdminUi.Wire

/-!
# A connection that is kept

Requests that are sent one after the other on one connection should be dispatched one after the
other, and nothing of a body should be read as a request. The body of a `GET`, `HEAD` or `OPTIONS`
is never read: the connection goes wrong where such a request has one and is answered by a static
file or by a handler's result, because then the connection is kept.

* `framed_iff` — one request: the stream stands behind its body, or the connection is closed.
* `in_step` — runs without such requests.
* `smuggled` — a body that is dispatched.
-/

namespace HaAddons.AdminUi

variable {η : Type}

/-! ## One request -/

/-- The request is answered by a static file or by a handler's result. -/
def Answered (site : Site η) (viaIngress : Bool) (h : Head) (p : Parsed) (path query : Text) :
    Prop :=
  (p.command = "GET".toList ∧ viaIngress = true ∧ (site.resolveAsset path).isSome = true) ∨
    ∃ handler params, site.router.match p.command path = .ok (handler, params) ∧
      ∀ status, site.handle handler (requestOf viaIngress h p.command path query params none) ≠
        .raised status

def Admitted (site : Site η) (peer : Text) (h : Head) (p : Parsed) : Prop :=
  isIngress peer h.headers site.ingressRemote = true ∨
    site.router.isPublic p.command (rawPath h.requestline p.path) = true

/-- A method without a body comes with one, and is answered on a connection that is kept. -/
def LeavesBody (site : Site η) (peer : Text) (h : Head) (p : Parsed) : Prop :=
  contentLength h.headers ≠ some 0 ∧ p.command ∉ bodyMethods ∧ p.close = false ∧
    Admitted site peer h p ∧ ∃ path query, urlsplit site.netlocOk p.path = some (path, query) ∧
      Answered site (isIngress peer h.headers site.ingressRemote) h p path query

section

variable {site : Site η} {peer : Text} {h : Head} {p : Parsed} {stream path query : Text}

theorem gate_open (hadmitted : Admitted site peer h p) :
    (!isIngress peer h.headers site.ingressRemote &&
      !site.router.isPublic p.command (rawPath h.requestline p.path)) = false := by
  rcases hadmitted with hi | hi <;> simp [hi]

theorem gate_shut (hadmitted : ¬ Admitted site peer h p) :
    dispatch site peer h p stream = refused := by
  obtain ⟨hingress, hpublic⟩ := not_or.mp hadmitted
  exact dispatch_refused ((Bool.not_eq_true _).mp hingress) ((Bool.not_eq_true _).mp hpublic)

theorem dispatch_unsplit (hadmitted : Admitted site peer h p)
    (hurl : urlsplit site.netlocOk p.path = none) :
    dispatch site peer h p stream = ⟨none, none, false, 0, true⟩ := by
  unfold dispatch
  simp only [gate_open hadmitted, hurl, Bool.false_eq_true, if_false]

theorem dispatch_asset {etag : Text} (hget : p.command = "GET".toList)
    (hingress : isIngress peer h.headers site.ingressRemote = true)
    (hurl : urlsplit site.netlocOk p.path = some (path, query))
    (hasset : site.resolveAsset path = some etag) :
    (dispatch site peer h p stream).consumed = 0 ∧
      (dispatch site peer h p stream).close = p.close := by
  have hsome : (if p.command = "GET".toList ∧
      isIngress peer h.headers site.ingressRemote = true then site.resolveAsset path else none) =
      some etag := (if_pos ⟨hget, hingress⟩).trans hasset
  unfold dispatch
  simp only [gate_open (.inl hingress), hurl, hsome, Bool.false_eq_true, if_false]
  exact ⟨trivial, trivial⟩

theorem dispatch_routed (hadmitted : Admitted site peer h p)
    (hurl : urlsplit site.netlocOk p.path = some (path, query))
    (hasset : ¬ (p.command = "GET".toList ∧ isIngress peer h.headers site.ingressRemote = true ∧
      (site.resolveAsset path).isSome = true)) :
    dispatch site peer h p stream =
      route site (isIngress peer h.headers site.ingressRemote) h p path query stream := by
  have hnone : (if p.command = "GET".toList ∧
      isIngress peer h.headers site.ingressRemote = true then site.resolveAsset path else none) =
      none := by
    by_cases hcond : p.command = "GET".toList ∧ isIngress peer h.headers site.ingressRemote = true
    · rw [if_pos hcond]
      cases hsome : site.resolveAsset path with
      | none => rfl
      | some etag => exact absurd ⟨hcond.1, hcond.2, by rw [hsome]; rfl⟩ hasset
    · rw [if_neg hcond]
  unfold dispatch
  simp only [gate_open hadmitted, hurl, hnone, Bool.false_eq_true, if_false]

theorem finish_raised {close : Bool} {handler : η} {request : Request} {consumed status : ℕ}
    (hraised : site.handle handler request = .raised status) :
    (finish site close handler request consumed).close = true := by
  unfold finish
  rw [hraised]
  rfl

theorem finish_kept {close : Bool} {handler : η} {request : Request} {consumed : ℕ}
    (hkept : ∀ status, site.handle handler request ≠ .raised status) :
    (finish site close handler request consumed).close = close ∧
      (finish site close handler request consumed).consumed = consumed := by
  unfold finish
  split
  · rename_i status hraised
    exact absurd hraised (hkept status)
  · exact ⟨rfl, rfl⟩

end

theorem body_nil_iff (m : Sent) : contentLength m.head.headers = some 0 ↔ 0 = m.body.length := by
  rw [contentLength_head]
  constructor
  · intro h
    exact (Int.ofNat_eq_zero.mp (Option.some.inj h)).symm
  · intro h
    rw [← h]
    rfl

/-- **One request.** The stream stands behind its body or the connection is closed, exactly where no
unread body is left on a connection that is kept. -/
theorem framed_iff (site : Site η) (peer : Text) (m : Sent) (p : Parsed) (rest : Text) :
    ((dispatch site peer m.head p (m.body ++ rest)).close = true ∨
      (dispatch site peer m.head p (m.body ++ rest)).consumed = m.body.length) ↔
      ¬ LeavesBody site peer m.head p := by
  by_cases hadmitted : Admitted site peer m.head p
  swap
  · rw [gate_shut hadmitted]
    exact iff_of_true (.inl rfl) fun h => hadmitted h.2.2.2.1
  cases hurl : urlsplit site.netlocOk p.path with
  | none =>
    rw [dispatch_unsplit hadmitted hurl]
    refine iff_of_true (.inl rfl) fun h => ?_
    obtain ⟨path, query, hsome, -⟩ := h.2.2.2.2
    cases hurl.symm.trans hsome
  | some target =>
    obtain ⟨path, query⟩ := target
    -- where nothing of the body is read, only a closed connection or an empty body is right
    have hunread (hmethod : p.command ∉ bodyMethods)
        (hanswered : Answered site (isIngress peer m.head.headers site.ingressRemote) m.head p path
          query) : (p.close = true ∨ 0 = m.body.length) ↔ ¬ LeavesBody site peer m.head p := by
      have hleaves : LeavesBody site peer m.head p ↔ ¬ 0 = m.body.length ∧ ¬ p.close = true := by
        rw [← body_nil_iff, Bool.not_eq_true]
        exact ⟨fun h => ⟨h.1, h.2.2.1⟩,
          fun h => ⟨h.1, hmethod, h.2, hadmitted, path, query, hurl, hanswered⟩⟩
      rw [hleaves, not_and_not_right, or_iff_not_imp_right]
    by_cases hasset : p.command = "GET".toList ∧
        isIngress peer m.head.headers site.ingressRemote = true ∧
        (site.resolveAsset path).isSome = true
    · obtain ⟨hget, hingress, hfile⟩ := hasset
      obtain ⟨etag, hetag⟩ := Option.isSome_iff_exists.mp hfile
      obtain ⟨hconsumed, hclose⟩ :=
        (dispatch_asset hget hingress hurl hetag :
          (dispatch site peer m.head p (m.body ++ rest)).consumed = 0 ∧ _)
      rw [hconsumed, hclose]
      exact hunread (by rw [hget]; decide) (.inl ⟨hget, hingress, hfile⟩)
    · rw [dispatch_routed hadmitted hurl hasset]
      -- an unread body is left by a handler alone
      have hhandler (hleaves : LeavesBody site peer m.head p) : ∃ handler params,
          site.router.match p.command path = .ok (handler, params) ∧ ∀ status,
            site.handle handler (requestOf (isIngress peer m.head.headers site.ingressRemote)
              m.head p.command path query params none) ≠ .raised status := by
        obtain ⟨path', query', hsome, hanswered⟩ := hleaves.2.2.2.2
        obtain ⟨rfl, rfl⟩ := Prod.mk.inj (Option.some.inj (hurl.symm.trans hsome))
        exact hanswered.resolve_left hasset
      cases hmatch : site.router.match p.command path with
      | error e =>
        rw [route_of_unmatched hmatch]
        refine iff_of_true (.inl rfl) fun h => ?_
        obtain ⟨handler, params, hok, -⟩ := hhandler h
        cases hmatch.symm.trans hok
      | ok found =>
        obtain ⟨handler, params⟩ := found
        by_cases hmethod : p.command ∈ bodyMethods
        · refine iff_of_true ?_ fun h => h.2.1 hmethod
          have hbody : bodyOf site m.head p.command (m.body ++ rest) =
              readBody site.loads m.head.headers (m.body ++ rest) :=
            bodyOf_of_mem site m.head hmethod
          cases hread : (bodyOf site m.head p.command (m.body ++ rest)).1 with
          | error e =>
            rw [route_of_unreadable hmatch hread]
            exact .inl rfl
          | ok json =>
            rw [route_of_read hmatch hread, hbody,
              readBody_framed site.loads m rest (hbody ▸ hread)]
            by_cases hraised : ∃ status, site.handle handler (requestOf
                (isIngress peer m.head.headers site.ingressRemote) m.head p.command path query
                params json) = .raised status
            · obtain ⟨status, hraised⟩ := hraised
              exact .inl (finish_raised hraised)
            · exact .inr (finish_kept (not_exists.mp hraised)).2
        · have hbody : bodyOf site m.head p.command (m.body ++ rest) = _ :=
            bodyOf_of_not_mem site m.head hmethod
          rw [route_of_read hmatch (by rw [hbody]), hbody]
          by_cases hraised : ∃ status, site.handle handler (requestOf
              (isIngress peer m.head.headers site.ingressRemote) m.head p.command path query
              params none) = .raised status
          · obtain ⟨status, hraised⟩ := hraised
            refine iff_of_true (.inl (finish_raised hraised)) fun h => ?_
            obtain ⟨handler', params', hok, hkept⟩ := hhandler h
            obtain ⟨rfl, rfl⟩ := Prod.mk.inj (Except.ok.inj (hmatch.symm.trans hok))
            exact hkept status hraised
          · rw [(finish_kept (not_exists.mp hraised)).1, (finish_kept (not_exists.mp hraised)).2]
            exact hunread hmethod (.inr ⟨handler, params, hmatch, not_exists.mp hraised⟩)

/-! ## The connection -/

/-- What may change from one request to the next. -/
structure Turn (η : Type) where
  handle : η → Request → Result
  resolveAsset : Text → Option Text

def Site.during (site : Site η) (t : Turn η) : Site η :=
  { site with handle := t.handle, resolveAsset := t.resolveAsset }

/-- What is still in the stream, the heads of the requests that were dispatched, and whether the
connection is kept. -/
structure Conn where
  rest : Text
  dispatched : List Head
  isOpen : Bool

def Conn.start (sent : List Sent) : Conn := ⟨sent.flatMap Sent.encode, [], true⟩

def Conn.closed (c : Conn) : Conn := { c with isOpen := false }

/-- `handle_one_request` -/
def serve (site : Site η) (peer : Text) (c : Conn) : Conn :=
  match readHead c.rest with
  | none => c.closed
  | some (h, stream) =>
    match h.parse with
    | none => c.closed
    | some p =>
      let a := dispatch site peer h p stream
      ⟨stream.drop a.consumed, c.dispatched ++ [h], !a.close⟩

/-- A connection on which `sent` is sent, for any handlers and static files at any time. -/
def connection (site : Site η) (peer : Text) (sent : List Sent) : System Conn (Turn η) where
  init c := c = .start sent
  next c t := if c.isOpen then some (serve (site.during t) peer c) else none

/-- The first requests were dispatched, and the others are what an open connection still reads. -/
def InStep (sent : List Sent) (c : Conn) : Prop :=
  ∃ done todo, sent = done ++ todo ∧ c.dispatched = done.map Sent.head ∧
    (c.isOpen = true → c.rest = todo.flatMap Sent.encode)

/-- The next request does not leave a body in the stream. -/
def readsOut (site : Site η) (peer : Text) (c : Conn) (t : Turn η) : Prop :=
  ∀ h stream p, readHead c.rest = some (h, stream) → h.parse = some p →
    ¬ LeavesBody (site.during t) peer h p

theorem connection_next {site : Site η} {peer : Text} {sent : List Sent} {c : Conn} {t : Turn η}
    (hopen : c.isOpen = true) :
    (connection site peer sent).next c t = some (serve (site.during t) peer c) := if_pos hopen

theorem InStep.closed {sent : List Sent} {c : Conn} (h : InStep sent c) : InStep sent c.closed := by
  obtain ⟨done, todo, hsent, hdispatched, -⟩ := h
  exact ⟨done, todo, hsent, hdispatched, fun hopen => by cases hopen⟩

/-- An empty stream is closed. -/
theorem readHead_nil : readHead [] = none := rfl

section

variable {site : Site η} {peer : Text} {c : Conn} {h : Head} {stream : Text}

theorem serve_unread (hread : readHead c.rest = none) : serve site peer c = c.closed := by
  unfold serve
  rw [hread]

theorem serve_unparsed (hread : readHead c.rest = some (h, stream)) (hparse : h.parse = none) :
    serve site peer c = c.closed := by
  unfold serve
  simp only [hread, hparse]

theorem serve_request {p : Parsed} (hread : readHead c.rest = some (h, stream))
    (hparse : h.parse = some p) : serve site peer c =
      ⟨stream.drop (dispatch site peer h p stream).consumed, c.dispatched ++ [h],
        !(dispatch site peer h p stream).close⟩ := by
  unfold serve
  simp only [hread, hparse]

end

theorem InStep.serve {site : Site η} {peer : Text} {sent : List Sent} {c : Conn} {t : Turn η}
    (h : InStep sent c) (hopen : c.isOpen = true) (hok : readsOut site peer c t) :
    InStep sent (AdminUi.serve (site.during t) peer c) := by
  cases hread : readHead c.rest with
  | none => rw [serve_unread hread]; exact h.closed
  | some r =>
    obtain ⟨head, stream⟩ := r
    cases hparse : head.parse with
    | none => rw [serve_unparsed hread hparse]; exact h.closed
    | some p =>
      have hframed := hok head stream p hread hparse
      rw [serve_request hread hparse]
      obtain ⟨done, todo, hsent, hdispatched, hrest⟩ := h
      rw [hrest hopen] at hread
      cases todo with
      | nil => cases readHead_nil.symm.trans hread
      | cons m todo =>
        obtain ⟨rfl, rfl⟩ := Prod.mk.inj (readHead_encode m _ hread)
        refine ⟨done ++ [m], todo, by rw [hsent, List.append_assoc]; rfl, ?_, fun hkept => ?_⟩
        · rw [hdispatched, List.map_append]
          rfl
        · have hclose := (Bool.not_eq_true' _).mp hkept
          have hconsumed := ((framed_iff (site.during t) peer m p _).mpr hframed).resolve_left
            (Bool.eq_false_iff.mp hclose)
          rw [hconsumed, List.drop_left]
          rfl

/-- **Requests stay in step.** In every run in which no request leaves its body in the stream, the
requests that were dispatched are the first that were sent, and the stream holds the others. -/
theorem in_step {site : Site η} {peer : Text} {sent : List Sent} {c : Conn}
    (h : (connection site peer sent).Reach (readsOut site peer) c) : InStep sent c := by
  induction h with
  | init h => exact ⟨[], sent, rfl, by rw [h]; rfl, fun _ => by rw [h]; rfl⟩
  | step _ hok hnext ih =>
    obtain ⟨hopen, hnext⟩ := Option.ite_none_right_eq_some.mp hnext
    obtain rfl := Option.some.inj hnext
    exact ih.serve hopen hok

/-- A request without a body leaves nothing, and neither does one whose method has a body. -/
theorem readsOut_front {site : Site η} {peer : Text} {c : Conn} {t : Turn η} {m : Sent}
    {rest : Text} (hrest : c.rest = m.encode ++ rest)
    (hm : m.body = [] ∨ ∀ p, m.head.parse = some p → p.command ∈ bodyMethods) :
    readsOut site peer c t := by
  intro h stream p hread hparse hleaves
  rw [hrest] at hread
  obtain ⟨rfl, -⟩ := Prod.mk.inj (readHead_encode m rest hread)
  rcases hm with hempty | hmethod
  · exact hleaves.1 ((body_nil_iff m).mpr (by rw [hempty]; rfl))
  · exact hleaves.2.1 (hmethod p hparse)

/-! ## A connection with two requests -/

def apiSite : Site ℕ where
  upper := id
  registrations := [⟨"GET".toList, "/api/a".toList, 1, false⟩,
    ⟨"POST".toList, "/api/a".toList, 2, false⟩]
  ingressRemote := "172.30.32.2".toList
  resolveAsset _ := none
  loads _ := some .null
  netlocOk _ := true
  handle _ _ := .value

def quietTurn : Turn ℕ := ⟨fun _ _ => .value, fun _ => none⟩

theorem plainLine_of_all {name value : Text} (hne : name ≠ []) (hname : name.all isNameChar = true)
    (hvalue : value.all (fun c => !isLineEnd c) = true) : PlainLine (name, value) :=
  ⟨hne, List.all_eq_true.mp hname,
    fun c hc => (Bool.not_eq_true' _).mp (List.all_eq_true.mp hvalue c hc)⟩

def viewerRequest : Sent where
  method := "GET".toList
  target := "/api/a".toList
  lines := [("X-Ingress-Path".toList, "/".toList), ("X-Remote-User-Id".toList, "u1".toList)]
  body := []
  handled := by decide
  visible := ⟨by decide, List.all_eq_true.mp (by decide)⟩
  plain := List.forall_mem_cons.mpr ⟨plainLine_of_all (by decide) (by decide) (by decide),
    List.forall_mem_singleton.mpr (plainLine_of_all (by decide) (by decide) (by decide))⟩
  unchunked := by decide
  framed := List.forall_mem_cons.mpr ⟨fun h => absurd h (by decide),
    List.forall_mem_singleton.mpr fun h => absurd h (by decide)⟩
  bare _ := rfl

def withBody (method : Text) (hmethod : method ∈ handledMethods) (body digits : Text)
    (hdigits : digits ≠ [] ∧ digits.all Char.isDigit = true ∧ number digits = body.length) :
    Sent where
  method := method
  target := "/api/a".toList
  lines := [("X-Ingress-Path".toList, "/".toList),
    ("Content-Type".toList, "application/json".toList), ("Content-Length".toList, digits)]
  body := body
  handled := hmethod
  visible := ⟨by decide, List.all_eq_true.mp (by decide)⟩
  plain := by
    refine List.forall_mem_cons.mpr ⟨plainLine_of_all (by decide) (by decide) (by decide),
      List.forall_mem_cons.mpr ⟨plainLine_of_all (by decide) (by decide) (by decide),
        List.forall_mem_singleton.mpr (plainLine_of_all (by decide) (by decide) ?_)⟩⟩
    refine List.all_eq_true.mpr fun c hc => (Bool.not_eq_true' _).mpr ?_
    have hdigit := List.all_eq_true.mp hdigits.2.1 c hc
    by_contra hend
    rcases (Bool.or_eq_true _ _).mp ((Bool.not_eq_false _).mp hend) with h | h
    · exact absurd (of_decide_eq_true h ▸ hdigit) (by decide)
    · exact absurd (of_decide_eq_true h ▸ hdigit) (by decide)
  unchunked := List.forall_mem_cons.mpr ⟨by decide,
    List.forall_mem_cons.mpr ⟨by decide, List.forall_mem_singleton.mpr fun h =>
      absurd (show lower "Content-Length".toList = _ from h) (by decide)⟩⟩
  framed := by
    refine List.forall_mem_cons.mpr ⟨fun h => absurd h (by decide),
      List.forall_mem_cons.mpr ⟨fun h => absurd h (by decide),
        List.forall_mem_singleton.mpr fun _ => ?_⟩⟩
    obtain ⟨hne, hall, hnumber⟩ := hdigits
    have hvalue : digits.dropWhile isOws = digits ++ [] := by
      rw [List.append_nil]
      cases digits with
      | nil => rfl
      | cons d ds =>
        refine dropWhile_of_head ?_
        by_contra hows
        have hspace := isSpace_of_isOws ((Bool.not_eq_false _).mp hows)
        rw [(digit_facts (List.all_eq_true.mp hall d (List.mem_cons_self ..))).1] at hspace
        cases hspace
    exact ⟨digits, [], hvalue, hne, List.all_eq_true.mp hall,
      fun c hc => absurd hc List.not_mem_nil, hnumber⟩
  bare h := absurd rfl (h ("Content-Length".toList, digits) (by simp))

def ingressPeer : Text := "172.30.32.2".toList

def postRequest : Sent := withBody "POST".toList (by decide) "null".toList "4".toList (by decide)

/-- The connection after a request, and after two. -/
def afterOne (sent : List Sent) : Conn := serve (apiSite.during quietTurn) ingressPeer (.start sent)

def afterTwo (sent : List Sent) : Conn :=
  serve (apiSite.during quietTurn) ingressPeer (afterOne sent)

/-- The two requests, without and with a body, are dispatched in turn. -/
theorem in_step_two : ∃ c, c.dispatched = [viewerRequest.head, postRequest.head] ∧
    InStep [viewerRequest, postRequest] c := by
  have hrest : (afterOne [viewerRequest, postRequest]).rest = postRequest.encode ++ [] := by
    decide +kernel
  have hopen : (afterOne [viewerRequest, postRequest]).isOpen = true := by decide +kernel
  have hdispatched : (afterTwo [viewerRequest, postRequest]).dispatched =
      [viewerRequest.head, postRequest.head] := by decide +kernel
  have hparse : postRequest.head.parse = some ⟨"POST".toList, "/api/a".toList, false⟩ := by
    decide +kernel
  refine ⟨_, hdispatched, in_step (.step (.step (.init rfl) ?_ (connection_next rfl)) ?_
    (connection_next hopen))⟩
  · exact readsOut_front (m := viewerRequest) rfl (.inl rfl)
  · refine readsOut_front hrest (.inr fun p hp => ?_)
    obtain rfl := Option.some.inj (hparse.symm.trans hp)
    decide

/-! ## A body that is dispatched -/

/-- A `GET` whose body is the request of another viewer. -/
def smugglingRequest : Sent :=
  withBody "GET".toList (by decide) viewerRequest.encode "62".toList (by decide +kernel)

theorem smuggled : ∃ c, (connection apiSite ingressPeer [smugglingRequest]).Reachable c ∧
    c.dispatched = [smugglingRequest.head, viewerRequest.head] ∧ ¬ InStep [smugglingRequest] c := by
  have hopen : (afterOne [smugglingRequest]).isOpen = true := by decide +kernel
  have hdispatched : (afterTwo [smugglingRequest]).dispatched =
      [smugglingRequest.head, viewerRequest.head] := by decide +kernel
  refine ⟨_, .step (.step (.init rfl) trivial (connection_next rfl)) trivial
    (connection_next hopen), hdispatched, ?_⟩
  rintro ⟨done, todo, hsent, hdone, -⟩
  have hlength := congrArg List.length (hdispatched.symm.trans hdone)
  have hsentLength := congrArg List.length hsent
  rw [List.length_map] at hlength
  rw [List.length_append, ← hlength] at hsentLength
  simp only [List.length_cons, List.length_nil] at hsentLength
  omega

end HaAddons.AdminUi
