import HaAddons.AdminUi.Server

/-!
# The gate

A request that does not come through ingress should be refused, unless its method and raw path are
those of a public route; then the handler of that route should run, and see no identity.

The gate compares the raw path with the table of public routes, and the router takes the first route
that fits. A private route that was registered earlier and fits the public path as well is opened by
it. A request line without a blank is compared after its leading slashes are reduced.

* `gated_iff` — the requests for which the gate is sound, for every site.
* `private_opened` — a route with a parameter before a public one.
-/

namespace HaAddons.AdminUi

variable {η : Type}

/-- A request on a connection. Its line ends where the request line ends. -/
structure Incoming where
  peer : Text
  head : Head
  stream : Text
  oneLine : '\n' ∉ head.requestline

def Site.answer (site : Site η) (q : Incoming) : Option (Answer η) :=
  q.head.parse.map fun p => dispatch site q.peer q.head p q.stream

def viaIngress (site : Site η) (q : Incoming) : Bool :=
  isIngress q.peer q.head.headers site.ingressRemote

/-- The target, exactly as it was sent. -/
def sentTarget (requestline : Text) : Text := ((words requestline)[1]?).getD []

/-- The handler was registered with `public=True` for this method and path. -/
def Published (site : Site η) (method path : Text) (handler : η) : Prop :=
  ∃ r ∈ site.registrations, r.isPublic = true ∧ publicPath path = true ∧
    site.upper r.method = method ∧ r.pattern = path ∧ r.handler = handler

/-- The same request, but for the values of the identity headers. -/
structure SameButIdentity (q q' : Incoming) : Prop where
  peer : q'.peer = q.peer
  requestline : q'.head.requestline = q.head.requestline
  headers : q'.head.headers.filter (fun e => !isIdentity e.1) =
    q.head.headers.filter fun e => !isIdentity e.1
  stream : q'.stream = q.stream

/-- Whoever runs was published for the request, and cannot tell who sent it. -/
def RunsBlind (site : Site η) (q : Incoming) (method path : Text) (h : η) (r : Request) : Prop :=
  Published site method path h ∧ r.isPublic = true ∧
    ∀ q', SameButIdentity q q' → viaIngress site q' = false →
      ∃ a, site.answer q' = some a ∧ a.ran = some (h, r)

/-- The gate is sound for a request. -/
def Gated (site : Site η) (q : Incoming) : Prop :=
  ∀ p a, q.head.parse = some p → viaIngress site q = false → site.answer q = some a →
    a.asset = false ∧
      ((¬ ∃ h, Published site p.command (beforeQuery (sentTarget q.head.requestline)) h) →
        a.status = some 403 ∧ a.ran = none) ∧
      ∀ h r, a.ran = some (h, r) →
        RunsBlind site q p.command (beforeQuery (sentTarget q.head.requestline)) h r

/-- The target is not compared as it was sent. -/
def Reduced (requestline : Text) : Prop :=
  ' ' ∉ requestline ∧ "//".toList <+: sentTarget requestline

/-- The body can be read, if the method has one. -/
def Readable (site : Site η) (q : Incoming) (method : Text) : Prop :=
  method ∈ bodyMethods → ∃ doc, (readBody site.loads q.head.headers q.stream).1 = .ok doc

/-- The first registered route that fits is published for the pair. -/
def Unshadowed (site : Site η) (method path : Text) : Prop :=
  ∀ before r after, site.registrations.filter Registration.accepted = before ++ r :: after →
    (∀ r' ∈ before, (r'.route site.upper).takes method path = false) →
    (r.route site.upper).takes method path = true → Published site method path r.handler

/-- The condition on the site and the request. -/
def GatedWhen (site : Site η) (q : Incoming) : Prop :=
  ∀ p, q.head.parse = some p → viaIngress site q = false →
    site.router.isPublic p.command (rawPath q.head.requestline p.path) = true →
    ¬ Reduced q.head.requestline ∧
      (Readable site q p.command →
        Unshadowed site p.command (beforeQuery (sentTarget q.head.requestline)))

/-! ## Request lines -/

theorem parse_words {h : Head} {p : Parsed} (hp : h.parse = some p) :
    ∃ rest, words h.requestline = p.command :: sentTarget h.requestline :: rest ∧
      p.path = collapse (sentTarget h.requestline) ∧ p.command ∈ handledMethods ∧
      (rest = [] ∨ ∃ v, rest = [v] ∧ "HTTP/".toList <+: v) := by
  unfold Head.parse at hp
  obtain ⟨l, hl, hp⟩ := Option.bind_eq_some_iff.mp hp
  have hline : ∃ rest, words h.requestline = l.command :: l.target :: rest ∧
      (rest = [] ∨ ∃ v, rest = [v] ∧ "HTTP/".toList <+: v) := by
    unfold parseRequestLine at hl
    split at hl
    · rename_i command target hwords
      split_ifs at hl
      cases hl
      exact ⟨[], hwords, .inl rfl⟩
    · rename_i command target version hwords
      obtain ⟨v, hv, hl⟩ := Option.bind_eq_some_iff.mp hl
      have hversion : "HTTP/".toList <+: version := by
        unfold parseVersion at hv
        split_ifs at hv with hversion
        exact hversion
      split_ifs at hl
      cases hl
      exact ⟨[version], hwords, .inr ⟨version, rfl, hversion⟩⟩
    · cases hl
  obtain ⟨rest, hwords, hrest⟩ := hline
  have htarget : sentTarget h.requestline = l.target := by
    unfold sentTarget
    rw [hwords]
    rfl
  by_cases hmethod : l.command ∈ handledMethods
  · obtain rfl := Option.some.inj ((if_pos (List.contains_iff_mem.mpr hmethod)).symm.trans hp)
    exact ⟨rest, htarget ▸ hwords, htarget ▸ rfl, hmethod, hrest⟩
  · cases (if_neg fun h => hmethod (List.contains_iff_mem.mp h)).symm.trans hp

theorem isSpace_of_isRestChar {c : Char} (h : isRestChar c = true) : isSpace c = false := by
  by_contra hspace
  have hmem := of_decide_eq_true ((Bool.not_eq_false _).mp hspace)
  rw [← Char.ofNat_toNat c] at h
  simp only [List.mem_cons, List.not_mem_nil, or_false] at hmem
  rcases hmem with hc | hc | hc | hc | hc | hc | hc | hc | hc | hc | hc | hc <;>
    · rw [hc] at h
      exact absurd h (by decide)

/-- The first piece of a split ends at the separator or at the end. -/
theorem splitOn_first {s w : Text} {ws : List Text} (h : s.splitOn ' ' = w :: ws) :
    ∃ tail, s = w ++ tail ∧ (tail = [] ∨ ∃ t, tail = ' ' :: t) := by
  by_cases hmem : ' ' ∈ s
  · obtain ⟨u, t, rfl, hu⟩ := List.eq_append_cons_of_mem hmem
    rw [List.splitOn_append_cons_self, List.splitOn_eq_singleton hu] at h
    obtain ⟨rfl, -⟩ := List.cons.inj h
    exact ⟨' ' :: t, rfl, .inr ⟨t, rfl⟩⟩
  · rw [List.splitOn_eq_singleton hmem] at h
    obtain ⟨rfl, -⟩ := List.cons.inj h
    exact ⟨[], (List.append_nil _).symm, .inl rfl⟩

theorem beforeQuery_split (s : Text) :
    ∃ rest, s = beforeQuery s ++ rest ∧ (rest = [] ∨ ∃ query, rest = '?' :: query) := by
  refine ⟨s.dropWhile (· ≠ '?'), (List.takeWhile_append_dropWhile ..).symm, ?_⟩
  cases hdrop : s.dropWhile (· ≠ '?') with
  | nil => exact .inl rfl
  | cons d t =>
    have hd := List.head?_dropWhile_not (fun c => decide (c ≠ '?')) s
    rw [hdrop] at hd
    obtain rfl : d = '?' := by simpa using hd
    exact .inr ⟨t, rfl⟩

theorem beforeQuery_append {u rest : Text} (hu : '?' ∉ u)
    (hrest : rest = [] ∨ ∃ query, rest = '?' :: query) : beforeQuery (u ++ rest) = u := by
  unfold beforeQuery
  rw [List.takeWhile_append_of_pos]
  · rcases hrest with rfl | ⟨query, rfl⟩ <;> exact List.append_nil _
  · intro c hc
    refine decide_eq_true ?_
    rintro rfl
    exact hu hc

theorem not_mem_beforeQuery (s : Text) : '?' ∉ beforeQuery s := fun h =>
  absurd (List.mem_takeWhile_imp (p := fun c => decide (c ≠ '?')) h) (by decide)

/-- A public path is not a method and not a version. -/
theorem head_public {t : Text} (h : t.head? = some '/') :
    t ∉ handledMethods ∧ ¬ "HTTP/".toList <+: t := by
  constructor
  · intro hmem
    have hall : ∀ m ∈ handledMethods, m.head? ≠ some '/' := by decide
    exact hall t hmem h
  · rintro ⟨u, rfl⟩
    cases h

/-- **What is compared.** A raw path that is public is the target before its query, exactly as it
was sent, unless the slashes were reduced. -/
theorem rawPath_eq {h : Head} {p : Parsed} (hp : h.parse = some p) (hline : '\n' ∉ h.requestline)
    (hpublic : publicPath (rawPath h.requestline p.path) = true) :
    Reduced h.requestline ∨
      rawPath h.requestline p.path = beforeQuery (sentTarget h.requestline) := by
  obtain ⟨rest, hwords, hpath, hmethod, hrest⟩ := parse_words hp
  by_cases hblank : ' ' ∈ h.requestline
  · refine .inr ?_
    obtain ⟨chunk, line, hsplit, hchunk⟩ := List.eq_append_cons_of_mem hblank
    have hpieces : h.requestline.splitOn ' ' = chunk :: line.splitOn ' ' := by
      rw [hsplit, List.splitOn_append_cons_self, List.splitOn_eq_singleton hchunk]
      rfl
    cases hword : line.splitOn ' ' with
    | nil => exact absurd hword (List.splitOn_ne_nil ' ' line)
    | cons w ws =>
      have hraw : rawPath h.requestline p.path = beforeQuery w := by
        unfold rawPath
        rw [hpieces, hword]
      obtain ⟨tail, hlineEq, htail⟩ := splitOn_first hword
      obtain ⟨query, hw, hquery⟩ := beforeQuery_split w
      rw [hraw] at hpublic ⊢
      obtain ⟨c, s, hshape, -, -, hchars⟩ := publicPath_shape hpublic
      have hmemLine : ∀ d ∈ beforeQuery w, d ∈ h.requestline := by
        intro d hd
        rw [hsplit, hlineEq, hw]
        simp [hd]
      have hnospace : ∀ d ∈ beforeQuery w, isSpace d = false := by
        intro d hd
        have hd' := hd
        rw [hshape] at hd'
        rcases List.mem_cons.mp hd' with rfl | hd'
        · rfl
        · rcases hchars d hd' with hrestChar | rfl | rfl
          · exact isSpace_of_isRestChar hrestChar
          · rfl
          · exact absurd (hmemLine _ hd) hline
      obtain ⟨ws', hbegin⟩ := words_begin (u := beforeQuery w) (by simp [hshape]) hnospace
        (query ++ tail)
      have hrun : ((query ++ tail).takeWhile fun c => !isSpace c) = [] ∨
          ∃ q, ((query ++ tail).takeWhile fun c => !isSpace c) = '?' :: q := by
        rcases hquery with rfl | ⟨q, rfl⟩
        · rcases htail with rfl | ⟨t, rfl⟩
          · exact .inl rfl
          · exact .inl rfl
        · exact .inr ⟨_, rfl⟩
      have htoken := beforeQuery_append (not_mem_beforeQuery w) hrun
      have hhead : (beforeQuery w ++ (query ++ tail).takeWhile fun c => !isSpace c).head? =
          some '/' := by
        rw [hshape]
        rfl
      obtain ⟨hnotMethod, hnotVersion⟩ := head_public hhead
      have hall : words h.requestline = words chunk ++
          (beforeQuery w ++ (query ++ tail).takeWhile fun c => !isSpace c) :: ws' := by
        rw [hsplit, words_append _ _ (by decide), hlineEq, ← hbegin, ← List.append_assoc, ← hw]
      rw [hall] at hwords
      cases hfirst : words chunk with
      | nil =>
        rw [hfirst] at hwords
        obtain ⟨hcommand, -⟩ := List.cons.inj hwords
        exact absurd (hcommand ▸ hmethod) hnotMethod
      | cons x xs =>
        rw [hfirst] at hwords
        obtain ⟨-, hwords⟩ := List.cons.inj hwords
        cases xs with
        | nil =>
          obtain ⟨htarget, -⟩ := List.cons.inj hwords
          rw [← htarget]
          exact htoken.symm
        | cons y ys =>
          obtain ⟨-, hwords⟩ := List.cons.inj hwords
          rcases hrest with rfl | ⟨v, rfl, hv⟩
          · exact absurd hwords (by simp)
          · cases ys with
            | nil =>
              obtain ⟨heq, -⟩ := List.cons.inj hwords
              exact absurd (heq ▸ hv) hnotVersion
            | cons z zs =>
              obtain ⟨-, hnil⟩ := List.cons.inj hwords
              exact absurd hnil (by simp)
  · by_cases hslashes : "//".toList <+: sentTarget h.requestline
    · exact .inl ⟨hblank, hslashes⟩
    · refine .inr ?_
      unfold rawPath
      rw [List.splitOn_eq_singleton hblank, hpath, collapse, if_neg hslashes]

theorem collapse_plain {t : Text} (h : ¬ "//".toList <+: t) : collapse t = t := if_neg h

theorem mem_collapse {t : Text} {d : Char} (h : d ∈ collapse t) : d = '/' ∨ d ∈ t := by
  unfold collapse at h
  split_ifs at h
  · exact (List.mem_cons.mp h).imp_right fun hd => (List.dropWhile_sublist _).subset hd
  · exact .inr h

/-- A target whose part before the query is public does not begin with two slashes. -/
theorem not_slashes {t : Text} (h : publicPath (beforeQuery t) = true) : ¬ "//".toList <+: t := by
  rintro ⟨rest, rfl⟩
  obtain ⟨c, s, hshape, hc, -, -⟩ := publicPath_shape h
  exact hc (List.cons.inj (List.cons.inj hshape).2).1.symm

/-- **What is dispatched.** The path behind a public raw path is that path. -/
theorem urlsplit_public (netlocOk : Text → Bool) {h : Head} {p : Parsed} (hp : h.parse = some p)
    (hline : '\n' ∉ h.requestline) (hpublic : publicPath (rawPath h.requestline p.path) = true) :
    ∃ query, urlsplit netlocOk p.path = some (rawPath h.requestline p.path, query) := by
  obtain ⟨ws, hwords, hpath, -⟩ := parse_words hp
  have hpieces : ∃ rest, p.path = rawPath h.requestline p.path ++ rest ∧
      (rest = [] ∨ ∃ query, rest = '?' :: query) := by
    rcases rawPath_eq hp hline hpublic with hreduced | hraw
    · have hraw : rawPath h.requestline p.path = beforeQuery p.path := by
        unfold rawPath
        rw [List.splitOn_eq_singleton hreduced.1]
      rw [hraw]
      exact beforeQuery_split p.path
    · rw [hraw] at hpublic ⊢
      rw [hpath, collapse_plain (not_slashes hpublic)]
      exact beforeQuery_split _
  have hspace : ∀ d ∈ p.path, isSpace d = false := by
    intro d hd
    rw [hpath] at hd
    rcases mem_collapse hd with rfl | hd
    · rfl
    · exact isSpace_of_mem_words (hwords ▸ List.mem_cons_of_mem _ (List.mem_cons_self ..)) d hd
  obtain ⟨rest, hsplit, hrest⟩ := hpieces
  obtain ⟨c, s, hshape, hc, -, hchars⟩ := publicPath_shape hpublic
  have hplain : ∀ d ∈ '/' :: c :: s, d ≠ '?' ∧ d ≠ '#' := by
    refine List.forall_mem_cons.mpr ⟨⟨by decide, by decide⟩, fun d hd => ?_⟩
    constructor
    · rintro rfl
      exact absurd (hchars _ hd) (by decide)
    · rintro rfl
      exact absurd (hchars _ hd) (by decide)
  rw [hshape] at hsplit ⊢
  have hurl := urlsplit_plain netlocOk hc hplain (hsplit ▸ hspace) hrest
  rw [← hsplit] at hurl
  obtain ⟨⟨path, query⟩, hsome, hfst⟩ := Option.map_eq_some_iff.mp hurl
  exact ⟨query, hsome.trans (congrArg some (Prod.ext hfst rfl))⟩

/-! ## What a handler observes -/

theorem Headers.get_filter (h : Headers) {name : Text} (hname : isIdentity name = false) :
    Headers.get (h.filter fun e => !isIdentity e.1) name = h.get name := by
  unfold Headers.get
  rw [List.find?_filter]
  congr 2
  funext e
  by_cases heq : lower e.1 = lower name
  · have hidentity : isIdentity e.1 = false := by
      unfold isIdentity at hname ⊢
      rw [heq]
      exact hname
    simp [hidentity]
  · simp [heq]

section

variable {q q' : Incoming}

theorem SameButIdentity.get (h : SameButIdentity q q') {name : Text}
    (hname : isIdentity name = false) : q'.head.headers.get name = q.head.headers.get name := by
  rw [← Headers.get_filter _ hname, h.headers, Headers.get_filter _ hname]

theorem SameButIdentity.parse (h : SameButIdentity q q') : q'.head.parse = q.head.parse := by
  unfold Head.parse
  rw [h.requestline, h.get (by decide)]

theorem SameButIdentity.publicHeaders (h : SameButIdentity q q') :
    publicHeaders q'.head.headers = publicHeaders q.head.headers := by
  unfold AdminUi.publicHeaders
  rw [h.headers]
  congr 1
  funext name
  split_ifs with hname
  · rfl
  · exact h.get ((Bool.not_eq_true _).mp hname)

theorem SameButIdentity.bodyOf (h : SameButIdentity q q') (site : Site η) (method : Text) :
    bodyOf site q'.head method q'.stream = bodyOf site q.head method q.stream := by
  unfold AdminUi.bodyOf readBody contentLength
  rw [h.get (by decide), h.get (by decide), h.get (by decide), h.stream]

/-- The same request is answered alike without ingress. -/
theorem SameButIdentity.answer {site : Site η} (h : SameButIdentity q q')
    (hq : viaIngress site q = false) (hq' : viaIngress site q' = false) :
    site.answer q' = site.answer q := by
  unfold Site.answer
  rw [h.parse]
  congr 1
  funext p
  cases hpublic : site.router.isPublic p.command (rawPath q.head.requestline p.path) with
  | false =>
    rw [dispatch_refused hq hpublic, dispatch_refused hq' (h.requestline ▸ hpublic)]
  | true =>
    cases hurl : urlsplit site.netlocOk p.path with
    | none =>
      unfold viaIngress at hq hq'
      unfold dispatch
      simp only [hq, hq', h.requestline, hpublic, hurl]
    | some r =>
      rw [dispatch_route hq hpublic hurl, dispatch_route hq' (h.requestline ▸ hpublic) hurl]
      cases hmatch : site.router.match p.command r.1 with
      | error e => rw [route_of_unmatched hmatch, route_of_unmatched hmatch]
      | ok found =>
        have hbody := h.bodyOf site p.command
        cases hread : (AdminUi.bodyOf site q.head p.command q.stream).1 with
        | error e =>
          rw [route_of_unreadable hmatch hread, route_of_unreadable hmatch (hbody ▸ hread), hbody]
        | ok json =>
          have hrequest : requestOf false q'.head p.command r.1 r.2 found.2 json =
              requestOf false q.head p.command r.1 r.2 found.2 json := by
            unfold requestOf
            rw [if_neg Bool.false_ne_true, if_neg Bool.false_ne_true, h.publicHeaders]
          rw [route_of_read hmatch hread, route_of_read hmatch (hbody ▸ hread), hbody, hrequest]

end

/-! ## The gate -/

section

variable {site : Site η} {q : Incoming} {p : Parsed}

/-- What has passed the gate is answered by the router, with a route for the path. -/
theorem passed (hp : q.head.parse = some p) (hingress : viaIngress site q = false)
    (hpublic : site.router.isPublic p.command (rawPath q.head.requestline p.path) = true) :
    publicPath (rawPath q.head.requestline p.path) = true ∧
      (∃ query, site.answer q = some
        (route site false q.head p (rawPath q.head.requestline p.path) query q.stream)) ∧
      ∃ found, site.router.match p.command (rawPath q.head.requestline p.path) = .ok found := by
  obtain ⟨r, hmem, hisPublic, hpath, hmethod, hpattern⟩ := isPublic_iff.mp hpublic
  refine ⟨hpath, ?_, ?_⟩
  · obtain ⟨query, hurl⟩ := urlsplit_public site.netlocOk hp q.oneLine hpath
    refine ⟨query, ?_⟩
    unfold Site.answer
    rw [hp, Option.map_some, dispatch_route hingress hpublic hurl]
  · have haccepted : r.accepted = true := by
      simp [Registration.accepted, hpattern, hpath]
    have htakes : (r.route site.upper).takes p.command (rawPath q.head.requestline p.path) =
        true := by
      have hfits : (r.route site.upper).fits (segments (rawPath q.head.requestline p.path)) = _ :=
        fits_public (hpattern ▸ hpath) hpath
      unfold Route.takes
      rw [hfits, if_pos hpattern]
      exact (Bool.and_eq_true _ _).mpr ⟨decide_eq_true hmethod, rfl⟩
    have hroutes : r.route site.upper ∈ site.router.routes := by
      unfold Site.router
      rw [build_routes]
      exact List.mem_map_of_mem (List.mem_filter.mpr ⟨hmem, haccepted⟩)
    have hfind : (site.router.routes.find?
        fun r => r.takes p.command (rawPath q.head.requestline p.path)).isSome = true :=
      List.find?_isSome.mpr ⟨_, hroutes, htakes⟩
    obtain ⟨taken, htaken⟩ := Option.isSome_iff_exists.mp hfind
    have hfits := List.find?_some htaken
    obtain ⟨params, hparams⟩ :=
      Option.isSome_iff_exists.mp ((Bool.and_eq_true _ _).mp hfits).2
    exact ⟨(taken.handler, params), match_ok_iff.mpr ⟨taken, htaken, rfl, hparams⟩⟩

/-- The route that is taken is the first registered one that fits. -/
theorem match_first {method path : Text} {h : η} {params : Dict Text Text}
    (hmatch : site.router.match method path = .ok (h, params)) :
    ∃ before r after, site.registrations.filter Registration.accepted = before ++ r :: after ∧
      (∀ r' ∈ before, (r'.route site.upper).takes method path = false) ∧
      (r.route site.upper).takes method path = true ∧ r.handler = h := by
  obtain ⟨taken, hfind, hhandler, -⟩ := match_ok_iff.mp hmatch
  unfold Site.router at hfind
  rw [build_routes, List.find?_map] at hfind
  obtain ⟨r, hr, rfl⟩ := Option.map_eq_some_iff.mp hfind
  obtain ⟨htakes, before, after, hsplit, hbefore⟩ := List.find?_eq_some_iff_append.mp hr
  refine ⟨before, r, after, hsplit, fun r' hr' => ?_, htakes, hhandler⟩
  exact Bool.eq_false_iff.mpr fun h => by simpa [h] using hbefore r' hr'

theorem match_of_first {method path : Text} {before after : List (Registration η)}
    {r : Registration η}
    (hsplit : site.registrations.filter Registration.accepted = before ++ r :: after)
    (hbefore : ∀ r' ∈ before, (r'.route site.upper).takes method path = false)
    (htakes : (r.route site.upper).takes method path = true) :
    ∃ params, site.router.match method path = .ok (r.handler, params) := by
  obtain ⟨params, hparams⟩ := Option.isSome_iff_exists.mp ((Bool.and_eq_true _ _).mp htakes).2
  refine ⟨params, match_ok_iff.mpr ⟨r.route site.upper, ?_, rfl, hparams⟩⟩
  unfold Site.router
  rw [build_routes, List.find?_map, Option.map_eq_some_iff]
  refine ⟨r, List.find?_eq_some_iff_append.mpr ⟨htakes, before, after, hsplit, fun r' hr' => ?_⟩,
    rfl⟩
  simp [hbefore r' hr']

theorem published_of_isPublic {method path : Text}
    (hpublic : site.router.isPublic method path = true) : ∃ h, Published site method path h := by
  obtain ⟨r, hmem, hisPublic, hpath, hmethod, hpattern⟩ := isPublic_iff.mp hpublic
  exact ⟨r.handler, r, hmem, hisPublic, hpath, hmethod, hpattern, rfl⟩

/-- The body of a handler that runs was readable. -/
theorem readable_of_ok {json : Option Json}
    (hbody : (bodyOf site q.head p.command q.stream).1 = .ok json) :
    Readable site q p.command := by
  intro hmethod
  rw [bodyOf_of_mem site q.head hmethod] at hbody
  exact ⟨json, hbody⟩

theorem Readable.ok (h : Readable site q p.command) :
    ∃ json, (bodyOf site q.head p.command q.stream).1 = .ok json := by
  by_cases hmethod : p.command ∈ bodyMethods
  · rw [bodyOf_of_mem site q.head hmethod]
    exact h hmethod
  · rw [bodyOf_of_not_mem site q.head hmethod]
    exact ⟨none, rfl⟩

theorem gated_of_when (hwhen : GatedWhen site q) : Gated site q := by
  intro p a hp hingress ha
  cases hpublic : site.router.isPublic p.command (rawPath q.head.requestline p.path) with
  | false =>
    have hrefused : a = refused := by
      unfold Site.answer at ha
      rw [hp, Option.map_some, dispatch_refused hingress hpublic] at ha
      exact (Option.some.inj ha).symm
    rw [hrefused]
    exact ⟨rfl, fun _ => ⟨rfl, rfl⟩, fun h r hran => by cases hran⟩
  | true =>
    obtain ⟨hpath, ⟨query, hanswer⟩, -⟩ := passed hp hingress hpublic
    obtain ⟨hreduced, hunshadowed⟩ := hwhen p hp hingress hpublic
    have hraw := (rawPath_eq hp q.oneLine hpath).resolve_left hreduced
    have hroute := Option.some.inj (ha.symm.trans hanswer)
    refine ⟨hroute ▸ route_asset, fun hnone => ?_, fun h r hran => ?_⟩
    · exact absurd (published_of_isPublic (hraw ▸ hpublic)) hnone
    · obtain ⟨params, json, hmatch, hbody, hr⟩ := route_ran (hroute ▸ hran)
      obtain ⟨before, reg, after, hsplit, hbefore, htakes, rfl⟩ := match_first hmatch
      rw [hraw] at hbefore htakes
      refine ⟨hunshadowed (readable_of_ok hbody) before reg after hsplit hbefore htakes,
        by rw [hr]; rfl, fun q' hsame hq' => ⟨a, ?_, hran⟩⟩
      rw [hsame.answer hingress hq', ha]

theorem when_of_gated (hgated : Gated site q) : GatedWhen site q := by
  intro p hp hingress hpublic
  obtain ⟨hpath, ⟨query, hanswer⟩, ⟨h, params⟩, hmatch⟩ := passed hp hingress hpublic
  obtain ⟨-, hrefused, hblind⟩ := hgated p _ hp hingress hanswer
  have hplain : ¬ Reduced q.head.requestline := by
    intro hreduced
    have hnone : ¬ ∃ h, Published site p.command
        (beforeQuery (sentTarget q.head.requestline)) h := by
      rintro ⟨h, r, -, -, hsent, -⟩
      exact not_slashes hsent hreduced.2
    obtain ⟨hstatus, hran⟩ := hrefused hnone
    exact route_ran_or_status.elim (fun h => h hran) fun h => h hstatus
  refine ⟨hplain, fun hreadable before r after hsplit hbefore htakes => ?_⟩
  have hraw := (rawPath_eq hp q.oneLine hpath).resolve_left hplain
  obtain ⟨json, hbody⟩ := hreadable.ok
  obtain ⟨params, hfirst⟩ := match_of_first hsplit hbefore htakes
  rw [← hraw] at hfirst
  refine (hblind r.handler (requestOf false q.head p.command
    (rawPath q.head.requestline p.path) query params json) ?_).1
  rw [route_of_read hfirst hbody]
  exact (finish_ran ..).1

end

/-- **The gate.** It is sound for a request exactly where the target is compared as it was sent and
no other route stands before the public one. -/
theorem gated_iff (site : Site η) (q : Incoming) : Gated site q ↔ GatedWhen site q :=
  ⟨when_of_gated, gated_of_when⟩

/-! ## A private route before a public one -/

/-- `GET /api/{name}` is private and `GET /api/health` is public. -/
def shadowedSite : Site ℕ where
  upper := id
  registrations := [⟨"GET".toList, "/api/\x7bname\x7d".toList, 1, false⟩,
    ⟨"GET".toList, "/api/health".toList, 2, true⟩]
  ingressRemote := "172.30.32.2".toList
  resolveAsset _ := none
  loads _ := none
  netlocOk _ := true
  handle _ _ := .value

def shadowedRequest : Incoming where
  peer := "192.168.1.9".toList
  head := ⟨"GET /api/health HTTP/1.1".toList, []⟩
  stream := []
  oneLine := by decide

theorem private_opened :
    (shadowedSite.answer shadowedRequest).map (fun a => a.ran.map Prod.fst) = some (some 1) ∧
      ¬ Gated shadowedSite shadowedRequest := by
  have hran : (shadowedSite.answer shadowedRequest).map (fun a => a.ran.map Prod.fst) =
      some (some 1) := by decide +kernel
  refine ⟨hran, fun hgated => ?_⟩
  obtain ⟨a, ha, hran⟩ := Option.map_eq_some_iff.mp hran
  obtain ⟨⟨h, r⟩, hran, rfl⟩ := Option.map_eq_some_iff.mp hran
  obtain ⟨p, hp, -⟩ := Option.map_eq_some_iff.mp ha
  obtain ⟨-, -, hblind⟩ := hgated p a hp (by decide) ha
  obtain ⟨reg, hmem, hpublic, -, -, -, hhandler⟩ := (hblind _ r hran).1
  rcases List.mem_cons.mp hmem with rfl | hmem
  · cases hpublic
  · rcases List.mem_cons.mp hmem with rfl | hmem
    · cases hhandler
    · cases hmem

end HaAddons.AdminUi
