import HaAddons.Lib.Dict
import HaAddons.AdminUi.Http

/-!
# The router

Routes are tried in the order of their registration; the first one that fits the path and has the
method is taken. A public route must have a plain, literal path.

* `build_routes`, `isPublic_iff` — what any sequence of registrations leaves.
* `match_ok_iff` — the route that is taken.
* `fits_public` — a public route fits its own path only.
-/

namespace HaAddons.AdminUi

/-! ## Paths -/

/-- `s.strip("/")` -/
def strip (s : Text) : Text := ((s.dropWhile (· = '/')).reverse.dropWhile (· = '/')).reverse

def segments (path : Text) : List Text := (strip path).splitOn '/'

def isFirstChar (c : Char) : Bool := c.isAlphanum || c ∈ ['_', '-']

def isRestChar (c : Char) : Bool := c.isAlphanum || c ∈ ['_', '.', '-']

/-- The segments, from the start of one or from inside one; `$` also stands before a last `\n`. -/
def inSegments : Bool → Text → Bool
  | atStart, [] => !atStart
  | true, c :: s => isFirstChar c && inSegments false s
  | false, c :: s =>
    if c = '/' then inSegments true s
    else if c = '\n' ∧ s = [] then true
    else isRestChar c && inSegments false s

/-- `PUBLIC_PATH_RE` -/
def publicPathRe : Text → Bool
  | '/' :: s => inSegments true s
  | _ => false

/-- A literal path outside `/`, `/icon` and `/static`. -/
def publicPath (pattern : Text) : Bool :=
  publicPathRe pattern && !((pattern.splitOn '/').contains "..".toList) &&
    !((pattern.splitOn '/').contains ".".toList) && pattern != "/icon".toList &&
    pattern != "/static".toList && !("/static/".toList.isPrefixOf pattern)

/-! ## Registrations -/

/-- The arguments of `Router.add`. -/
structure Registration (η : Type) where
  method : Text
  pattern : Text
  handler : η
  isPublic : Bool

structure Route (η : Type) where
  method : Text
  pattern : Text
  parts : List Text
  handler : η

def Registration.route {η : Type} (upper : Text → Text) (r : Registration η) : Route η where
  method := upper r.method
  pattern := r.pattern
  parts := segments r.pattern
  handler := r.handler

structure Router (η : Type) where
  routes : List (Route η)
  published : List (Text × Text)

inductive ApiError where
  | badRequest
  | payloadTooLarge
  | notFound
  | methodNotAllowed
  deriving DecidableEq

def ApiError.status : ApiError → ℕ
  | badRequest => 400
  | payloadTooLarge => 413
  | notFound => 404
  | methodNotAllowed => 405

variable {η : Type}

namespace Router

def empty : Router η := ⟨[], []⟩

/-- `Router.add`; none where it raises. `upper` is `str.upper()`. -/
def add (upper : Text → Text) (router : Router η) (r : Registration η) : Option (Router η) :=
  if r.isPublic then
    if publicPath r.pattern then
      some ⟨router.routes ++ [r.route upper], router.published ++ [(upper r.method, r.pattern)]⟩
    else none
  else some ⟨router.routes ++ [r.route upper], router.published⟩

/-- Calls of `add` one after the other; one that raises changes nothing. -/
def build (upper : Text → Text) (rs : List (Registration η)) : Router η :=
  rs.foldl (fun router r => (router.add upper r).getD router) empty

def isPublic (router : Router η) (method path : Text) : Bool :=
  (method, path) ∈ router.published

end Router

/-! ## Matching -/

def isParam (part : Text) : Bool := "\x7b".toList.isPrefixOf part && "\x7d".toList.isSuffixOf part

/-- The parameters, where the segments fit the parts. -/
def bindParts (params : Dict Text Text) : List (Text × Text) → Option (Dict Text Text)
  | [] => some params
  | (part, segment) :: rest =>
    if isParam part then
      if segment = [] then none else bindParts (params.insert (part.drop 1).dropLast segment) rest
    else if part ≠ segment then none
    else bindParts params rest

def Route.fits (r : Route η) (segs : List Text) : Option (Dict Text Text) :=
  if r.parts.length ≠ segs.length then none else bindParts .empty (r.parts.zip segs)

/-- The loop of `Router.match`. -/
def matchLoop (method : Text) (segs : List Text) :
    List (Route η) → Bool → Except ApiError (η × Dict Text Text)
  | [], pathMatched => if pathMatched then .error .methodNotAllowed else .error .notFound
  | r :: rs, pathMatched =>
    match r.fits segs with
    | none => matchLoop method segs rs pathMatched
    | some params =>
      if r.method = method then .ok (r.handler, params) else matchLoop method segs rs true

def Router.match (router : Router η) (method path : Text) :
    Except ApiError (η × Dict Text Text) :=
  matchLoop method (segments path) router.routes false

/-- The route has the method and fits the path. -/
def Route.takes (r : Route η) (method path : Text) : Bool :=
  r.method = method && (r.fits (segments path)).isSome

/-! ## What registrations leave -/

/-- `add` does not raise. -/
def Registration.accepted (r : Registration η) : Bool := !r.isPublic || publicPath r.pattern

variable {upper : Text → Text}

theorem add_eq (router : Router η) (r : Registration η) :
    (router.add upper r).getD router =
      ⟨router.routes ++ ([r].filter Registration.accepted).map (Registration.route upper),
        router.published ++ (([r].filter Registration.accepted).filter Registration.isPublic).map
          fun r => (upper r.method, r.pattern)⟩ := by
  unfold Router.add
  cases hpublic : r.isPublic with
  | false =>
    have haccepted : r.accepted = true := by simp [Registration.accepted, hpublic]
    simp [haccepted, hpublic]
  | true =>
    have haccepted : r.accepted = publicPath r.pattern := by
      simp [Registration.accepted, hpublic]
    cases hpath : publicPath r.pattern <;> simp [haccepted, hpublic, hpath]

theorem foldl_add (rs : List (Registration η)) (router : Router η) :
    rs.foldl (fun router r => (router.add upper r).getD router) router =
      ⟨router.routes ++ (rs.filter Registration.accepted).map (Registration.route upper),
        router.published ++ ((rs.filter Registration.accepted).filter Registration.isPublic).map
          fun r => (upper r.method, r.pattern)⟩ := by
  induction rs generalizing router with
  | nil => simp
  | cons r rs ih =>
    have hcons (q : List (Registration η)) : r :: q = [r] ++ q := rfl
    rw [List.foldl_cons, ih, add_eq, hcons rs, List.filter_append, List.map_append,
      List.filter_append, List.map_append, List.append_assoc, List.append_assoc]

theorem build_routes (rs : List (Registration η)) :
    (Router.build upper rs).routes =
      (rs.filter Registration.accepted).map (Registration.route upper) := by
  unfold Router.build
  rw [foldl_add]
  rfl

/-- A pair is public where it was registered so. -/
theorem isPublic_iff {rs : List (Registration η)} {method path : Text} :
    (Router.build upper rs).isPublic method path = true ↔
      ∃ r ∈ rs, r.isPublic = true ∧ publicPath path = true ∧ upper r.method = method ∧
        r.pattern = path := by
  unfold Router.isPublic Router.build
  rw [foldl_add, decide_eq_true_iff]
  simp only [Router.empty, List.nil_append, List.mem_map, List.mem_filter, Prod.mk.injEq]
  constructor
  · rintro ⟨r, ⟨⟨hmem, haccepted⟩, hpublic⟩, hmethod, rfl⟩
    have hpath : publicPath r.pattern = true := by
      simpa [Registration.accepted, hpublic] using haccepted
    exact ⟨r, hmem, hpublic, hpath, hmethod, rfl⟩
  · rintro ⟨r, hmem, hpublic, hpath, hmethod, rfl⟩
    have haccepted : r.accepted = true := by simp [Registration.accepted, hpath]
    exact ⟨r, ⟨⟨hmem, haccepted⟩, hpublic⟩, hmethod, rfl⟩

/-! ## The route that is taken -/

theorem matchLoop_ok_iff {method : Text} {segs : List Text} {routes : List (Route η)}
    {pathMatched : Bool} {h : η} {params : Dict Text Text} :
    matchLoop method segs routes pathMatched = .ok (h, params) ↔
      ∃ r, routes.find? (fun r => r.method = method && (r.fits segs).isSome) = some r ∧
        r.handler = h ∧ r.fits segs = some params := by
  induction routes generalizing pathMatched with
  | nil =>
    cases pathMatched <;> simp [matchLoop]
  | cons r rs ih =>
    rw [List.find?_cons]
    unfold matchLoop
    cases hfits : r.fits segs with
    | none =>
      simp only [Option.isSome_none, Bool.and_false]
      exact ih
    | some q =>
      by_cases hmethod : r.method = method
      · simp only [hmethod, if_true, Option.isSome_some, decide_true, Bool.and_true,
          Option.some.injEq, exists_eq_left', hfits, Except.ok.injEq, Prod.mk.injEq]
      · simp only [hmethod, if_false, decide_false, Bool.false_and]
        exact ih

theorem match_ok_iff {router : Router η} {method path : Text} {h : η} {params : Dict Text Text} :
    router.match method path = .ok (h, params) ↔
      ∃ r, router.routes.find? (fun r => r.takes method path) = some r ∧ r.handler = h ∧
        r.fits (segments path) = some params := matchLoop_ok_iff

/-! ## Public paths -/

theorem isRestChar_of_isFirstChar {c : Char} (h : isFirstChar c = true) : isRestChar c = true := by
  unfold isFirstChar at h
  unfold isRestChar
  rcases (Bool.or_eq_true _ _).mp h with h | h
  · rw [h]
    rfl
  · have hmem := of_decide_eq_true h
    simp only [List.mem_cons, List.not_mem_nil, or_false] at hmem
    rcases hmem with rfl | rfl <;> rfl

theorem ne_slash_of_isFirstChar {c : Char} (h : isFirstChar c = true) : c ≠ '/' := by
  rintro rfl
  exact absurd h (by decide)

theorem inSegments_chars {s : Text} {atStart : Bool} (h : inSegments atStart s = true) :
    ∀ c ∈ s, isRestChar c = true ∨ c = '/' ∨ c = '\n' := by
  induction s generalizing atStart with
  | nil => exact fun c hc => absurd hc List.not_mem_nil
  | cons c s ih =>
    refine List.forall_mem_cons.mpr ?_
    cases atStart with
    | true =>
      obtain ⟨hc, hs⟩ := (Bool.and_eq_true _ _).mp h
      exact ⟨.inl (isRestChar_of_isFirstChar hc), ih hs⟩
    | false =>
      unfold inSegments at h
      split_ifs at h with hslash hend
      · exact ⟨.inr (.inl hslash), ih h⟩
      · rw [hend.2]
        exact ⟨.inr (.inr hend.1), fun d hd => absurd hd List.not_mem_nil⟩
      · obtain ⟨hc, hs⟩ := (Bool.and_eq_true _ _).mp h
        exact ⟨.inl hc, ih hs⟩

theorem inSegments_last {s : Text} {atStart : Bool} (h : inSegments atStart s = true) :
    s.getLast? ≠ some '/' := by
  induction s generalizing atStart with
  | nil => exact fun hlast => by cases hlast
  | cons c s ih =>
    have hstep (hs : ∃ b, inSegments b s = true) (hc : s = [] → c ≠ '/') :
        (c :: s).getLast? ≠ some '/' := by
      obtain ⟨b, hb⟩ := hs
      cases s with
      | nil => exact fun hlast => hc rfl (Option.some.inj hlast)
      | cons d s =>
        rw [List.getLast?_cons_cons]
        exact ih hb
    cases atStart with
    | true =>
      obtain ⟨hc, hs⟩ := (Bool.and_eq_true _ _).mp h
      exact hstep ⟨_, hs⟩ fun _ => ne_slash_of_isFirstChar hc
    | false =>
      unfold inSegments at h
      split_ifs at h with hslash hend
      · refine hstep ⟨_, h⟩ fun hs => ?_
        rw [hs] at h
        cases h
      · rw [hend.1, hend.2]
        exact fun hlast => by cases hlast
      · obtain ⟨-, hs⟩ := (Bool.and_eq_true _ _).mp h
        exact hstep ⟨_, hs⟩ fun _ => hslash

/-- A public path is a slash and more, with no slash at its ends. -/
theorem publicPath_shape {path : Text} (h : publicPath path = true) :
    ∃ c s, path = '/' :: c :: s ∧ c ≠ '/' ∧ (c :: s).getLast? ≠ some '/' ∧
      ∀ d ∈ c :: s, isRestChar d = true ∨ d = '/' ∨ d = '\n' := by
  have hre : publicPathRe path = true := by
    unfold publicPath at h
    simp only [Bool.and_eq_true] at h
    exact h.1.1.1.1.1
  unfold publicPathRe at hre
  split at hre
  · rename_i s
    cases s with
    | nil => cases hre
    | cons c s =>
      exact ⟨c, s, rfl, ne_slash_of_isFirstChar ((Bool.and_eq_true _ _).mp hre).1,
        inSegments_last hre, inSegments_chars hre⟩
  · cases hre

theorem strip_slash {c : Char} {s : Text} (hc : c ≠ '/') (hlast : (c :: s).getLast? ≠ some '/') :
    strip ('/' :: c :: s) = c :: s := by
  unfold strip
  have hfront : ('/' :: c :: s).dropWhile (· = '/') = c :: s := by
    simp [hc]
  rw [hfront]
  have hback : (c :: s).reverse.dropWhile (· = '/') = (c :: s).reverse := by
    cases hrev : (c :: s).reverse with
    | nil => rfl
    | cons d t =>
      have hd : (c :: s).getLast? = some d := by
        rw [← List.head?_reverse, hrev]
        rfl
      have hne : d ≠ '/' := fun heq => hlast (heq ▸ hd)
      exact List.dropWhile_cons_of_neg (by simp [hne])
  rw [hback, List.reverse_reverse]

/-- The segments determine a public path. -/
theorem segments_inj {path path' : Text} (h : publicPath path = true) (h' : publicPath path' = true)
    (hsegs : segments path = segments path') : path = path' := by
  obtain ⟨c, s, rfl, hc, hlast, -⟩ := publicPath_shape h
  obtain ⟨c', s', rfl, hc', hlast', -⟩ := publicPath_shape h'
  unfold segments at hsegs
  rw [strip_slash hc hlast, strip_slash hc' hlast'] at hsegs
  have hjoin := congrArg (['/'].intercalate ·) hsegs
  simp only [List.intercalate_splitOn] at hjoin
  rw [hjoin]

theorem subset_of_mem_splitOn {s part : Text} (h : part ∈ s.splitOn '/') : part ⊆ s := by
  intro d hd
  have hjoin : d ∈ ['/'].intercalate (s.splitOn '/') := by
    generalize s.splitOn '/' = parts at h
    induction parts with
    | nil => exact absurd h List.not_mem_nil
    | cons p parts ih =>
      cases parts with
      | nil =>
        rw [List.mem_singleton.mp h] at hd
        simpa [List.intercalate] using hd
      | cons p' parts =>
        rw [List.intercalate_cons_cons]
        rcases List.mem_cons.mp h with heq | hmem
        · exact List.mem_append_left _ (List.mem_append_left _ (heq ▸ hd))
        · exact List.mem_append_right _ (ih hmem)
  rwa [List.intercalate_splitOn] at hjoin

theorem not_isParam {path part : Text} (h : publicPath path = true) (hpart : part ∈ segments path) :
    isParam part = false := by
  obtain ⟨c, s, rfl, hc, hlast, hchars⟩ := publicPath_shape h
  unfold segments at hpart
  rw [strip_slash hc hlast] at hpart
  cases part with
  | nil => rfl
  | cons d t =>
    have hd := hchars d (subset_of_mem_splitOn hpart (List.mem_cons_self ..))
    have hne : d ≠ '{' := by
      rintro rfl
      rcases hd with hd | hd | hd
      · exact absurd hd (by decide)
      · exact absurd hd (by decide)
      · exact absurd hd (by decide)
    show ("\x7b".toList.isPrefixOf (d :: t) && _) = false
    have hopening : "\x7b".toList.isPrefixOf (d :: t) = false := by
      show (('{' == d) && _) = false
      rw [beq_eq_false_iff_ne.mpr hne.symm]
      rfl
    rw [hopening]
    rfl

theorem bindParts_literal {parts segs : List Text} (hparts : ∀ p ∈ parts, isParam p = false)
    (hlength : parts.length = segs.length) (params : Dict Text Text) :
    bindParts params (parts.zip segs) = if parts = segs then some params else none := by
  induction parts generalizing segs with
  | nil =>
    obtain rfl := List.length_eq_zero_iff.mp hlength.symm
    rfl
  | cons p parts ih =>
    cases segs with
    | nil => cases hlength
    | cons g segs =>
      obtain ⟨hp, hparts⟩ := List.forall_mem_cons.mp hparts
      rw [List.zip_cons_cons, bindParts, hp, if_neg Bool.false_ne_true,
        ih hparts (Nat.succ.inj hlength)]
      by_cases hg : p = g <;> simp [hg]

/-- **A public route** fits no other public path, and its own without parameters. -/
theorem fits_public {r : Registration η} {path : Text} (hr : publicPath r.pattern = true)
    (hpath : publicPath path = true) :
    (r.route upper).fits (segments path) = if r.pattern = path then some .empty else none := by
  have hparts : ∀ p ∈ segments r.pattern, isParam p = false := fun p hp => not_isParam hr hp
  unfold Route.fits
  show (if (segments r.pattern).length ≠ (segments path).length then none
    else bindParts .empty ((segments r.pattern).zip (segments path))) = _
  by_cases heq : r.pattern = path
  · rw [heq, if_neg (fun h => h rfl), if_pos rfl, bindParts_literal (heq ▸ hparts) rfl, if_pos rfl]
  · have hne : segments r.pattern ≠ segments path := fun h => heq (segments_inj hr hpath h)
    rw [if_neg heq]
    by_cases hlength : (segments r.pattern).length = (segments path).length
    · rw [if_neg (fun h => h hlength), bindParts_literal hparts hlength, if_neg hne]
    · rw [if_pos hlength]

end HaAddons.AdminUi
