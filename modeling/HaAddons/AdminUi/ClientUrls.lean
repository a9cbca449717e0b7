import HaAddons.Lib.UriComponent
import HaAddons.Lib.Matching
import HaAddons.AdminUi.Gate

/-!
# URLs of the client

The client builds a relative URL from a path and a query map; the browser resolves its dot segments,
and the server splits the target, compares literal segments as they were sent and unquotes
parameters and query. What the client means should be what a handler gets.

A path that looks like an absolute URL is rejected by `buildUrl`, and a literal segment of a pattern
is only found where `enc` leaves it as it is.

* `spells_enc` — what `enc` writes is read back.
* `client_meets_server` — the route and all values, wherever `buildUrl` accepts the path.
-/

namespace HaAddons.AdminUi

open HaAddons.Lib.Uri (hexDigit percent byte encodeChar encodeURIComponent isUnreserved Spells
  unquote)

/-! ## The client -/

/-- Characters of `encodeURIComponent` that the client encodes as well. -/
def isEncMark (c : Char) : Bool := c ∈ ['!', '\'', '(', ')', '*']

def markChar (c : Char) : Text := if isEncMark c then percent (byte c) else [c]

def enc (s : Text) : Text := (encodeURIComponent s).flatMap markChar

/-- `/^[a-zA-Z][a-zA-Z0-9+.-]*:/` -/
def schemeLike (path : Text) : Bool :=
  path.head?.any Char.isAlpha && (path.dropWhile isSchemeChar).head? = some ':'

/-- The parts of a query, without the values that are null or undefined. -/
def queryParts (query : List (Text × Option Text)) : List Text :=
  query.filterMap fun e => e.2.map fun v => enc e.1 ++ '=' :: enc v

/-- `buildUrl`; none where it throws. -/
def buildUrl (path : Text) (query : List (Text × Option Text)) : Option Text :=
  if path = [] ∨ path.head? = some '/' ∨ schemeLike path then none
  else
    let url := "api/".toList ++ List.intercalate ['/'] ((path.splitOn '/').map enc)
    if queryParts query = [] then some url
    else some (url ++ '?' :: List.intercalate ['&'] (queryParts query))

/-! ## The browser -/

def dots : List Text := [".", "%2e", "%2E"].map String.toList

def doubleDots : List Text :=
  ["..", ".%2e", ".%2E", "%2e.", "%2E.", "%2e%2e", "%2e%2E", "%2E%2e", "%2E%2E"].map String.toList

/-- Dot segments are resolved from left to right; none where that leaves the path of the page. -/
def resolveDots (acc : List Text) : List Text → Option (List Text)
  | [] => some acc.reverse
  | s :: rest =>
    if doubleDots.contains s then
      if acc = [] then none
      else resolveDots (if rest = [] then [] :: acc.tail else acc.tail) rest
    else if dots.contains s then resolveDots (if rest = [] then [] :: acc else acc) rest
    else resolveDots (s :: acc) rest

/-- The target that the server sees for a relative URL of the page. -/
def requestTarget (url : Text) : Option Text :=
  (resolveDots [] ((beforeQuery url).splitOn '/')).map fun path =>
    '/' :: List.intercalate ['/'] path ++ url.dropWhile (· ≠ '?')

/-! ## The server -/

section Request

variable (replaced : List UInt8 → Text)

def plusToSpace (s : Text) : Text := s.map fun c => if c = '+' then ' ' else c

/-- `parse_qs(query, keep_blank_values=True)`, in the order of the query. -/
def parseQs (query : Text) : List (Text × Text) :=
  ((query.splitOn '&').filter (· ≠ [])).map fun part =>
    (unquote replaced (plusToSpace (part.takeWhile (· ≠ '='))),
      unquote replaced (plusToSpace ((part.dropWhile (· ≠ '=')).drop 1)))

/-- `Request.arg`: the first value of a name. -/
def Request.arg (r : Request) (name : Text) : Option Text :=
  ((parseQs replaced r.query).find? fun e => e.1 = name).map Prod.snd

/-- `Request.params[name]` -/
def Request.param (r : Request) (name : Text) : Option Text :=
  (r.params.get? name).map (unquote replaced)

end Request

/-! ## Patterns that are filled -/

def paramName (part : Text) : Text := (part.drop 1).dropLast

/-- A segment with the value of its parameter. -/
def fill (v : Text → Text) (part : Text) : Text := if isParam part then v (paramName part) else part

/-- The path that the client asks for, from the segments of a pattern after `api`. -/
def clientPath (v : Text → Text) (parts : List Text) : Text :=
  List.intercalate ['/'] (parts.map (fill v))

/-! ## What `enc` writes -/

def isUrlChar (c : Char) : Bool := c.isAlphanum || c ∈ ['-', '_', '.', '~', '%']

theorem isUrlChar_percent (b : UInt8) :
    ∀ c ∈ percent b, isUrlChar c = true ∧ isEncMark c = false := by
  have hdigit : (List.range 16).all (fun n => isUrlChar (hexDigit n) && !isEncMark (hexDigit n)) =
      true := by decide
  have hlt : b.toNat < 256 := b.toNat_lt
  have hboth {n : ℕ} (hn : n < 16) :
      isUrlChar (hexDigit n) = true ∧ isEncMark (hexDigit n) = false := by
    have h := List.all_eq_true.mp hdigit n (List.mem_range.mpr hn)
    rwa [Bool.and_eq_true, Bool.not_eq_true'] at h
  exact List.forall_mem_cons.mpr ⟨⟨rfl, rfl⟩, List.forall_mem_cons.mpr ⟨hboth (by omega),
    List.forall_mem_singleton.mpr (hboth (by omega))⟩⟩

theorem enc_eq (s : Text) : enc s = s.flatMap fun c => (encodeChar c).flatMap markChar :=
  List.flatMap_assoc

/-- Percent signs and digits are not encoded again. -/
theorem flatMap_markChar {s : Text} (h : ∀ c ∈ s, isEncMark c = false) :
    s.flatMap markChar = s := by
  induction s with
  | nil => rfl
  | cons c s ih =>
    obtain ⟨hc, hs⟩ := List.forall_mem_cons.mp h
    rw [List.flatMap_cons, ih hs, markChar, hc, if_neg Bool.false_ne_true, List.singleton_append]

/-- One character: itself, or its bytes. -/
theorem enc_char (c : Char) :
    ((encodeChar c).flatMap markChar = [c] ∧ isUnreserved c = true ∧ isEncMark c = false) ∨
      (encodeChar c).flatMap markChar = (String.utf8EncodeChar c).flatMap percent := by
  unfold encodeChar
  split_ifs with hc
  · cases hmark : isEncMark c with
    | false => exact .inl ⟨flatMap_markChar (List.forall_mem_singleton.mpr hmark), hc, rfl⟩
    | true =>
      refine .inr ?_
      rw [List.flatMap_singleton, markChar, hmark, if_pos rfl,
        Lib.Uri.utf8EncodeChar_ascii (Lib.Uri.isAscii_of_isUnreserved hc).1, List.flatMap_singleton]
  · refine .inr (flatMap_markChar fun d hd => ?_)
    obtain ⟨b, -, hb⟩ := List.mem_flatMap.mp hd
    exact (isUrlChar_percent b d hb).2

/-- **What the client writes** is read back. -/
theorem spells_enc (s : Text) : Spells (enc s) s := by
  rw [enc_eq]
  refine Spells.flatMap (fun c => ?_) s
  rcases enc_char c with ⟨heq, hc, -⟩ | heq
  · obtain ⟨hascii, hne⟩ := Lib.Uri.isAscii_of_isUnreserved hc
    rw [heq]
    exact Spells.plain hascii hne
  · rw [heq]
    exact Spells.percent c

theorem isUrlChar_of_isUnreserved {c : Char} (h : isUnreserved c = true)
    (hmark : isEncMark c = false) : isUrlChar c = true := by
  unfold isUnreserved at h
  unfold isUrlChar
  cases halnum : c.isAlphanum with
  | true => rfl
  | false =>
    rw [halnum, Bool.false_or, decide_eq_true_eq] at h
    simp only [List.mem_cons, List.not_mem_nil, or_false] at h
    rcases h with rfl | rfl | rfl | rfl | rfl | rfl | rfl | rfl | rfl
    · rfl
    · rfl
    · rfl
    · cases hmark
    · rfl
    · cases hmark
    · cases hmark
    · cases hmark
    · cases hmark

theorem isUrlChar_enc (s : Text) : ∀ c ∈ enc s, isUrlChar c = true := by
  intro d hd
  rw [enc_eq] at hd
  obtain ⟨c, -, hd⟩ := List.mem_flatMap.mp hd
  rcases enc_char c with ⟨heq, hc, hmark⟩ | heq
  · rw [heq, List.mem_singleton] at hd
    rw [hd]
    exact isUrlChar_of_isUnreserved hc hmark
  · rw [heq] at hd
    obtain ⟨b, -, hb⟩ := List.mem_flatMap.mp hd
    exact (isUrlChar_percent b d hb).1

/-- A text is not spelled by less than it. -/
theorem unquote_enc (replaced : List UInt8 → Text) (s : Text) : unquote replaced (enc s) = s :=
  Lib.Uri.unquote_of_spells replaced (spells_enc s)

theorem enc_ne_nil {s : Text} (h : s ≠ []) : enc s ≠ [] := by
  intro hnil
  have hback := unquote_enc (fun _ => []) s
  rw [hnil] at hback
  exact h hback.symm

/-- The characters that separate something in a target. -/
theorem not_isUrlChar :
    ['/', '?', '#', '&', '=', '+', ' ', '\t', '\r', '\n'].all (fun c => !isUrlChar c) = true := by
  decide

theorem isUrlChar_separator {c : Char}
    (hc : c ∈ ['/', '?', '#', '&', '=', '+', ' ', '\t', '\r', '\n']) : isUrlChar c = false :=
  (Bool.not_eq_true' _).mp (List.all_eq_true.mp not_isUrlChar c hc)

theorem not_mem_enc {c : Char}
    (hc : c ∈ ['/', '?', '#', '&', '=', '+', ' ', '\t', '\r', '\n']) (s : Text) : c ∉ enc s := by
  intro hmem
  have hurl := isUrlChar_enc s c hmem
  rw [isUrlChar_separator hc] at hurl
  cases hurl

/-! ## The path -/

/-- A value of a parameter. -/
structure IsValue (s : Text) : Prop where
  nonempty : s ≠ []
  noSlash : '/' ∉ s
  noDot : s ≠ ".".toList
  noDoubleDot : s ≠ "..".toList

/-- A literal segment that is sent as it is. -/
structure Literal (part : Text) : Prop where
  plain : enc part = part
  noDot : part ≠ ".".toList
  noDoubleDot : part ≠ "..".toList

theorem unquoteToBytes_dots : dots.all (fun s => Lib.Uri.unquoteToBytes s = [0x2e]) = true := by
  decide

theorem unquoteToBytes_doubleDots :
    doubleDots.all (fun s => Lib.Uri.unquoteToBytes s = [0x2e, 0x2e]) = true := by
  decide

theorem unquoteToBytes_enc (s : Text) : Lib.Uri.unquoteToBytes (enc s) = Lib.Uri.utf8 s := by
  have hreads := (spells_enc s).reads []
  rwa [List.append_nil, Lib.Uri.unquoteToBytes, List.append_nil] at hreads

theorem utf8_inj {s t : Text} (h : Lib.Uri.utf8 s = Lib.Uri.utf8 t) : s = t := by
  rw [← Lib.Uri.decode_utf8 (fun _ => []) s, h, Lib.Uri.decode_utf8]

/-- A dot segment is only written for a dot segment. -/
theorem enc_not_dots {s : Text} (hdot : s ≠ ".".toList) (hdouble : s ≠ "..".toList) :
    enc s ∉ dots ∧ enc s ∉ doubleDots := by
  constructor
  · intro hmem
    have hbytes := of_decide_eq_true (List.all_eq_true.mp unquoteToBytes_dots _ hmem)
    rw [unquoteToBytes_enc] at hbytes
    exact hdot (utf8_inj (t := ".".toList) hbytes)
  · intro hmem
    have hbytes := of_decide_eq_true (List.all_eq_true.mp unquoteToBytes_doubleDots _ hmem)
    rw [unquoteToBytes_enc] at hbytes
    exact hdouble (utf8_inj (t := "..".toList) hbytes)

theorem resolveDots_plain {segs : List Text} (h : ∀ s ∈ segs, s ∉ dots ∧ s ∉ doubleDots)
    (acc : List Text) : resolveDots acc segs = some (acc.reverse ++ segs) := by
  induction segs generalizing acc with
  | nil => rw [resolveDots, List.append_nil]
  | cons s segs ih =>
    obtain ⟨hs, hsegs⟩ := List.forall_mem_cons.mp h
    rw [resolveDots, if_neg (mt List.contains_iff_mem.mp hs.2),
      if_neg (mt List.contains_iff_mem.mp hs.1), ih hsegs, List.reverse_cons, List.append_assoc]
    rfl

/-- The segments of the target, after `api`. -/
def sentParts (v : Text → Text) (parts : List Text) : List Text := parts.map fun p => enc (fill v p)

section Path

variable {v : Text → Text} {parts : List Text}

/-- A filled segment is a value, or a literal one. -/
theorem fill_cases (hv : ∀ name, IsValue (v name))
    (hparts : ∀ p ∈ parts, isParam p = false → Literal p) {p : Text} (hp : p ∈ parts) :
    enc (fill v p) ∉ dots ∧ enc (fill v p) ∉ doubleDots := by
  unfold fill
  cases hparam : isParam p with
  | true => exact enc_not_dots (hv _).noDot (hv _).noDoubleDot
  | false =>
    have hliteral := hparts p hp hparam
    exact enc_not_dots hliteral.noDot hliteral.noDoubleDot

theorem fill_noSlash (hv : ∀ name, IsValue (v name)) (hslash : ∀ p ∈ parts, '/' ∉ p) :
    ∀ p ∈ parts.map (fill v), '/' ∉ p := by
  intro q hq
  obtain ⟨p, hp, rfl⟩ := List.mem_map.mp hq
  unfold fill
  split_ifs
  · exact (hv _).noSlash
  · exact hslash p hp

theorem sentParts_noSlash : ∀ p ∈ "api".toList :: sentParts v parts, '/' ∉ p := by
  refine List.forall_mem_cons.mpr ⟨by decide, fun q hq => ?_⟩
  obtain ⟨p, -, rfl⟩ := List.mem_map.mp hq
  exact not_mem_enc (by decide) _

/-- The path of the URL. -/
def urlPath (v : Text → Text) (parts : List Text) : Text :=
  List.intercalate ['/'] ("api".toList :: sentParts v parts)

theorem splitOn_urlPath : (urlPath v parts).splitOn '/' = "api".toList :: sentParts v parts :=
  List.splitOn_intercalate '/' sentParts_noSlash (List.cons_ne_nil _ _)

/-- The query of the URL. -/
def urlQuery (query : List (Text × Option Text)) : Text :=
  if queryParts query = [] then [] else '?' :: List.intercalate ['&'] (queryParts query)

/-- What `buildUrl` returns for the path of a client. -/
theorem buildUrl_clientPath (hv : ∀ name, IsValue (v name)) (hslash : ∀ p ∈ parts, '/' ∉ p)
    {query : List (Text × Option Text)} {url : Text}
    (hurl : buildUrl (clientPath v parts) query = some url) :
    url = urlPath v parts ++ urlQuery query := by
  unfold buildUrl at hurl
  by_cases hpath : clientPath v parts = [] ∨ (clientPath v parts).head? = some '/' ∨
      schemeLike (clientPath v parts) = true
  · rw [if_pos hpath] at hurl
    cases hurl
  · rw [if_neg hpath] at hurl
    have hne : parts ≠ [] := fun h => hpath (Or.inl (by rw [h]; rfl))
    have hsplit : (clientPath v parts).splitOn '/' = parts.map (fill v) :=
      List.splitOn_intercalate '/' (fill_noSlash hv hslash) (by simpa using hne)
    have hjoin : "api/".toList ++ List.intercalate ['/'] ((parts.map (fill v)).map enc) =
        urlPath v parts := by
      rw [List.map_map]
      cases parts with
      | nil => exact absurd rfl hne
      | cons p parts => rfl
    rw [hsplit, hjoin] at hurl
    by_cases hquery : queryParts query = []
    · simp only [if_pos hquery, Option.some.injEq] at hurl
      rw [urlQuery, if_pos hquery, List.append_nil, hurl]
    · simp only [if_neg hquery, Option.some.injEq] at hurl
      rw [urlQuery, if_neg hquery, hurl]

/-- The path holds the characters of its segments, and slashes. -/
theorem urlPath_chars : ∀ c ∈ urlPath v parts, isUrlChar c = true ∨ c = '/' := by
  have hapi : "api".toList.all isUrlChar = true := by decide
  intro c hc
  rcases HaAddons.Lib.mem_intercalate hc with heq | ⟨l, hl, hmem⟩
  · exact .inr heq
  · refine .inl ?_
    rcases List.mem_cons.mp hl with rfl | hl
    · exact List.all_eq_true.mp hapi c hmem
    · obtain ⟨p, -, rfl⟩ := List.mem_map.mp hl
      exact isUrlChar_enc _ c hmem

theorem not_mem_urlPath : '?' ∉ urlPath v parts := by
  intro hmem
  rcases urlPath_chars _ hmem with h | h
  · rw [isUrlChar_separator (by decide)] at h
    cases h
  · exact absurd h (by decide)

theorem urlQuery_cases (query : List (Text × Option Text)) :
    urlQuery query = [] ∨ ∃ q, urlQuery query = '?' :: q := by
  unfold urlQuery
  split_ifs
  · exact .inl rfl
  · exact .inr ⟨_, rfl⟩

theorem dropWhile_query {u rest : Text} (hu : '?' ∉ u)
    (hrest : rest = [] ∨ ∃ query, rest = '?' :: query) :
    (u ++ rest).dropWhile (· ≠ '?') = rest := by
  rw [List.dropWhile_append_of_pos]
  · rcases hrest with rfl | ⟨query, rfl⟩
    · rfl
    · rfl
  · intro c hc
    refine decide_eq_true ?_
    rintro rfl
    exact hu hc

/-- The browser finds no dot segment. -/
theorem requestTarget_url (hv : ∀ name, IsValue (v name))
    (hparts : ∀ p ∈ parts, isParam p = false → Literal p) (query : List (Text × Option Text)) :
    requestTarget (urlPath v parts ++ urlQuery query) =
      some ('/' :: (urlPath v parts ++ urlQuery query)) := by
  have hmark : '?' ∉ urlPath v parts := not_mem_urlPath
  have hsegs : ∀ s ∈ "api".toList :: sentParts v parts, s ∉ dots ∧ s ∉ doubleDots := by
    refine List.forall_mem_cons.mpr ⟨by decide, fun s hs => ?_⟩
    obtain ⟨p, hp, rfl⟩ := List.mem_map.mp hs
    exact fill_cases hv hparts hp
  rw [requestTarget, beforeQuery_append hmark (urlQuery_cases query),
    dropWhile_query hmark (urlQuery_cases query), splitOn_urlPath, resolveDots_plain hsegs]
  rfl

/-! ## The target is split -/

/-- The query, as `urlsplit` gives it. -/
def queryText (query : List (Text × Option Text)) : Text :=
  List.intercalate ['&'] (queryParts query)

theorem urlQuery_drop (query : List (Text × Option Text)) :
    (urlQuery query).drop 1 = queryText query := by
  unfold urlQuery queryText
  split_ifs with hnil
  · rw [hnil]
    rfl
  · rfl

/-- Characters of a query. -/
theorem queryText_chars (query : List (Text × Option Text)) :
    ∀ c ∈ queryText query, isUrlChar c = true ∨ c = '&' ∨ c = '=' := by
  intro c hc
  rcases HaAddons.Lib.mem_intercalate hc with heq | ⟨l, hl, hmem⟩
  · exact .inr (.inl heq)
  · obtain ⟨e, -, hl⟩ := List.mem_filterMap.mp hl
    obtain ⟨w, -, rfl⟩ := Option.map_eq_some_iff.mp hl
    rw [List.mem_append, List.mem_cons] at hmem
    rcases hmem with hmem | heq | hmem
    · exact .inl (isUrlChar_enc _ c hmem)
    · exact .inr (.inr heq)
    · exact .inl (isUrlChar_enc _ c hmem)

/-- No character of the target is removed by `urlsplit`, or ends the target for it. -/
theorem target_chars (query : List (Text × Option Text)) :
    ∀ c ∈ '/' :: (urlPath v parts ++ urlQuery query), c ∉ ['\t', '\r', '\n'] ∧ c ≠ '#' := by
  have hno : ['/', '?', '&', '='].all (fun c => c ∉ ['\t', '\r', '\n'] && c ≠ '#') = true := by
    decide
  have hgood {c : Char} (hc : isUrlChar c = true ∨ c ∈ ['/', '?', '&', '=']) :
      c ∉ ['\t', '\r', '\n'] ∧ c ≠ '#' := by
    rcases hc with hc | hc
    · have hnot {d : Char} (hd : d ∈ ['/', '?', '#', '&', '=', '+', ' ', '\t', '\r', '\n']) :
          c ≠ d := by
        rintro rfl
        rw [isUrlChar_separator hd] at hc
        cases hc
      refine ⟨?_, hnot (by decide)⟩
      simp only [List.mem_cons, List.not_mem_nil, or_false, not_or]
      exact ⟨hnot (by decide), hnot (by decide), hnot (by decide)⟩
    · have hboth := List.all_eq_true.mp hno c hc
      rwa [Bool.and_eq_true, decide_eq_true_eq, decide_eq_true_eq] at hboth
  refine List.forall_mem_cons.mpr ⟨hgood (.inr (by decide)), List.forall_mem_append.mpr ⟨?_, ?_⟩⟩
  · intro c hc
    rcases urlPath_chars c hc with h | rfl
    · exact hgood (.inl h)
    · exact hgood (.inr (by decide))
  · intro c hc
    unfold urlQuery at hc
    split_ifs at hc
    · exact absurd hc List.not_mem_nil
    · rcases List.mem_cons.mp hc with rfl | hc
      · exact hgood (.inr (by decide))
      · rcases queryText_chars query c hc with h | rfl | rfl
        · exact hgood (.inl h)
        · exact hgood (.inr (by decide))
        · exact hgood (.inr (by decide))

theorem urlPath_cons : ∃ rest, urlPath v parts = 'a' :: rest := by
  unfold urlPath
  cases sentParts v parts with
  | nil => exact ⟨"pi".toList, rfl⟩
  | cons p ps => exact ⟨_, rfl⟩

/-- **The target is split** where the client put its query. -/
theorem urlsplit_target (netlocOk : Text → Bool) (query : List (Text × Option Text)) :
    urlsplit netlocOk ('/' :: (urlPath v parts ++ urlQuery query)) =
      some ('/' :: urlPath v parts, queryText query) := by
  have hchars := @target_chars v parts query
  have hclean : clean ('/' :: (urlPath v parts ++ urlQuery query)) =
      '/' :: (urlPath v parts ++ urlQuery query) := by
    have hfilter : ('/' :: (urlPath v parts ++ urlQuery query)).filter
        (fun c => c ∉ ['\t', '\r', '\n']) = '/' :: (urlPath v parts ++ urlQuery query) :=
      List.filter_eq_self.mpr fun c hc => decide_eq_true (hchars c hc).1
    exact hfilter
  have hsplit : splitNetloc ('/' :: (urlPath v parts ++ urlQuery query)) =
      ([], '/' :: (urlPath v parts ++ urlQuery query)) := by
    obtain ⟨rest, hrest⟩ := @urlPath_cons v parts
    rw [hrest]
    refine if_neg ?_
    rintro ⟨t, ht⟩
    have hslash := (List.cons.inj (List.cons.inj ht).2).1
    exact absurd hslash (by decide)
  have hwhole : ('/' :: (urlPath v parts ++ urlQuery query)).takeWhile (· ≠ '#') =
      '/' :: (urlPath v parts ++ urlQuery query) := by
    refine List.takeWhile_eq_self_iff.mpr fun c hc => decide_eq_true (hchars c hc).2
  have hmark : '?' ∉ '/' :: urlPath v parts := by
    rw [List.mem_cons]
    rintro (h | h)
    · exact absurd h (by decide)
    · exact not_mem_urlPath h
  have hpath : beforeQuery ('/' :: (urlPath v parts ++ urlQuery query)) = '/' :: urlPath v parts :=
    beforeQuery_append hmark (urlQuery_cases query)
  have hquery : ('/' :: (urlPath v parts ++ urlQuery query)).dropWhile (· ≠ '?') =
      urlQuery query := @dropWhile_query ('/' :: urlPath v parts) _ hmark (urlQuery_cases query)
  unfold urlsplit
  rw [hclean, afterScheme_slash, hsplit]
  simp only [ne_eq, not_true_eq_false, false_and, if_false]
  simp only [ne_eq] at hwhole hquery
  rw [hwhole, hpath, hquery, urlQuery_drop]

end Path

/-! ## The query is read back -/

section Query

variable (replaced : List UInt8 → Text)

theorem plusToSpace_enc (s : Text) : plusToSpace (enc s) = enc s := by
  have hplus : '+' ∉ enc s := not_mem_enc (by decide) s
  refine (List.map_congr_left fun c hc => ?_).trans (List.map_id _)
  have hne : c ≠ '+' := by
    rintro rfl
    exact hplus hc
  exact if_neg hne

/-- One part of a query. -/
theorem part_split (k w : Text) :
    (enc k ++ '=' :: enc w).takeWhile (· ≠ '=') = enc k ∧
      ((enc k ++ '=' :: enc w).dropWhile (· ≠ '=')).drop 1 = enc w := by
  have hpos : ∀ c ∈ enc k, decide (c ≠ '=') = true := by
    intro c hc
    refine decide_eq_true ?_
    rintro rfl
    exact not_mem_enc (by decide) k hc
  constructor
  · rw [List.takeWhile_append_of_pos hpos]
    exact List.append_nil _
  · rw [List.dropWhile_append_of_pos hpos]
    rfl

/-- The pairs of a query. -/
def stringPairs (query : List (Text × Option Text)) : List (Text × Text) :=
  query.filterMap fun e => e.2.map fun w => (e.1, w)

theorem queryParts_eq (query : List (Text × Option Text)) :
    queryParts query = (stringPairs query).map fun e => enc e.1 ++ '=' :: enc e.2 := by
  unfold queryParts stringPairs
  rw [List.map_filterMap]
  simp only [Option.map_map]
  rfl

/-- **The query is read back**, in the order in which it was written. -/
theorem parseQs_queryText (query : List (Text × Option Text)) :
    parseQs replaced (queryText query) = stringPairs query := by
  have hparts := queryParts_eq query
  cases hpairs : stringPairs query with
  | nil =>
    rw [hpairs, List.map_nil] at hparts
    rw [queryText, hparts]
    rfl
  | cons e pairs =>
    rw [hpairs] at hparts
    have hamp : ∀ part ∈ queryParts query, '&' ∉ part := by
      rw [hparts]
      intro part hpart
      obtain ⟨f, -, rfl⟩ := List.mem_map.mp hpart
      rw [List.mem_append, List.mem_cons]
      rintro (h | h | h)
      · exact not_mem_enc (by decide) _ h
      · exact absurd h (by decide)
      · exact not_mem_enc (by decide) _ h
    have hsplit : (queryText query).splitOn '&' = queryParts query :=
      List.splitOn_intercalate '&' hamp (by rw [hparts]; exact List.cons_ne_nil _ _)
    have hfilter : (queryParts query).filter (· ≠ []) = queryParts query := by
      refine List.filter_eq_self.mpr fun part hpart => decide_eq_true ?_
      rw [hparts] at hpart
      obtain ⟨f, -, rfl⟩ := List.mem_map.mp hpart
      simp
    rw [parseQs, hsplit, hfilter, hparts, List.map_map]
    refine (List.map_congr_left fun f _ => ?_).trans (List.map_id _)
    have hpart := part_split f.1 f.2
    simp only [Function.comp_apply, hpart.1, hpart.2, plusToSpace_enc, unquote_enc]
    rfl

/-- The first pair of a key, where keys are unique. -/
theorem find?_stringPairs {query : List (Text × Option Text)}
    (hnodup : (query.map Prod.fst).Nodup) (key : Text) :
    ((stringPairs query).find? fun e => e.1 = key).map Prod.snd =
      ((query.find? fun e => e.1 = key).map Prod.snd).join := by
  induction query with
  | nil => rfl
  | cons e query ih =>
    obtain ⟨k, w⟩ := e
    obtain ⟨hnot, hrest⟩ := List.nodup_cons.mp hnodup
    by_cases hk : k = key
    · rw [List.find?_cons_of_pos (by simpa using hk)]
      cases w with
      | some x =>
        have hcons : stringPairs ((k, some x) :: query) = (k, x) :: stringPairs query := rfl
        rw [hcons, List.find?_cons_of_pos (by simpa using hk)]
        rfl
      | none =>
        have hcons : stringPairs ((k, none) :: query) = stringPairs query := rfl
        have hnone : (stringPairs query).find? (fun e => e.1 = key) = none := by
          refine List.find?_eq_none.mpr fun f hf => ?_
          obtain ⟨g, hg, hmap⟩ := List.mem_filterMap.mp hf
          obtain ⟨x, -, rfl⟩ := Option.map_eq_some_iff.mp hmap
          have hmem : g.1 ∈ query.map Prod.fst := List.mem_map_of_mem hg
          simp only [decide_eq_true_eq]
          rintro rfl
          exact hnot (hk ▸ hmem)
        rw [hcons, hnone]
        rfl
    · rw [List.find?_cons_of_neg (by simpa using hk), ← ih hrest]
      cases w with
      | some x =>
        have hcons : stringPairs ((k, some x) :: query) = (k, x) :: stringPairs query := rfl
        rw [hcons, List.find?_cons_of_neg (by simpa using hk)]
      | none => rfl

theorem arg_queryText {query : Dict Text (Option Text)} {r : Request}
    (hr : r.query = queryText query.entries) (key : Text) :
    r.arg replaced key = (query.get? key).join := by
  rw [Request.arg, hr, parseQs_queryText, find?_stringPairs query.nodup]
  rfl

end Query

/-! ## The route is found -/

section Match

variable {v : Text → Text} {parts : List Text}

/-- The parameters of a route, as they were sent. -/
theorem bindParts_sent (hv : ∀ name, IsValue (v name))
    (hparts : ∀ p ∈ parts, isParam p = false → Literal p) (params : Dict Text Text) :
    ∃ params', bindParts params (parts.zip (sentParts v parts)) = some params' ∧
      ∀ name, params'.get? name =
        if ∃ p ∈ parts, isParam p = true ∧ paramName p = name then some (enc (v name))
        else params.get? name := by
  induction parts generalizing params with
  | nil => exact ⟨params, rfl, fun name => by simp⟩
  | cons p parts ih =>
    obtain ⟨hp, hparts⟩ := List.forall_mem_cons.mp hparts
    have hzip : (p :: parts).zip (sentParts v (p :: parts)) =
        (p, enc (fill v p)) :: parts.zip (sentParts v parts) := rfl
    rw [hzip, bindParts]
    cases hparam : isParam p with
    | true =>
      have hfill : fill v p = v (paramName p) := if_pos hparam
      rw [if_pos rfl, hfill, if_neg (enc_ne_nil (hv _).nonempty)]
      obtain ⟨params', hbind, hget⟩ :=
        ih hparts (params.insert (paramName p) (enc (v (paramName p))))
      refine ⟨params', hbind, fun name => ?_⟩
      rw [hget, Dict.get?_insert]
      by_cases hlater : ∃ q ∈ parts, isParam q = true ∧ paramName q = name
      · rw [if_pos hlater, if_pos]
        obtain ⟨q, hq, hname⟩ := hlater
        exact ⟨q, List.mem_cons_of_mem _ hq, hname⟩
      · rw [if_neg hlater]
        by_cases hname : name = paramName p
        · rw [if_pos hname, if_pos ⟨p, List.mem_cons_self .., hparam, hname.symm⟩, hname]
        · rw [if_neg hname, if_neg]
          rintro ⟨q, hq, hq'⟩
          rcases List.mem_cons.mp hq with rfl | hq
          · exact hname hq'.2.symm
          · exact hlater ⟨q, hq, hq'⟩
    | false =>
      have hfill : fill v p = p := if_neg (by rw [hparam]; exact Bool.false_ne_true)
      rw [if_neg Bool.false_ne_true, hfill, (hp hparam).plain, if_neg (fun h => h rfl)]
      obtain ⟨params', hbind, hget⟩ := ih hparts params
      refine ⟨params', hbind, fun name => ?_⟩
      rw [hget]
      refine if_congr ?_ rfl rfl
      constructor
      · rintro ⟨q, hq, hq'⟩
        exact ⟨q, List.mem_cons_of_mem _ hq, hq'⟩
      · rintro ⟨q, hq, hq'⟩
        rcases List.mem_cons.mp hq with rfl | hq
        · rw [hparam] at hq'
          cases hq'.1
        · exact ⟨q, hq, hq'⟩

/-- The segments of a pattern do not end with an empty one. -/
theorem getLast?_strip (s : Text) : (strip s).getLast? ≠ some '/' := by
  unfold strip
  rw [List.getLast?_reverse]
  have hhead := List.head?_dropWhile_not (fun c => decide (c = '/')) (s.dropWhile (· = '/')).reverse
  intro h
  rw [h] at hhead
  exact absurd hhead (by decide)

/-- A text ends as its last line does. -/
theorem getLast?_intercalate {sep : Char} {ls : List Text} (hne : ls ≠ [])
    (hlast : ls.getLast hne ≠ []) :
    (List.intercalate [sep] ls).getLast? = (ls.getLast hne).getLast? := by
  induction ls with
  | nil => exact absurd rfl hne
  | cons l ls ih =>
    cases ls with
    | nil => rw [List.intercalate_singleton]; rfl
    | cons l' ls =>
      rw [List.getLast_cons_cons] at hlast ⊢
      rw [List.intercalate_cons_cons, List.getLast?_append, ih (List.cons_ne_nil _ _) hlast,
        List.getLast?_eq_some_getLast hlast]
      rfl

/-- A text ends with the separator where its last line is empty. -/
theorem getLast?_empty {sep : Char} {first : Text} {ls : List Text} (hne : ls ≠ [])
    (hlast : ls.getLast hne = []) :
    (List.intercalate [sep] (first :: ls)).getLast? = some sep := by
  induction ls generalizing first with
  | nil => exact absurd rfl hne
  | cons l ls ih =>
    rw [List.intercalate_cons_cons]
    cases ls with
    | nil =>
      rw [List.getLast_singleton] at hlast
      rw [hlast, List.intercalate_singleton, List.append_nil, List.getLast?_concat]
    | cons l' ls =>
      rw [List.getLast_cons_cons] at hlast
      rw [List.getLast?_append, ih (List.cons_ne_nil _ _) hlast]
      rfl

/-- The last segment of a pattern with more than one is not empty. -/
theorem segments_last {pattern first : Text} {ps : List Text}
    (h : segments pattern = first :: ps) (hne : ps ≠ []) : ps.getLast hne ≠ [] := by
  intro hempty
  have hstrip : strip pattern = List.intercalate ['/'] (first :: ps) := by
    rw [← h, segments, List.intercalate_splitOn]
  have hend := @getLast?_empty '/' first ps hne hempty
  rw [← hstrip] at hend
  exact getLast?_strip pattern hend

theorem fill_ne_nil (hv : ∀ name, IsValue (v name)) {p : Text} (hp : p ≠ []) : fill v p ≠ [] := by
  unfold fill
  split_ifs
  · exact (hv _).nonempty
  · exact hp

/-- The segments of the path that is sent. -/
theorem segments_urlPath (hv : ∀ name, IsValue (v name)) {pattern : Text}
    (hpattern : segments pattern = "api".toList :: parts) :
    segments ('/' :: urlPath v parts) = "api".toList :: sentParts v parts := by
  obtain ⟨rest, hrest⟩ := @urlPath_cons v parts
  have hlast : (urlPath v parts).getLast? ≠ some '/' := by
    have hne : ("api".toList :: sentParts v parts).getLast (List.cons_ne_nil _ _) ≠ [] := by
      cases hcases : parts with
      | nil => exact List.cons_ne_nil _ _
      | cons p ps =>
        have hnil : parts ≠ [] := by simp [hcases]
        have hsent : sentParts v parts ≠ [] := by simp [sentParts, hcases]
        rw [← hcases, List.getLast_cons hsent]
        simp only [sentParts, List.getLast_map]
        exact enc_ne_nil (fill_ne_nil hv (segments_last hpattern hnil))
    intro hslash
    rw [urlPath, getLast?_intercalate (List.cons_ne_nil _ _) hne] at hslash
    exact sentParts_noSlash _ (List.getLast_mem _) (List.mem_of_getLast? hslash)
  rw [segments, hrest, strip_slash (by decide) (hrest ▸ hlast), ← hrest, splitOn_urlPath]

end Match

/-! ## What the client means -/

variable {η : Type}

/-- No request fits both routes. -/
def Apart (r r' : Route η) : Prop := ∀ segs, (r.fits segs).isSome → r'.fits segs = none

theorem noSlash_of_segments {pattern : Text} : ∀ p ∈ segments pattern, '/' ∉ p := by
  intro p hp hslash
  rw [segments, List.splitOn_eq_splitOnP] at hp
  exact absurd (not_of_mem_piece hp _ hslash) (by decide)

theorem collapse_url {v : Text → Text} {parts : List Text} (rest : Text) :
    collapse ('/' :: (urlPath v parts ++ rest)) = '/' :: (urlPath v parts ++ rest) := by
  obtain ⟨t, ht⟩ := @urlPath_cons v parts
  rw [ht]
  refine if_neg ?_
  rintro ⟨u, hu⟩
  have hslash := (List.cons.inj (List.cons.inj hu).2).1
  exact absurd hslash (by decide)

/-- The route of a pattern fits the path that is sent for it. -/
theorem fits_urlPath {upper : Text → Text} {reg : Registration η} {parts : List Text}
    (hparts : segments reg.pattern = "api".toList :: parts)
    (hliteral : ∀ p ∈ parts, isParam p = false → Literal p)
    {v : Text → Text} (hv : ∀ name, IsValue (v name)) :
    ∃ params, (reg.route upper).fits (segments ('/' :: urlPath v parts)) = some params ∧
      ∀ name, params.get? name =
        if ∃ p ∈ parts, isParam p = true ∧ paramName p = name then some (enc (v name))
        else none := by
  obtain ⟨params, hbind, hget⟩ := bindParts_sent hv hliteral .empty
  refine ⟨params, ?_, hget⟩
  have hroute : (reg.route upper).parts = "api".toList :: parts := hparts
  have hlength : ¬ ("api".toList :: parts).length ≠ ("api".toList :: sentParts v parts).length := by
    simp [sentParts]
  have hapi : isParam "api".toList = false := by decide
  rw [Route.fits, hroute, segments_urlPath hv hparts, if_neg hlength, List.zip_cons_cons, bindParts,
    hapi, if_neg Bool.false_ne_true, if_neg (fun h => h rfl), hbind]

/-- The URL reaches the handler of the registration, which gets these values for the parameters of
its pattern and each argument of the query. -/
def Reaches (upper : Text → Text) (rs : List (Registration η)) (reg : Registration η)
    (parts : List Text) (v : Text → Text) (query : Dict Text (Option Text)) (netlocOk : Text → Bool)
    (replaced : List UInt8 → Text) (url : Text) : Prop :=
  ∃ target path q params, requestTarget url = some target ∧
    urlsplit netlocOk (collapse target) = some (path, q) ∧
    (Router.build upper rs).match (upper reg.method) path = .ok (reg.handler, params) ∧
    ∀ r : Request, r.params = params → r.query = q →
      (∀ name, r.param replaced name =
        if ∃ p ∈ parts, isParam p = true ∧ paramName p = name then some (v name) else none) ∧
      ∀ key, r.arg replaced key = (query.get? key).join

/-- **What the client means is what a handler gets.** The path that `buildUrl` makes of a pattern
below `/api/` and of values for its parameters reaches the route of the pattern, with these values
and each query argument, if no earlier route can be meant and the literal segments are sent as they
are. -/
theorem client_meets_server {upper : Text → Text} {rs before after : List (Registration η)}
    {reg : Registration η} (hrs : rs.filter Registration.accepted = before ++ reg :: after)
    (hfirst : ∀ r ∈ before, upper r.method = upper reg.method →
      Apart (reg.route upper) (r.route upper))
    {parts : List Text} (hparts : segments reg.pattern = "api".toList :: parts)
    (hliteral : ∀ p ∈ parts, isParam p = false → Literal p)
    {v : Text → Text} (hv : ∀ name, IsValue (v name)) (query : Dict Text (Option Text)) {url : Text}
    (hurl : buildUrl (clientPath v parts) query.entries = some url)
    (netlocOk : Text → Bool) (replaced : List UInt8 → Text) :
    Reaches upper rs reg parts v query netlocOk replaced url := by
  have hslash : ∀ p ∈ parts, '/' ∉ p := fun p hp =>
    noSlash_of_segments p (hparts ▸ List.mem_cons_of_mem _ hp)
  obtain rfl := buildUrl_clientPath hv hslash hurl
  obtain ⟨params, hfits, hget⟩ := @fits_urlPath η upper reg parts hparts hliteral v hv
  refine ⟨_, '/' :: urlPath v parts, queryText query.entries, params,
    requestTarget_url hv hliteral query.entries, ?_, ?_, ?_⟩
  · rw [collapse_url]
    exact urlsplit_target netlocOk query.entries
  · refine match_ok_iff.mpr ⟨reg.route upper, ?_, rfl, hfits⟩
    rw [build_routes, hrs, List.map_append, List.map_cons, List.find?_append]
    have hnone : (before.map (Registration.route upper)).find?
        (fun r => r.takes (upper reg.method) ('/' :: urlPath v parts)) = none := by
      refine List.find?_eq_none.mpr fun route hroute => ?_
      obtain ⟨r, hr, rfl⟩ := List.mem_map.mp hroute
      unfold Route.takes
      by_cases hmethod : upper r.method = upper reg.method
      · rw [hfirst r hr hmethod _ (by rw [hfits]; rfl)]
        simp
      · have hne : ¬ (r.route upper).method = upper reg.method := hmethod
        simp [hne]
    have htakes : (reg.route upper).takes (upper reg.method) ('/' :: urlPath v parts) = true := by
      rw [Route.takes, hfits, Option.isSome_some, Bool.and_true]
      exact decide_eq_true rfl
    have hfound : ((reg.route upper) :: after.map (Registration.route upper)).find?
        (fun r => r.takes (upper reg.method) ('/' :: urlPath v parts)) = some (reg.route upper) :=
      List.find?_cons_of_pos htakes
    rw [hnone, hfound]
    rfl
  · intro r hparams hquery
    refine ⟨fun name => ?_, fun key => arg_queryText replaced hquery key⟩
    rw [Request.param, hparams, hget]
    split_ifs
    · rw [Option.map_some, unquote_enc]
    · rfl

/-! ## Patterns that cannot be reached -/

def getRoute (pattern : String) : Registration ℕ := ⟨"GET".toList, pattern.toList, 1, false⟩

def postRoute (pattern : String) : Registration ℕ := ⟨"POST".toList, pattern.toList, 2, false⟩

def topicQuery : Dict Text (Option Text) :=
  ⟨[("topic".toList, some "x*&=+ ".toList), ("none".toList, none)], by decide⟩

theorem client_meets_server_users :
    buildUrl (clientPath (fun _ => "a*+é%".toList) ["users".toList, "\x7bname\x7d".toList])
        topicQuery.entries =
      some "api/users/a%2A%2B%C3%A9%25?topic=x%2A%26%3D%2B%20".toList ∧
    Reaches id [postRoute "/api/users/\x7bname\x7d", getRoute "/api/users/\x7bname\x7d"]
      (getRoute "/api/users/\x7bname\x7d") ["users".toList, "\x7bname\x7d".toList]
      (fun _ => "a*+é%".toList) topicQuery (fun _ => true) (fun _ => [])
      "api/users/a%2A%2B%C3%A9%25?topic=x%2A%26%3D%2B%20".toList := by
  have hurl : buildUrl
      (clientPath (fun _ => "a*+é%".toList) ["users".toList, "\x7bname\x7d".toList])
      topicQuery.entries = some "api/users/a%2A%2B%C3%A9%25?topic=x%2A%26%3D%2B%20".toList := by
    decide
  have hrs : [postRoute "/api/users/\x7bname\x7d", getRoute "/api/users/\x7bname\x7d"].filter
      Registration.accepted =
      [postRoute "/api/users/\x7bname\x7d"] ++ getRoute "/api/users/\x7bname\x7d" :: [] := rfl
  refine ⟨hurl, client_meets_server hrs ?_ rfl ?_ ?_ topicQuery hurl _ _⟩
  · intro r hr hmethod
    rw [List.mem_singleton.mp hr] at hmethod
    exact absurd hmethod (by decide)
  · refine List.forall_mem_cons.mpr ⟨fun _ => ⟨by decide, by decide, by decide⟩, ?_⟩
    exact List.forall_mem_singleton.mpr fun h => absurd h (by decide)
  · exact fun _ => ⟨by decide, by decide, by decide, by decide⟩

/-- A path like an absolute URL is rejected, a literal segment is compared as it was sent, and a
dot segment is not sent. -/
theorem client_misses :
    buildUrl (clientPath (fun _ => "a:b".toList) ["\x7bname\x7d".toList]) [] = none ∧
    (buildUrl (clientPath (fun _ => "x".toList) ["a+b".toList]) []).bind requestTarget =
      some "/api/a%2Bb".toList ∧
    (∀ params, (Router.build id [getRoute "/api/a+b"]).match "GET".toList "/api/a%2Bb".toList ≠
      .ok (1, params)) ∧
    (buildUrl (clientPath (fun _ => "x".toList) [".".toList, "a".toList]) []).bind requestTarget =
      some "/api/a".toList ∧
    ∀ params, (Router.build id [getRoute "/api/./a"]).match "GET".toList "/api/a".toList ≠
      .ok (1, params) :=
  ⟨by decide, by decide, fun _ h => (by cases h), by decide, fun _ h => (by cases h)⟩

end HaAddons.AdminUi
