import HaAddons.MarkdownRenderer.NginxReads
import Mathlib.Data.List.Nodup

/-!
# Where requests go

What the web server does with a request when it runs on the file that `_render_nginx` writes.

* `serve_renderNginx` — a request below a namespace is served from the path of that namespace, or
  by its index page, and below `_static` from the assets; everything else gets the landing page.
-/

namespace HaAddons.Markdown

open HaAddons.Lib.Nginx

/-- What a request for a path gets from a server with this configuration. -/
def serve (conf uri : Text) : Option Answer :=
  (parse conf).bind fun ds => answer (locations ds) uri

/-! ## What is intended -/

def staticName : Text := "_static".toList

def indexHtml : Text := "/index.html".toList

def landingPage : Answer := .files [landingDir ++ indexHtml]

/-- A request inside a namespace; `more` comes after the slash. -/
def inNamespace (ns : Namespace) (more : Text) : Answer :=
  if (staticName ++ ['/']).isPrefixOf more then
    .files [assetsDir ++ '/' :: more.drop (staticName.length + 1)]
  else .files [ns.path ++ '/' :: more, docrootsDir ++ '/' :: ns.name ++ indexHtml]

/-- What is intended for the path `/seg` and what follows it, from the next slash on. -/
def intended (namespaces : List Namespace) (seg after : Text) : Answer :=
  match namespaces.find? (·.name = seg), after with
  | some ns, [] => .redirect "301".toList ('/' :: ns.name ++ ['/'])
  | some ns, _ :: more => inNamespace ns more
  | none, [] => landingPage
  | none, _ :: more =>
    if seg = staticName then .files [assetsDir ++ '/' :: more] else landingPage

/-! ## The locations -/

def fixedLocs : List Location :=
  [⟨.under "/_static/".toList, [.simple ["alias".toList, assetsDir ++ ['/']], noStore]⟩,
    ⟨.exact ['/'], landing⟩, ⟨.under ['/'], landing⟩]

section Locations

variable (ns : Namespace)

def redirectLoc : Location :=
  ⟨.exact ('/' :: ns.name), [.simple ["return".toList, "301".toList, '/' :: ns.name ++ ['/']]]⟩

def staticLoc : Location :=
  ⟨.under ('/' :: ns.name ++ "/_static/".toList),
    [.simple ["alias".toList, assetsDir ++ ['/']], noStore]⟩

def docsLoc : Location :=
  ⟨.under ('/' :: ns.name ++ ['/']), [.simple ["alias".toList, ns.path ++ ['/']],
    .simple ["try_files".toList, "$uri".toList, "@docsify_".toList ++ ns.name], noStore]⟩

def fallbackLoc : Location :=
  ⟨.named ("@docsify_".toList ++ ns.name),
    [.simple ["root".toList, docrootsDir ++ '/' :: ns.name],
      simple ["try_files", "/index.html", "=404"], noStore]⟩

def nsLocs : List Location := [redirectLoc ns, staticLoc ns, docsLoc ns, fallbackLoc ns]

end Locations

def locs (namespaces : List Namespace) : List Location :=
  fixedLocs ++ namespaces.flatMap nsLocs

theorem locations_namespace (ns : Namespace) :
    (namespaceLocations ns).filterMap location? = nsLocs ns := by
  have hredirect : location? (redirectLocation ns) = some (redirectLoc ns) := location?_exact
  have hstatic : location? (staticLocation ns) = some (staticLoc ns) :=
    location?_under (by simp)
  have hdocs : location? (docsLocation ns) = some (docsLoc ns) := location?_under (by simp)
  have hfallback : location? (fallbackLocation ns) = some (fallbackLoc ns) :=
    location?_named (by simp)
  rw [namespaceLocations, List.filterMap_cons_some hredirect, List.filterMap_cons_some hstatic,
    List.filterMap_cons_some hdocs, List.filterMap_cons_some hfallback]
  rfl

theorem locations_fixed : fixedLocations.filterMap location? = fixedLocs := by
  have hstatic : ("/_static/".toList).head? ≠ some '@' := by simp
  rw [fixedLocations, List.filterMap_cons_some (location?_under hstatic),
    List.filterMap_cons_some location?_exact, List.filterMap_cons_some (location?_under (by simp))]
  rfl

theorem locations_nginxDirectives (namespaces : List Namespace) :
    locations (nginxDirectives namespaces) = locs namespaces := by
  have hhttp : block? "http".toList (nginxDirectives namespaces) =
      httpDirectives ++ [.block ["server".toList] (serverDirectives namespaces)] := by
    rw [nginxDirectives, simple, block?_simple, simple, block?_simple, simple, block?_simple,
      block?_ne (by simp), block?_eq]
  have hserver : block? "server".toList
      (httpDirectives ++ [.block ["server".toList] (serverDirectives namespaces)]) =
        serverDirectives namespaces :=
    (block?_eq : block? "server".toList [.block ["server".toList] _] = _)
  have hplain : [simple ["listen", "8099"], simple ["server_name", "localhost"]].filterMap
      location? = [] := rfl
  rw [locations, hhttp, hserver, serverDirectives, List.filterMap_append, List.filterMap_append,
    hplain, locations_fixed, locs, List.filterMap_flatMap]
  simp only [locations_namespace, List.nil_append]

/-! ## What a location gives -/

section Answers

variable {ds : List Directive} {n : Text}

theorem argsOf_noStore (h : "add_header".toList ≠ n) : argsOf n [noStore] = none := argsOf_ne h

theorem keywords_ne : kwAlias ≠ kwReturn ∧ kwAlias ≠ kwTryFiles ∧ kwRoot ≠ kwReturn ∧
    kwRoot ≠ kwAlias ∧ kwRoot ≠ kwTryFiles ∧ kwTryFiles ≠ kwReturn ∧ kwTryFiles ≠ kwAlias ∧
    "add_header".toList ≠ kwReturn ∧ "add_header".toList ≠ kwAlias ∧
    "add_header".toList ≠ kwTryFiles := by
  show "alias".toList ≠ "return".toList ∧ "alias".toList ≠ "try_files".toList ∧
    "root".toList ≠ "return".toList ∧ "root".toList ≠ "alias".toList ∧
    "root".toList ≠ "try_files".toList ∧ "try_files".toList ≠ "return".toList ∧
    "try_files".toList ≠ "alias".toList ∧ "add_header".toList ≠ "return".toList ∧
    "add_header".toList ≠ "alias".toList ∧ "add_header".toList ≠ "try_files".toList
  simp

/-- The parameters of a location that serves one file from a directory. -/
theorem argsOf_page (dir : Text) : let body : List Directive :=
      [.simple ["root".toList, dir], simple ["try_files", "/index.html", "=404"], noStore]
    argsOf kwReturn body = none ∧ argsOf kwAlias body = none ∧ argsOf kwRoot body = some [dir] ∧
      argsOf kwTryFiles body = some [indexHtml, "=404".toList] := by
  obtain ⟨-, -, hrr, hra, hrt, htr, hta, hnr, hna, -⟩ := keywords_ne
  refine ⟨?_, ?_, argsOf_eq, ?_⟩
  · exact (argsOf_ne hrr).trans ((argsOf_ne htr).trans (argsOf_noStore hnr))
  · exact (argsOf_ne hra).trans ((argsOf_ne hta).trans (argsOf_noStore hna))
  · exact (argsOf_ne hrt).trans argsOf_eq

theorem argsOf_static : let body : List Directive :=
      [.simple ["alias".toList, assetsDir ++ ['/']], noStore]
    argsOf kwReturn body = none ∧ argsOf kwAlias body = some [assetsDir ++ ['/']] ∧
      argsOf kwTryFiles body = none := by
  obtain ⟨har, hat, -, -, -, -, -, hnr, -, hnt⟩ := keywords_ne
  refine ⟨?_, argsOf_eq, ?_⟩
  · exact (argsOf_ne har).trans (argsOf_noStore hnr)
  · exact (argsOf_ne hat).trans (argsOf_noStore hnt)

theorem argsOf_docs (ns : Namespace) : argsOf kwReturn (docsLoc ns).body = none ∧
    argsOf kwAlias (docsLoc ns).body = some [ns.path ++ ['/']] ∧
    argsOf kwTryFiles (docsLoc ns).body =
      some ["$uri".toList, "@docsify_".toList ++ ns.name] := by
  obtain ⟨har, hat, -, -, -, htr, -, hnr, -, -⟩ := keywords_ne
  refine ⟨?_, argsOf_eq, ?_⟩
  · exact (argsOf_ne har).trans ((argsOf_ne htr).trans (argsOf_noStore hnr))
  · exact (argsOf_ne hat).trans argsOf_eq

variable {ls : List Location} {uri : Text} {p : Pattern}

theorem answer_of_find {l : Location} (h : find ls uri = some l)
    (hreturn : argsOf kwReturn l.body = none) :
    answer ls uri = some (.files (tried ls maxUriChanges l uri)) := by
  rw [answer, h, Option.map_some, hreturn]

/-- A location that serves one file serves nothing else. -/
theorem tried_page {l : Location} {dir : Text} (k : ℕ)
    (hbody : l.body = [.simple ["root".toList, dir], simple ["try_files", "/index.html", "=404"],
      noStore]) :
    tried ls (k + 1) l uri = [dir ++ indexHtml] := by
  obtain ⟨-, halias, hroot, htry⟩ := argsOf_page dir
  have hindex : indexHtml ≠ "$uri".toList := by
    intro h
    have hhead : ("/index.html".toList).head? = ("$uri".toList).head? := congrArg List.head? h
    simp at hhead
  have hfile : l.file indexHtml = some (dir ++ indexHtml) := by
    rw [Location.file, hbody, halias, hroot]
  have hlast : ("=404".toList).head? = some '=' := by simp
  rw [tried, hbody, htry]
  simp only [List.dropLast, List.filterMap_cons, if_neg hindex, hfile, List.filterMap_nil,
    List.getLast?_cons_cons, List.getLast?_singleton, hlast]
  simp

theorem answer_landing (h : find ls uri = some ⟨p, landing⟩) :
    answer ls uri = some landingPage := by
  rw [answer_of_find h (argsOf_page landingDir).1, maxUriChanges, tried_page 9 rfl, landingPage]

theorem answer_static {u : Text}
    (h : find ls uri = some ⟨.under u, [.simple ["alias".toList, assetsDir ++ ['/']], noStore]⟩) :
    answer ls uri = some (.files [assetsDir ++ '/' :: uri.drop u.length]) := by
  obtain ⟨hreturn, halias, htry⟩ := argsOf_static
  rw [answer_of_find h hreturn, maxUriChanges, tried, htry, Location.file, halias]
  simp

theorem answer_docs {ns : Namespace} (h : find ls uri = some (docsLoc ns))
    (hnamed : ls.find? (fun k => decide (k.pattern = .named ("@docsify_".toList ++ ns.name))) =
      some (fallbackLoc ns)) :
    answer ls uri = some (.files [ns.path ++ '/' :: uri.drop (ns.name.length + 2),
      docrootsDir ++ '/' :: ns.name ++ indexHtml]) := by
  obtain ⟨hreturn, halias, htry⟩ := argsOf_docs ns
  have hfile : (docsLoc ns).file uri =
      some (ns.path ++ '/' :: uri.drop (ns.name.length + 2)) := by
    rw [Location.file, halias]
    simp [docsLoc]
  have hlast : ("@docsify_".toList ++ ns.name).head? = some '@' := by simp
  rw [answer_of_find h hreturn, maxUriChanges, tried, htry]
  simp only [List.dropLast, List.filterMap_cons, if_true, hfile, List.filterMap_nil,
    List.getLast?_cons_cons, List.getLast?_singleton, hlast, hnamed,
    tried_page 8 (rfl : (fallbackLoc ns).body = _)]
  simp

end Answers

/-! ## Which location is found -/

section Find

variable {namespaces : List Namespace} {ns : Namespace} {k : Location} {seg after u : Text}

theorem mem_locs : k ∈ locs namespaces ↔ k ∈ fixedLocs ∨ ∃ ns ∈ namespaces, k ∈ nsLocs ns := by
  rw [locs, List.mem_append, List.mem_flatMap]

theorem mem_nsLocs (ns : Namespace) : redirectLoc ns ∈ nsLocs ns ∧ staticLoc ns ∈ nsLocs ns ∧
    docsLoc ns ∈ nsLocs ns ∧ fallbackLoc ns ∈ nsLocs ns :=
  ⟨.head _, .tail _ (.head _), .tail _ (.tail _ (.head _)), .tail _ (.tail _ (.tail _ (.head _)))⟩

theorem mem_fixedLocs :
    ⟨.under "/_static/".toList, [.simple ["alias".toList, assetsDir ++ ['/']], noStore]⟩ ∈
        fixedLocs ∧
      ⟨.exact ['/'], landing⟩ ∈ fixedLocs ∧ ⟨.under ['/'], landing⟩ ∈ fixedLocs :=
  ⟨.head _, .tail _ (.head _), .tail _ (.tail _ (.head _))⟩

theorem exact_of_mem (hk : k ∈ locs namespaces) (hp : k.pattern = .exact u) :
    u = ['/'] ∧ k = ⟨.exact ['/'], landing⟩ ∨
      ∃ ns ∈ namespaces, u = '/' :: ns.name ∧ k = redirectLoc ns := by
  rcases mem_locs.mp hk with hk | ⟨ns, hns, hk⟩
  · simp only [fixedLocs, List.mem_cons, List.not_mem_nil, or_false] at hk
    rcases hk with rfl | rfl | rfl <;> cases hp
    exact .inl ⟨rfl, rfl⟩
  · simp only [nsLocs, List.mem_cons, List.not_mem_nil, or_false] at hk
    rcases hk with rfl | rfl | rfl | rfl <;> cases hp
    exact .inr ⟨ns, hns, rfl, rfl⟩

theorem under_of_mem (hk : k ∈ locs namespaces) (hp : k.pattern = .under u) :
    u = "/_static/".toList ∧
        k = ⟨.under u, [.simple ["alias".toList, assetsDir ++ ['/']], noStore]⟩ ∨
      u = ['/'] ∧ k = ⟨.under ['/'], landing⟩ ∨
      (∃ ns ∈ namespaces, u = '/' :: ns.name ++ "/_static/".toList ∧ k = staticLoc ns) ∨
      ∃ ns ∈ namespaces, u = '/' :: ns.name ++ ['/'] ∧ k = docsLoc ns := by
  rcases mem_locs.mp hk with hk | ⟨ns, hns, hk⟩
  · simp only [fixedLocs, List.mem_cons, List.not_mem_nil, or_false] at hk
    rcases hk with rfl | rfl | rfl <;> cases hp
    · exact .inl ⟨rfl, rfl⟩
    · exact .inr (.inl ⟨rfl, rfl⟩)
  · simp only [nsLocs, List.mem_cons, List.not_mem_nil, or_false] at hk
    rcases hk with rfl | rfl | rfl | rfl <;> cases hp
    · exact .inr (.inr (.inl ⟨ns, hns, rfl, rfl⟩))
    · exact .inr (.inr (.inr ⟨ns, hns, rfl, rfl⟩))

theorem named_of_mem (hk : k ∈ locs namespaces) (hp : k.pattern = .named u) :
    ∃ ns ∈ namespaces, u = "@docsify_".toList ++ ns.name ∧ k = fallbackLoc ns := by
  rcases mem_locs.mp hk with hk | ⟨ns, hns, hk⟩
  · simp only [fixedLocs, List.mem_cons, List.not_mem_nil, or_false] at hk
    rcases hk with rfl | rfl | rfl <;> cases hp
  · simp only [nsLocs, List.mem_cons, List.not_mem_nil, or_false] at hk
    rcases hk with rfl | rfl | rfl | rfl <;> cases hp
    exact ⟨ns, hns, rfl, rfl⟩

/-- A segment without slashes is a whole segment of what it begins. -/
theorem segment_iff {n q : Text} (hn : '/' ∉ n) (hs : '/' ∉ seg)
    (ha : after = [] ∨ ∃ more, after = '/' :: more) :
    n ++ '/' :: q <+: seg ++ after ↔ n = seg ∧ '/' :: q <+: after := by
  induction n generalizing seg with
  | nil =>
    cases seg with
    | nil => simp
    | cons d seg =>
      simp only [List.nil_append, List.cons_append, List.cons_prefix_cons]
      constructor
      · rintro ⟨rfl, -⟩
        exact absurd List.mem_cons_self hs
      · rintro ⟨h, -⟩
        cases h
  | cons c n ih =>
    rw [List.mem_cons, not_or] at hn
    cases seg with
    | nil =>
      rcases ha with rfl | ⟨more, rfl⟩
      · simp
      · simp [Ne.symm hn.1]
    | cons d seg =>
      rw [List.mem_cons, not_or] at hs
      simp only [List.cons_append, List.cons_prefix_cons, ih hn.2 hs.2, List.cons.injEq, and_assoc]

theorem whole_iff {n : Text} (hn : '/' ∉ n) (ha : after = [] ∨ ∃ more, after = '/' :: more) :
    seg ++ after = n ↔ n = seg ∧ after = [] := by
  rcases ha with rfl | ⟨more, rfl⟩
  · simp [eq_comm]
  · constructor
    · rintro rfl
      simp at hn
    · rintro ⟨-, h⟩
      cases h

theorem slash_not_mem (h : isLabel ns.name = true) : '/' ∉ ns.name := by
  intro hc
  exact absurd ((isLabel_facts h).1 _ hc) (by decide)

theorem staticName_chars : staticName = ['_', 's', 't', 'a', 't', 'i', 'c'] := by
  show "_static".toList = _
  simp

theorem ne_staticName (h : isLabel ns.name = true) : ns.name ≠ staticName := by
  intro hn
  rw [hn] at h
  revert h
  simp [staticName_chars, isLabel, isNameChar, isNameStart]

/-- What is asked of the names. -/
structure Labels (namespaces : List Namespace) : Prop where
  label : ∀ ns ∈ namespaces, isLabel ns.name = true
  nodup : (namespaces.map (·.name)).Nodup

variable (hl : Labels namespaces) (hs : '/' ∉ seg)

include hl in
theorem same_of_name {ms : Namespace} (hns : ns ∈ namespaces) (hms : ms ∈ namespaces)
    (h : ms.name = ns.name) : ms = ns :=
  List.inj_on_of_nodup_map hl.nodup hms hns h

include hl in
theorem find_fallback (hns : ns ∈ namespaces) :
    (locs namespaces).find? (fun k =>
      decide (k.pattern = .named ("@docsify_".toList ++ ns.name))) = some (fallbackLoc ns) := by
  refine find?_unique (mem_locs.mpr (.inr ⟨ns, hns, (mem_nsLocs ns).2.2.2⟩))
    (decide_eq_true rfl) ?_
  intro k hk hp
  obtain ⟨ms, hms, hu, rfl⟩ := named_of_mem hk (of_decide_eq_true hp)
  rw [same_of_name hl hns hms (List.append_cancel_left hu).symm]

theorem static_eq : "/_static/".toList = '/' :: (staticName ++ ['/']) := by simp [staticName_chars]

theorem static_under (ns : Namespace) : '/' :: ns.name ++ "/_static/".toList =
    '/' :: (ns.name ++ '/' :: (staticName ++ ['/'])) := by
  rw [static_eq]
  rfl

theorem slash_not_mem_staticName : '/' ∉ staticName := by simp [staticName_chars]

include hl hs in
/-- The location of a request inside a namespace. -/
theorem find_inside (more : Text) (hns : ns ∈ namespaces) (hseg : ns.name = seg) :
    find (locs namespaces) ('/' :: (seg ++ '/' :: more)) =
      some (if (staticName ++ ['/']).isPrefixOf more then staticLoc ns else docsLoc ns) := by
  have hmem : ∀ l ∈ nsLocs ns, l ∈ locs namespaces := fun l hl => mem_locs.mpr (.inr ⟨ns, hns, hl⟩)
  have hno : ∀ k ∈ locs namespaces, k.pattern ≠ .exact ('/' :: (seg ++ '/' :: more)) := by
    intro k hk hp
    rcases exact_of_mem hk hp with ⟨hu, -⟩ | ⟨ms, hms, hu, -⟩
    · simp at hu
    · have := (whole_iff (slash_not_mem (hl.label ms hms)) (.inr ⟨more, rfl⟩)).mp
        (List.cons.inj hu).2
      cases this.2
  have hunder : ∀ ms ∈ namespaces, ∀ q,
      '/' :: (ms.name ++ '/' :: q) <+: '/' :: (seg ++ '/' :: more) → ms = ns ∧ q <+: more := by
    intro ms hms q h
    rw [List.cons_prefix_cons] at h
    obtain ⟨hname, hq⟩ :=
      (segment_iff (slash_not_mem (hl.label ms hms)) hs (.inr ⟨more, rfl⟩)).mp h.2
    rw [List.cons_prefix_cons] at hq
    exact ⟨same_of_name hl hns hms (hname.trans hseg.symm), hq.2⟩
  have hfixed : ¬"/_static/".toList <+: '/' :: (seg ++ '/' :: more) := by
    rw [static_eq, List.cons_prefix_cons]
    intro h
    have := (segment_iff slash_not_mem_staticName hs (.inr ⟨more, rfl⟩)).mp h.2
    exact ne_staticName (hl.label ns hns) (hseg.trans this.1.symm)
  split_ifs with hstatic
  · refine find_of_longest hno (hmem _ (mem_nsLocs ns).2.1) rfl ?_ ?_
    · rw [static_under, ← hseg, List.cons_prefix_cons, List.prefix_append_right_inj,
        List.cons_prefix_cons]
      exact ⟨rfl, rfl, List.isPrefixOf_iff_prefix.mp hstatic⟩
    · intro k hk v hp hv
      rcases under_of_mem hk hp with ⟨rfl, -⟩ | ⟨rfl, -⟩ | ⟨ms, hms, rfl, rfl⟩ | ⟨ms, hms, rfl, rfl⟩
      · exact absurd hv hfixed
      · refine .inr ?_
        simp
      · rw [static_under] at hv
        rw [(hunder ms hms _ hv).1]
        exact .inl rfl
      · rw [List.cons_append] at hv
        rw [(hunder ms hms _ hv).1]
        refine .inr ?_
        simp
  · refine find_of_longest hno (hmem _ (mem_nsLocs ns).2.2.1) rfl ?_ ?_
    · rw [List.cons_append, ← hseg, List.cons_prefix_cons, List.prefix_append_right_inj,
        List.cons_prefix_cons]
      exact ⟨rfl, rfl, List.nil_prefix⟩
    · intro k hk v hp hv
      rcases under_of_mem hk hp with ⟨rfl, -⟩ | ⟨rfl, -⟩ | ⟨ms, hms, rfl, rfl⟩ | ⟨ms, hms, rfl, rfl⟩
      · exact absurd hv hfixed
      · refine .inr ?_
        simp
      · rw [static_under] at hv
        exact absurd (List.isPrefixOf_iff_prefix.mpr (hunder ms hms _ hv).2) hstatic
      · rw [List.cons_append] at hv
        rw [(hunder ms hms _ hv).1]
        exact .inl rfl

include hl in
/-- A request for a namespace without the slash. -/
theorem find_redirect (hns : ns ∈ namespaces) :
    find (locs namespaces) ('/' :: ns.name) = some (redirectLoc ns) := by
  refine find_of_exact (mem_locs.mpr (.inr ⟨ns, hns, (mem_nsLocs ns).1⟩)) rfl ?_
  intro k hk hp
  rcases exact_of_mem hk hp with ⟨hu, -⟩ | ⟨ms, hms, hu, rfl⟩
  · have hname := (List.cons.inj hu).2
    have := hl.label ns hns
    rw [hname] at this
    cases this
  · rw [same_of_name hl hns hms (List.cons.inj hu).2.symm]

/-- A request for nothing that is configured. -/
theorem find_outside (hs : '/' ∉ seg) (ha : after = [] ∨ ∃ more, after = '/' :: more)
    (hlabel : ∀ ns ∈ namespaces, isLabel ns.name = true)
    (hnone : ∀ ns ∈ namespaces, ns.name ≠ seg) (hstatic : seg = staticName → after = []) :
    ∃ p, find (locs namespaces) ('/' :: (seg ++ after)) = some ⟨p, landing⟩ := by
  have hfixed : ∀ l ∈ fixedLocs, l ∈ locs namespaces := fun l hl => mem_locs.mpr (.inl hl)
  by_cases hroot : seg ++ after = []
  · refine ⟨.exact ['/'], find_of_exact (hfixed _ mem_fixedLocs.2.1) (by rw [hroot]) ?_⟩
    intro k hk hp
    rcases exact_of_mem hk hp with ⟨-, h⟩ | ⟨ms, hms, hu, -⟩
    · exact h
    · exact absurd ((whole_iff (slash_not_mem (hlabel ms hms)) ha).mp (List.cons.inj hu).2).1
        (hnone ms hms)
  · refine ⟨.under ['/'], find_of_longest ?_ (hfixed _ mem_fixedLocs.2.2) rfl ?_ ?_⟩
    · intro k hk hp
      rcases exact_of_mem hk hp with ⟨hu, -⟩ | ⟨ms, hms, hu, -⟩
      · exact hroot (List.cons.inj hu).2
      · exact absurd ((whole_iff (slash_not_mem (hlabel ms hms)) ha).mp (List.cons.inj hu).2).1
          (hnone ms hms)
    · exact List.cons_prefix_cons.mpr ⟨rfl, List.nil_prefix⟩
    · intro k hk v hp hv
      rcases under_of_mem hk hp with ⟨rfl, -⟩ | ⟨rfl, rfl⟩ | ⟨ms, hms, rfl, rfl⟩ |
        ⟨ms, hms, rfl, rfl⟩
      · rw [static_eq, List.cons_prefix_cons] at hv
        obtain ⟨hseg, hafter⟩ := (segment_iff slash_not_mem_staticName hs ha).mp hv.2
        rw [hstatic hseg.symm] at hafter
        simp at hafter
      · exact .inl rfl
      · rw [static_under, List.cons_prefix_cons] at hv
        exact absurd ((segment_iff (slash_not_mem (hlabel ms hms)) hs ha).mp hv.2).1 (hnone ms hms)
      · rw [List.cons_append, List.cons_prefix_cons] at hv
        exact absurd ((segment_iff (slash_not_mem (hlabel ms hms)) hs ha).mp hv.2).1 (hnone ms hms)

/-- A request for the assets. -/
theorem find_assets (hlabel : ∀ ns ∈ namespaces, isLabel ns.name = true) (more : Text) :
    find (locs namespaces) ('/' :: (staticName ++ '/' :: more)) =
      some ⟨.under "/_static/".toList,
        [.simple ["alias".toList, assetsDir ++ ['/']], noStore]⟩ := by
  have ha : ('/' :: more : Text) = [] ∨ ∃ m, ('/' :: more : Text) = '/' :: m := .inr ⟨more, rfl⟩
  have hname : ∀ ms ∈ namespaces, ∀ q,
      ¬ ('/' :: (ms.name ++ '/' :: q) <+: '/' :: (staticName ++ '/' :: more)) := by
    intro ms hms q h
    rw [List.cons_prefix_cons] at h
    exact ne_staticName (hlabel ms hms)
      ((segment_iff (slash_not_mem (hlabel ms hms)) slash_not_mem_staticName ha).mp h.2).1
  refine find_of_longest ?_ (mem_locs.mpr (.inl mem_fixedLocs.1)) rfl ?_ ?_
  · intro k hk hp
    rcases exact_of_mem hk hp with ⟨hu, -⟩ | ⟨ms, hms, hu, -⟩
    · simp at hu
    · have := (whole_iff (slash_not_mem (hlabel ms hms)) ha).mp (List.cons.inj hu).2
      cases this.2
  · rw [static_eq, List.cons_prefix_cons, List.prefix_append_right_inj, List.cons_prefix_cons]
    exact ⟨rfl, rfl, List.nil_prefix⟩
  · intro k hk v hp hv
    rcases under_of_mem hk hp with ⟨rfl, rfl⟩ | ⟨rfl, -⟩ | ⟨ms, hms, rfl, rfl⟩ | ⟨ms, hms, rfl, rfl⟩
    · exact .inl rfl
    · refine .inr ?_
      rw [static_eq]
      simp
    · rw [static_under] at hv
      exact absurd hv (hname ms hms _)
    · rw [List.cons_append] at hv
      exact absurd hv (hname ms hms _)

end Find

/-! ## The names of the locations -/

section Distinct

variable {namespaces : List Namespace} {ns ms : Namespace} {p : Pattern}

theorem patterns_nsLocs (ns : Namespace) : (nsLocs ns).map (·.pattern) =
    [.exact ('/' :: ns.name), .under ('/' :: ns.name ++ "/_static/".toList),
      .under ('/' :: ns.name ++ ['/']), .named ("@docsify_".toList ++ ns.name)] := rfl

theorem nodup_nsLocs (ns : Namespace) : ((nsLocs ns).map (·.pattern)).Nodup := by
  have hne : '/' :: ns.name ++ "/_static/".toList ≠ '/' :: ns.name ++ ['/'] := by
    intro h
    simpa using List.append_cancel_left h
  rw [patterns_nsLocs]
  simp only [List.nodup_cons, List.mem_cons, List.not_mem_nil, reduceCtorEq, or_self,
    not_false_eq_true, Pattern.under.injEq, hne, List.nodup_nil, and_self]

/-- The name of a namespace can be told from each of its locations. -/
theorem name_of_pattern (hn : '/' ∉ ns.name) (hm : '/' ∉ ms.name)
    (h : p ∈ (nsLocs ns).map (·.pattern)) (h' : p ∈ (nsLocs ms).map (·.pattern)) :
    ns.name = ms.name := by
  have hslash : ∀ {a b s t : Text}, '/' ∉ a → '/' ∉ b → '/' :: (a ++ '/' :: s) =
      '/' :: (b ++ '/' :: t) → a = b := by
    intro a b s t ha hb heq
    have hpre : a ++ '/' :: s <+: b ++ '/' :: t := (List.cons.inj heq).2 ▸ List.prefix_refl _
    exact ((segment_iff ha hb (.inr ⟨t, rfl⟩)).mp hpre).1
  rw [patterns_nsLocs] at h h'
  simp only [List.mem_cons, List.not_mem_nil, or_false] at h h'
  rcases h with rfl | rfl | rfl | rfl
  · simpa using h'
  · simp only [reduceCtorEq, Pattern.under.injEq, false_or, or_false, static_under] at h'
    exact h'.elim (hslash hn hm) (hslash hn hm)
  · simp only [reduceCtorEq, Pattern.under.injEq, false_or, or_false, static_under] at h'
    exact h'.elim (hslash hn hm) (hslash hn hm)
  · simpa using h'

/-- **No two locations** have the same name. -/
theorem nodup_locs (hl : Labels namespaces) : ((locs namespaces).map (·.pattern)).Nodup := by
  have hpair : namespaces.Pairwise fun ns ms => ns.name ≠ ms.name := List.pairwise_map.mp hl.nodup
  rw [locs, List.map_append, List.map_flatMap, List.nodup_append]
  refine ⟨by simp [fixedLocs, static_eq], List.nodup_flatMap.mpr ⟨fun ns _ => nodup_nsLocs ns, ?_⟩, ?_⟩
  · refine hpair.imp_of_mem ?_
    intro ns ms hns hms hne p hp hp'
    exact hne (name_of_pattern (slash_not_mem (hl.label ns hns)) (slash_not_mem (hl.label ms hms))
      hp hp')
  · intro p hp q hq heq
    subst heq
    obtain ⟨ns, hns, hq⟩ := List.mem_flatMap.mp hq
    have hlabel := hl.label ns hns
    have hempty : ns.name ≠ [] := by
      intro h
      rw [h] at hlabel
      cases hlabel
    have hfixed : p = .under ('/' :: (staticName ++ ['/'])) ∨ p = .exact ['/'] ∨
        p = .under ['/'] := by
      simpa [fixedLocs, static_eq] using hp
    rw [patterns_nsLocs] at hq
    simp only [List.mem_cons, List.not_mem_nil, or_false, List.cons_append] at hq
    rcases hfixed with rfl | rfl | rfl
    · simp only [reduceCtorEq, Pattern.under.injEq, false_or, or_false, List.cons.injEq,
        true_and] at hq
      rcases hq with hq | hq
      · have hlen := congrArg List.length hq
        simp only [static_eq, List.length_append, List.length_cons, List.length_nil] at hlen
        have := List.length_pos_iff.mpr hempty
        omega
      · exact ne_staticName hlabel (List.append_cancel_right hq).symm
    · simp only [reduceCtorEq, Pattern.exact.injEq, or_false, List.cons.injEq, true_and] at hq
      exact hempty hq.symm
    · simp [hempty] at hq

end Distinct

/-! ## Requests -/

section Serve

variable {namespaces : List Namespace} {seg after : Text}

theorem answer_inside {ns : Namespace} (hl : Labels namespaces) (hns : ns ∈ namespaces)
    (more : Text) :
    answer (locs namespaces) ('/' :: (ns.name ++ '/' :: more)) = some (inNamespace ns more) := by
  have hfind := find_inside hl (slash_not_mem (hl.label ns hns)) more hns rfl
  have hdrop : ∀ k, (ns.name ++ '/' :: more).drop (ns.name.length + (k + 1)) = more.drop k := by
    intro k
    rw [List.drop_length_add_append]
    rfl
  by_cases hstatic : (staticName ++ ['/']).isPrefixOf more
  · have hlen : ('/' :: ns.name ++ "/_static/".toList).length = ns.name.length + (8 + 1) + 1 := by
      have hseven : staticName.length = 7 := by simp [staticName_chars]
      rw [static_under]
      simp [hseven]
    rw [if_pos hstatic] at hfind
    rw [inNamespace, if_pos hstatic, answer_static hfind, hlen, List.drop_succ_cons, hdrop]
    rfl
  · rw [if_neg hstatic] at hfind
    rw [inNamespace, if_neg hstatic, answer_docs hfind (find_fallback hl hns),
      List.drop_succ_cons, hdrop 0]
    rfl

/-- **Every request** gets what is intended. -/
theorem answer_intended (hl : Labels namespaces) (hs : '/' ∉ seg)
    (ha : after = [] ∨ ∃ more, after = '/' :: more) :
    answer (locs namespaces) ('/' :: (seg ++ after)) =
      some (intended namespaces seg after) := by
  unfold intended
  cases h : namespaces.find? (fun ns => decide (ns.name = seg)) with
  | some ns =>
    have hns := List.mem_of_find?_eq_some h
    have hseg : ns.name = seg := by simpa using List.find?_some h
    subst hseg
    rcases ha with rfl | ⟨more, rfl⟩
    · rw [List.append_nil, answer, find_redirect hl hns, Option.map_some]
      rfl
    · exact answer_inside hl hns more
  | none =>
    have hnone : ∀ ns ∈ namespaces, ns.name ≠ seg := by simpa using h
    by_cases hstatic : seg = staticName → after = []
    · obtain ⟨p, hp⟩ := find_outside hs ha hl.label hnone hstatic
      rw [answer_landing hp]
      rcases ha with rfl | ⟨more, rfl⟩
      · rfl
      · have hne : seg ≠ staticName := fun hseg => by cases hstatic hseg
        simp only [if_neg hne]
    · rw [Classical.not_imp] at hstatic
      obtain ⟨rfl, hne⟩ := hstatic
      rcases ha with rfl | ⟨more, rfl⟩
      · exact absurd rfl hne
      · have hdrop : ('/' :: (staticName ++ '/' :: more)).drop ("/_static/".toList).length =
            more := by
          rw [static_eq]
          simp [List.drop_append]
        rw [answer_static (find_assets hl.label more), hdrop]
        simp

variable {φ : Type} {parses : String → Bool} {directories : PyJson φ}

theorem labels_of_accepted (h : Accepted namespaces) (hplain : ∀ ns ∈ namespaces, ns.Plain) :
    Labels namespaces :=
  ⟨fun ns hns => isLabel_of_validNameRe (h.valid ns hns) (hplain ns hns).name, h.nodup⟩

/-- Two directories, as the options may give them. -/
def sampleDirectories : PyJson Empty :=
  .list [.dict [("name", .str "docs"), ("path", .str "/share/docs")],
    .dict [("name", .str "wiki-2"), ("path", .str "/media/wiki")]]

def sampleNamespaces : List Namespace :=
  [⟨"docs".toList, "/share/docs".toList, none, none, []⟩,
    ⟨"wiki-2".toList, "/media/wiki".toList, none, none, []⟩]

theorem sample_validates :
    validateDirectories (fun _ => true) sampleDirectories = .ok sampleNamespaces := by
  rfl

theorem sample_plain : ∀ ns ∈ sampleNamespaces, ns.Plain := by
  have hsample : ('\n' ∉ "docs".toList ∧ Literal ("/share/docs".toList ++ ['/']) ∧
      bytes "/share/docs".toList + 1 < confBuffer) ∧
      '\n' ∉ "wiki-2".toList ∧ Literal ("/media/wiki".toList ++ ['/']) ∧
        bytes "/media/wiki".toList + 1 < confBuffer := by
    decide +kernel
  obtain ⟨hdocs, hwiki⟩ := hsample
  intro ns hns
  simp only [sampleNamespaces, List.mem_cons, List.not_mem_nil, or_false] at hns
  rcases hns with rfl | rfl
  · exact ⟨hdocs.1, hdocs.2.1, hdocs.2.2⟩
  · exact ⟨hwiki.1, hwiki.2.1, hwiki.2.2⟩

end Serve

end HaAddons.Markdown
