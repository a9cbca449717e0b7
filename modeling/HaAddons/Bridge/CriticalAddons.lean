import HaAddons.Bridge.Handlers

/-!
# Critical add-ons

`critical_addons` names the add-ons that the bridge must leave alone. The handlers compare the list
with the slug as the router hands it over; what counts is the slug that the Supervisor makes of the
path it is sent.

* `critical_untouched` — in every run in which no request spells a critical slug in another way, no
  uninstall or options call reaches a critical slug.
* `critical_uninstalled` — a request for `core%5Fssh` uninstalls `core_ssh`.
-/

namespace HaAddons.Bridge.Handlers

open Supervisor URL Percent

def roots : List Bytes := [utf8 "/apps/", utf8 "/addons/"]

/-- The ends of the paths that change an add-on. -/
def mutations : List Bytes := [utf8 "/uninstall", utf8 "/options"]

/-- The call uninstalls the add-on or sets its options: that is what its path decodes to. -/
def Call.Mutates (c : Call) (slug : Bytes) : Prop :=
  c.method = "POST" ∧ ∃ root ∈ roots, ∃ op ∈ mutations,
    unescape c.path = some (root ++ (slug ++ op))

instance (c : Call) (slug : Bytes) : Decidable (c.Mutates slug) :=
  inferInstanceAs (Decidable (_ ∧ _))

/-- The question is no call that changes a critical add-on. -/
def Untouched (critical : List Bytes) : Ask → Prop
  | .supervisor c => ∀ slug ∈ critical, ¬c.Mutates slug
  | _ => True

instance (critical : List Bytes) (a : Ask) : Decidable (Untouched critical a) :=
  match a with
  | .supervisor c => inferInstanceAs (Decidable (∀ slug ∈ critical, ¬c.Mutates slug))
  | .validate _ _ _ | .tryAcquire _ | .release _ => isTrue trivial

/-- The slug names a critical add-on once it is decoded: as a whole or, where it holds a `?` or a
`#`, with the end of the path before that. -/
def Aliases (critical : List Bytes) (slug : Bytes) : Prop :=
  ∃ s ∈ critical,
    (pathPart slug = slug ∧ unescape slug = some s) ∨
      (pathPart slug ≠ slug ∧ ∃ op ∈ mutations, unescape (pathPart slug) = some (s ++ op))

instance (critical : List Bytes) (slug : Bytes) : Decidable (Aliases critical slug) :=
  inferInstanceAs (Decidable (∃ s ∈ critical, _))

/-- The request names no critical add-on, or spells it as the list does. -/
def spelledPlainly (q : Config) (r : HttpRequest) : Bool :=
  match routed r with
  | none => true
  | some (_, slug) => slug ∈ q.criticalAddons || !Aliases q.criticalAddons slug

/-! ## Paths -/

/-- The operations the handlers name in a path. -/
def ops : List String := ["uninstall", "options", "options/validate", "info"]

/-- Two paths below `/apps/` or `/addons/` are equal only below the same. -/
theorem root_inj {root root' x y : Bytes} (hr : root ∈ roots) (hr' : root' ∈ roots)
    (h : root ++ x = root' ++ y) : x = y := by
  have hthird : (root ++ x)[2]? = (root' ++ y)[2]? := by rw [h]
  simp only [roots, List.mem_cons, List.not_mem_nil, or_false] at hr hr'
  rcases hr with rfl | rfl <;> rcases hr' with rfl | rfl
  · exact List.append_cancel_left h
  · rw [List.getElem?_append_left (by decide), List.getElem?_append_left (by decide)] at hthird
    exact absurd hthird (by decide)
  · rw [List.getElem?_append_left (by decide), List.getElem?_append_left (by decide)] at hthird
    exact absurd hthird (by decide)
  · exact List.append_cancel_left h

/-- A path ends in an operation that changes the add-on only if that operation is named. -/
theorem op_inj {op : String} {m x y : Bytes} (hop : op ∈ ops) (hm : m ∈ mutations)
    (h : x ++ utf8 ("/" ++ op) = y ++ m) : x = y := by
  have hlast : (x ++ utf8 ("/" ++ op)).getLast? = (y ++ m).getLast? := by rw [h]
  by_cases heq : utf8 ("/" ++ op) = m
  · rw [heq] at h
    exact List.append_cancel_right h
  · have hends : ∀ op ∈ ops, ∀ m ∈ mutations, utf8 ("/" ++ op) ≠ m →
        utf8 ("/" ++ op) ≠ [] ∧ m ≠ [] ∧ (utf8 ("/" ++ op)).getLast? ≠ m.getLast? := by decide
    obtain ⟨hne, hne', hdiff⟩ := hends op hop m hm heq
    rw [List.getLast?_append_of_ne_nil _ hne, List.getLast?_append_of_ne_nil _ hne'] at hlast
    exact absurd hlast hdiff

/-- What a path below a root decodes to. -/
theorem unescape_path {root slug path : Bytes} {op : String} (hr : root ∈ roots) (hop : op ∈ ops)
    (h : unescape (pathPart (root ++ (slug ++ utf8 ("/" ++ op)))) = some path) :
    ∃ rest, path = root ++ rest ∧
      ((pathPart slug = slug ∧ ∃ s, unescape slug = some s ∧ rest = s ++ utf8 ("/" ++ op)) ∨
        (pathPart slug ≠ slug ∧ unescape (pathPart slug) = some rest)) := by
  have hroot : ∀ root ∈ roots, pathPart root = root ∧ mark ∉ root := by decide
  have hend : ∀ op ∈ ops, pathPart (utf8 ("/" ++ op)) = utf8 ("/" ++ op) ∧
      mark ∉ utf8 ("/" ++ op) ∧ utf8 ("/" ++ op) = 0x2f :: utf8 op := by decide
  rw [pathPart_append, if_pos (hroot root hr).1, unescape_plain_append (hroot root hr).2] at h
  obtain ⟨rest, hrest, rfl⟩ := Option.map_eq_some_iff.mp h
  refine ⟨rest, rfl, ?_⟩
  rw [pathPart_append] at hrest
  split_ifs at hrest with hcut
  · obtain ⟨hplain, hmark, hslash⟩ := hend op hop
    rw [hplain, hslash, unescape_append_cons (by decide) (by decide)] at hrest
    obtain ⟨s, hs, hrest⟩ := Option.bind_eq_some_iff.mp hrest
    rw [unescape_plain fun hm => hmark (hslash ▸ List.mem_cons_of_mem _ hm)] at hrest
    exact .inl ⟨hcut, s, hs, by rw [hslash]; exact (Option.some.inj hrest).symm⟩
  · exact .inr ⟨hcut, hrest⟩

/-- A slug that aliases no critical one leads to no path that changes one. -/
theorem untouched_of_not_aliases {critical : List Bytes} {root slug : Bytes} {op : String} {u : URL}
    (hslug : ¬Aliases critical slug) (hr : root ∈ roots) (hop : op ∈ ops)
    (hu : parse (root ++ (slug ++ utf8 ("/" ++ op))) = .ok u) (method : String) (query : Bytes)
    (body : Option Bytes) :
    Untouched critical (.supervisor ⟨method, u.escapedPath, query, body⟩) := by
  rintro s hs ⟨-, root', hr', m, hm, hpath⟩
  rw [unescape_escapedPath] at hpath
  obtain ⟨rest, hrest, hcase⟩ := unescape_path hr hop (parse_path hu)
  rw [Option.some.inj hpath] at hrest
  have hsame := root_inj hr' hr hrest
  refine hslug ⟨s, hs, ?_⟩
  rcases hcase with ⟨hwhole, s', hs', rfl⟩ | ⟨hcut, hdec⟩
  · rw [← op_inj hop hm hsame.symm]
    exact .inl ⟨hwhole, hs'⟩
  · exact .inr ⟨hcut, m, hm, by rw [hdec, hsame]⟩

/-! ## Handlers -/

section Handlers

variable {q : Config} {r : HttpRequest} {slug : Bytes} {op : String} {path : Bytes}

/-- A path below which no critical add-on is changed. -/
def Harmless (critical : List Bytes) (path : Bytes) : Prop :=
  ∀ u, parse path = .ok u → ∀ method query body,
    Untouched critical (.supervisor ⟨method, u.escapedPath, query, body⟩)

theorem harmless_apps (hslug : ¬Aliases q.criticalAddons slug) (hop : op ∈ ops) :
    Harmless q.criticalAddons (appsPath slug op) := fun _ hu method query body =>
  untouched_of_not_aliases hslug (by simp [roots]) hop hu method query body

theorem harmless_addons (hslug : ¬Aliases q.criticalAddons slug) (hop : op ∈ ops) :
    Harmless q.criticalAddons (addonsPath slug op) := fun _ hu method query body =>
  untouched_of_not_aliases hslug (by simp [roots]) hop hu method query body

theorem send_only (hpath : Harmless q.criticalAddons path) (method : String)
    (body : Option Bytes) : (send method path body).Only (Untouched q.criticalAddons) := by
  unfold send
  split
  · trivial
  · rename_i u hu
    exact ⟨hpath u hu method _ body, fun _ => trivial⟩

theorem tryPost_only (hpath : Harmless q.criticalAddons path) (body : Option Bytes) :
    (tryPost path body).Only (Untouched q.criticalAddons) := by
  refine (send_only hpath "POST" body).bind fun answer => ?_
  rcases answer with (err | err) | answer <;> trivial

theorem postFallback_only (hslug : ¬Aliases q.criticalAddons slug) (hop : op ∈ ops)
    (body : Option Bytes) : (postFallback slug op body).Only (Untouched q.criticalAddons) := by
  refine (tryPost_only (harmless_apps hslug hop) body).bind fun answer => ?_
  rcases answer with err | ⟨status, b⟩
  · trivial
  · by_cases hstatus : status = 200
    · simp only [hstatus, if_true]
      trivial
    · simp only [hstatus, if_false]
      refine (tryPost_only (harmless_addons hslug hop) body).bind fun answer => ?_
      rcases answer with err | ⟨status2, b⟩
      · trivial
      · simp only
        split <;> trivial

theorem optionsCall_only (hslug : ¬Aliases q.criticalAddons slug) (opts : Json) :
    (optionsCall q.codec slug opts).Only (Untouched q.criticalAddons) := by
  unfold optionsCall
  split
  · trivial
  · exact postFallback_only hslug (by simp [ops]) _

theorem validateOptionsCall_only (hslug : ¬Aliases q.criticalAddons slug) (opts : Json) :
    (validateOptionsCall q.codec slug opts).Only (Untouched q.criticalAddons) := by
  unfold validateOptionsCall
  split
  · trivial
  · refine (send_only (harmless_apps hslug (by simp [ops])) _ _).bind fun answer => ?_
    rcases answer with (err | err) | ⟨status, b⟩
    · trivial
    · trivial
    · by_cases hstatus : status = 200
      · simp only [hstatus, if_true]
        trivial
      · simp only [hstatus, if_false]
        refine (send_only (harmless_addons hslug (by simp [ops])) _ _).bind fun answer => ?_
        rcases answer with err | ⟨status2, b⟩
        · trivial
        · simp only
          split <;> trivial

theorem getAddonInfoFromPath_only (hpath : Harmless q.criticalAddons path) :
    (getAddonInfoFromPath q.codec path).Only (Untouched q.criticalAddons) := by
  refine (send_only hpath _ _).bind fun answer => ?_
  rcases answer with (err | err) | ⟨status, b⟩
  · trivial
  · trivial
  · simp only
    split
    · trivial
    · split <;> trivial

theorem getAddonInfo_only (hslug : ¬Aliases q.criticalAddons slug) :
    (getAddonInfo q.codec slug).Only (Untouched q.criticalAddons) := by
  refine (getAddonInfoFromPath_only (harmless_apps hslug (by simp [ops]))).bind fun answer => ?_
  rcases answer with v2Err | info
  · refine (getAddonInfoFromPath_only (harmless_addons hslug (by simp [ops]))).bind fun answer => ?_
    rcases answer with v1Err | info
    · simp only
      split <;> trivial
    · trivial
  · trivial

/-- The guard: a slug of the list stops the handler before it asks anything. -/
theorem guarded_only {work : Handler Reply}
    (hwork : slug ∉ q.criticalAddons → work.Only (Untouched q.criticalAddons)) :
    (guarded q r slug work).Only (Untouched q.criticalAddons) := by
  unfold guarded
  split_ifs with hempty hcritical hmissing
  · trivial
  · trivial
  · trivial
  · refine ⟨trivial, fun valid => ?_⟩
    rcases valid with (_ | _) | _
    · trivial
    · trivial
    · refine ⟨trivial, fun acquired => ?_⟩
      rcases acquired with (_ | _) | _
      · trivial
      · trivial
      · exact (hwork hcritical).bind fun reply => ⟨trivial, fun _ => trivial⟩

theorem uninstall_only (hslug : slug ∉ q.criticalAddons → ¬Aliases q.criticalAddons slug) :
    (uninstall q r slug).Only (Untouched q.criticalAddons) := by
  refine guarded_only fun hcritical => ?_
  refine (postFallback_only (hslug hcritical) (by simp [ops]) none).bind fun answer => ?_
  rcases answer with err | _ <;> trivial

theorem options_only (hslug : slug ∉ q.criticalAddons → ¬Aliases q.criticalAddons slug) :
    (options q r slug).Only (Untouched q.criticalAddons) := by
  refine guarded_only fun hcritical => ?_
  have hslug := hslug hcritical
  split
  · trivial
  · refine (validateOptionsCall_only hslug _).bind fun answer => ?_
    rcases answer with err | diag
    · trivial
    · by_cases hvalid : diag.valid = false
      · simp only [hvalid, if_true]
        trivial
      · simp only [hvalid]
        refine (optionsCall_only hslug _).bind fun answer => ?_
        rcases answer with err | _
        · simp only
          split <;> trivial
        · refine (getAddonInfo_only hslug).bind fun answer => ?_
          rcases answer with err | info <;> trivial

/-- A request that spells its slug plainly asks for no change of a critical add-on. -/
theorem serve_only (h : spelledPlainly q r = true) :
    (serve q r).Only (Untouched q.criticalAddons) := by
  unfold serve
  unfold spelledPlainly routed at h
  cases hu : setPath r.target [] with
  | error e => trivial
  | ok u =>
    rw [hu] at h
    simp only [Except.toOption, Option.bind_some] at h ⊢
    cases hr : route u with
    | none => trivial
    | some e =>
      obtain ⟨endpoint, slug⟩ := e
      rw [hr] at h
      have hslug : slug ∉ q.criticalAddons → ¬Aliases q.criticalAddons slug := by
        intro hnot
        simpa [hnot] using h
      cases endpoint with
      | uninstall => exact uninstall_only hslug
      | options => exact options_only hslug

end Handlers

/-! ## Runs -/

/-- The calls of a run are requests that spell their slugs plainly. -/
def plainRequests (q : Config) (_ : HaAddons.Config (List Ask) (Handler Reply)) :
    Move HttpRequest (∀ i, Answer i) → Bool
  | .call r => spelledPlainly q r
  | .move _ _ => true

/-- **Critical add-ons are left alone.** In every run in which no request spells a critical slug in
another way than the list does, whatever the nonce manager, the mutexes and the Supervisor answer,
no call that uninstalls an add-on or sets its options reaches a critical one. -/
theorem critical_untouched {q : Config} {c : HaAddons.Config (List Ask) (Handler Reply)}
    (h : (server q).Reach (fun c a => plainRequests q c a = true) c) :
    ∀ a ∈ c.shared, Untouched q.criticalAddons a :=
  Dialogue.asked (fun _ _ hok => serve_only hok) h

/-! ## Concrete runs -/

/-- One add-on is critical. -/
def sampleConfig : Config where
  criticalAddons := [utf8 "core_ssh"]
  codec := ⟨fun _ => .error "", fun _ => .error "", fun _ => .error ""⟩
  fingerprint := id

/-- An uninstall request with a nonce. -/
def uninstallRequest (slug : String) : HttpRequest where
  target := utf8 ("/v1/addons/" ++ slug ++ "/uninstall")
  forceDestroy := "nonce"
  body := []
  actor := "token"
  requestID := "request"

/-- The nonce is good, the lock is free, and the Supervisor does what it is asked. -/
def willing : ∀ i, Answer i
  | .validate _ _ _ => .ok ()
  | .tryAcquire _ => .ok ()
  | .release _ => ()
  | .supervisor _ => .ok (200, [])

def uninstallRun (slug : String) : List (Move HttpRequest (∀ i, Answer i)) :=
  [.call (uninstallRequest slug), .move 0 willing, .move 0 willing, .move 0 willing,
    .move 0 willing]

theorem server_init (q : Config) : (server q).init ⟨[], []⟩ := ⟨rfl, rfl⟩

/-- The escaped spelling passes the guard, and the Supervisor uninstalls the critical add-on. -/
theorem critical_uninstalled :
    ¬∀ q c, (server q).Reachable c → ∀ a ∈ c.shared, Untouched q.criticalAddons a := by
  intro hall
  obtain ⟨c, hc, hbad⟩ := System.exists_of_runOk (server_init sampleConfig)
    (by decide +kernel : ((server sampleConfig).run ⟨[], []⟩
      (uninstallRun "core%5Fssh")).any
        (fun c => c.shared.any fun a => !Untouched sampleConfig.criticalAddons a) = true)
  obtain ⟨a, ha, hn⟩ := List.any_eq_true.mp hbad
  exact absurd (hall _ _ hc.reachable a ha) (by simpa using hn)

/-- A request for another add-on, in plain spelling, is carried out. -/
theorem critical_untouched_plain :
    ∃ c, (server sampleConfig).runOk (plainRequests sampleConfig) ⟨[], []⟩
        (uninstallRun "a0d7b954_nodered") = some c ∧ c.shared.length = 4 ∧
      ∀ a ∈ c.shared, Untouched sampleConfig.criticalAddons a := by
  obtain ⟨c, hc, hlen⟩ := (Option.any_eq_true _ _).mp
    (by decide +kernel : ((server sampleConfig).runOk (plainRequests sampleConfig) ⟨[], []⟩
      (uninstallRun "a0d7b954_nodered")).any (fun c => c.shared.length = 4) = true)
  exact ⟨c, hc, of_decide_eq_true hlen,
    critical_untouched (System.reach_of_runOk (.init (server_init sampleConfig)) hc)⟩

end HaAddons.Bridge.Handlers
