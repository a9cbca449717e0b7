import HaAddons.Lib.Dict
import HaAddons.NetworkTools.Mdns
import Mathlib.Data.List.Forall2

/-!
# Counting hostname changes

Each pass of the mDNS monitor compares the hostname of an online poll with the one it has stored
under the slug of the monitor's name. The stored entries carry over from one pass to the next.

* `holds_mainLoop` — the store is a summary of the online polls under each slug.
* `counts_own_iff` — every monitor's count is that of its own polls, in every history, exactly if
  no two enabled monitors share a slug.
-/

namespace HaAddons.NetworkTools.Mdns

/-! ## The pass -/

/-- An entry of `mdns_stability_state.json`. -/
structure Entry where
  lastHostname : Option Text
  hostnameChangeCount : ℕ
  deriving DecidableEq

abbrev Store := Dict Text Entry

/-- The fields that are added to a result. -/
structure Stability where
  hostnameChanged : Bool
  previousHostname : Option Text
  hostnameChangeCount : ℕ
  deriving DecidableEq

def isSlugChar (c : Char) : Bool := 'a' ≤ c && c ≤ 'z' || '0' ≤ c && c ≤ '9'

/-- `re.sub(r"[^a-z0-9]+", "_", s)`; the flag says that a run has begun. -/
def subRuns : Bool → Text → Text
  | _, [] => []
  | inRun, c :: s =>
    if isSlugChar c then c :: subRuns false s
    else if inRun then subRuns true s
    else '_' :: subRuns true s

def stripUnderscores (s : Text) : Text :=
  ((s.dropWhile (· = '_')).reverse.dropWhile (· = '_')).reverse

/-- What a pass puts in place of the result of a monitor that raised. -/
def crashResult (m : Monitor) : Result where
  name := m.name
  state := .error
  serviceType := none
  serviceName := none
  hostname := none
  address := none
  port := none
  txtRecords := []
  error := some "crash: ".toList
  filter := m.filter
  serviceTypesScanned := m.serviceTypes

def resultOf (m : Monitor) : Except Crash Result → Result
  | .ok r => r
  | .error _ => crashResult m

/-- `_apply_hostname_stability` -/
def applyHostnameStability (slug : Text) (r : Result) (state : Store) : Stability × Store :=
  match state.get? slug with
  | none =>
    if r.state ≠ .online then (⟨false, none, 0⟩, state)
    else (⟨false, none, 0⟩, state.insert slug ⟨r.hostname, 0⟩)
  | some entry =>
    if r.state ≠ .online then (⟨false, none, entry.hostnameChangeCount⟩, state)
    else
      let changed : Bool := entry.lastHostname ≠ r.hostname
      let newCount :=
        if changed then entry.hostnameChangeCount + 1 else entry.hostnameChangeCount
      (⟨changed, entry.lastHostname, newCount⟩, state.insert slug ⟨r.hostname, newCount⟩)

section Pass

variable (lower : Text → Text)

def slugify (value : Text) : Text :=
  let s := stripUnderscores (subRuns false (lower value))
  if s = [] then "monitor".toList else s

/-- The loop over the monitors, each with what `run_monitor` comes to. -/
def mainLoop : List (Monitor × Except Crash Result) → Store → List (Result × Stability) × Store
  | [], state => ([], state)
  | (m, outcome) :: rest, state =>
    if m.enabled then
      let r := resultOf m outcome
      let s := applyHostnameStability (slugify lower m.name) r state
      let rest := mainLoop rest s.2
      ((r, s.1) :: rest.1, rest.2)
    else mainLoop rest state

/-- What `run_monitor` comes to in one pass, for each monitor by its name. -/
abbrev Outcomes := Text → Except Crash Result

def pass (monitors : List Monitor) (outcomes : Outcomes) (state : Store) :
    List (Result × Stability) × Store :=
  mainLoop lower (monitors.map fun m => (m, outcomes m.name)) state

/-- The store after passes one after the other. -/
def runPasses (monitors : List Monitor) (history : List Outcomes) : Store :=
  history.foldl (fun state outcomes => (pass lower monitors outcomes state).2) .empty

end Pass

/-! ## Counting -/

/-- The hostnames of the polls that were online. -/
def onlineHostnames (polls : List Result) : List (Option Text) :=
  (polls.filter (·.state = .online)).map (·.hostname)

/-- How often two consecutive hostnames differ. -/
def changes (hostnames : List (Option Text)) : ℕ :=
  (hostnames.zip hostnames.tail).countP fun p => p.1 ≠ p.2

theorem changes_concat (hostnames : List (Option Text)) (last next : Option Text) :
    changes (hostnames ++ [last, next]) =
      changes (hostnames ++ [last]) + if last ≠ next then 1 else 0 := by
  unfold changes
  induction hostnames with
  | nil => by_cases h : last = next <;> simp [h]
  | cons a rest ih =>
    cases rest with
    | nil =>
      simp only [List.cons_append, List.nil_append, List.tail_cons, List.zip_cons_cons,
        List.countP_cons] at ih ⊢
      omega
    | cons b rest =>
      simp only [List.cons_append, List.tail_cons, List.zip_cons_cons, List.countP_cons] at ih ⊢
      omega

/-- What the store keeps of the online polls under a slug. -/
def entryOf (hostnames : List (Option Text)) : Option Entry :=
  hostnames.getLast?.map fun last => ⟨last, changes hostnames⟩

/-- The poll, if it was online, put behind the others. -/
def withPoll (hostnames : List (Option Text)) (r : Result) : List (Option Text) :=
  hostnames ++ onlineHostnames [r]

theorem withPoll_online {hostnames : List (Option Text)} {r : Result} (h : r.state = .online) :
    withPoll hostnames r = hostnames ++ [r.hostname] := by
  simp [withPoll, onlineHostnames, h]

theorem withPoll_other {hostnames : List (Option Text)} {r : Result} (h : r.state ≠ .online) :
    withPoll hostnames r = hostnames := by
  simp [withPoll, onlineHostnames, h]

/-- **One poll.** Under a summary, what is reported counts the polls up to this one, and the summary
stays one. -/
theorem apply_summary {slug : Text} {state : Store} {hostnames : List (Option Text)}
    (h : state.get? slug = entryOf hostnames) (r : Result) :
    (applyHostnameStability slug r state).1.hostnameChangeCount =
        changes (withPoll hostnames r) ∧
      (r.state = .online →
        (applyHostnameStability slug r state).1.previousHostname = hostnames.getLast?.join) ∧
      (applyHostnameStability slug r state).2.get? slug = entryOf (withPoll hostnames r) := by
  rcases List.eq_nil_or_concat hostnames with rfl | ⟨past, last, rfl⟩
  · have hnone : state.get? slug = none := h
    unfold applyHostnameStability
    rw [hnone]
    by_cases hon : r.state = .online
    · rw [withPoll_online hon]
      simp only [hon, ne_eq, not_true_eq_false, if_false]
      refine ⟨rfl, fun _ => rfl, ?_⟩
      rw [Dict.get?_insert, if_pos rfl]
      rfl
    · rw [withPoll_other hon]
      simp only [hon, ne_eq, not_false_eq_true, if_true]
      exact ⟨rfl, fun h => h.elim, hnone⟩
  · rw [List.concat_eq_append] at h ⊢
    have hsome : state.get? slug = some ⟨last, changes (past ++ [last])⟩ := by
      simpa [entryOf] using h
    unfold applyHostnameStability
    rw [hsome]
    by_cases hon : r.state = .online
    · rw [withPoll_online hon, List.append_assoc, List.singleton_append, changes_concat]
      simp only [hon, ne_eq, not_true_eq_false, if_false]
      have hcount : (if decide (¬ last = r.hostname) = true then changes (past ++ [last]) + 1
          else changes (past ++ [last])) =
          changes (past ++ [last]) + if last ≠ r.hostname then 1 else 0 := by
        by_cases hsame : last = r.hostname <;> simp [hsame]
      rw [hcount]
      refine ⟨rfl, fun _ => ?_, ?_⟩
      · simp
      · rw [Dict.get?_insert, if_pos rfl]
        simp [entryOf, changes_concat]
    · rw [withPoll_other hon]
      simp only [hon, ne_eq, not_false_eq_true, if_true]
      refine ⟨trivial, fun h => h.elim, ?_⟩
      rw [hsome]
      simp [entryOf]

/-- Only the entry of the slug is looked at. -/
theorem apply_congr {slug : Text} {state state' : Store} {r : Result}
    (h : state.get? slug = state'.get? slug) :
    (applyHostnameStability slug r state).1 = (applyHostnameStability slug r state').1 := by
  unfold applyHostnameStability
  rw [h]
  split <;> split_ifs <;> rfl

/-- The other slugs keep their entries. -/
theorem apply_other {slug slug' : Text} (hne : slug' ≠ slug) (r : Result) (state : Store) :
    (applyHostnameStability slug r state).2.get? slug' = state.get? slug' := by
  unfold applyHostnameStability
  split <;> split_ifs <;> simp [Dict.get?_insert, hne]

/-! ## The store -/

section Store

variable {lower : Text → Text} {state : Store} {past : Text → List (Option Text)}

theorem mainLoop_enabled {m : Monitor} (h : m.enabled = true) (outcome : Except Crash Result)
    (rest : List (Monitor × Except Crash Result)) :
    mainLoop lower ((m, outcome) :: rest) state =
      let s := applyHostnameStability (slugify lower m.name) (resultOf m outcome) state
      ((resultOf m outcome, s.1) :: (mainLoop lower rest s.2).1, (mainLoop lower rest s.2).2) :=
  if_pos h

theorem mainLoop_disabled {m : Monitor} (h : ¬ m.enabled = true) (outcome : Except Crash Result)
    (rest : List (Monitor × Except Crash Result)) :
    mainLoop lower ((m, outcome) :: rest) state = mainLoop lower rest state := if_neg h

/-- The hostnames of the online polls under a slug, whichever monitor they are of. -/
def slugHostnames (lower : Text → Text) (slug : Text)
    (entries : List (Monitor × Except Crash Result)) : List (Option Text) :=
  onlineHostnames ((entries.filter fun e => slugify lower e.1.name = slug && e.1.enabled).map
    fun e => resultOf e.1 e.2)

theorem slugHostnames_append (slug : Text)
    (entries entries' : List (Monitor × Except Crash Result)) :
    slugHostnames lower slug (entries ++ entries') =
      slugHostnames lower slug entries ++ slugHostnames lower slug entries' := by
  simp only [slugHostnames, onlineHostnames, List.filter_append, List.map_append]

/-- The store holds the summaries of past online polls. -/
def Holds (past : Text → List (Option Text)) (state : Store) : Prop :=
  ∀ slug, state.get? slug = entryOf (past slug)

/-- **The store** is a summary of the online polls under each slug. -/
theorem holds_mainLoop (entries : List (Monitor × Except Crash Result)) (h : Holds past state) :
    Holds (fun slug => past slug ++ slugHostnames lower slug entries)
      (mainLoop lower entries state).2 := by
  induction entries generalizing past state with
  | nil => simpa [slugHostnames, onlineHostnames, mainLoop] using h
  | cons e rest ih =>
    obtain ⟨m, outcome⟩ := e
    intro slug
    dsimp only
    have hcons : slugHostnames lower slug ((m, outcome) :: rest) =
        slugHostnames lower slug [(m, outcome)] ++ slugHostnames lower slug rest :=
      slugHostnames_append slug [(m, outcome)] rest
    rw [hcons, ← List.append_assoc]
    by_cases henabled : m.enabled = true
    · rw [mainLoop_enabled henabled]
      have hnext : Holds (fun slug => past slug ++ slugHostnames lower slug [(m, outcome)])
          (applyHostnameStability (slugify lower m.name) (resultOf m outcome) state).2 := by
        intro slug
        dsimp only
        by_cases hslug : slugify lower m.name = slug
        · have hone : slugHostnames lower slug [(m, outcome)] =
              onlineHostnames [resultOf m outcome] := by
            simp [slugHostnames, henabled, hslug]
          rw [hone]
          exact hslug ▸ (apply_summary (h _) _).2.2
        · have hnone : slugHostnames lower slug [(m, outcome)] = [] := by
            simp [slugHostnames, onlineHostnames, hslug]
          rw [hnone, List.append_nil, apply_other (Ne.symm hslug)]
          exact h slug
      exact ih hnext slug
    · have hnone : slugHostnames lower slug [(m, outcome)] = [] := by
        simp [slugHostnames, onlineHostnames, henabled]
      rw [mainLoop_disabled henabled, hnone, List.append_nil]
      exact ih h slug

theorem mainLoop_append (entries entries' : List (Monitor × Except Crash Result)) (state : Store) :
    (mainLoop lower (entries ++ entries') state).1 =
      (mainLoop lower entries state).1 ++
        (mainLoop lower entries' (mainLoop lower entries state).2).1 := by
  induction entries generalizing state with
  | nil => rfl
  | cons e rest ih =>
    obtain ⟨m, outcome⟩ := e
    rw [List.cons_append]
    by_cases henabled : m.enabled = true
    · rw [mainLoop_enabled henabled, mainLoop_enabled henabled]
      exact congrArg _ (ih _)
    · rw [mainLoop_disabled henabled, mainLoop_disabled henabled]
      exact ih state

theorem holds_foldl (monitors : List Monitor) (history : List Outcomes) (h : Holds past state) :
    Holds (fun slug => past slug ++ slugHostnames lower slug
        (history.flatMap fun outcomes => monitors.map fun m => (m, outcomes m.name)))
      (history.foldl (fun state outcomes => (pass lower monitors outcomes state).2) state) := by
  induction history generalizing past state with
  | nil => simpa [slugHostnames, onlineHostnames] using h
  | cons outcomes rest ih =>
    intro slug
    dsimp only
    rw [List.flatMap_cons, slugHostnames_append, ← List.append_assoc]
    exact ih (holds_mainLoop _ h) slug

theorem holds_runPasses (monitors : List Monitor) (history : List Outcomes) :
    Holds (fun slug => slugHostnames lower slug
        (history.flatMap fun outcomes => monitors.map fun m => (m, outcomes m.name)))
      (runPasses lower monitors history) :=
  @holds_foldl lower .empty (fun _ => []) monitors history fun _ => rfl

end Store

/-! ## What is reported of a monitor -/

section Reports

variable {lower : Text → Text} {state : Store} {monitors : List Monitor}

/-- The monitors that take part in a pass. -/
def enabled (monitors : List Monitor) : List Monitor := monitors.filter (·.enabled)

/-- The polls of one monitor. -/
def ownPolls (m : Monitor) (history : List Outcomes) : List Result :=
  history.map fun outcomes => resultOf m (outcomes m.name)

/-- What is reported counts the changes between the monitor's own online polls, and an online poll
names the hostname of the one before. -/
def CountsOwn (history : List Outcomes) (outcomes : Outcomes) (m : Monitor)
    (reported : Result × Stability) : Prop :=
  reported.1 = resultOf m (outcomes m.name) ∧
    reported.2.hostnameChangeCount =
      changes (onlineHostnames (ownPolls m (history ++ [outcomes]))) ∧
    (reported.1.state = .online →
      reported.2.previousHostname = (onlineHostnames (ownPolls m history)).getLast?.join)

/-- Where no slug is shared, every monitor meets the entry that the pass began with. -/
theorem pass_of_nodup (outcomes : Outcomes)
    (hslugs : ((enabled monitors).map fun m => slugify lower m.name).Nodup) :
    (pass lower monitors outcomes state).1 = (enabled monitors).map fun m =>
      (resultOf m (outcomes m.name), (applyHostnameStability (slugify lower m.name)
        (resultOf m (outcomes m.name)) state).1) := by
  unfold pass enabled at *
  induction monitors generalizing state with
  | nil => rfl
  | cons m rest ih =>
    rw [List.map_cons]
    by_cases henabled : m.enabled = true
    · rw [List.filter_cons_of_pos henabled, List.map_cons, List.nodup_cons] at hslugs
      rw [mainLoop_enabled henabled, List.filter_cons_of_pos henabled, List.map_cons]
      dsimp only
      rw [ih hslugs.2]
      congr 1
      refine List.map_congr_left fun m' hm' => ?_
      have hne : slugify lower m'.name ≠ slugify lower m.name := fun hsame =>
        hslugs.1 (hsame ▸ List.mem_map_of_mem (f := fun m => slugify lower m.name) hm')
      rw [apply_congr (apply_other hne _ state)]
    · rw [List.filter_cons_of_neg henabled] at hslugs ⊢
      rw [mainLoop_disabled henabled]
      exact ih hslugs

/-- Under its slug the store has the online polls of the monitor only. -/
theorem slugHostnames_own {m : Monitor} (hm : m ∈ enabled monitors)
    (hslugs : ((enabled monitors).map fun m => slugify lower m.name).Nodup)
    (history : List Outcomes) :
    slugHostnames lower (slugify lower m.name)
        (history.flatMap fun outcomes => monitors.map fun m => (m, outcomes m.name)) =
      onlineHostnames (ownPolls m history) := by
  have hone : monitors.filter (fun m' =>
      slugify lower m'.name = slugify lower m.name && m'.enabled) = [m] := by
    have hsame : ∀ m' ∈ enabled monitors,
        decide (slugify lower m'.name = slugify lower m.name) = decide (m' = m) := by
      intro m' hm'
      refine decide_eq_decide.mpr ⟨fun h => ?_, fun h => h ▸ rfl⟩
      exact List.inj_on_of_nodup_map hslugs hm' hm h
    have hnodup : (enabled monitors).Nodup := hslugs.of_map _
    rw [← List.filter_filter]
    show (enabled monitors).filter _ = _
    rw [List.filter_congr hsame, List.filter_eq, List.count_eq_one_of_mem hnodup hm]
    rfl
  induction history with
  | nil => rfl
  | cons outcomes rest ih =>
    have hhead : slugHostnames lower (slugify lower m.name)
        (monitors.map fun m => (m, outcomes m.name)) =
        onlineHostnames [resultOf m (outcomes m.name)] := by
      unfold slugHostnames
      rw [List.filter_map, List.map_map]
      exact congrArg (fun l => onlineHostnames (l.map fun m => resultOf m (outcomes m.name))) hone
    rw [List.flatMap_cons, slugHostnames_append, hhead, ih]
    simp only [ownPolls, onlineHostnames, ← List.map_append, ← List.filter_append]
    rfl

/-- Without shared slugs the counts are the monitors' own. -/
theorem counts_own (history : List Outcomes) (outcomes : Outcomes)
    (hslugs : ((enabled monitors).map fun m => slugify lower m.name).Nodup) :
    List.Forall₂ (CountsOwn history outcomes) (enabled monitors)
      (pass lower monitors outcomes (runPasses lower monitors history)).1 := by
  rw [pass_of_nodup outcomes hslugs, List.forall₂_map_right_iff, List.forall₂_same]
  intro m hm
  have hstored := @holds_runPasses lower monitors history (slugify lower m.name)
  dsimp only at hstored
  rw [slugHostnames_own hm hslugs] at hstored
  obtain ⟨hcount, hprevious, -⟩ := apply_summary hstored (resultOf m (outcomes m.name))
  refine ⟨rfl, hcount.trans (congrArg changes ?_), hprevious⟩
  simp [withPoll, ownPolls, onlineHostnames]

/-! ## Shared slugs -/

/-- Only these two monitors are online, each with its own hostname. -/
def twoOnline (x y : Text) : Outcomes := fun name =>
  let r := crashResult {}
  .ok (if name = x then { r with state := .online, hostname := some ['a'] }
    else if name = y then { r with state := .online, hostname := some ['b'] }
    else r)

theorem mainLoop_filter (entries : List (Monitor × Except Crash Result)) (state : Store) :
    mainLoop lower (entries.filter (·.1.enabled)) state = mainLoop lower entries state := by
  induction entries generalizing state with
  | nil => rfl
  | cons e rest ih =>
    obtain ⟨m, outcome⟩ := e
    by_cases henabled : m.enabled = true
    · simp only [List.filter_cons, henabled, if_true, mainLoop_enabled henabled, ih]
    · simp only [List.filter_cons, henabled, mainLoop_disabled henabled]
      exact ih state

theorem length_mainLoop {entries : List (Monitor × Except Crash Result)}
    (h : ∀ e ∈ entries, e.1.enabled = true) (state : Store) :
    (mainLoop lower entries state).1.length = entries.length := by
  induction entries generalizing state with
  | nil => rfl
  | cons e rest ih =>
    obtain ⟨m, outcome⟩ := e
    obtain ⟨hm, hrest⟩ := List.forall_mem_cons.mp h
    rw [mainLoop_enabled hm]
    exact congrArg (· + 1) (ih hrest _)

theorem exists_shared {α β : Type} {f : α → β} {l : List α} (h : ¬ (l.map f).Nodup) :
    ∃ before x between y after, l = before ++ x :: between ++ y :: after ∧ f x = f y := by
  induction l with
  | nil => exact absurd List.nodup_nil h
  | cons x l ih =>
    by_cases hmem : f x ∈ l.map f
    · obtain ⟨y, hy, hsame⟩ := List.mem_map.mp hmem
      obtain ⟨between, after, rfl⟩ := List.append_of_mem hy
      exact ⟨[], x, between, y, after, rfl, hsame.symm⟩
    · have htail : ¬ (l.map f).Nodup := fun hl => h (List.nodup_cons.mpr ⟨hmem, hl⟩)
      obtain ⟨before, x', between, y, after, rfl, hsame⟩ := ih htail
      exact ⟨x :: before, x', between, y, after, rfl, hsame⟩

theorem slugHostnames_offline {slug : Text} {entries : List (Monitor × Except Crash Result)}
    (h : ∀ e ∈ entries, (resultOf e.1 e.2).state ≠ .online) :
    slugHostnames lower slug entries = [] := by
  unfold slugHostnames onlineHostnames
  rw [List.map_eq_nil_iff, List.filter_eq_nil_iff]
  intro r hr
  obtain ⟨e, he, rfl⟩ := List.mem_map.mp hr
  simpa using h e (List.mem_of_mem_filter he)

/-- Where two monitors share a slug, the second one of them counts a change in its first poll. -/
theorem shared_slug (hnames : ((enabled monitors).map (·.name)).Nodup)
    (hshared : ¬ ((enabled monitors).map fun m => slugify lower m.name).Nodup) :
    ∃ outcomes, ¬ List.Forall₂ (CountsOwn [] outcomes) (enabled monitors)
      (pass lower monitors outcomes (runPasses lower monitors [])).1 := by
  obtain ⟨before, x, between, y, after, hsplit, hslug⟩ := exists_shared hshared
  have hall : ∀ m ∈ before ++ x :: between ++ y :: after, m.enabled = true := by
    rw [← hsplit]
    exact fun m hm => (List.mem_filter.mp hm).2
  rw [hsplit] at hnames ⊢
  have hxy : x.name ≠ y.name ∧
      ∀ m ∈ before ++ between, m.name ≠ x.name ∧ m.name ≠ y.name := by
    simp only [List.map_append, List.map_cons, List.nodup_append, List.nodup_cons] at hnames
    obtain ⟨⟨-, ⟨hx, -⟩, hbefore⟩, -, hy⟩ := hnames
    refine ⟨hy _ (List.mem_append_right _ List.mem_cons_self) _ List.mem_cons_self,
      fun m hm => ?_⟩
    rcases List.mem_append.mp hm with hm | hm
    · have hmem := List.mem_map_of_mem (f := fun m : Monitor => m.name) hm
      exact ⟨hbefore _ hmem _ List.mem_cons_self,
        hy _ (List.mem_append_left _ hmem) _ List.mem_cons_self⟩
    · have hmem := List.mem_map_of_mem (f := fun m : Monitor => m.name) hm
      exact ⟨fun h => hx (h ▸ hmem),
        hy _ (List.mem_append_right _ (List.mem_cons_of_mem _ hmem)) _ List.mem_cons_self⟩
  set outcomes := twoOnline x.name y.name
  let entry : Monitor → Monitor × Except Crash Result := fun m => (m, outcomes m.name)
  have hpass : (pass lower monitors outcomes (runPasses lower monitors [])).1 =
      (mainLoop lower ((before ++ x :: between).map entry ++ entry y :: after.map entry)
        .empty).1 := by
    unfold pass
    rw [← mainLoop_filter, List.filter_map]
    show (mainLoop lower ((enabled monitors).map entry) .empty).1 = _
    rw [hsplit, List.map_append, List.map_cons]
  have hfirst : slugHostnames lower (slugify lower y.name)
      ((before ++ x :: between).map entry) = [some ['a']] := by
    have hoffline : ∀ l : List Monitor, (∀ m ∈ l, m ∈ before ++ between) →
        slugHostnames lower (slugify lower y.name) (l.map entry) = [] := by
      intro l hl
      refine slugHostnames_offline fun e he => ?_
      obtain ⟨m, hm, rfl⟩ := List.mem_map.mp he
      obtain ⟨hmx, hmy⟩ := hxy.2 m (hl m hm)
      have hother : outcomes m.name = .ok (crashResult {}) := by
        show Except.ok (ite _ _ _) = _
        rw [if_neg hmx, if_neg hmy]
      show (resultOf m (outcomes m.name)).state ≠ _
      rw [hother]
      exact fun h => by cases h
    rw [List.map_append, List.map_cons, ← List.singleton_append, slugHostnames_append,
      slugHostnames_append, hoffline before fun m hm => List.mem_append_left _ hm,
      hoffline between fun m hm => List.mem_append_right _ hm]
    have hx : x.enabled = true :=
      hall x (List.mem_append_left _ (List.mem_append_right _ List.mem_cons_self))
    have honline : resultOf x (outcomes x.name) =
        { crashResult {} with state := .online, hostname := some ['a'] } := by
      simp only [outcomes, twoOnline, resultOf, if_true]
    have hone : slugHostnames lower (slugify lower y.name) [entry x] =
        onlineHostnames [resultOf x (outcomes x.name)] := by
      simp [slugHostnames, entry, hx, hslug]
    rw [hone, honline]
    rfl
  refine ⟨outcomes, fun h => ?_⟩
  rw [hpass, mainLoop_append] at h
  have henabled : ∀ e ∈ (before ++ x :: between).map entry, e.1.enabled = true := by
    intro e he
    obtain ⟨m, hm, rfl⟩ := List.mem_map.mp he
    exact hall m (List.mem_append_left _ hm)
  have hlength := @length_mainLoop lower _ henabled .empty
  have hy := List.forall₂_drop (before ++ x :: between).length h
  rw [List.drop_left, List.drop_left' (hlength.trans (List.length_map ..)),
    mainLoop_enabled (hall y (List.mem_append_right _ List.mem_cons_self)), List.forall₂_cons] at hy
  have hstored := @holds_mainLoop lower .empty (fun _ => []) ((before ++ x :: between).map entry)
    (fun _ => rfl) (slugify lower y.name)
  dsimp only at hstored
  rw [List.nil_append, hfirst] at hstored
  have hown := hy.1.2.1.symm.trans (apply_summary hstored _).1
  have honline : resultOf y (outcomes y.name) =
      { crashResult {} with state := .online, hostname := some ['b'] } := by
    simp only [outcomes, twoOnline, resultOf, hxy.1.symm, if_true, if_false]
  simp only [ownPolls, List.nil_append, List.map_cons, List.map_nil, honline] at hown
  exact absurd hown (by decide)

/-- **Counting by monitor.** For monitors with different names, the reported counts are each
monitor's own in every history exactly if no two of them share a slug. -/
theorem counts_own_iff (hnames : ((enabled monitors).map (·.name)).Nodup) :
    (∀ history outcomes, List.Forall₂ (CountsOwn history outcomes) (enabled monitors)
      (pass lower monitors outcomes (runPasses lower monitors history)).1) ↔
      ((enabled monitors).map fun m => slugify lower m.name).Nodup := by
  refine ⟨fun h => ?_, fun hslugs history outcomes => counts_own history outcomes hslugs⟩
  by_contra hshared
  obtain ⟨outcomes, hnot⟩ := shared_slug hnames hshared
  exact hnot (h [] outcomes)

end Reports

/-! ### Two rooms, one slug -/

def asciiLower (s : Text) : Text := s.map Char.toLower

def named (name : String) : Monitor := { name := name.toList }

/-- Two monitors with slugs of their own. -/
theorem counts_own_rooms :
    (∀ history outcomes, List.Forall₂ (CountsOwn history outcomes)
      (enabled [named "Hallway", named "Kitchen"])
      (pass asciiLower [named "Hallway", named "Kitchen"] outcomes
        (runPasses asciiLower [named "Hallway", named "Kitchen"] history)).1) ↔
      ((enabled [named "Hallway", named "Kitchen"]).map fun m => slugify asciiLower m.name).Nodup :=
  counts_own_iff (by decide)

/-- In the first pass already, the second monitor has counted a change of the hostname. -/
theorem other_room_counted :
    ¬ ∀ history outcomes, List.Forall₂ (CountsOwn history outcomes)
      (enabled [named "Living Room", named "living-room"])
      (pass asciiLower [named "Living Room", named "living-room"] outcomes
        (runPasses asciiLower [named "Living Room", named "living-room"] history)).1 := by
  intro h
  have hpass := h [] (twoOnline "Living Room".toList "living-room".toList)
  have hsecond := (List.forall₂_cons.mp (List.forall₂_cons.mp hpass).2).1.2.1
  exact absurd hsecond (by decide +kernel)

end HaAddons.NetworkTools.Mdns
