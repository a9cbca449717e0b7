import Mathlib.Data.List.Infix
import Mathlib.Data.Int.Notation

/-!
# The mDNS monitor

A monitor runs `avahi-browse` for each of its service types, stops at the first one that returns an
error text, and classifies what it has read. Texts are lists of characters; `lower` is
`str.lower()` and `decimal` gives the value of a decimal digit.

* `browseAll_eq` — what the loop over the service types reads.
* `runMonitor_state_iff` — the state is the documented one exactly if no output that cannot be read
  is met and either some call of `avahi-browse` failed or every service type was announced.
-/

namespace HaAddons.NetworkTools.Mdns

abbrev Text := List Char

/-! ## Lines of `avahi-browse -p` -/

structure Announcement where
  event : Text
  iface : Text
  proto : Text
  name : Text
  type : Text
  domain : Text
  host : Text
  address : Text
  port : ℕ
  txt : List Text
  deriving DecidableEq

/-- White space of `str.strip()`. -/
def isSpace (c : Char) : Bool :=
  c.toNat ∈ [0x09, 0x0a, 0x0b, 0x0c, 0x0d, 0x1c, 0x1d, 0x1e, 0x1f, 0x20, 0x85, 0xa0, 0x1680,
    0x2028, 0x2029, 0x202f, 0x205f, 0x3000] || 0x2000 ≤ c.toNat && c.toNat ≤ 0x200a

def strip (s : Text) : Text := ((s.dropWhile isSpace).reverse.dropWhile isSpace).reverse

/-- Where `str.splitlines()` splits. -/
def isLineBreak (c : Char) : Bool :=
  c.toNat ∈ [0x0a, 0x0b, 0x0c, 0x0d, 0x1c, 0x1d, 0x1e, 0x85, 0x2028, 0x2029]

/-- Each second piece, where another one follows. -/
def quotedPieces : List Text → List Text
  | _ :: q :: p :: ps => q :: quotedPieces (p :: ps)
  | _ => []

/-- `re.findall(r'"([^"]*)"', s)` -/
def findQuoted (s : Text) : List Text := quotedPieces (s.splitOn '"')

/-- A call of Python code raises something that nobody around catches. -/
inductive Crash where
  | crash
  deriving DecidableEq

section Parse

variable (decimal : Char → Option ℕ)

/-- `int(digits)`; more than 4300 digits are refused. -/
def int (digits : Text) : Except Crash ℕ :=
  if digits.length ≤ 4300 then
    .ok (digits.foldl (fun n c => 10 * n + (decimal c).getD 0) 0)
  else .error .crash

/-- `parse_avahi_line` -/
def parseAvahiLine (line : Text) : Except Crash (Option Announcement) :=
  match (strip line).splitOn ';' with
  | event :: iface :: proto :: name :: type :: domain :: host :: address :: port :: t :: ts =>
    if [['='], ['+'], ['-']].contains event ∧
        [iface, proto, name, type, domain, host, address, port].all (· ≠ []) ∧
        port.all fun c => (decimal c).isSome then
      match int decimal port with
      | .ok n =>
        let txt := findQuoted (List.intercalate [';'] (t :: ts))
        .ok (some ⟨event, iface, proto, name, type, domain, host, address, n, txt⟩)
      | .error e => .error e
    else .ok none
  | _ => .ok none

/-! ## One service type -/

/-- What becomes of one call of `avahi-browse`. -/
inductive Browse where
  /-- it timed out or is not there; the text of the exception -/
  | failed (text : Text)
  /-- another exception, as for output that is no text -/
  | raised
  | exited (stdout stderr : Text) (returncode : ℤ)
  deriving DecidableEq

/-- The loop over the lines. -/
def parseLines : List Text → Except Crash (List Announcement)
  | [] => .ok []
  | line :: rest =>
    if line = [] ∨ line.head? = some ';' then parseLines rest
    else
      match parseAvahiLine decimal line with
      | .error e => .error e
      | .ok none => parseLines rest
      | .ok (some p) =>
        match parseLines rest with
        | .error e => .error e
        | .ok ps => .ok (if p.event = ['-'] then ps else p :: ps)

/-- `_run_avahi_browse`: the announcements, and the error text. -/
def runAvahiBrowse : Browse → Except Crash (List Announcement × Text)
  | .failed text => .ok ([], "avahi-browse failed: ".toList ++ text)
  | .raised => .error .crash
  | .exited stdout stderr _ =>
    match parseLines decimal ((stdout ++ stderr).splitOnP isLineBreak) with
    | .error e => .error e
    | .ok [] => .ok ([], "no output".toList)
    | .ok (p :: ps) => .ok (p :: ps, [])

end Parse

/-! ## One monitor -/

inductive State where
  | online
  | announcedUnresolved
  | notFound
  | error
  deriving DecidableEq

structure Monitor where
  name : Text := "monitor".toList
  enabled : Bool := true
  serviceTypes : List Text := []
  filter : List Text := []
  deriving DecidableEq

/-- A result, without its time stamp and duration. -/
structure Result where
  name : Text
  state : State
  serviceType : Option Text
  serviceName : Option Text
  hostname : Option Text
  address : Option Text
  port : Option ℕ
  txtRecords : List Text
  error : Option Text
  filter : List Text
  serviceTypesScanned : List Text
  deriving DecidableEq

section Monitor

variable (lower : Text → Text) (decimal : Char → Option ℕ) (resolveHost : Text → Bool)

def matchesFilter (p : Announcement) (patterns : List Text) : Bool :=
  patterns = [] ||
    patterns.any fun pattern =>
      lower pattern <:+: lower (p.name ++ ' ' :: p.host ++ ' ' :: p.address)

def classify (parsed : List Announcement) (patterns : List Text) : State × Option Announcement :=
  match parsed.filter fun p => matchesFilter lower p patterns with
  | [] => (.notFound, none)
  | chosen :: _ =>
    (if resolveHost chosen.host then .online else .announcedUnresolved, some chosen)

/-- The loop over the service types, each with what becomes of its call. -/
def browseAll : List (Text × Browse) → List Announcement →
    Except Crash (List Announcement × Option Text)
  | [], all => .ok (all, none)
  | (_, b) :: rest, all =>
    match runAvahiBrowse decimal b with
    | .error e => .error e
    | .ok (parsed, err) => if err ≠ [] then .ok (all, some err) else browseAll rest (all ++ parsed)

/-- `run_monitor`. The monitor's service types are those of `answers`. -/
def runMonitor (m : Monitor) (answers : List (Text × Browse)) : Except Crash Result :=
  match browseAll decimal answers [] with
  | .error e => .error e
  | .ok (all, error) =>
    let c := classify lower resolveHost all m.filter
    let types := answers.map Prod.fst
    .ok {
      name := m.name
      state := if error.isSome then .error else c.1
      serviceType := (c.2.map (·.type)).or types.head?
      serviceName := c.2.map (·.name)
      hostname := c.2.map (·.host)
      address := c.2.map (·.address)
      port := c.2.map (·.port)
      txtRecords := (c.2.map (·.txt)).getD []
      error := error
      filter := m.filter
      serviceTypesScanned := types }

/-! ## The documented classification -/

/-- The announcements in the output of a call. -/
def Browse.announcements (b : Browse) : List Announcement :=
  match runAvahiBrowse decimal b with
  | .ok (parsed, _) => parsed
  | .error _ => []

/-- `avahi-browse` failed to run or timed out. -/
def Browse.failing : Browse → Bool
  | failed _ => true
  | _ => false

/-- The call or the reading of its output raises. -/
def Browse.crashes (b : Browse) : Bool :=
  match runAvahiBrowse decimal b with
  | .ok _ => false
  | .error _ => true

/-- The state that the documentation gives. -/
def documentedState (patterns : List Text) (answers : List Browse) : State :=
  if answers.any Browse.failing then .error
  else
    match (answers.flatMap (Browse.announcements decimal)).find?
      fun p => matchesFilter lower p patterns with
    | none => .notFound
    | some p => if resolveHost p.host then .online else .announcedUnresolved

/-- No call raises, and no output that cannot be read is met, before the scan stops. -/
def Legible (answers : List Browse) : Prop :=
  ∀ b, answers.find? (fun b => b.announcements decimal = []) = some b → b.crashes decimal = false

end Monitor

/-! ## What the loop reads -/

section Proofs

variable {lower : Text → Text} {decimal : Char → Option ℕ} {resolveHost : Text → Bool}
  {b : Browse}

/-- A call without announcements raises or returns an error text. -/
theorem runAvahiBrowse_nil (h : b.announcements decimal = []) (hread : b.crashes decimal = false) :
    ∃ err, err ≠ [] ∧ runAvahiBrowse decimal b = .ok ([], err) := by
  unfold Browse.announcements Browse.crashes at *
  cases hrun : runAvahiBrowse decimal b with
  | error e => simp [hrun] at hread
  | ok r =>
    obtain ⟨parsed, err⟩ := r
    simp only [hrun] at h
    refine ⟨err, ?_, by rw [h]⟩
    intro herr
    subst h herr
    unfold runAvahiBrowse at hrun
    split at hrun
    · simp at hrun
    · cases hrun
    · split at hrun <;> cases hrun

theorem runAvahiBrowse_ne_nil (h : b.announcements decimal ≠ []) :
    runAvahiBrowse decimal b = .ok (b.announcements decimal, []) := by
  unfold Browse.announcements at *
  cases hrun : runAvahiBrowse decimal b with
  | error e => simp [hrun] at h
  | ok r =>
    obtain ⟨parsed, err⟩ := r
    simp only [hrun] at h ⊢
    unfold runAvahiBrowse at hrun
    split at hrun
    · cases hrun
      exact absurd rfl h
    · cases hrun
    · split at hrun
      · cases hrun
      · cases hrun
        exact absurd rfl h
      · cases hrun
        rfl

theorem announcements_of_failing (h : b.failing = true) : b.announcements decimal = [] := by
  cases b with
  | failed text => rfl
  | raised => cases h
  | exited stdout stderr rc => cases h

theorem browseAll_announced {answers : List (Text × Browse)} {all : List Announcement}
    (h : ∀ a ∈ answers, a.2.announcements decimal ≠ []) :
    browseAll decimal answers all =
      .ok (all ++ (answers.map Prod.snd).flatMap (Browse.announcements decimal), none) := by
  induction answers generalizing all with
  | nil => simp [browseAll]
  | cons a rest ih =>
    obtain ⟨ha, hrest⟩ := List.forall_mem_cons.mp h
    simp only [browseAll, runAvahiBrowse_ne_nil ha, ne_eq, not_true_eq_false, if_false, ih hrest]
    simp

/-- The first call without announcements decides. -/
theorem browseAll_stops {answers : List (Text × Browse)} {all : List Announcement}
    (h : (answers.map Prod.snd).find? (fun b => b.announcements decimal = []) = some b) :
    (b.crashes decimal = true → browseAll decimal answers all = .error .crash) ∧
      (b.crashes decimal = false →
        ∃ parsed err, browseAll decimal answers all = .ok (parsed, some err)) := by
  induction answers generalizing all with
  | nil => cases h
  | cons a rest ih =>
    rw [List.map_cons, List.find?_cons] at h
    by_cases hnil : a.2.announcements decimal = []
    · rw [decide_eq_true hnil] at h
      obtain rfl : a.2 = b := Option.some.inj h
      constructor
      · intro hcrash
        unfold Browse.crashes at hcrash
        cases hrun : runAvahiBrowse decimal a.2 with
        | ok r => simp [hrun] at hcrash
        | error e =>
          cases e
          simp [browseAll, hrun]
      · intro hread
        obtain ⟨err, herr, hrun⟩ := runAvahiBrowse_nil hnil hread
        exact ⟨all, err, by simp [browseAll, hrun, herr]⟩
    · rw [decide_eq_false hnil] at h
      simp only [browseAll, runAvahiBrowse_ne_nil hnil, ne_eq, not_true_eq_false, if_false]
      exact ih h

/-! ## The classification -/

theorem classify_state (parsed : List Announcement) (patterns : List Text) :
    (classify lower resolveHost parsed patterns).1 =
      match parsed.find? fun p => matchesFilter lower p patterns with
      | none => .notFound
      | some p => if resolveHost p.host then .online else .announcedUnresolved := by
  unfold classify
  rw [← List.head?_filter]
  cases parsed.filter fun p => matchesFilter lower p patterns <;> rfl

theorem documentedState_eq_error {patterns : List Text} {answers : List Browse} :
    documentedState lower decimal resolveHost patterns answers = .error ↔
      answers.any Browse.failing = true := by
  unfold documentedState
  constructor
  · intro h
    by_contra hnone
    rw [if_neg hnone] at h
    split at h
    · cases h
    · split_ifs at h
  · exact fun h => if_pos h

/-- **The classification.** The state is the documented one exactly if every output that is met can
be read, and some call of `avahi-browse` failed or every service type was announced. -/
theorem runMonitor_state_iff (m : Monitor) (answers : List (Text × Browse)) :
    (runMonitor lower decimal resolveHost m answers).map Result.state =
        .ok (documentedState lower decimal resolveHost m.filter (answers.map Prod.snd)) ↔
      Legible decimal (answers.map Prod.snd) ∧
        ((∃ a ∈ answers, a.2.failing = true) ∨
          ∀ a ∈ answers, a.2.announcements decimal ≠ []) := by
  unfold runMonitor Legible
  cases hfind : (answers.map Prod.snd).find? fun b => b.announcements decimal = [] with
  | none =>
    have hall : ∀ a ∈ answers, a.2.announcements decimal ≠ [] := by
      intro a ha
      simpa using List.find?_eq_none.mp hfind a.2 (List.mem_map_of_mem ha)
    have hnone : (answers.map Prod.snd).any Browse.failing = false := by
      refine List.any_eq_false.mpr fun b hb hfail => ?_
      obtain ⟨a, ha, rfl⟩ := List.mem_map.mp hb
      exact hall a ha (announcements_of_failing hfail)
    rw [browseAll_announced hall]
    refine iff_of_true ?_ ⟨fun b hb => absurd hb (Option.some_ne_none b).symm, .inr hall⟩
    unfold documentedState
    rw [hnone, if_neg Bool.false_ne_true, ← classify_state]
    rfl
  | some b =>
    have hb : b.announcements decimal = [] := by simpa using List.find?_some hfind
    obtain ⟨a, ha, rfl⟩ := List.mem_map.mp (List.mem_of_find?_eq_some hfind)
    obtain ⟨hcrash, hread⟩ := @browseAll_stops decimal _ answers [] hfind
    cases hc : a.2.crashes decimal with
    | true =>
      rw [hcrash hc]
      refine iff_of_false (fun h => by cases h) fun h => ?_
      exact absurd (h.1 _ rfl) (by simp [hc])
    | false =>
      obtain ⟨parsed, err, hrun⟩ := hread hc
      rw [hrun]
      have hfailing : (answers.map Prod.snd).any Browse.failing = true ↔
          ∃ a ∈ answers, a.2.failing = true := by
        simp [List.any_eq_true]
      have hstate : Except.ok State.error =
          (.ok (documentedState lower decimal resolveHost m.filter (answers.map Prod.snd)) :
            Except Crash State) ↔ ∃ a ∈ answers, a.2.failing = true := by
        rw [← hfailing, ← @documentedState_eq_error lower decimal resolveHost m.filter,
          Except.ok.injEq]
        exact eq_comm
      refine hstate.trans ⟨fun h => ⟨fun b' hb' => ?_, .inl h⟩, fun h => h.2.resolve_right ?_⟩
      · obtain rfl := Option.some.inj hb'
        exact hc
      · exact fun hall => hall a ha hb

end Proofs

/-! ## A quiet service type -/

def asciiDigit (c : Char) : Option ℕ := if c.isDigit then some (c.toNat - '0'.toNat) else none

def printerLine : Text :=
  "=;eth0;IPv4;Brother;_ipp._tcp;local;brother.local;192.0.2.50;631;\"rp=printers\"\n".toList

/-- Nothing was announced for the first type. -/
def quietFirst : List (Text × Browse) :=
  [("_ipps._tcp".toList, .exited [] [] 0), ("_ipp._tcp".toList, .exited printerLine [] 0)]

/-- The printer is announced and resolves, but another service type is quiet. And a network without
any announcement is an error. -/
theorem quiet_type_hides :
    ((runMonitor id asciiDigit (fun _ => true) {} quietFirst).map Result.state = .ok .error ∧
      documentedState id asciiDigit (fun _ => true) [] (quietFirst.map Prod.snd) = .online) ∧
    (runMonitor id asciiDigit (fun _ => true) {} (quietFirst.take 1)).map Result.state =
        .ok .error ∧
      documentedState id asciiDigit (fun _ => true) [] ((quietFirst.take 1).map Prod.snd) =
        .notFound := by
  decide +kernel

end HaAddons.NetworkTools.Mdns
