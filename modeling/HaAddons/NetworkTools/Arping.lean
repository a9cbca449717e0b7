import HaAddons.Lib.Dict
import Mathlib.Data.List.TakeWhile
import Mathlib.Data.Int.Notation

/-!
# Flap detection

One scan probes every entry of `arping_hosts` and keeps, for each address, the number of failed
probes in a row and the debounced state. The state file carries both from one scan to the next.

* `get?_runScans` — the state file after any scans is a summary of the probes of each address.
* `flaps_by_entry` — where no two entries name one address, what a scan reports of an entry is what
  the entry's own probes say.
-/

namespace HaAddons.NetworkTools

/-! ## The scan -/

/-- An entry of `arping_hosts`. -/
structure Host where
  label : Option String := none
  ip : String
  mac : Option String := none
  deviceName : Option String := none
  deriving DecidableEq

/-- What `arping_host` returns. `δ` stands for the fields that are only passed on. -/
structure Probe (δ : Type) where
  reachable : Bool
  mac : Option String
  details : δ

structure HostState where
  consecutiveFailures : ℕ := 0
  effectiveReachable : Bool := true
  lastRawReachable : Option Bool := none
  deriving DecidableEq

/-- `arping_state.json` -/
abbrev StateFile := Dict String HostState

structure Result (δ : Type) where
  label : String
  ip : String
  expectedMac : Option String
  deviceName : Option String
  reachable : Bool
  effectiveReachable : Bool
  consecutiveFailures : ℕ
  mac : Option String
  macMatch : Option Bool
  details : δ

structure Report (δ : Type) where
  interface : String
  disconnectThreshold : ℤ
  hostsTotal : ℕ
  hostsReachable : ℕ
  results : List (Result δ)

/-- `s or None` -/
def orNone (s : Option String) : Option String := s.filter (· ≠ "")

section Scan

variable {δ : Type} (upper : String → String) (threshold : ℤ)

/-- One probe more. -/
def HostState.update (s : HostState) (reachable : Bool) : HostState :=
  if reachable then ⟨0, true, some reachable⟩
  else
    let failures := s.consecutiveFailures + 1
    ⟨failures, if threshold ≤ failures then false else s.effectiveReachable, some reachable⟩

/-- `(host.get("mac") or "").upper() or None` -/
def Host.expectedMac (h : Host) : Option String := orNone (some (upper (h.mac.getD "")))

def Host.result (h : Host) (probe : Probe δ) (s : HostState) : Result δ where
  label := h.label.getD h.ip
  ip := h.ip
  expectedMac := h.expectedMac upper
  deviceName := orNone h.deviceName
  reachable := probe.reachable
  effectiveReachable := s.effectiveReachable
  consecutiveFailures := s.consecutiveFailures
  mac := probe.mac
  macMatch :=
    match h.expectedMac upper, orNone probe.mac with
    | some expected, some found => some (found = expected)
    | _, _ => none
  details := probe.details

/-- The entries of one scan, each with what its probe finds. -/
abbrev Scan (δ : Type) := List (Host × Probe δ)

/-- The loop over the entries. An entry without an address is passed over. -/
def scanLoop : Scan δ → StateFile → StateFile × List (Result δ)
  | [], state => (state, [])
  | (h, probe) :: rest, state =>
    if h.ip = "" then scanLoop rest state
    else
      let s := ((state.get? h.ip).getD {}).update threshold probe.reachable
      let r := scanLoop rest (state.insert h.ip s)
      (r.1, h.result upper probe s :: r.2)

/-- `scan`, with the state that is saved after it. -/
def scan (interface : Option String) (entries : Scan δ) (state : StateFile) :
    StateFile × Report δ :=
  let r := scanLoop upper threshold entries state
  (r.1, {
    interface := interface.getD "eth0"
    disconnectThreshold := threshold
    hostsTotal := entries.length
    hostsReachable := r.2.countP (·.effectiveReachable)
    results := r.2 })

/-- The state file after scans one after the other. The first one finds none. -/
def runScans (scans : List (Scan δ)) : StateFile :=
  scans.foldl (fun state entries => (scan upper threshold none entries state).1) .empty

end Scan

/-! ## Summaries -/

/-- The failed probes since the last successful one, or since the first one. -/
def sinceSuccess (probes : List Bool) : ℕ := (probes.reverse.takeWhile (!·)).length

theorem sinceSuccess_snoc (probes : List Bool) (reachable : Bool) :
    sinceSuccess (probes ++ [reachable]) = if reachable then 0 else sinceSuccess probes + 1 := by
  unfold sinceSuccess
  rw [List.reverse_append]
  cases reachable <;> simp

/-- The last `n` probes are there, and all of them failed. -/
def LastFailed (n : ℕ) (probes : List Bool) : Prop :=
  n ≤ probes.length ∧ ∀ reachable ∈ probes.reverse.take n, reachable = false

theorem le_length_takeWhile_iff {p : Bool → Bool} {l : List Bool} {n : ℕ} :
    n ≤ (l.takeWhile p).length ↔ n ≤ l.length ∧ ∀ b ∈ l.take n, p b = true := by
  induction l generalizing n with
  | nil => simp
  | cons b l ih =>
    cases n with
    | zero => simp
    | succ n =>
      cases hb : p b with
      | true => simp [hb, ih]
      | false => simp [hb]

/-- The window and the counter say the same. -/
theorem lastFailed_iff {n : ℕ} {probes : List Bool} :
    LastFailed n probes ↔ n ≤ sinceSuccess probes := by
  unfold LastFailed sinceSuccess
  rw [le_length_takeWhile_iff, List.length_reverse]
  simp only [Bool.not_eq_true']

/-- What a state file keeps of the probes of an address. -/
def summary (threshold : ℤ) (probes : List Bool) : HostState where
  consecutiveFailures := sinceSuccess probes
  effectiveReachable := (sinceSuccess probes : ℤ) < threshold
  lastRawReachable := probes.getLast?

theorem summary_nil {threshold : ℤ} (h : 1 ≤ threshold) : summary threshold [] = {} := by
  have hpos : (0 : ℤ) < threshold := by omega
  simp [summary, hpos, sinceSuccess]

/-- **One probe more.** -/
theorem update_summary {threshold : ℤ} (h : 1 ≤ threshold) (probes : List Bool)
    (reachable : Bool) :
    (summary threshold probes).update threshold reachable =
      summary threshold (probes ++ [reachable]) := by
  unfold summary HostState.update
  rw [sinceSuccess_snoc, List.getLast?_concat]
  cases reachable with
  | true =>
    have hpos : (0 : ℤ) < threshold := by omega
    simp [hpos]
  | false =>
    simp only [Bool.false_eq_true, if_false, HostState.mk.injEq, true_and, and_true]
    split_ifs with hle
    · exact (decide_eq_false (by omega)).symm
    · exact decide_eq_decide.mpr (by omega)

/-! ## The state file -/

section File

variable {δ : Type} {upper : String → String} {threshold : ℤ} {state : StateFile}
  {past : String → List Bool}

/-- All probes of an address, whichever entry names it. -/
def probesAt (ip : String) (entries : Scan δ) : List Bool :=
  (entries.filter (·.1.ip = ip)).map (·.2.reachable)

/-- The file holds the summaries of past probes. -/
def Holds (threshold : ℤ) (past : String → List Bool) (state : StateFile) : Prop :=
  ∀ ip ≠ "", (state.get? ip).getD {} = summary threshold (past ip)

theorem holds_scanLoop (h : 1 ≤ threshold) (entries : Scan δ)
    (hstate : Holds threshold past state) :
    Holds threshold (fun ip => past ip ++ probesAt ip entries)
      (scanLoop upper threshold entries state).1 := by
  induction entries generalizing past state with
  | nil => simpa [probesAt, scanLoop] using hstate
  | cons e rest ih =>
    obtain ⟨host, probe⟩ := e
    unfold scanLoop
    split_ifs with hip
    · intro ip hne
      have hskip : probesAt ip ((host, probe) :: rest) = probesAt ip rest := by
        simp [probesAt, hip, Ne.symm hne]
      simp only [hskip]
      exact ih hstate ip hne
    · have hinsert : Holds threshold (fun ip => past ip ++ probesAt ip [(host, probe)])
          (state.insert host.ip
            (((state.get? host.ip).getD {}).update threshold probe.reachable)) := by
        intro ip hne
        rw [Dict.get?_insert]
        by_cases hsame : host.ip = ip
        · subst hsame
          simp only [if_true, Option.getD_some, hstate _ hne, update_summary h]
          simp [probesAt]
        · have hother : probesAt ip [(host, probe)] = [] := by simp [probesAt, hsame]
          simp only [hother, List.append_nil]
          rw [if_neg (Ne.symm hsame)]
          exact hstate ip hne
      intro ip hne
      have hcons : probesAt ip ((host, probe) :: rest) =
          probesAt ip [(host, probe)] ++ probesAt ip rest := by
        rw [← List.singleton_append]
        simp only [probesAt, List.filter_append, List.map_append]
      simp only [hcons, ← List.append_assoc]
      exact ih hinsert ip hne

theorem holds_foldl (h : 1 ≤ threshold) (scans : List (Scan δ))
    (hstate : Holds threshold past state) :
    Holds threshold (fun ip => past ip ++ probesAt ip scans.flatten)
      (scans.foldl (fun state entries => (scan upper threshold none entries state).1) state) := by
  induction scans generalizing past state with
  | nil => simpa [probesAt] using hstate
  | cons entries scans ih =>
    intro ip hne
    have hcons : probesAt ip (entries :: scans).flatten =
        probesAt ip entries ++ probesAt ip scans.flatten := by
      simp [probesAt]
    simp only [hcons, ← List.append_assoc]
    exact ih (holds_scanLoop h entries hstate) ip hne

/-- **The state file** is a summary of all probes of each address. -/
theorem holds_runScans (h : 1 ≤ threshold) (scans : List (Scan δ)) :
    Holds threshold (fun ip => probesAt ip scans.flatten) (runScans upper threshold scans) :=
  @holds_foldl _ _ _ _ (fun _ => []) h scans fun _ _ => (summary_nil h).symm

/-! ## What is reported of an entry -/

/-- No two entries of the scan name one address. -/
def Distinct (entries : Scan δ) : Prop := ((entries.map (·.1.ip)).filter (· ≠ "")).Nodup

instance (entries : Scan δ) : Decidable (Distinct entries) :=
  inferInstanceAs (Decidable (List.Nodup _))

/-- Then every entry meets the state that the scan began with. -/
theorem results_of_distinct {entries : Scan δ} (hdistinct : Distinct entries) :
    (scanLoop upper threshold entries state).2 =
      (entries.filter (·.1.ip ≠ "")).map fun e => e.1.result upper e.2
        (((state.get? e.1.ip).getD {}).update threshold e.2.reachable) := by
  induction entries generalizing state with
  | nil => rfl
  | cons e rest ih =>
    obtain ⟨host, probe⟩ := e
    unfold scanLoop
    unfold Distinct at hdistinct
    split_ifs with hip
    · rw [List.map_cons, List.filter_cons_of_neg (by simp [hip])] at hdistinct
      rw [List.filter_cons_of_neg (by simp [hip])]
      exact ih hdistinct
    · rw [List.map_cons, List.filter_cons_of_pos (by simp [hip]), List.nodup_cons] at hdistinct
      rw [List.filter_cons_of_pos (by simp [hip]), List.map_cons]
      dsimp only
      rw [ih hdistinct.2]
      congr 1
      refine List.map_congr_left fun e he => ?_
      have hne : e.1.ip ≠ host.ip := by
        intro hsame
        obtain ⟨hmem, hnot⟩ := List.mem_filter.mp he
        refine hdistinct.1 (List.mem_filter.mpr ⟨?_, by simpa using hip⟩)
        exact hsame ▸ List.mem_map_of_mem hmem
      rw [Dict.get?_insert, if_neg hne]

/-- The probes of an entry, one for each scan that has it. -/
def ownProbes (h : Host) (scans : List (Scan δ)) : List Bool :=
  scans.filterMap fun entries => (entries.find? (·.1 = h)).map (·.2.reachable)

/-- In every scan no two entries name one address, and the entry that names it stays the same. -/
structure Apart (scans : List (Scan δ)) : Prop where
  distinct : ∀ entries ∈ scans, Distinct entries
  steady : ∀ entries ∈ scans, ∀ entries' ∈ scans, ∀ e ∈ entries, ∀ e' ∈ entries',
    e.1.ip ≠ "" → e'.1.ip = e.1.ip → e'.1 = e.1

theorem probesAt_of_mem {entries : Scan δ} (hdistinct : Distinct entries) {e : Host × Probe δ}
    (he : e ∈ entries) (hip : e.1.ip ≠ "") : probesAt e.1.ip entries = [e.2.reachable] := by
  induction entries with
  | nil => exact absurd he List.not_mem_nil
  | cons e₀ rest ih =>
    unfold probesAt Distinct at *
    rw [List.map_cons] at hdistinct
    by_cases hhead : e₀.1.ip = e.1.ip
    · rw [List.filter_cons_of_pos (by simp [hhead, hip]), List.nodup_cons] at hdistinct
      have hnone : ∀ e' ∈ rest, e'.1.ip ≠ e.1.ip := by
        intro e' he' hsame
        refine hdistinct.1 (List.mem_filter.mpr ⟨?_, by simpa [hhead] using hip⟩)
        rw [hhead, ← hsame]
        exact List.mem_map_of_mem he'
      have heq : e₀ = e := by
        rcases List.mem_cons.mp he with rfl | hrest
        · rfl
        · exact absurd rfl (hnone e hrest)
      rw [List.filter_cons_of_pos (by simp [hhead]), heq,
        List.filter_eq_nil_iff.mpr fun e' he' => by simpa using hnone e' he']
      rfl
    · have hrest : e ∈ rest := by
        rcases List.mem_cons.mp he with rfl | hrest
        · exact absurd rfl hhead
        · exact hrest
      rw [List.filter_cons_of_neg (by simp [hhead])]
      exact ih (hdistinct.sublist ((List.sublist_cons_self _ _).filter _)) hrest

theorem probesAt_of_distinct {entries : Scan δ} (hdistinct : Distinct entries) {h : Host}
    (hip : h.ip ≠ "") (hsame : ∀ e ∈ entries, e.1.ip = h.ip → e.1 = h) :
    probesAt h.ip entries = ((entries.find? (·.1 = h)).map (·.2.reachable)).toList := by
  cases hfind : entries.find? (·.1 = h) with
  | none =>
    have hnone : entries.filter (·.1.ip = h.ip) = [] := by
      refine List.filter_eq_nil_iff.mpr fun e he hip' => ?_
      have hnot := List.find?_eq_none.mp hfind e he
      exact hnot (decide_eq_true (hsame e he (of_decide_eq_true hip')))
    simp [probesAt, hnone]
  | some e =>
    have heq : e.1 = h := by simpa using List.find?_some hfind
    rw [← heq] at hip ⊢
    exact probesAt_of_mem hdistinct (List.mem_of_find?_eq_some hfind) hip

theorem probesAt_eq_ownProbes {scans : List (Scan δ)}
    (hdistinct : ∀ entries ∈ scans, Distinct entries) {h : Host} (hip : h.ip ≠ "")
    (hsame : ∀ entries ∈ scans, ∀ e ∈ entries, e.1.ip = h.ip → e.1 = h) :
    probesAt h.ip scans.flatten = ownProbes h scans := by
  induction scans with
  | nil => rfl
  | cons entries scans ih =>
    obtain ⟨hd, hds⟩ := List.forall_mem_cons.mp hdistinct
    obtain ⟨hs, hss⟩ := List.forall_mem_cons.mp hsame
    have hcons : probesAt h.ip (entries :: scans).flatten =
        probesAt h.ip entries ++ probesAt h.ip scans.flatten := by
      simp [probesAt]
    rw [hcons, probesAt_of_distinct hd hip hs, ih hds hss]
    unfold ownProbes
    rw [List.filterMap_cons]
    cases (entries.find? (·.1 = h)).map (·.2.reachable) <;> rfl

/-- What is reported of an entry is what its own probes say. -/
def FollowsOwnProbes (threshold : ℤ) (scans : List (Scan δ)) (e : Host × Probe δ)
    (r : Result δ) : Prop :=
  r.ip = e.1.ip ∧
    (r.effectiveReachable = false ↔ LastFailed threshold.toNat (ownProbes e.1 scans)) ∧
    r.consecutiveFailures = sinceSuccess (ownProbes e.1 scans)

/-- **Flap detection by entry.** After any scans in which no two entries name one address, the next
such scan reports of each entry what its own probes say. -/
theorem flaps_by_entry (interface : Option String) (h : 1 ≤ threshold) {scans : List (Scan δ)}
    {entries : Scan δ} (hapart : Apart (scans ++ [entries])) :
    List.Forall₂ (FollowsOwnProbes threshold (scans ++ [entries]))
      (entries.filter (·.1.ip ≠ ""))
      (scan upper threshold interface entries (runScans upper threshold scans)).2.results := by
  have hlast : entries ∈ scans ++ [entries] := List.mem_append_right _ (List.mem_singleton_self _)
  show List.Forall₂ _ _ (scanLoop upper threshold entries _).2
  rw [results_of_distinct (hapart.distinct _ hlast), List.forall₂_map_right_iff,
    List.forall₂_same]
  intro e he
  obtain ⟨hmem, hip⟩ := List.mem_filter.mp he
  have hip : e.1.ip ≠ "" := of_decide_eq_true hip
  have hown : probesAt e.1.ip scans.flatten ++ [e.2.reachable] =
      ownProbes e.1 (scans ++ [entries]) := by
    rw [← probesAt_eq_ownProbes hapart.distinct hip fun entries' hentries' e' he' hsame =>
      hapart.steady entries hlast entries' hentries' e hmem e' he' hip hsame,
      List.flatten_append, ← probesAt_of_mem (hapart.distinct _ hlast) hmem hip]
    simp [probesAt]
  rw [holds_runScans h scans _ hip, update_summary h, hown]
  refine ⟨rfl, ?_, rfl⟩
  rw [lastFailed_iff]
  show decide _ = false ↔ _
  rw [decide_eq_false_iff_not]
  omega

end File

/-! ## Two names for one address -/

def found : Probe Unit := ⟨true, none, ()⟩

def lost : Probe Unit := ⟨false, none, ()⟩

def desk : Host := { label := some "desk", ip := "192.0.2.7" }

def lamp : Host := { label := some "lamp", ip := "192.0.2.9" }

/-- The address of `desk` under a second name. -/
def desktop : Host := { label := some "desktop", ip := "192.0.2.7" }

/-- A host is missed twice, and the other one is there. -/
theorem flaps_by_entry_missed :
    List.Forall₂ (FollowsOwnProbes 2 [[(desk, lost), (lamp, found)], [(desk, lost), (lamp, lost)]])
      [(desk, lost), (lamp, lost)]
      (scan id 2 none [(desk, lost), (lamp, lost)]
        (runScans id 2 [[(desk, lost), (lamp, found)]])).2.results := by
  have hthreshold : (1 : ℤ) ≤ 2 := by decide
  have hapart : Apart ([[(desk, lost), (lamp, found)]] ++ [[(desk, lost), (lamp, lost)]]) :=
    ⟨by decide, by decide⟩
  exact flaps_by_entry none hthreshold hapart

/-- In the first scan already, the second name of an address that is missed once is taken for
unreachable with a threshold of two. -/
theorem missed_once :
    ¬ List.Forall₂ (FollowsOwnProbes 2 [[(desk, lost), (desktop, lost)]])
      [(desk, lost), (desktop, lost)]
      (scan id 2 none [(desk, lost), (desktop, lost)]
        (runScans id 2 ([] : List (Scan Unit)))).2.results := by
  intro h
  have hsecond := (List.forall₂_cons.mp (List.forall₂_cons.mp h).2).1.2.2
  exact absurd hsecond (by decide)

end HaAddons.NetworkTools
