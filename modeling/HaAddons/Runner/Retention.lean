import HaAddons.Lib.Dict
import HaAddons.Runner.Queue

/-!
# The boot sweep and the rotation of run directories

`SweepInterrupted` marks the runs that a restart cut short, and `Rotate` deletes old directories.
Both walk the listing of `/data/runs` once.

* `sweepsExactly_iff` — the sweep changes the open runs and nothing else exactly where each of them
  is stored under its own id.
* `rotatesExactly_iff` — the rotation deletes what is over age and nothing else, unless a file can be
  found but not read, or the age is the longest there is.
* `retention_iff` — both together, and what is left when everything is old.
-/

namespace HaAddons.Runner

/-! ## Durations -/

def minDuration : ℤ := -2 ^ 63

def maxDuration : ℤ := 2 ^ 63 - 1

/-- `time.Duration`: 64 bits of nanoseconds. -/
structure Duration where
  ns : ℤ
  low : minDuration ≤ ns
  high : ns ≤ maxDuration

/-- `t.Sub(u)`; what does not fit becomes the longest duration. -/
def Time.sub (t u : Time) : Duration where
  ns := max minDuration (min maxDuration (t - u))
  low := le_max_left _ _
  high := max_le (by decide) (min_le_left _ _)

theorem Time.sub_gt_iff {t u : Time} {a : Duration} :
    a.ns < (Time.sub t u).ns ↔ a.ns < t - u ∧ a.ns < maxDuration := by
  show a.ns < max minDuration (min maxDuration (t - u)) ↔ _
  rw [lt_max_iff, lt_min_iff]
  have := a.low
  constructor
  · rintro (h | h)
    · exact absurd h (not_lt.mpr this)
    · exact h.symm
  · exact fun h => .inr h.symm

/-! ## The tree -/

/-- What stands below `/data/runs` under a name. -/
inductive Entry where
  /-- No directory. -/
  | other
  /-- A directory with metadata. -/
  | run (m : Meta)
  /-- A directory whose `meta.json` is missing or malformed. -/
  | bare (mtime : Time)
  /-- A directory whose `meta.json` exists but cannot be read, like a directory of that name; where
  `blocked`, it cannot be replaced either. -/
  | unreadable (blocked : Bool) (mtime : Time)
  deriving DecidableEq

def Entry.isDir : Entry → Bool
  | other => false
  | _ => true

abbrev Tree := Dict String Entry

inductive LoadError where
  | runNotFound
  | readFailed
  deriving DecidableEq

namespace Tree

/-- `Load`. -/
def load (d : Tree) (id : String) : Except LoadError Meta :=
  if isValidRunID id then
    match d.get? id with
    | some (.run m) => .ok m
    | some (.bare _) | none => .error .runNotFound
    | some (.unreadable _ _) | some .other => .error .readFailed
  else .error .runNotFound

/-- `writeMeta`: into the directory of the id in the metadata. -/
def writeMeta (d : Tree) (m : Meta) : Option Tree :=
  if isValidRunID m.runID then
    match d.get? m.runID with
    | some (.run _) | some (.bare _) | some (.unreadable false _) =>
      some (d.insert m.runID (.run m))
    | _ => none
  else none

/-- `Update`. -/
def update (d : Tree) (id : String) (mutate : Meta → Meta) : Option Tree :=
  match d.load id with
  | .ok m => d.writeMeta (mutate m)
  | .error _ => none

/-- The entries that both walks look at: directories with the name of a run. -/
def runIDs (d : Tree) : List String :=
  (d.entries.filter fun e => e.2.isDir && isValidRunID e.1).map Prod.fst

end Tree

/-- A walk under way: the tree, how many runs it counted, and the runs it reports an error for. -/
structure Walk where
  tree : Tree
  count : ℕ := 0
  errs : List String := []

/-! ## The sweep -/

def isOpen (m : Meta) : Bool := m.status = .running || m.status = .queued

def interrupt (now : Time) (m : Meta) : Meta :=
  { m with status := .interrupted, finishedAt := some (m.finishedAt.getD now) }

/-- One turn of `SweepInterrupted`; the clock is read for each run. -/
def sweepOne (clock : String → Time) (w : Walk) (id : String) : Walk :=
  match w.tree.load id with
  | .error .runNotFound => w
  | .error .readFailed => { w with errs := w.errs ++ [id] }
  | .ok m =>
    if isOpen m then
      match w.tree.update id (interrupt (clock id)) with
      | some tree => { w with tree := tree, count := w.count + 1 }
      | none => { w with errs := w.errs ++ [id] }
    else w

def sweepInterrupted (clock : String → Time) (d : Tree) : Walk :=
  d.runIDs.foldl (sweepOne clock) ⟨d, 0, []⟩

/-! ## The rotation -/

/-- `rotateUnparseable` -/
def rotateUnparseable (now : Time) (maxAge : Duration) (w : Walk) (id : String) : Walk :=
  match w.tree.get? id with
  | some (.bare mtime) =>
    if (Time.sub now mtime).ns ≤ maxAge.ns then w
    else { w with tree := w.tree.erase id, count := w.count + 1 }
  | _ => w

/-- One turn of `Rotate`. -/
def rotateOne (now : Time) (maxAge : Duration) (w : Walk) (id : String) : Walk :=
  match w.tree.load id with
  | .error .runNotFound => rotateUnparseable now maxAge w id
  | .error .readFailed => { w with errs := w.errs ++ [id] }
  | .ok m =>
    if m.status = .queued ∨ m.status = .running then w
    else if (Time.sub now (m.finishedAt.getD m.startedAt)).ns ≤ maxAge.ns then w
    else { w with tree := w.tree.erase id, count := w.count + 1 }

def rotate (now : Time) (maxAge : Duration) (d : Tree) : Walk :=
  d.runIDs.foldl (rotateOne now maxAge) ⟨d, 0, []⟩

/-! ## Walks -/

/-- A walk over distinct keys whose turns change nothing but their own key. -/
theorem foldl_local {σ κ ν : Type} [DecidableEq κ] (get : σ → κ → Option ν)
    (g : κ → Option ν → Option ν) (P : κ → Prop) (Inv : σ → Prop) {f : σ → κ → σ}
    (hstep : ∀ s k, P k → Inv s → Inv (f s k) ∧
      ∀ j, get (f s k) j = if j = k then g k (get s k) else get s j)
    {ks : List κ} (hP : ∀ k ∈ ks, P k) (hks : ks.Nodup) {s : σ} (hs : Inv s) (j : κ) :
    get (ks.foldl f s) j = if j ∈ ks then g j (get s j) else get s j := by
  induction ks generalizing s with
  | nil => rw [List.foldl_nil, if_neg List.not_mem_nil]
  | cons k ks ih =>
    obtain ⟨hk, hks⟩ := List.nodup_cons.mp hks
    obtain ⟨hPk, hP⟩ := List.forall_mem_cons.mp hP
    obtain ⟨hinv, hget⟩ := hstep s k hPk hs
    rw [List.foldl_cons, ih hP hks hinv, hget]
    by_cases hj : j = k
    · subst hj
      rw [if_neg hk, if_pos rfl, if_pos List.mem_cons_self]
    · rw [if_neg hj]
      by_cases hmem : j ∈ ks
      · rw [if_pos hmem, if_pos (List.mem_cons_of_mem k hmem)]
      · rw [if_neg hmem, if_neg fun h => hmem ((List.mem_cons.mp h).resolve_left hj)]

namespace Tree

variable {d : Tree} {id : String}

theorem mem_runIDs : id ∈ d.runIDs ↔
    ∃ e, d.get? id = some e ∧ e.isDir = true ∧ isValidRunID id = true := by
  unfold runIDs
  constructor
  · intro h
    obtain ⟨⟨name, e⟩, he, rfl⟩ := List.mem_map.mp h
    obtain ⟨hmem, hkind⟩ := List.mem_filter.mp he
    rw [Bool.and_eq_true] at hkind
    exact ⟨e, Dict.mem_entries.mp hmem, hkind.1, hkind.2⟩
  · rintro ⟨e, he, hdir, hvalid⟩
    refine List.mem_map.mpr ⟨(id, e), List.mem_filter.mpr ⟨Dict.mem_entries.mpr he, ?_⟩, rfl⟩
    rw [Bool.and_eq_true]
    exact ⟨hdir, hvalid⟩

theorem runIDs_nodup : d.runIDs.Nodup := d.nodup.sublist (List.filter_sublist.map Prod.fst)

end Tree

/-! ## What the sweep changes -/

/-- What the sweep is for: open runs become interrupted ones. -/
def swept (clock : String → Time) (name : String) : Entry → Entry
  | .run m =>
    if isValidRunID name && isOpen m then .run (interrupt (clock name) m) else .run m
  | e => e

/-- The sweep changes what it is for, and nothing else. -/
def SweepsExactly (clock : String → Time) (d : Tree) : Prop :=
  ∀ name, (sweepInterrupted clock d).tree.get? name = (d.get? name).map (swept clock name)

/-- Every open run is stored under its own id. -/
def OwnIDs (d : Tree) : Prop :=
  ∀ name m, d.get? name = some (.run m) → isValidRunID name = true → isOpen m = true →
    m.runID = name

section Sweep

variable {clock : String → Time} {d : Tree} {w : Walk} {id : String}

theorem not_isOpen_interrupt (now : Time) (m : Meta) : isOpen (interrupt now m) = false := rfl

/-- A turn writes into the directory that the metadata names, or it leaves the tree. -/
theorem sweepOne_tree (clock : String → Time) (w : Walk) (id : String) :
    (sweepOne clock w id).tree = w.tree ∨ ∃ m, w.tree.get? id = some (.run m) ∧
      isOpen m = true ∧ isValidRunID id = true ∧
        (sweepOne clock w id).tree = w.tree.insert m.runID (.run (interrupt (clock id) m)) := by
  unfold sweepOne
  cases hload : w.tree.load id with
  | error e => cases e <;> exact .inl rfl
  | ok m =>
    dsimp only
    split_ifs with hopen
    · have hfound : w.tree.get? id = some (.run m) ∧ isValidRunID id = true := by
        unfold Tree.load at hload
        split_ifs at hload with hvalid
        split at hload
        · rename_i m' hget
          obtain rfl := Except.ok.inj hload
          exact ⟨hget, hvalid⟩
        · cases hload
        · cases hload
        · cases hload
        · cases hload
      have hupdate : w.tree.update id (interrupt (clock id)) =
          w.tree.writeMeta (interrupt (clock id) m) := by
        rw [Tree.update, hload]
      rw [hupdate]
      cases hwrite : w.tree.writeMeta (interrupt (clock id) m) with
      | none => exact .inl rfl
      | some tree =>
        refine .inr ⟨m, hfound.1, hopen, hfound.2, ?_⟩
        unfold Tree.writeMeta at hwrite
        split_ifs at hwrite
        split at hwrite
        · exact (Option.some.inj hwrite).symm
        · exact (Option.some.inj hwrite).symm
        · exact (Option.some.inj hwrite).symm
        · cases hwrite
    · exact .inl rfl

/-- A turn for a run under its own id. -/
theorem sweepOne_of_own (hown : OwnIDs w.tree) (hvalid : isValidRunID id = true) (j : String) :
    (sweepOne clock w id).tree.get? j =
      if j = id then (w.tree.get? id).map (swept clock id) else w.tree.get? j := by
  have hload : w.tree.load id = match w.tree.get? id with
      | some (.run m) => .ok m
      | some (.bare _) | none => .error .runNotFound
      | some (.unreadable _ _) | some .other => .error .readFailed := by
    rw [Tree.load, if_pos hvalid]
  have hsame : ∀ {e}, w.tree.get? id = e → e.map (swept clock id) = e →
      w.tree.get? j = if j = id then e.map (swept clock id) else w.tree.get? j := by
    intro e he hswept
    rw [hswept]
    by_cases hj : j = id
    · rw [if_pos hj, hj, he]
    · rw [if_neg hj]
  unfold sweepOne
  rw [hload]
  cases hget : w.tree.get? id with
  | none => exact hsame hget rfl
  | some e =>
    cases e with
    | other => exact hsame hget rfl
    | bare mtime => exact hsame hget rfl
    | unreadable blocked mtime => exact hsame hget rfl
    | run m =>
      dsimp only
      by_cases hopen : isOpen m = true
      · have hid : m.runID = id := hown id m hget hvalid hopen
        have hupdate : w.tree.update id (interrupt (clock id)) =
            some (w.tree.insert id (.run (interrupt (clock id) m))) := by
          have hwrite : w.tree.writeMeta (interrupt (clock id) m) =
              some (w.tree.insert id (.run (interrupt (clock id) m))) := by
            have hrun : (interrupt (clock id) m).runID = id := hid
            rw [Tree.writeMeta, hrun, if_pos hvalid, hget]
          rw [Tree.update, hload, hget]
          exact hwrite
        rw [if_pos hopen, hupdate]
        show (w.tree.insert id _).get? j = if j = id then some (swept clock id (.run m)) else _
        rw [Dict.get?_insert, swept, hvalid, hopen]
        rfl
      · rw [if_neg hopen]
        refine hsame hget ?_
        rw [Option.map_some, swept, if_neg (by rw [hvalid, Bool.true_and]; exact hopen)]

theorem ownIDs_sweepOne (hown : OwnIDs w.tree) (hvalid : isValidRunID id = true) :
    OwnIDs (sweepOne clock w id).tree := by
  intro name m hm hname hopen
  rw [sweepOne_of_own hown hvalid] at hm
  by_cases hj : name = id
  · rw [if_pos hj] at hm
    obtain ⟨e, he, hswept⟩ := Option.map_eq_some_iff.mp hm
    cases e with
    | other => cases hswept
    | bare mtime => cases hswept
    | unreadable blocked mtime => cases hswept
    | run m' =>
      rw [swept] at hswept
      split_ifs at hswept with hcond
      · obtain rfl := Entry.run.inj hswept
        rw [not_isOpen_interrupt] at hopen
        cases hopen
      · obtain rfl := Entry.run.inj hswept
        rw [hvalid, Bool.true_and] at hcond
        exact absurd hopen hcond
  · rw [if_neg hj] at hm
    exact hown name m hm hname hopen

theorem swept_of_not_mem {name : String} (h : name ∉ d.runIDs) :
    (d.get? name).map (swept clock name) = d.get? name := by
  cases hget : d.get? name with
  | none => rfl
  | some e =>
    cases e with
    | run m =>
      have hvalid : ¬ isValidRunID name = true := fun hvalid =>
        h (Tree.mem_runIDs.mpr ⟨_, hget, rfl, hvalid⟩)
      rw [Option.map_some, swept, if_neg fun h => hvalid (Bool.and_eq_true _ _ ▸ h).1]
    | other => rfl
    | bare mtime => rfl
    | unreadable blocked mtime => rfl

theorem sweepsExactly_of_own (hown : OwnIDs d) : SweepsExactly clock d := by
  intro name
  have hvalid : ∀ id ∈ d.runIDs, isValidRunID id = true := fun id hid =>
    (Tree.mem_runIDs.mp hid).choose_spec.2.2
  have hfold := foldl_local (fun w : Walk => w.tree.get?) (fun id => Option.map (swept clock id))
    (fun id => isValidRunID id = true) (fun w => OwnIDs w.tree) (f := sweepOne clock)
    (fun w id hid hw => ⟨ownIDs_sweepOne hw hid, sweepOne_of_own hw hid⟩) hvalid
    Tree.runIDs_nodup (s := ⟨d, 0, []⟩) hown name
  rw [sweepInterrupted, hfold]
  split_ifs with hmem
  · rfl
  · exact (swept_of_not_mem hmem).symm

/-- What a walk of the sweep leaves under a name: what was there, or a run under its own id. -/
theorem sweep_leaves (clock : String → Time) (ids : List String) (w : Walk) (name : String) :
    (ids.foldl (sweepOne clock) w).tree.get? name = w.tree.get? name ∨
      ∃ m, (ids.foldl (sweepOne clock) w).tree.get? name = some (.run m) ∧ m.runID = name := by
  induction ids generalizing w with
  | nil => exact .inl rfl
  | cons id ids ih =>
    rw [List.foldl_cons]
    rcases ih (sweepOne clock w id) with h | h
    · rcases sweepOne_tree clock w id with htree | ⟨m, -, -, -, htree⟩
      · rw [h, htree]
        exact .inl rfl
      · rw [h, htree, Dict.get?_insert]
        by_cases hname : name = m.runID
        · rw [if_pos hname]
          exact .inr ⟨_, rfl, hname.symm⟩
        · rw [if_neg hname]
          exact .inl rfl
    · exact .inr h

/-- **The sweep is exact where the open runs are stored under their own ids.** -/
theorem sweepsExactly_iff : SweepsExactly clock d ↔ OwnIDs d := by
  refine ⟨fun h name m hm hvalid hopen => ?_, sweepsExactly_of_own⟩
  have hfinal := h name
  rw [hm, Option.map_some, swept, if_pos (by rw [hvalid, hopen]; rfl)] at hfinal
  rcases sweep_leaves clock d.runIDs ⟨d, 0, []⟩ name with hleft | ⟨m', hleft, hid⟩
  · rw [sweepInterrupted, hleft] at hfinal
    have hm' : m = interrupt (clock name) m :=
      Entry.run.inj (Option.some.inj (hm.symm.trans hfinal))
    rw [hm', not_isOpen_interrupt] at hopen
    cases hopen
  · rw [sweepInterrupted, hleft] at hfinal
    obtain rfl := Entry.run.inj (Option.some.inj hfinal)
    exact hid

end Sweep

/-! ## What the rotation deletes -/

/-- What may go: a terminal run that is over age, and a directory without readable metadata that
is. -/
def reclaimable (now : Time) (maxAge : Duration) (name : String) : Entry → Bool
  | .other => false
  | .run m => isValidRunID name && overAge now maxAge.ns m
  | .bare mtime | .unreadable _ mtime => isValidRunID name && decide (maxAge.ns < now - mtime)

/-- The rotation deletes what may go, and nothing else. -/
def RotatesExactly (now : Time) (maxAge : Duration) (d : Tree) : Prop :=
  ∀ name, (rotate now maxAge d).tree.get? name =
    (d.get? name).filter fun e => !reclaimable now maxAge name e

/-- What `Rotate` itself deletes. -/
def rotated (now : Time) (maxAge : Duration) (name : String) : Entry → Bool
  | .other | .unreadable _ _ => false
  | .run m => reclaimable now maxAge name (.run m) && decide (maxAge.ns < maxDuration)
  | .bare mtime => reclaimable now maxAge name (.bare mtime) && decide (maxAge.ns < maxDuration)

section Rotation

variable {now : Time} {maxAge : Duration} {d : Tree} {id : String}

theorem not_sub_le {t u : Time} {a : Duration} :
    ¬ (Time.sub t u).ns ≤ a.ns ↔ a.ns < t - u ∧ a.ns < maxDuration := by
  rw [not_le, Time.sub_gt_iff]

theorem rotateOne_tree {w : Walk} {e : Entry} (hvalid : isValidRunID id = true)
    (hget : w.tree.get? id = some e) :
    (rotateOne now maxAge w id).tree =
      if rotated now maxAge id e = true then w.tree.erase id else w.tree := by
  have hcases : ∀ {c : Prop} [Decidable c], (rotated now maxAge id e = true ↔ c) →
      (if rotated now maxAge id e = true then w.tree.erase id else w.tree) =
        if c then w.tree.erase id else w.tree := by
    intro c _ hc
    by_cases h : c
    · rw [if_pos h, if_pos (hc.mpr h)]
    · rw [if_neg h, if_neg fun hr => h (hc.mp hr)]
  unfold rotateOne Tree.load
  rw [if_pos hvalid, hget]
  cases e with
  | other => rfl
  | unreadable blocked mtime => rfl
  | bare mtime =>
    dsimp only
    rw [rotateUnparseable, hget, hcases (c := ¬ (Time.sub now mtime).ns ≤ maxAge.ns)]
    · dsimp only
      by_cases hage : (Time.sub now mtime).ns ≤ maxAge.ns
      · rw [if_pos hage, if_neg (not_not.mpr hage)]
      · rw [if_neg hage, if_pos hage]
    · rw [not_sub_le, rotated, reclaimable, hvalid]
      simp
  | run m =>
    dsimp only
    rw [hcases (c := ¬ (m.status = .queued ∨ m.status = .running) ∧
      ¬ (Time.sub now (m.finishedAt.getD m.startedAt)).ns ≤ maxAge.ns)]
    · by_cases hopen : m.status = .queued ∨ m.status = .running
      · rw [if_pos hopen, if_neg fun h => h.1 hopen]
      · rw [if_neg hopen]
        by_cases hage : (Time.sub now (m.finishedAt.getD m.startedAt)).ns ≤ maxAge.ns
        · rw [if_pos hage, if_neg fun h => h.2 hage]
        · rw [if_neg hage, if_pos ⟨hopen, hage⟩]
    · rw [not_sub_le, rotated, reclaimable, hvalid, overAge]
      simp only [Bool.true_and, Bool.and_eq_true, decide_eq_true_eq, not_or]
      tauto

theorem rotateOne_get? (hvalid : isValidRunID id = true) (w : Walk) (j : String) :
    (rotateOne now maxAge w id).tree.get? j =
      if j = id then (w.tree.get? id).filter (fun e => !rotated now maxAge id e)
      else w.tree.get? j := by
  cases hget : w.tree.get? id with
  | none =>
    have hsame : (rotateOne now maxAge w id).tree = w.tree := by
      unfold rotateOne Tree.load
      rw [if_pos hvalid, hget]
      dsimp only
      rw [rotateUnparseable, hget]
    rw [hsame]
    by_cases hj : j = id
    · rw [if_pos hj, hj, hget]
      rfl
    · rw [if_neg hj]
  | some e =>
    rw [rotateOne_tree hvalid hget, Option.filter_some]
    by_cases he : rotated now maxAge id e = true
    · rw [if_pos he, Dict.get?_erase, he]
      rfl
    · rw [if_neg he, Bool.eq_false_of_not_eq_true he]
      by_cases hj : j = id
      · rw [if_pos hj, hj, hget]
        rfl
      · rw [if_neg hj]

/-- What `Rotate` leaves. -/
theorem rotate_get? (name : String) : (rotate now maxAge d).tree.get? name =
    (d.get? name).filter fun e => !rotated now maxAge name e := by
  have hvalid : ∀ id ∈ d.runIDs, isValidRunID id = true := fun id hid =>
    (Tree.mem_runIDs.mp hid).choose_spec.2.2
  have hfold := foldl_local (fun w : Walk => w.tree.get?)
    (fun id => Option.filter fun e => !rotated now maxAge id e)
    (fun id => isValidRunID id = true) (fun _ => True) (f := rotateOne now maxAge)
    (fun w id hid _ => ⟨trivial, rotateOne_get? hid w⟩) hvalid
    Tree.runIDs_nodup (s := ⟨d, 0, []⟩) trivial name
  rw [rotate, hfold]
  split_ifs with hmem
  · rfl
  · show d.get? name = _
    cases hget : d.get? name with
    | none => rfl
    | some e =>
      have hno : rotated now maxAge name e = false := by
        have hinvalid : e.isDir = true → isValidRunID name = false := fun hdir =>
          Bool.eq_false_of_not_eq_true fun h => hmem (Tree.mem_runIDs.mpr ⟨e, hget, hdir, h⟩)
        cases e with
        | other => rfl
        | unreadable blocked mtime => rfl
        | run m => rw [rotated, reclaimable, hinvalid rfl, Bool.false_and, Bool.false_and]
        | bare mtime => rw [rotated, reclaimable, hinvalid rfl, Bool.false_and, Bool.false_and]
      rw [Option.filter_some, hno]
      rfl

/-- Where the rotation deletes what it is for: everything over age has metadata or none at all, and
the clock's differences reach beyond the age. -/
def Reachable (now : Time) (maxAge : Duration) (d : Tree) : Prop :=
  ∀ name e, d.get? name = some e → reclaimable now maxAge name e = true →
    (∀ blocked mtime, e ≠ .unreadable blocked mtime) ∧ maxAge.ns < maxDuration

theorem rotated_eq_iff {name : String} {e : Entry} :
    rotated now maxAge name e = reclaimable now maxAge name e ↔
      (reclaimable now maxAge name e = true →
        (∀ blocked mtime, e ≠ .unreadable blocked mtime) ∧ maxAge.ns < maxDuration) := by
  cases e with
  | other => exact iff_of_true rfl fun h => nomatch h
  | unreadable blocked mtime =>
    rw [rotated, eq_comm]
    constructor
    · intro h h'
      rw [h] at h'
      cases h'
    · intro h
      exact Bool.eq_false_of_not_eq_true fun h' => (h h').1 blocked mtime rfl
  | run m =>
    rw [rotated]
    cases reclaimable now maxAge name (.run m) <;> simp
  | bare mtime =>
    rw [rotated]
    cases reclaimable now maxAge name (.bare mtime) <;> simp

/-- **The rotation is exact where it can read or need not.** -/
theorem rotatesExactly_iff : RotatesExactly now maxAge d ↔ Reachable now maxAge d := by
  have hname : ∀ name, (rotate now maxAge d).tree.get? name =
      ((d.get? name).filter fun e => !reclaimable now maxAge name e) ↔
        ∀ e, d.get? name = some e → (reclaimable now maxAge name e = true →
          (∀ blocked mtime, e ≠ .unreadable blocked mtime) ∧ maxAge.ns < maxDuration) := by
    intro name
    rw [rotate_get?]
    cases d.get? name with
    | none => exact iff_of_true rfl fun e h => nomatch h
    | some e =>
      have hfilter : (some e).filter (fun e => !rotated now maxAge name e) =
          (some e).filter (fun e => !reclaimable now maxAge name e) ↔
            rotated now maxAge name e = reclaimable now maxAge name e := by
        rw [Option.filter_some, Option.filter_some]
        cases rotated now maxAge name e <;> cases reclaimable now maxAge name e <;> simp
      rw [hfilter, rotated_eq_iff]
      exact ⟨fun h e' he => Option.some.inj he ▸ h, fun h => h e rfl⟩
  exact forall_congr' hname

end Rotation

/-! ## Sweep, then rotate -/

/-- The clock is more than the age past the finish time of a run and past the modification time of a
directory without readable metadata. -/
def Past (now : Time) (maxAge : Duration) : Entry → Prop
  | .other => True
  | .run m => ∀ finished, m.finishedAt = some finished → maxAge.ns < now - finished
  | .bare mtime | .unreadable _ mtime => maxAge.ns < now - mtime

/-- The directories with the name of a run. -/
def IsRunDir (d : Tree) (name : String) (e : Entry) : Prop :=
  d.get? name = some e ∧ e.isDir = true ∧ isValidRunID name = true

def AllPast (now : Time) (maxAge : Duration) (d : Tree) : Prop :=
  ∀ name e, IsRunDir d name e → Past now maxAge e

/-- Once everything that a sweep leaves is old, the rotation leaves no run directory. -/
def LeavesNone (clock : String → Time) (now : Time) (maxAge : Duration) (d : Tree) : Prop :=
  AllPast now maxAge (sweepInterrupted clock d).tree →
    ∀ name e, ¬ IsRunDir (rotate now maxAge (sweepInterrupted clock d).tree).tree name e

/-- Every directory has readable metadata or none, a terminal run without a finish time started long
enough ago, and the age is not the longest. -/
def Sortable (now : Time) (maxAge : Duration) (d : Tree) : Prop :=
  ∀ name e, IsRunDir d name e → (∀ blocked mtime, e ≠ .unreadable blocked mtime) ∧
    (∀ m, e = .run m → isOpen m = false → m.finishedAt = none → maxAge.ns < now - m.startedAt) ∧
      maxAge.ns < maxDuration

section Both

variable {clock : String → Time} {now : Time} {maxAge : Duration} {d : Tree}

theorem swept_isDir (name : String) (e : Entry) : (swept clock name e).isDir = e.isDir := by
  cases e with
  | run m =>
    rw [swept]
    split_ifs <;> rfl
  | other => rfl
  | bare mtime => rfl
  | unreadable blocked mtime => rfl

theorem isRunDir_sweep (h : SweepsExactly clock d) {name : String} {e : Entry} :
    IsRunDir (sweepInterrupted clock d).tree name e ↔
      ∃ e₀, IsRunDir d name e₀ ∧ swept clock name e₀ = e := by
  unfold IsRunDir
  rw [h name, Option.map_eq_some_iff]
  constructor
  · rintro ⟨⟨e₀, he₀, rfl⟩, hdir, hvalid⟩
    exact ⟨e₀, ⟨he₀, swept_isDir name e₀ ▸ hdir, hvalid⟩, rfl⟩
  · rintro ⟨e₀, ⟨he₀, hdir, hvalid⟩, rfl⟩
    exact ⟨⟨e₀, he₀, rfl⟩, swept_isDir name e₀ ▸ hdir, hvalid⟩

theorem isRunDir_rotate {name : String} {e : Entry} :
    IsRunDir (rotate now maxAge d).tree name e ↔
      IsRunDir d name e ∧ rotated now maxAge name e = false := by
  unfold IsRunDir
  rw [rotate_get?, Option.filter_eq_some_iff, Bool.not_eq_true']
  tauto

theorem overAge_iff {m : Meta} :
    overAge now maxAge.ns m = true ↔
      isOpen m = false ∧ maxAge.ns < now - m.finishedAt.getD m.startedAt := by
  unfold overAge isOpen
  simp only [Bool.and_eq_true, decide_eq_true_eq, Bool.or_eq_false_iff, decide_eq_false_iff_not]
  tauto

/-- What the rotation makes of a swept directory that is old. -/
theorem rotated_swept {name : String} {e : Entry} (hvalid : isValidRunID name = true)
    (hdir : e.isDir = true) (hpast : Past now maxAge (swept clock name e)) :
    rotated now maxAge name (swept clock name e) = true ↔
      (∀ blocked mtime, e ≠ .unreadable blocked mtime) ∧
        (∀ m, e = .run m → isOpen m = false → m.finishedAt = none →
          maxAge.ns < now - m.startedAt) ∧ maxAge.ns < maxDuration := by
  cases e with
  | other => cases hdir
  | unreadable blocked mtime =>
    exact iff_of_false Bool.false_ne_true fun h => h.1 blocked mtime rfl
  | bare mtime =>
    have hold : maxAge.ns < now - mtime := hpast
    rw [swept, rotated, reclaimable, hvalid]
    · simp [hold]
    · exact fun m h => nomatch h
  | run m =>
    rw [swept, hvalid, Bool.true_and] at hpast ⊢
    by_cases hopen : isOpen m = true
    · rw [if_pos hopen] at hpast ⊢
      have hold := hpast _ rfl
      have hage : overAge now maxAge.ns (interrupt (clock name) m) = true :=
        overAge_iff.mpr ⟨rfl, hold⟩
      rw [rotated, reclaimable, hvalid, hage]
      simp [hopen]
    · rw [if_neg hopen] at hpast ⊢
      have hclosed := Bool.eq_false_of_not_eq_true hopen
      rw [rotated, reclaimable, hvalid, Bool.true_and, Bool.and_eq_true, overAge_iff,
        decide_eq_true_eq]
      cases hfinished : m.finishedAt with
      | some finished =>
        have hold := hpast finished hfinished
        simp [hclosed, hold, hfinished]
      | none => simp [hclosed, hfinished]

/-- Once the sweep is exact, what the rotation leaves is what it cannot sort. -/
theorem leavesNone_iff (hown : OwnIDs d) : LeavesNone clock now maxAge d ↔
    ((∀ name e, IsRunDir d name e → Past now maxAge (swept clock name e)) →
      Sortable now maxAge d) := by
  have hexact : SweepsExactly clock d := sweepsExactly_of_own hown
  have hpast : AllPast now maxAge (sweepInterrupted clock d).tree ↔
      ∀ name e, IsRunDir d name e → Past now maxAge (swept clock name e) := by
    constructor
    · intro h name e he
      exact h name _ ((isRunDir_sweep hexact).mpr ⟨e, he, rfl⟩)
    · intro h name e he
      obtain ⟨e₀, he₀, rfl⟩ := (isRunDir_sweep hexact).mp he
      exact h name e₀ he₀
  rw [LeavesNone, hpast]
  refine forall_congr' fun hold => ?_
  constructor
  · intro h name e he
    refine (rotated_swept he.2.2 he.2.1 (hold name e he)).mp ?_
    by_contra hkept
    exact h name _ (isRunDir_rotate.mpr
      ⟨(isRunDir_sweep hexact).mpr ⟨e, he, rfl⟩, Bool.eq_false_of_not_eq_true hkept⟩)
  · intro h name e he
    obtain ⟨hswept, hkept⟩ := isRunDir_rotate.mp he
    obtain ⟨e₀, he₀, rfl⟩ := (isRunDir_sweep hexact).mp hswept
    rw [(rotated_swept he₀.2.2 he₀.2.1 (hold name e₀ he₀)).mpr (h name e₀ he₀)] at hkept
    cases hkept

/-- **Sweep and rotation.** Both do what they are for, and together leave nothing old, exactly
where open runs are stored under their own ids, metadata can be read where it exists, terminal runs
have a finish time or an old start, and the age is not the longest there is. -/
theorem retention_iff (clock : String → Time) (now : Time) (maxAge : Duration) (d : Tree) :
    SweepsExactly clock d ∧ RotatesExactly now maxAge d ∧ LeavesNone clock now maxAge d ↔
      OwnIDs d ∧ Reachable now maxAge d ∧
        ((∀ name e, IsRunDir d name e → Past now maxAge (swept clock name e)) →
          Sortable now maxAge d) := by
  rw [sweepsExactly_iff, rotatesExactly_iff]
  constructor
  · rintro ⟨hown, hreach, hnone⟩
    exact ⟨hown, hreach, (leavesNone_iff hown).mp hnone⟩
  · rintro ⟨hown, hreach, hsort⟩
    exact ⟨hown, hreach, (leavesNone_iff hown).mpr hsort⟩

/-- A run directory whose `meta.json` is a directory, three days old. -/
def jammed : Tree where
  entries := [("AAAAAAAAAAAAAAAA", .unreadable true 0)]
  nodup := by decide

def oneDay : Duration := ⟨86400 * 10 ^ 9, by decide, by decide⟩

/-- `Rotate` does not delete it, whatever its age. -/
theorem jammed_stays : ¬ RotatesExactly (3 * 86400 * 10 ^ 9) oneDay jammed := by
  intro h
  have hname := h "AAAAAAAAAAAAAAAA"
  exact absurd hname (by decide)

end Both

end HaAddons.Runner
