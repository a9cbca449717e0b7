import HaAddons.Runner.Contract
import Mathlib.Data.List.Sort

/-!
# The run store

`/data/runs` holds one directory per run with its `meta.json`. The store keeps nothing in
memory, so its state is the directory listing: `entries`, in the order `os.ReadDir` reports
(by name). A directory whose metadata is missing or unreadable has `saved = none`.

An I/O call that can fail takes a Boolean for whether it succeeds.
-/

namespace HaAddons.Runner

/-- The persisted state of one run. -/
structure Meta where
  runID : String
  repo : String
  dir : String
  kind : RunKind
  status : RunStatus
  exitCode : Option ℤ
  startedAt : Time
  finishedAt : Option Time
  errorCode : String
  /-- The plan artifact of a succeeded plan run; empty for none. -/
  planFile : String
  /-- The commit the plan was built against; empty for unknown. -/
  headSHA : String
  deriving DecidableEq, Repr

/-- A directory below `/data/runs`. -/
structure RunDir where
  name : String
  saved : Option Meta
  deriving DecidableEq, Repr

/-- The run directories by name. -/
abbrev Store := List RunDir

def runIDLength : ℕ := 16

/-- `runs.IsValidRunID`: sixteen characters of the base32 alphabet. -/
def isValidRunID (id : String) : Bool :=
  id.toList.length = runIDLength &&
    id.toList.all fun c => ('A' ≤ c && c ≤ 'Z') || ('2' ≤ c && c ≤ '7')

def planFileName := "plan.tfplan"

/-- `filepath.Join(q.store.Dir(runID), planFileName)`. -/
def planArtifact (runsDir runID : String) : String := runsDir ++ "/" ++ runID ++ "/" ++ planFileName

theorem planArtifact_injective (runsDir : String) {a b : String}
    (h : planArtifact runsDir a = planArtifact runsDir b) : a = b := by
  have h := congrArg String.toList h
  simp only [planArtifact, String.toList_append, List.append_assoc, List.append_cancel_left_eq] at h
  exact String.toList_injective (List.append_cancel_right h)

theorem planArtifact_ne_empty (runsDir runID : String) : planArtifact runsDir runID ≠ "" := by
  intro h
  have h := congrArg (fun s : String => s.toList.length) h
  simp [planArtifact, planFileName] at h

namespace Store

/-- `os.MkdirAll` of a run directory. -/
def mkdir (s : Store) (id : String) : Store :=
  if s.any (·.name = id) then s
  else List.orderedInsert (fun a b => a.name ≤ b.name) ⟨id, none⟩ s

/-- `writeMeta`: the new `meta.json` replaces the old one in the run's directory. -/
def writeMeta (s : Store) (m : Meta) : Store :=
  s.map fun e => if e.name = m.runID then { e with saved := some m } else e

/-- `os.RemoveAll` of a run directory. -/
def removeAll (s : Store) (id : String) : Store := s.filter (·.name ≠ id)

/-- `Load`; `none` is `ErrRunNotFound`. -/
def load (s : Store) (id : String) : Option Meta :=
  if isValidRunID id then (s.find? (·.name = id)).bind (·.saved) else none

/-- `Update`: read, change and write back under the run's file lock. The store and whether the
call returned without an error. -/
def update (s : Store) (id : String) (mutate : Meta → Meta) (ok : Bool) : Store × Bool :=
  match s.load id with
  | some m => if ok then (s.writeMeta (mutate m), true) else (s, false)
  | none => (s, false)

end Store

/-- `runs.ListFilter`. An empty string or `none` leaves a field out; `dirSet` tells the empty
`dir` of the repo root from no filter. -/
structure ListFilter where
  repo : String
  status : Option RunStatus
  kind : Option RunKind
  dir : String
  dirSet : Bool
  limit : ℤ
  deriving DecidableEq, Repr

/-- The conditions of `List`, in the source's order. -/
def ListFilter.accepts (f : ListFilter) (m : Meta) : Bool :=
  (f.repo = "" || m.repo = f.repo) && (f.status.all (m.status = ·)) &&
    (f.kind.all (m.kind = ·)) && (!f.dirSet || m.dir = f.dir)

/-- The response cap: the default when no limit is asked for, and never above the maximum. -/
def ListFilter.cap (f : ListFilter) : ℕ :=
  (min (if f.limit ≤ 0 then defaultRunListLimit else f.limit) maxRunListLimit).toNat

/-- `List`: the matching runs, newest first, cut at the limit. The sort is stable, so runs
started at the same instant keep the order of their names. -/
def Store.list (s : Store) (f : ListFilter) : List Meta :=
  (((s.filterMap fun e => if isValidRunID e.name then e.saved else none).filter f.accepts).insertionSort
    fun a b => b.startedAt ≤ a.startedAt).take f.cap

namespace Store

/-- A run's metadata as some directory stores it. -/
def Stored (s : Store) (m : Meta) : Prop := ∃ e ∈ s, e.saved = some m

theorem Stored.of_load {s : Store} {id : String} {m : Meta} (h : s.load id = some m) :
    s.Stored m := by
  unfold load at h
  split at h
  · obtain ⟨e, he, hm⟩ := Option.bind_eq_some_iff.mp h
    exact ⟨e, List.mem_of_find?_eq_some he, hm⟩
  · cases h

theorem stored_mkdir {s : Store} {id : String} {m : Meta} (h : (s.mkdir id).Stored m) :
    s.Stored m := by
  unfold mkdir at h
  split at h
  · exact h
  · obtain ⟨e, he, hm⟩ := h
    rcases (List.mem_orderedInsert _).mp he with rfl | he
    · cases hm
    · exact ⟨e, he, hm⟩

theorem stored_writeMeta {s : Store} {m m' : Meta} (h : (s.writeMeta m).Stored m') :
    m' = m ∨ s.Stored m' := by
  obtain ⟨e, he, hm⟩ := h
  obtain ⟨e₀, he₀, rfl⟩ := List.mem_map.mp he
  split at hm
  · exact .inl (by simpa using hm.symm)
  · exact .inr ⟨e₀, he₀, hm⟩

theorem stored_removeAll {s : Store} {id : String} {m : Meta} (h : (s.removeAll id).Stored m) :
    s.Stored m := by
  obtain ⟨e, he, hm⟩ := h
  exact ⟨e, List.mem_of_mem_filter he, hm⟩

/-- What `Update` leaves in the store: what was there, or the changed metadata of the run. -/
theorem stored_update {s : Store} {id : String} {f : Meta → Meta} {ok : Bool} {m : Meta}
    (h : (s.update id f ok).1.Stored m) :
    s.Stored m ∨ ∃ m₀, s.load id = some m₀ ∧ m = f m₀ := by
  unfold update at h
  split at h
  · rename_i m₀ hm₀
    split at h
    · rcases stored_writeMeta h with rfl | h
      · exact .inr ⟨m₀, hm₀, rfl⟩
      · exact .inl h
    · exact .inl h
  · exact .inl h

theorem stored_of_mem_list {s : Store} {f : ListFilter} {m : Meta} (h : m ∈ s.list f) :
    s.Stored m ∧ f.accepts m = true := by
  have h := (List.mem_insertionSort _).mp (List.mem_of_mem_take h)
  obtain ⟨h, hf⟩ := List.mem_filter.mp h
  obtain ⟨e, he, hm⟩ := List.mem_filterMap.mp h
  split at hm
  · exact ⟨⟨e, he, hm⟩, hf⟩
  · cases hm

/-! ### Directory names -/

/-- Every readable metadata file names the directory it is in. -/
def Named (s : Store) : Prop := ∀ e ∈ s, ∀ m, e.saved = some m → m.runID = e.name

theorem Named.load {s : Store} (hs : s.Named) {id : String} {m : Meta} (h : s.load id = some m) :
    m.runID = id := by
  unfold Store.load at h
  split at h
  · obtain ⟨e, he, hm⟩ := Option.bind_eq_some_iff.mp h
    have hname : e.name = id := by simpa using List.find?_some he
    rw [hs e (List.mem_of_find?_eq_some he) m hm, hname]
  · cases h

theorem Named.mkdir {s : Store} (hs : s.Named) (id : String) : (s.mkdir id).Named := by
  unfold Store.mkdir
  split
  · exact hs
  · intro e he m hm
    rcases (List.mem_orderedInsert _).mp he with rfl | he
    · cases hm
    · exact hs e he m hm

theorem Named.writeMeta {s : Store} (hs : s.Named) (m : Meta) : (s.writeMeta m).Named := by
  intro e he m' hm
  obtain ⟨e₀, he₀, rfl⟩ := List.mem_map.mp he
  by_cases hname : e₀.name = m.runID
  · simp only [hname, if_true, Option.some.injEq] at hm ⊢
    rw [← hm]
  · simp only [hname, if_false] at hm ⊢
    exact hs e₀ he₀ m' hm

theorem Named.removeAll {s : Store} (hs : s.Named) (id : String) : (s.removeAll id).Named :=
  fun e he => hs e (List.mem_of_mem_filter he)

theorem Named.update {s : Store} (hs : s.Named) (id : String) (f : Meta → Meta) (ok : Bool) :
    (s.update id f ok).1.Named := by
  unfold Store.update
  split
  · split
    · exact hs.writeMeta _
    · exact hs
  · exact hs

/-! ### What is loaded after an operation -/

theorem load_mkdir (s : Store) (id id' : String) : (s.mkdir id).load id' = s.load id' := by
  have hfind : ∀ s : Store, (∀ e ∈ s, e.name ≠ id) →
      ((List.orderedInsert (fun a b => a.name ≤ b.name) ⟨id, none⟩ s).find?
        (·.name = id')).bind (·.saved) = (s.find? (·.name = id')).bind (·.saved) := by
    intro s hs
    by_cases he : id = id'
    · subst he
      have hnone : s.find? (·.name = id) = none := by simpa using hs
      rw [hnone]
      cases hf : (List.orderedInsert (fun a b => a.name ≤ b.name) ⟨id, none⟩ s).find?
        (·.name = id) with
      | none => rfl
      | some e =>
        rcases (List.mem_orderedInsert _).mp (List.mem_of_find?_eq_some hf) with rfl | hmem
        · rfl
        · have hname : e.name = id := by simpa using List.find?_some hf
          exact absurd hname (hs e hmem)
    · induction s with
      | nil => simp [he]
      | cons e s ih =>
        have ih := ih fun e he => hs e (List.mem_cons_of_mem _ he)
        rw [List.orderedInsert_cons]
        split
        · simp [List.find?_cons, he]
        · by_cases hn : e.name = id'
          · simp [hn]
          · simpa [List.find?_cons, hn] using ih
  unfold mkdir
  split
  · rfl
  · rename_i hany
    unfold load
    rw [hfind s (by simpa using hany)]

theorem load_writeMeta_self {s : Store} {m : Meta} (hv : isValidRunID m.runID = true)
    (hs : s.any (·.name = m.runID) = true) : (s.writeMeta m).load m.runID = some m := by
  obtain ⟨e, he, hname⟩ := List.any_eq_true.mp hs
  have hcomp : ((fun e : RunDir => decide (e.name = m.runID)) ∘ fun e : RunDir =>
      if e.name = m.runID then { e with saved := some m } else e) =
      fun e => decide (e.name = m.runID) := by
    funext e
    by_cases h : e.name = m.runID <;> simp [h]
  obtain ⟨e₀, he₀⟩ := Option.isSome_iff_exists.mp
    (List.find?_isSome.mpr ⟨e, he, hname⟩ : (s.find? (·.name = m.runID)).isSome = true)
  have hname₀ : e₀.name = m.runID := by simpa using List.find?_some he₀
  simp only [load, hv, if_true, writeMeta, List.find?_map, hcomp, he₀, Option.map_some,
    Option.bind_some, hname₀]

theorem load_writeMeta_ne {s : Store} {m : Meta} {id : String} (h : id ≠ m.runID) :
    (s.writeMeta m).load id = s.load id := by
  have hcomp : ((fun e : RunDir => decide (e.name = id)) ∘ fun e : RunDir =>
      if e.name = m.runID then { e with saved := some m } else e) =
      fun e => decide (e.name = id) := by
    funext e
    by_cases h : e.name = m.runID <;> simp [h]
  simp only [load, writeMeta, List.find?_map, hcomp]
  cases hf : s.find? (·.name = id) with
  | none => rfl
  | some e =>
    have hname : e.name = id := by simpa using List.find?_some hf
    have hne : e.name ≠ m.runID := by rwa [hname]
    simp [hne]

theorem load_removeAll_self (s : Store) (id : String) : (s.removeAll id).load id = none := by
  have hnone : (s.removeAll id).find? (·.name = id) = none := by simp [removeAll]
  simp [load, hnone]

theorem load_removeAll_ne {s : Store} {id id' : String} (h : id' ≠ id) :
    (s.removeAll id).load id' = s.load id' := by
  have hfind : (s.removeAll id).find? (·.name = id') = s.find? (·.name = id') := by
    rw [removeAll, List.find?_filter]
    congr 1
    funext e
    by_cases he : e.name = id' <;> simp [he, h]
  rw [load, load, hfind]

/-- An update that goes through is what the run's file says afterwards. -/
theorem load_update_self {s : Store} (hs : s.Named) {id : String} {f : Meta → Meta} {m : Meta}
    (hf : (f m).runID = m.runID) (h : s.load id = some m) :
    s.update id f true = (s.writeMeta (f m), true) ∧ (s.writeMeta (f m)).load id = some (f m) := by
  have hid : (f m).runID = id := hf.trans (hs.load h)
  have hv : isValidRunID id = true := by
    by_contra hv
    simp [load, hv] at h
  have hany : s.any (·.name = id) = true := by
    obtain ⟨e, he, -⟩ := Option.bind_eq_some_iff.mp (by simpa [load, hv] using h)
    have hname : e.name = id := by simpa using List.find?_some he
    exact List.any_eq_true.mpr ⟨e, List.mem_of_find?_eq_some he, by simpa using hname⟩
  refine ⟨by simp [update, h], ?_⟩
  have hload := load_writeMeta_self (m := f m) (s := s) (by rwa [hid]) (by simpa [hid] using hany)
  rwa [hid] at hload

/-- An update leaves the other runs alone. -/
theorem load_update_ne {s : Store} (hs : s.Named) {id id' : String} {f : Meta → Meta}
    (hf : ∀ m, (f m).runID = m.runID) (ok : Bool) (h : id' ≠ id) :
    (s.update id f ok).1.load id' = s.load id' := by
  unfold update
  split
  · rename_i m hm
    split
    · exact load_writeMeta_ne (by rwa [hf, hs.load hm])
    · rfl
  · rfl

/-- What an update does to its own run: nothing, or the change. -/
theorem load_update {s : Store} (hs : s.Named) {id : String} {f : Meta → Meta}
    (hf : ∀ m, (f m).runID = m.runID) (ok : Bool) :
    (s.update id f ok).1.load id = s.load id ∨
      ∃ m, s.load id = some m ∧ (s.update id f ok).1.load id = some (f m) := by
  cases hl : s.load id with
  | none => exact .inl (by simp [update, hl])
  | some m =>
    cases ok with
    | false => exact .inl (by simp [update, hl])
    | true =>
      obtain ⟨hu, hload⟩ := load_update_self hs (hf m) hl
      exact .inr ⟨m, rfl, by rw [hu]; exact hload⟩

theorem mem_mkdir {s : Store} {id : String} {e : RunDir} (h : e ∈ s.mkdir id) :
    e ∈ s ∨ e.name = id := by
  unfold mkdir at h
  split at h
  · exact .inl h
  · rcases (List.mem_orderedInsert _).mp h with rfl | h
    · exact .inr rfl
    · exact .inl h

theorem name_of_mem_writeMeta {s : Store} {m : Meta} {e : RunDir} (h : e ∈ s.writeMeta m) :
    ∃ e₀ ∈ s, e₀.name = e.name := by
  obtain ⟨e₀, he₀, rfl⟩ := List.mem_map.mp h
  exact ⟨e₀, he₀, by split <;> rfl⟩

theorem name_of_mem_update {s : Store} {id : String} {f : Meta → Meta} {ok : Bool} {e : RunDir}
    (h : e ∈ (s.update id f ok).1) : ∃ e₀ ∈ s, e₀.name = e.name := by
  unfold update at h
  split at h
  · split at h
    · exact name_of_mem_writeMeta h
    · exact ⟨e, h, rfl⟩
  · exact ⟨e, h, rfl⟩

end Store

end HaAddons.Runner
