import HaAddons.Lib.StableSort
import HaAddons.Ntfy.Exporter

/-!
# Backups of the database

A backup is named after the clock and its reason; where the name is taken, the stamp moves on, second
by second. After the copy all but the newest backups are deleted, by stamp and name, and the new one
is described.

* `nameParts_backupName` — the names that `create` gives are names of backups.
* `create_survives_iff` — the new backup is there afterwards exactly if fewer backups than are kept
  have names behind its own, or it cannot be deleted.
* `rotated_away` — a backup that was made for a later time is kept, and the new one is gone.
-/

namespace HaAddons.Ntfy

/-! ## Names -/

/-- `%Y%m%dT%H%M%SZ`. Where the year has not four digits, it raises. -/
def stamp (ts : ℤ) : Option String :=
  let date := civil (ts / 86400)
  let secs := ts % 86400
  if 1 ≤ date.1 ∧ date.1 ≤ 9999 then
    some (String.ofList (lastDigits 4 date.1 ++ lastDigits 2 date.2.1 ++ lastDigits 2 date.2.2 ++
      'T' :: (lastDigits 2 (secs / 3600) ++ lastDigits 2 (secs / 60 % 60) ++
        lastDigits 2 (secs % 60)) ++ ['Z']))
  else none

/-- The characters that a reason keeps. -/
def reasonChar (c : Char) : Bool := ('a' ≤ c && c ≤ 'z') || isAsciiDigit c || c = '-'

/-- Every stretch of other characters becomes one `-`; `inside` is set in such a stretch. -/
def subRuns (inside : Bool) : List Char → List Char
  | [] => []
  | c :: cs =>
    if reasonChar c then c :: subRuns false cs
    else if inside then subRuns true cs
    else '-' :: subRuns true cs

/-- `strip("-")` -/
def stripDashes (s : List Char) : List Char :=
  ((s.dropWhile (· = '-')).reverse.dropWhile (· = '-')).reverse

/-- `_clean_reason`; `lower` is `str.lower`. -/
def cleanReason (lower : String → List Char) (reason : String) : List Char :=
  let cleaned := stripDashes ((stripDashes (subRuns false (lower reason))).take 40)
  if cleaned = [] then "manual".toList else cleaned

def namePrefix : List Char := ['a', 'u', 't', 'h', '-']

def nameSuffix : List Char := ['.', 'd', 'b']

def backupName (st : String) (suffix : List Char) : String :=
  String.ofList (namePrefix ++ st.toList ++ '-' :: suffix ++ nameSuffix)

/-- `[0-9]{8}T[0-9]{6}Z` -/
def stampRe (s : List Char) : Bool :=
  s.length = 16 && (s.take 8).all isAsciiDigit && s[8]? = some 'T' &&
    ((s.drop 9).take 6).all isAsciiDigit && s[15]? = some 'Z'

/-- `[a-z0-9-]{1,40}` -/
def reasonRe (s : List Char) : Bool := s ≠ [] && s.length ≤ 40 && s.all reasonChar

/-- `_NAME_PARTS_RE` with `match`, the stamp and the reason; `BACKUP_NAME_RE` accepts the same. -/
def nameParts (name : String) : Option (String × Option String) :=
  let s := unbroken name.toList
  let st := (s.drop 5).take 16
  let rest := s.drop 21
  let reason := (rest.drop 1).take (rest.length - 4)
  if s.take 5 = namePrefix ∧ stampRe st = true then
    if rest = nameSuffix then some (String.ofList st, none)
    else if rest = '-' :: reason ++ nameSuffix ∧ reasonRe reason = true then
      some (String.ofList st, some (String.ofList reason))
    else none
  else none

/-! ## The store -/

/-- What the backup directory has under a name; `other` is a directory, for one. -/
inductive DirEntry where
  | file (size : ℕ)
  | other
  | dangling
  deriving DecidableEq, Repr

abbrev BackupDir := Dict String DirEntry

/-- `exists()`, which follows links. -/
def BackupDir.exists (dir : BackupDir) (name : String) : Bool :=
  match dir.get? name with
  | some (.file _) | some .other => true
  | _ => false

structure Backup where
  name : String
  sizeBytes : ℕ
  created : String
  reason : String
  deriving DecidableEq, Repr

inductive BackupError where
  | api (e : ApiError)
  | other (cls : String)
  deriving DecidableEq, Repr

/-- What a call meets: whether there is a database, what the copy comes to, the clock in whole
seconds, and the files that cannot be unlinked. -/
structure Surroundings where
  db : Bool
  copied : Except BackupError ℕ
  clock : ℤ
  stuck : String → Bool

/-- The store keeps at least one backup. -/
structure BackupStore where
  keep : ℕ
  pos : 1 ≤ keep

/-- `BackupStore(.., keep, ..)` -/
def BackupStore.new (keep : ℤ) : BackupStore := ⟨(max 1 keep).toNat, by omega⟩

/-- The stamp and the name of a backup file. -/
def backupFile (e : String × DirEntry) : Option (String ×ₗ String) :=
  match e.2, nameParts e.1 with
  | .file _, some (st, _) => some (toLex (st, e.1))
  | _, _ => none

def foundFiles (dir : BackupDir) : List (String ×ₗ String) := dir.entries.filterMap backupFile

/-- `_files`, oldest first -/
def backupFiles (dir : BackupDir) : List (String ×ₗ String) :=
  (foundFiles dir).insertionSort fun a b => a ≤ b

/-- `2026-11-02T10:00:00Z` from `20261102T100000Z`. -/
def createdOf (st : String) : String :=
  let s := st.toList
  String.ofList (s.take 4 ++ '-' :: (s.drop 4).take 2 ++ '-' :: (s.drop 6).take 2 ++ 'T' ::
    (s.drop 9).take 2 ++ ':' :: (s.drop 11).take 2 ++ ':' :: (s.drop 13).take 2 ++ ['Z'])

/-- `match` and `_describe` of a file that `create` made. -/
def describe (dir : BackupDir) (name : String) : Except BackupError Backup :=
  match nameParts name, dir.get? name with
  | none, _ => .error (.other "AssertionError")
  | some (st, reason), some (.file size) => .ok ⟨name, size, createdOf st, reason.getD "unknown"⟩
  | _, _ => .error (.other "FileNotFoundError")

/-- One file that is to go. -/
def unlink (stuck : String → Bool) (dir : BackupDir) (file : String ×ₗ String) : BackupDir :=
  let name := (ofLex file).2
  if stuck name then dir else dir.erase name

/-- The last second of the year 9999. -/
def lastMoment : ℤ := 253402300799

/-- The loop for a free name; `fuel` is the number of seconds that are left. -/
def freeName (dir : BackupDir) (suffix : List Char) : ℕ → ℤ → Option String
  | 0, _ => none
  | fuel + 1, moment =>
    match stamp moment with
    | none => none
    | some st =>
      if dir.exists (backupName st suffix) then freeName dir suffix fuel (moment + 1)
      else some (backupName st suffix)

namespace BackupStore

variable (s : BackupStore)

def rotate (stuck : String → Bool) (dir : BackupDir) : BackupDir :=
  let files := backupFiles dir
  (files.take (files.length - s.keep)).foldl (unlink stuck) dir

/-- `create`, and the directory after it. -/
def create (lower : String → List Char) (u : Surroundings) (reason : String) (dir : BackupDir) :
    Except BackupError Backup × BackupDir :=
  if u.db = false then (.error (.api ⟨"db_unavailable", "auth.db does not exist yet"⟩), dir)
  else if stamp u.clock = none then (.error (.other "ValueError"), dir)
  else
    let suffix := cleanReason lower reason
    match freeName dir suffix (lastMoment + 1 - u.clock).toNat u.clock with
    | none => (.error (.other "OverflowError"), dir)
    | some name =>
      match u.copied with
      | .error e => (.error e, dir)
      | .ok size =>
        let after := s.rotate u.stuck (dir.insert name (.file size))
        (describe after name, after)

end BackupStore

/-! ## Names of backups -/

theorem isAsciiDigit_lastDigits {n : ℕ} {x : ℤ} : ∀ c ∈ lastDigits n x, isAsciiDigit c = true := by
  intro c hc
  obtain ⟨i, -, rfl⟩ := List.mem_map.mp hc
  have hall : ∀ d < 10, isAsciiDigit (Nat.digitChar d) = true := by decide
  exact hall _ (Nat.mod_lt _ (by decide))

theorem length_lastDigits (n : ℕ) (x : ℤ) : (lastDigits n x).length = n := by simp [lastDigits]

theorem stampRe_append {a b : List Char} (ha : a.length = 8) (hb : b.length = 6)
    (hda : ∀ c ∈ a, isAsciiDigit c = true) (hdb : ∀ c ∈ b, isAsciiDigit c = true) :
    stampRe (a ++ 'T' :: b ++ ['Z']) = true := by
  rw [List.append_assoc, List.cons_append]
  have hfront : (a ++ 'T' :: (b ++ ['Z'])).take 8 = a := List.take_left' ha
  have hmark : (a ++ 'T' :: (b ++ ['Z']))[8]? = some 'T' := by
    rw [List.getElem?_append_right (by omega), ha]
    rfl
  have hback : (a ++ 'T' :: (b ++ ['Z'])).drop 9 = b ++ ['Z'] := by
    rw [List.drop_append, List.drop_eq_nil_of_le (by omega), ha]
    rfl
  have hend : (a ++ 'T' :: (b ++ ['Z']))[15]? = some 'Z' := by
    rw [List.getElem?_append_right (by omega), ha, List.getElem?_cons_succ,
      List.getElem?_append_right (by omega), hb]
    rfl
  simp only [stampRe, hfront, hmark, hback, hend, List.take_left' hb, Bool.and_eq_true,
    List.all_eq_true, decide_eq_true_eq, List.length_append, List.length_cons, List.length_nil, ha,
    hb]
  exact ⟨⟨⟨⟨trivial, hda⟩, trivial⟩, hdb⟩, trivial⟩

/-- A stamp is eight digits, `T`, six digits and `Z`. -/
theorem stampRe_stamp {ts : ℤ} {st : String} (h : stamp ts = some st) : stampRe st.toList = true := by
  unfold stamp at h
  dsimp only at h
  split_ifs at h
  obtain rfl := Option.some.inj h
  rw [String.toList_ofList]
  refine stampRe_append ?_ ?_ ?_ ?_
  · simp only [List.length_append, length_lastDigits]
  · simp only [List.length_append, length_lastDigits]
  · intro c hc
    simp only [List.mem_append] at hc
    rcases hc with (hc | hc) | hc <;> exact isAsciiDigit_lastDigits c hc
  · intro c hc
    simp only [List.mem_append] at hc
    rcases hc with (hc | hc) | hc <;> exact isAsciiDigit_lastDigits c hc

theorem mem_stripDashes {s : List Char} {c : Char} (h : c ∈ stripDashes s) : c ∈ s := by
  have hrev := List.mem_reverse.mp ((List.dropWhile_sublist _).mem (List.mem_reverse.mp h))
  exact (List.dropWhile_sublist _).mem hrev

theorem length_stripDashes_le (s : List Char) : (stripDashes s).length ≤ s.length := by
  rw [stripDashes, List.length_reverse]
  refine (List.dropWhile_sublist _).length_le.trans ?_
  rw [List.length_reverse]
  exact (List.dropWhile_sublist _).length_le

theorem reasonChar_subRuns (s : List Char) (inside : Bool) :
    ∀ c ∈ subRuns inside s, reasonChar c = true := by
  induction s generalizing inside with
  | nil => exact fun _ hc => nomatch hc
  | cons a s ih =>
    intro c hc
    unfold subRuns at hc
    split_ifs at hc with ha hin
    · rcases List.mem_cons.mp hc with rfl | hc
      · exact ha
      · exact ih false c hc
    · exact ih true c hc
    · rcases List.mem_cons.mp hc with rfl | hc
      · decide
      · exact ih true c hc

/-- Whatever the reason, what is left of it can stand in a name. -/
theorem reasonRe_cleanReason (lower : String → List Char) (reason : String) :
    reasonRe (cleanReason lower reason) = true := by
  unfold cleanReason
  dsimp only
  split_ifs with hempty
  · decide
  · simp only [reasonRe, Bool.and_eq_true, decide_eq_true_eq, List.all_eq_true]
    refine ⟨⟨hempty, ?_⟩, fun c hc => ?_⟩
    · exact (length_stripDashes_le _).trans (List.length_take_le _ _)
    · exact reasonChar_subRuns _ _ c
        (mem_stripDashes (List.mem_of_mem_take (mem_stripDashes hc)))

theorem unbroken_append {s t : List Char} (ht : t ≠ []) (hl : t.getLast? ≠ some '\n') :
    unbroken (s ++ t) = s ++ t :=
  unbroken_of_ne (by rwa [List.getLast?_append_of_ne_nil _ ht])

/-- **A new name is the name of a backup.** -/
theorem nameParts_backupName {st : String} {suffix : List Char} (hst : stampRe st.toList = true)
    (hs : reasonRe suffix = true) :
    nameParts (backupName st suffix) = some (st, some (String.ofList suffix)) := by
  have hlen : st.toList.length = 16 := by
    unfold stampRe at hst
    simp only [Bool.and_eq_true, decide_eq_true_eq] at hst
    exact hst.1.1.1.1
  have hname : unbroken (backupName st suffix).toList =
      namePrefix ++ (st.toList ++ ('-' :: suffix ++ nameSuffix)) := by
    rw [backupName, String.toList_ofList, unbroken_append (by decide) (by decide)]
    simp only [List.append_assoc]
  have hst' : ((namePrefix ++ (st.toList ++ ('-' :: suffix ++ nameSuffix))).drop 5).take 16 =
      st.toList := by
    rw [List.drop_left' (show namePrefix.length = 5 from rfl), List.take_left' hlen]
  have hrest : (namePrefix ++ (st.toList ++ ('-' :: suffix ++ nameSuffix))).drop 21 =
      '-' :: suffix ++ nameSuffix := by
    rw [← List.append_assoc]
    exact List.drop_left' (by rw [List.length_append, hlen]; rfl)
  have hreason : (('-' :: suffix ++ nameSuffix).drop 1).take
      (('-' :: suffix ++ nameSuffix).length - 4) = suffix := by
    rw [List.cons_append, List.drop_one, List.tail_cons]
    exact List.take_left' (by simp [nameSuffix])
  unfold nameParts
  dsimp only
  rw [hname, hst', hrest, hreason, if_pos ⟨rfl, hst⟩, if_neg (by simp [nameSuffix]), if_pos ⟨rfl, hs⟩,
    String.ofList_toList]

/-! ## The free name -/

/-- The day 2932897 is the first of the year 10000. -/
theorem le_civil {d : ℤ} (h : 2932897 ≤ d) : 10000 ≤ (civil d).1 := by
  unfold civil
  dsimp only
  obtain ⟨era, hera⟩ : ∃ era, (d + 719468) / 146097 = era := ⟨_, rfl⟩
  obtain ⟨day, hday⟩ : ∃ day, (d + 719468) % 146097 = day := ⟨_, rfl⟩
  have hrange : 0 ≤ day ∧ day < 146097 := by omega
  rw [hera, hday]
  by_cases hlate : 25 ≤ era
  · have hyear : 0 ≤ (day - day / 1460 + day / 36524 - day / 146096) / 365 := by omega
    split_ifs <;> omega
  · -- the last days of the last era belong to the year that begins in January
    have hday' : era = 24 ∧ 146037 ≤ day := by omega
    have hfour : day / 1460 = 100 := by omega
    have hcentury : day / 36524 - day / 146096 = 3 := by omega
    have hyear : (day - day / 1460 + day / 36524 - day / 146096) / 365 = 399 := by omega
    have hquarter : (399 : ℤ) / 4 = 99 ∧ (399 : ℤ) / 100 = 3 := by decide
    rw [hyear, hquarter.1, hquarter.2]
    split_ifs <;> omega

/-- The year of a moment that has a stamp has four digits. -/
theorem le_lastMoment {ts : ℤ} {st : String} (h : stamp ts = some st) : ts ≤ lastMoment := by
  by_contra hlate
  have hdays : 2932897 ≤ ts / 86400 := by
    unfold lastMoment at hlate
    omega
  have hlarge := le_civil hdays
  unfold stamp at h
  dsimp only at h
  rw [if_neg (by omega)] at h
  cases h

/-- The first moment from the clock on whose name is free. -/
structure FirstFree (dir : BackupDir) (suffix : List Char) (clock moment : ℤ) (st : String) :
    Prop where
  le : clock ≤ moment
  stamp : stamp moment = some st
  free : dir.exists (backupName st suffix) = false
  taken : ∀ t, clock ≤ t → t < moment →
    ∃ st', Ntfy.stamp t = some st' ∧ dir.exists (backupName st' suffix) = true

theorem freeName_eq {dir : BackupDir} {suffix : List Char} {moment : ℤ} {st : String} (fuel : ℕ)
    {clock : ℤ} (h : FirstFree dir suffix clock moment st) (hfuel : moment < clock + fuel) :
    freeName dir suffix fuel clock = some (backupName st suffix) := by
  induction fuel generalizing clock with
  | zero =>
    have := h.le
    omega
  | succ fuel ih =>
    unfold freeName
    rcases h.le.eq_or_lt with rfl | hlt
    · simp [h.stamp, h.free]
    · obtain ⟨st', hst, htaken⟩ := h.taken clock le_rfl hlt
      simp only [hst, htaken, if_true]
      refine ih ⟨by omega, h.stamp, h.free, fun t ht => h.taken t (by omega)⟩ ?_
      push_cast at hfuel
      omega

/-- The seconds until the end of the year 9999 are enough. -/
theorem freeName_of_firstFree {dir : BackupDir} {suffix : List Char} {clock moment : ℤ}
    {st : String} (h : FirstFree dir suffix clock moment st) :
    freeName dir suffix (lastMoment + 1 - clock).toNat clock = some (backupName st suffix) := by
  refine freeName_eq _ h ?_
  have hlast := le_lastMoment h.stamp
  have hle := h.le
  omega

/-! ## The rotation -/

section Rotation

variable {dir : BackupDir} {name st : String} {reason : Option String}

theorem mem_foundFiles {f : String ×ₗ String} :
    f ∈ foundFiles dir ↔ ∃ size reason,
      dir.get? (ofLex f).2 = some (.file size) ∧ nameParts (ofLex f).2 = some ((ofLex f).1, reason) := by
  constructor
  · intro h
    obtain ⟨⟨n, e⟩, he, hf⟩ := List.mem_filterMap.mp h
    have hget := Dict.mem_entries.mp he
    cases e with
    | other | dangling => cases hf
    | file size =>
      cases hn : nameParts n with
      | none => simp [backupFile, hn] at hf
      | some parts =>
        simp only [backupFile, hn, Option.some.injEq] at hf
        subst hf
        exact ⟨size, parts.2, hget, hn⟩
  · rintro ⟨size, reason, hget, hn⟩
    refine List.mem_filterMap.mpr ⟨((ofLex f).2, .file size), Dict.mem_entries.mpr hget, ?_⟩
    simp only [backupFile, hn]
    rfl

theorem nodup_foundFiles (dir : BackupDir) : (foundFiles dir).Nodup := by
  have hentries : dir.entries.Pairwise fun a b => a.1 ≠ b.1 := List.pairwise_map.mp dir.nodup
  refine hentries.filterMap backupFile fun a b hab f hf f' hf' heq => hab ?_
  have hname : ∀ {e : String × DirEntry} {f : String ×ₗ String}, backupFile e = some f →
      (ofLex f).2 = e.1 := by
    rintro ⟨n, e⟩ f hf
    unfold backupFile at hf
    split at hf
    · obtain rfl := Option.some.inj hf
      rfl
    · cases hf
  rw [← hname hf, ← hname hf', heq]

/-- The files with the new one. -/
theorem foundFiles_insert (size : ℕ) (hfree : dir.exists name = false)
    (hn : nameParts name = some (st, reason)) :
    (foundFiles (dir.insert name (.file size))).Perm (toLex (st, name) :: foundFiles dir) := by
  have hnot : ∀ size, dir.get? name ≠ some (.file size) := by
    intro size hget
    simp [BackupDir.exists, hget] at hfree
  have hnew : toLex (st, name) ∉ foundFiles dir := by
    intro h
    obtain ⟨size, _, hget, -⟩ := mem_foundFiles.mp h
    exact hnot size hget
  refine (List.perm_ext_iff_of_nodup (nodup_foundFiles _)
    (List.nodup_cons.mpr ⟨hnew, nodup_foundFiles _⟩)).mpr fun f => ?_
  rw [List.mem_cons, mem_foundFiles, mem_foundFiles, Dict.get?_insert]
  by_cases hf : (ofLex f).2 = name
  · constructor
    · rintro ⟨_, _, -, hparts⟩
      rw [hf, hn, Option.some.injEq, Prod.mk.injEq] at hparts
      exact .inl (Prod.ext hparts.1.symm hf)
    · rintro (rfl | ⟨size, _, hget, -⟩)
      · exact ⟨size, reason, if_pos rfl, hn⟩
      · exact absurd (hf ▸ hget) (hnot size)
  · rw [if_neg hf]
    constructor
    · exact .inr
    · rintro (rfl | h)
      · exact absurd rfl hf
      · exact h

theorem get?_unlink_foldl (stuck : String → Bool) (files : List (String ×ₗ String)) :
    (files.foldl (unlink stuck) dir).get? name =
      if name ∈ files.map (fun f => (ofLex f).2) ∧ stuck name = false then none
      else dir.get? name := by
  induction files generalizing dir with
  | nil => simp
  | cons f files ih =>
    rw [List.foldl_cons, ih]
    have hfirst : (unlink stuck dir f).get? name =
        if name = (ofLex f).2 ∧ stuck name = false then none else dir.get? name := by
      unfold unlink
      dsimp only
      by_cases hs : stuck (ofLex f).2 = true
      · rw [if_pos hs, if_neg]
        rintro ⟨rfl, hfalse⟩
        rw [hs] at hfalse
        cases hfalse
      · rw [if_neg hs, Dict.get?_erase]
        by_cases hname : name = (ofLex f).2
        · subst hname
          simp [Bool.eq_false_of_not_eq_true hs]
        · simp [hname]
    simp only [hfirst, List.map_cons, List.mem_cons]
    by_cases hm : name ∈ files.map fun f => (ofLex f).2
    · by_cases hs : stuck name = false <;> simp [hs, hm]
    · simp [hm]

end Rotation

/-! ## The new backup -/

namespace BackupStore

variable (s : BackupStore)

/-- `create` returns the description of a file that is there afterwards. -/
def Survives (lower : String → List Char) (u : Surroundings) (reason : String)
    (dir : BackupDir) : Prop :=
  ∃ b size, (s.create lower u reason dir).1 = .ok b ∧
    (s.create lower u reason dir).2.get? b.name = some (.file size)

/-- Fewer backups than are kept have a later stamp, or the same stamp and a name behind this one. -/
def Newest (dir : BackupDir) (st name : String) : Prop :=
  (foundFiles dir).countP (fun f => toLex (st, name) < f) < s.keep

instance (dir : BackupDir) (st name : String) : Decidable (s.Newest dir st name) :=
  inferInstanceAs (Decidable (_ < _))

variable {dir : BackupDir} {name st : String} {reason : Option String}

/-- The rotation after the copy deletes the new file exactly if enough files are behind it. -/
theorem get?_rotate (s : BackupStore) (stuck : String → Bool) (size : ℕ)
    (hfree : dir.exists name = false) (hn : nameParts name = some (st, reason)) :
    (s.rotate stuck (dir.insert name (.file size))).get? name =
      if s.Newest dir st name ∨ stuck name = true then some (.file size) else none := by
  have hperm := foundFiles_insert size hfree hn
  have hlength : (backupFiles (dir.insert name (.file size))).length =
      (foundFiles (dir.insert name (.file size))).length := List.length_insertionSort _ _
  have htake : toLex (st, name) ∈ (backupFiles (dir.insert name (.file size))).take
      ((backupFiles (dir.insert name (.file size))).length - s.keep) ↔ ¬ s.Newest dir st name := by
    rw [hlength, backupFiles, mem_take_insertionSort (nodup_foundFiles _)
      (hperm.mem_iff.mpr List.mem_cons_self), hperm.countP_eq, List.countP_cons, if_neg (by simp),
      Newest, not_lt, Nat.add_zero]
  have hnames : name ∈ ((backupFiles (dir.insert name (.file size))).take
      ((backupFiles (dir.insert name (.file size))).length - s.keep)).map (fun f => (ofLex f).2) ↔
        ¬ s.Newest dir st name := by
    rw [← htake, List.mem_map]
    constructor
    · rintro ⟨f, hf, hname⟩
      -- of one name there is one file
      have hfound : f ∈ foundFiles (dir.insert name (.file size)) :=
        (List.mem_insertionSort _).mp (List.mem_of_mem_take hf)
      obtain ⟨_, _, -, hparts⟩ := mem_foundFiles.mp hfound
      rw [hname, hn, Option.some.injEq, Prod.mk.injEq] at hparts
      exact (Prod.ext hparts.1.symm hname : ofLex f = (st, name)) ▸ hf
    · exact fun h => ⟨_, h, rfl⟩
  unfold rotate
  dsimp only
  rw [get?_unlink_foldl, Dict.get?_insert, if_pos rfl]
  by_cases hs : stuck name = true
  · simp [hs]
  · by_cases hnew : s.Newest dir st name
    · rw [if_neg (fun h => hnames.mp h.1 hnew), if_pos (.inl hnew)]
    · rw [if_pos ⟨hnames.mpr hnew, Bool.eq_false_of_not_eq_true hs⟩,
        if_neg (not_or.mpr ⟨hnew, hs⟩)]

/-- **When a backup survives its rotation.** The copy has succeeded under the first free name. -/
theorem create_survives_iff (s : BackupStore) (lower : String → List Char) (u : Surroundings)
    (reason : String) (dir : BackupDir) (size : ℕ) (moment : ℤ) (st : String) (hdb : u.db = true)
    (hcopied : u.copied = .ok size)
    (hfree : FirstFree dir (cleanReason lower reason) u.clock moment st) :
    s.Survives lower u reason dir ↔
      s.Newest dir st (backupName st (cleanReason lower reason)) ∨
        u.stuck (backupName st (cleanReason lower reason)) = true := by
  have hclock : stamp u.clock ≠ none := by
    rcases hfree.le.eq_or_lt with heq | hlt
    · rw [heq, hfree.stamp]
      exact Option.some_ne_none _
    · obtain ⟨st', hst, -⟩ := hfree.taken _ le_rfl hlt
      rw [hst]
      exact Option.some_ne_none _
  have hn := nameParts_backupName (stampRe_stamp hfree.stamp) (reasonRe_cleanReason lower reason)
  have hget := get?_rotate s u.stuck size hfree.free hn
  unfold Survives create
  simp only [hdb, Bool.true_eq_false, if_false, if_neg hclock, freeName_of_firstFree hfree, hcopied]
  by_cases h : s.Newest dir st (backupName st (cleanReason lower reason)) ∨
      u.stuck (backupName st (cleanReason lower reason)) = true
  · rw [if_pos h] at hget
    simp only [describe, hn, hget, iff_true, h]
    exact ⟨_, size, rfl, hget⟩
  · rw [if_neg h] at hget
    simp only [describe, hn, hget, h, iff_false]
    rintro ⟨_, _, hok, -⟩
    cases hok

/-- A clock that was set back: the backup of a later day is there. -/
def setBack : Surroundings := ⟨true, .ok 4096, 1793613600, fun _ => false⟩

def laterDay : BackupDir :=
  Dict.empty.insert "auth-20300101T000000Z-daily.db" (.file 4096)

def keepOne : BackupStore := ⟨1, le_rfl⟩

def keepTwo : BackupStore := ⟨2, by decide⟩

theorem firstFree_setBack :
    FirstFree laterDay (cleanReason String.toList "user-delete") setBack.clock 1793613600
      "20261102T100000Z" where
  le := le_rfl
  stamp := by decide +kernel
  free := by decide +kernel
  taken t ht hlt := absurd hlt (not_lt.mpr ht)

/-- **The new backup is rotated away**, and its description cannot be read. -/
theorem rotated_away : ¬ keepOne.Survives String.toList setBack "user-delete" laterDay := by
  rintro ⟨b, size, hok, -⟩
  have hresult : (keepOne.create String.toList setBack "user-delete" laterDay).1 =
      .error (.other "FileNotFoundError") := by decide +kernel
  rw [hresult] at hok
  cases hok

theorem survives_setBack : keepTwo.Survives String.toList setBack "user-delete" laterDay :=
  (create_survives_iff keepTwo String.toList setBack "user-delete" laterDay 4096 1793613600
    "20261102T100000Z" rfl rfl firstFree_setBack).mpr (.inl (by decide +kernel))

end BackupStore

end HaAddons.Ntfy
