import HaAddons.Lib.Json
import HaAddons.SecretsSync.NextMap
import Mathlib.Data.List.DropRight

/-!
# The Bitwarden provider

Secure notes become files below `notes_dir`. The option is checked by `validate`, the name of a note
is sanitised, and the path that is put together from both has to pass `safe_relpath`.

* `build` — one snapshot from the listed items, after `_build`.
* `placeable_iff` — with a configuration that passes `validate`, the writer can take the files of a
  snapshot exactly when there are none, or `notes_dir` has no empty or `.` segment and no NUL, and no
  name of an exported note has a NUL.

The session with the `bw` command only decides which items are listed. The revision and the notices
are left out.
-/

namespace HaAddons.SecretsSync.Bitwarden

/-! ## The configuration -/

/-- The options, as strings; an unset one is empty or has its default. -/
structure Options where
  serverUrl : String := ""
  clientId : String := ""
  clientSecret : String := ""
  masterPassword : String := ""
  keyStyle : String := "legacy"
  notesDir : String := "bitwarden"

/-- `_CRED_ENV`: the option with its name, the variable, and the code of the problem. -/
def credEnv : List ((Options → String) × String × String × String) :=
  [(Options.clientId, "client_id", "BW_CLIENTID", "bw_missing_client_id"),
    (Options.clientSecret, "client_secret", "BW_CLIENTSECRET", "bw_missing_client_secret"),
    (Options.masterPassword, "master_password", "BW_PASSWORD", "bw_missing_master_password")]

/-- The problem of `notes_dir`. -/
def validateNotesDir (notesDir : String) : List Problem :=
  if notesDir.toList.head? = some '/' ∨ '\\' ∈ notesDir.toList ∨ ".." ∈ splitSlash notesDir then
    [⟨"bw_invalid_notes_dir", "bitwarden.notes_dir must be a relative path", .error⟩]
  else []

/-- `validate`; `environ` gives an empty string for an unset variable. -/
def validate (environ : String → String) (cfg : Options) : List Problem :=
  (if ["https://", "http://"].any fun scheme => scheme.toList <+: cfg.serverUrl.toList then []
    else [⟨"bw_invalid_server_url", "bitwarden.server_url must be an http(s) URL", .error⟩]) ++
  (credEnv.filterMap fun e =>
    if e.1 cfg = "" ∧ environ e.2.2.1 = "" then
      some ⟨e.2.2.2, "bitwarden." ++ e.2.1 ++ " is not set", .error⟩
    else none) ++
  (if cfg.keyStyle ≠ "legacy" then
    [⟨"bw_unsupported_key_style", "bitwarden.key_style must be 'legacy'", .error⟩] else []) ++
  validateNotesDir cfg.notesDir

/-! ## Names -/

/-- What is Python's own: `str`, `strip` and `lower`, and whether a number literal is a number. -/
structure Python where
  str : Json → String
  strip : String → String
  lower : String → String
  isNum : String → ℕ → Bool

/-- `str.translate(_TR_SPACE)`. -/
def trSpace (c : Char) : Char := if c ∈ "?:&,%@-".toList then ' ' else c

def trUnderscore (c : Char) : Char := if c ∈ "[]\x7b\x7d#*!|> ".toList then '_' else c

/-- `re.sub(r"_+", "_", text)`. -/
def squeeze : List Char → List Char
  | [] => []
  | c :: rest => if c = '_' ∧ rest.head? = some '_' then squeeze rest else c :: squeeze rest

/-- Legacy key naming. -/
def sanitise (py : Python) (name : String) : String :=
  py.lower (String.ofList (squeeze (name.toList.map fun c => trUnderscore (trSpace c))))

/-- `os.path.splitext(path)[1]`: from the last dot of the name on, unless only dots are before it. -/
def extension (path : List Char) : List Char :=
  let name := (path.reverse.takeWhile (· ≠ '/'))
  let suffix := name.takeWhile (· ≠ '.')
  let stem := name.drop (suffix.length + 1)
  if '.' ∈ name ∧ stem.any (· ≠ '.') then '.' :: suffix.reverse else []

/-- The file name of a note. -/
def noteFile (py : Python) (name : String) : List Char :=
  let fname := (sanitise py name).toList.map fun c => if c = '/' ∨ c = '\\' then '_' else c
  if extension fname = [] then fname ++ ['.', 't', 'x', 't'] else fname

/-- `notes_dir.strip("/")`. -/
def stripSlashes (s : String) : List Char :=
  (s.toList.dropWhile (· = '/')).rdropWhile (· = '/')

/-- The path of a note. -/
def notePath (py : Python) (cfg : Options) (name : String) : String :=
  let dir := stripSlashes cfg.notesDir
  String.ofList (if dir = [] then noteFile py name else dir ++ '/' :: noteFile py name)

/-! ## The mapping -/

/-- `ProviderError`, or another exception of a class. -/
inductive Failure where
  | provider (code message : String)
  | unexpected (cls : String)
  deriving DecidableEq, Repr

/-- What `_build` collects. -/
structure Build where
  secrets : Dict String String := .empty
  files : Dict String Bytes := .empty
  owners : Dict String String := .empty
  fileOwners : Dict String String := .empty

/-- `d.get(key)` of a decoded object: the last entry counts. -/
def get (fields : List (String × Json)) (key : String) : Json :=
  ((fields.reverse.find? (·.1 = key)).map Prod.snd).getD .null

section Mapping

variable (py : Python)

/-- `bool(value)`. -/
def truthy : Json → Bool
  | .null => false
  | .bool b => b
  | .num text => !py.isNum text 0
  | .str s => s ≠ ""
  | .arr elems => !elems.isEmpty
  | .obj fields => !fields.isEmpty

/-- `value == n`; in Python `True == 1`. -/
def isKind (n : ℕ) : Json → Bool
  | .num text => py.isNum text n
  | .bool b => b.toNat = n
  | _ => false

/-- `value or {}`, on which `get` is called next. -/
def orDict (value : Json) : Except Failure (List (String × Json)) :=
  if truthy py value then
    match value with
    | .obj fields => .ok fields
    | _ => .error (.unexpected "AttributeError")
  else .ok []

/-- `for x in value or []`. -/
def orList (value : Json) : Except Failure (List Json) :=
  if truthy py value then
    match value with
    | .arr elems => .ok elems
    | .obj fields => .ok (fields.map fun e => .str e.1)
    | .str s => .ok (s.toList.map fun c => .str (String.singleton c))
    | _ => .error (.unexpected "TypeError")
  else .ok []

/-- `_export_private`. -/
def exportPrivate (item : List (String × Json)) : Except Failure Bool := do
  let fields ← orList py (get item "fields")
  pure (fields.any fun fld =>
    match fld with
    | .obj entries =>
      let text := fun key => py.lower (py.strip
        (if key ∈ entries.map Prod.fst then py.str (get entries key) else ""))
      text "name" = "secrets_sync_export_private_key" && text "value" = "true"
    | _ => false)

/-- `put`. -/
def put (itemName key : String) (value : Json) (b : Build) : Except Failure Build :=
  match value with
  | .null | .str "" => .ok b
  | value =>
    match b.owners.get? key with
    | some owner =>
      .error (.provider "key_collision"
        ("key '" ++ key ++ "' produced by items '" ++ owner ++ "' and '" ++ itemName ++ "'"))
    | none => .ok { b with
        owners := b.owners.insert key itemName
        secrets := b.secrets.insert key (py.str value) }

/-- A login item. -/
def putLogin (itemName base : String) (item : List (String × Json)) (b : Build) :
    Except Failure Build := do
  let login ← orDict py (get item "login")
  let b ← put py itemName (base ++ "_username") (get login "username") b
  let b ← put py itemName (base ++ "_password") (get login "password") b
  let b ← put py itemName (base ++ "_notes") (get item "notes") b
  let uris ← orList py (get login "uris")
  let uris := uris.filterMap fun u =>
    match u with
    | .obj fields => some (get fields "uri")
    | _ => none
  let b ← (uris.zipIdx 1).foldlM
    (fun b e => put py itemName (base ++ "_uri_" ++ toString e.2) e.1 b) b
  let fields ← orList py (get item "fields")
  fields.foldlM (fun b fld =>
    match fld with
    | .obj entries =>
      match get entries "name" with
      | .str name => put py itemName (base ++ "_" ++ sanitise py name) (get entries "value") b
      | _ => .ok b
    | _ => .ok b) b

/-- A secure note. -/
def putNote (cfg : Options) (itemName : String) (item : List (String × Json)) (b : Build) :
    Except Failure Build :=
  let note := get item "notes"
  if truthy py note then
    let path := notePath py cfg itemName
    match b.fileOwners.get? path with
    | some owner =>
      .error (.provider "key_collision"
        ("file '" ++ path ++ "' produced by notes '" ++ owner ++ "' and '" ++ itemName ++ "'"))
    | none => .ok { b with
        fileOwners := b.fileOwners.insert path itemName
        files := b.files.insert path (py.str note).toUTF8.data.toList }
  else .ok b

/-- An SSH key. -/
def putSshKey (itemName base : String) (item : List (String × Json)) (b : Build) :
    Except Failure Build := do
  let ssh ← orDict py (get item "sshKey")
  let b ← put py itemName (base ++ "_public_key") (get ssh "publicKey") b
  if ← exportPrivate py item then
    put py itemName (base ++ "_private_key") (get ssh "privateKey") b
  else pure b

/-- One item. -/
def buildItem (cfg : Options) (b : Build) (item : Json) : Except Failure Build :=
  match item with
  | .obj fields =>
    match get fields "name" with
    | .str itemName =>
      let base := sanitise py itemName
      let kind := get fields "type"
      if isKind py 1 kind then putLogin py itemName base fields b
      else if isKind py 2 kind then putNote py cfg itemName fields b
      else if isKind py 5 kind then putSshKey py itemName base fields b
      else .ok b
    | _ => .ok b
  | _ => .ok b

def build (cfg : Options) (items : List Json) : Except Failure Snapshot := do
  let b ← items.foldlM (buildItem py cfg) {}
  pure ⟨b.secrets, b.files⟩

/-- The items that are neither archived nor trashed. -/
def active (items : List Json) : List Json :=
  items.filter fun item =>
    match item with
    | .obj fields => !(truthy py (get fields "archivedDate") || truthy py (get fields "deletedDate"))
    | _ => true

/-- A fetch, once `bw list items` has answered. -/
def fetched (cfg : Options) (items : List Json) : Except Failure Snapshot :=
  build py cfg (active py items)

end Mapping

/-! ## Which paths the writer takes -/

/-- A segment that `safe_relpath` refuses. -/
def Odd (seg : List Char) : Prop := seg = [] ∨ seg = ['.'] ∨ seg = ['.', '.']

theorem safeRelpath_ofList (cs : List Char) :
    safeRelpath (String.ofList cs) ≠ none ↔
      cs ≠ [] ∧ cs.head? ≠ some '/' ∧ '\\' ∉ cs ∧ '\x00' ∉ cs ∧ ∀ seg ∈ cs.splitOn '/', ¬ Odd seg := by
  have hseg : ∀ seg : List Char, (String.ofList seg = "" ∨ String.ofList seg = ".") ∨
      String.ofList seg = ".." ↔ Odd seg := by
    intro seg
    have hdot : String.ofList seg = "." ↔ seg = ['.'] := String.ofList_inj
    have hdots : String.ofList seg = ".." ↔ seg = ['.', '.'] := String.ofList_inj
    have hempty : String.ofList seg = "" ↔ seg = [] := String.ofList_inj
    rw [hdot, hdots, hempty, Odd, or_assoc]
  unfold safeRelpath splitSlash
  simp only [String.toList_ofList]
  split_ifs with hchars hany
  · simp only [ne_eq, not_true_eq_false, false_iff]
    tauto
  · simp only [List.any_map, List.any_eq_true, Function.comp_apply, Bool.or_eq_true,
      decide_eq_true_eq, hseg] at hany
    obtain ⟨seg, hmem, hodd⟩ := hany
    simp only [ne_eq, not_true_eq_false, false_iff]
    exact fun h => h.2.2.2.2 seg hmem hodd
  · simp only [List.any_map, List.any_eq_true, Function.comp_apply, Bool.or_eq_true,
      decide_eq_true_eq, hseg, not_exists, not_and] at hany
    simp only [ne_eq, reduceCtorEq, not_false_eq_true, true_iff]
    tauto

/-- The segments of a safe path. -/
theorem splitSlash_of_safe {rel : String} {p : Path} (h : safeRelpath rel = some p) :
    p = splitSlash rel := by
  simp only [safeRelpath] at h
  split_ifs at h
  exact (Option.some.inj h).symm

/-! ### The name of the file -/

/-- A character that no sanitiser touches. -/
theorem mem_squeeze {c : Char} (hc : c ≠ '_') {cs : List Char} : c ∈ squeeze cs ↔ c ∈ cs := by
  induction cs with
  | nil => simp [squeeze]
  | cons d rest ih =>
    rw [squeeze]
    split_ifs with h
    · rw [ih, List.mem_cons, h.1]
      simp [hc]
    · rw [List.mem_cons, List.mem_cons, ih]

theorem nul_sanitise {py : Python}
    (hlower : ∀ s, '\x00' ∈ (py.lower s).toList ↔ '\x00' ∈ s.toList) (name : String) :
    '\x00' ∈ (sanitise py name).toList ↔ '\x00' ∈ name.toList := by
  have htr : ∀ c, trUnderscore (trSpace c) = '\x00' ↔ c = '\x00' := by
    intro c
    unfold trUnderscore trSpace
    split_ifs with h h' h'
    · simp
      rintro rfl
      exact absurd h (by decide)
    · simp
      rintro rfl
      exact absurd h (by decide)
    · simp
      rintro rfl
      exact absurd h' (by decide)
    · exact Iff.rfl
  rw [sanitise, hlower, String.toList_ofList, mem_squeeze (by decide), List.mem_map]
  simp [htr]

/-- A name with an extension has more than dots. -/
theorem extension_ne_nil {cs : List Char} (h : extension cs ≠ []) : ∃ c ∈ cs, c ≠ '.' := by
  unfold extension at h
  simp only [ne_eq, ite_eq_right_iff, reduceCtorEq, imp_false, not_not] at h
  obtain ⟨c, hc, hne⟩ := List.any_eq_true.mp h.2
  have hmem : c ∈ cs.reverse := (List.takeWhile_sublist _).subset (List.mem_of_mem_drop hc)
  exact ⟨c, List.mem_reverse.mp hmem, by simpa using hne⟩

/-- The file of a note is a name, without a separator and not made of dots only. -/
theorem noteFile_spec (py : Python) (name : String) :
    '/' ∉ noteFile py name ∧ '\\' ∉ noteFile py name ∧ ¬ Odd (noteFile py name) ∧
      ((∀ s, '\x00' ∈ (py.lower s).toList ↔ '\x00' ∈ s.toList) →
        ('\x00' ∈ noteFile py name ↔ '\x00' ∈ name.toList)) := by
  generalize hf : (sanitise py name).toList.map
    (fun c => if c = '/' ∨ c = '\\' then '_' else c) = fname
  have hsep : ∀ c, c = '/' ∨ c = '\\' → c ∉ fname := by
    rintro c hc hmem
    rw [← hf] at hmem
    obtain ⟨d, -, hd⟩ := List.mem_map.mp hmem
    split_ifs at hd with h
    · subst hd
      revert hc
      decide
    · exact h (hd ▸ hc)
  have hnul : (∀ s, '\x00' ∈ (py.lower s).toList ↔ '\x00' ∈ s.toList) →
      ('\x00' ∈ fname ↔ '\x00' ∈ name.toList) := by
    intro hlower
    rw [← nul_sanitise hlower, ← hf, List.mem_map]
    constructor
    · rintro ⟨d, hd, heq⟩
      split_ifs at heq
      · exact absurd heq (by decide)
      · exact heq ▸ hd
    · exact fun h => ⟨_, h, by decide⟩
  have hodd : ∀ cs : List Char, (∃ c ∈ cs, c ≠ '.') → ¬ Odd cs := by
    rintro cs ⟨c, hc, hne⟩ (rfl | rfl | rfl) <;> simp at hc <;> exact hne hc
  have htxt : ∀ c ∈ ['.', 't', 'x', 't'], c ≠ '/' ∧ c ≠ '\\' ∧ c ≠ '\x00' := by simp
  have hnote : noteFile py name =
      if extension fname = [] then fname ++ ['.', 't', 'x', 't'] else fname := by
    rw [← hf]
    rfl
  rw [hnote]
  split_ifs with hext
  · refine ⟨fun h => ?_, fun h => ?_, hodd _ ⟨'t', by simp, by decide⟩, fun hlower => ?_⟩
    · rcases List.mem_append.mp h with h | h
      · exact hsep _ (.inl rfl) h
      · exact (htxt _ h).1 rfl
    · rcases List.mem_append.mp h with h | h
      · exact hsep _ (.inr rfl) h
      · exact (htxt _ h).2.1 rfl
    · rw [List.mem_append, hnul hlower]
      exact or_iff_left fun h => (htxt _ h).2.2 rfl
  · exact ⟨hsep _ (.inl rfl), hsep _ (.inr rfl), hodd _ (extension_ne_nil hext), hnul⟩

/-! ### The directory -/

/-- The rest of the slashes are at the end, where the option does not begin with one. -/
theorem stripSlashes_spec {dir : String} (h : dir.toList.head? ≠ some '/') :
    ∃ slashes, dir.toList = stripSlashes dir ++ slashes ∧ ∀ c ∈ slashes, c = '/' := by
  have hdrop : dir.toList.dropWhile (· = '/') = dir.toList := by
    cases hcs : dir.toList with
    | nil => rfl
    | cons c cs =>
      have hc : c ≠ '/' := by simpa [hcs] using h
      rw [List.dropWhile_cons_of_neg (by simpa using hc)]
  refine ⟨dir.toList.rtakeWhile (· = '/'), ?_, fun c hc => ?_⟩
  · rw [stripSlashes, hdrop, List.rdropWhile_append_rtakeWhile]
  · simpa using List.mem_rtakeWhile_imp hc

/-- What `validate` makes sure of. -/
theorem dir_of_validate {environ : String → String} {cfg : Options}
    (h : ∀ p ∈ validate environ cfg, p.severity ≠ .error) :
    (stripSlashes cfg.notesDir).head? ≠ some '/' ∧ '\\' ∉ stripSlashes cfg.notesDir ∧
      ['.', '.'] ∉ (stripSlashes cfg.notesDir).splitOn '/' := by
  have hdir : ¬ (cfg.notesDir.toList.head? = some '/' ∨ '\\' ∈ cfg.notesDir.toList ∨
      ".." ∈ splitSlash cfg.notesDir) := by
    intro hbad
    refine h ⟨"bw_invalid_notes_dir", "bitwarden.notes_dir must be a relative path", .error⟩ ?_ rfl
    refine List.mem_append_right _ ?_
    rw [validateNotesDir, if_pos hbad]
    exact List.mem_singleton_self _
  rw [not_or, not_or] at hdir
  obtain ⟨hhead, hback, hdots⟩ := hdir
  obtain ⟨slashes, heq, hslashes⟩ := stripSlashes_spec hhead
  refine ⟨fun hc => ?_, fun hc => ?_, fun hc => ?_⟩
  · rw [heq, List.head?_append, hc] at hhead
    exact hhead rfl
  · exact hback (heq ▸ List.mem_append_left _ hc)
  · refine hdots (List.mem_map.mpr ⟨['.', '.'], ?_, rfl⟩)
    rw [heq]
    cases slashes with
    | nil => simpa using hc
    | cons c rest =>
      obtain rfl := hslashes c (by simp)
      rw [List.splitOn_append_cons_self]
      exact List.mem_append_left _ hc

/-- `notes_dir` is empty or a path that the writer takes, but for what `validate` checks. -/
def DirOk (cfg : Options) : Prop :=
  stripSlashes cfg.notesDir = [] ∨ '\x00' ∉ stripSlashes cfg.notesDir ∧
    ∀ seg ∈ (stripSlashes cfg.notesDir).splitOn '/', seg ≠ [] ∧ seg ≠ ['.']

/-- **One note.** Its path is safe exactly when the directory is and its name has no NUL. -/
theorem notePath_safe {environ : String → String} {py : Python} {cfg : Options} {name : String}
    (hlower : ∀ s, '\x00' ∈ (py.lower s).toList ↔ '\x00' ∈ s.toList)
    (h : ∀ p ∈ validate environ cfg, p.severity ≠ .error) :
    safeRelpath (notePath py cfg name) ≠ none ↔ DirOk cfg ∧ '\x00' ∉ name.toList := by
  obtain ⟨hhead, hback, hdots⟩ := dir_of_validate h
  obtain ⟨hslash, hfback, hodd, hnul⟩ := noteFile_spec py name
  have hsplit : (noteFile py name).splitOn '/' = [noteFile py name] :=
    List.splitOn_eq_singleton hslash
  have hne : noteFile py name ≠ [] := fun hnil => hodd (.inl hnil)
  rw [notePath, safeRelpath_ofList, DirOk, ← hnul hlower]
  by_cases hdir : stripSlashes cfg.notesDir = []
  · have hfhead : (noteFile py name).head? ≠ some '/' := fun hc => hslash (List.mem_of_head? hc)
    simp [hdir, hsplit, hne, hfhead, hfback, hodd]
  · have hjoin : (stripSlashes cfg.notesDir ++ '/' :: noteFile py name).head? ≠ some '/' := by
      rw [List.head?_append_of_ne_nil _ hdir]
      exact hhead
    simp only [hdir, if_false, List.splitOn_append_cons_self, hsplit, false_or]
    simp only [ne_eq, List.append_eq_nil_iff, hdir, reduceCtorEq, and_self, not_false_eq_true, hjoin,
      List.mem_append, List.mem_cons, hback, hfback, Char.reduceEq, or_self, true_and, or_imp,
      forall_and, forall_eq, List.not_mem_nil, false_or, not_or]
    constructor
    · rintro ⟨⟨hnd, hnf⟩, hsegs, -⟩
      refine ⟨⟨hnd, fun seg hseg => ?_, fun seg hseg => ?_⟩, hnf⟩
      · exact fun hnil => hsegs seg hseg (.inl hnil)
      · exact fun hdot => hsegs seg hseg (.inr (.inl hdot))
    · rintro ⟨⟨hnd, hnil, hdot⟩, hnf⟩
      refine ⟨⟨hnd, hnf⟩, fun seg hseg h => ?_, hodd, fun _ h => h.elim⟩
      rcases h with h | h | h
      · exact hnil seg hseg h
      · exact hdot seg hseg h
      · exact hdots (h ▸ hseg)

/-- All notes are equally deep. -/
theorem notePath_depth (py : Python) (cfg : Options) (name : String) :
    (splitSlash (notePath py cfg name)).length =
      if stripSlashes cfg.notesDir = [] then 1
      else ((stripSlashes cfg.notesDir).splitOn '/').length + 1 := by
  have hsplit : (noteFile py name).splitOn '/' = [noteFile py name] :=
    List.splitOn_eq_singleton (noteFile_spec py name).1
  unfold splitSlash notePath
  simp only [String.toList_ofList, List.length_map]
  split_ifs
  · rw [hsplit]
    rfl
  · rw [List.splitOn_append_cons_self, hsplit, List.length_append]
    rfl

/-! ## The files of a snapshot -/

/-- The name of a note that becomes a file. -/
def noteName (py : Python) : Json → Option String
  | .obj fields =>
    match get fields "name" with
    | .str name =>
      let kind := get fields "type"
      if !isKind py 1 kind && isKind py 2 kind && truthy py (get fields "notes") then some name
      else none
    | _ => none
  | _ => none

section Files

variable {py : Python} {cfg : Options} {b b' : Build} {name base : String}
  {item : List (String × Json)}

/-- What comes after a step that went well. -/
theorem ok_of_bind {α β : Type} {m : Except Failure α} {f : α → Except Failure β} {r : β}
    (h : m >>= f = .ok r) : ∃ a, m = .ok a ∧ f a = .ok r := by
  cases m with
  | error e => cases h
  | ok a => exact ⟨a, rfl, h⟩

theorem put_files {key : String} {value : Json} (h : put py name key value b = .ok b') :
    b'.files = b.files := by
  unfold put at h
  split at h
  · cases h
    rfl
  · cases h
    rfl
  · split at h
    · cases h
    · cases h
      rfl

theorem foldlM_files {α : Type} {f : Build → α → Except Failure Build} {l : List α}
    (hf : ∀ a b b', f b a = .ok b' → b'.files = b.files) (h : l.foldlM f b = .ok b') :
    b'.files = b.files :=
  foldlM_ok (I := fun _ s => s.files = b.files)
    (fun a _ s s' hs hn => (hf a s s' hn).trans hs) h rfl

theorem putLogin_files (h : putLogin py name base item b = .ok b') : b'.files = b.files := by
  obtain ⟨login, -, h⟩ := ok_of_bind h
  obtain ⟨b₁, h₁, h⟩ := ok_of_bind h
  obtain ⟨b₂, h₂, h⟩ := ok_of_bind h
  obtain ⟨b₃, h₃, h⟩ := ok_of_bind h
  obtain ⟨uris, -, h⟩ := ok_of_bind h
  obtain ⟨b₄, h₄, h⟩ := ok_of_bind h
  obtain ⟨fields, -, h⟩ := ok_of_bind h
  have huris : b₄.files = b₃.files := foldlM_files (fun _ _ _ => put_files) h₄
  have hfields : b'.files = b₄.files := by
    refine foldlM_files (fun fld b b' h => ?_) h
    split at h
    · split at h
      · exact put_files h
      · cases h
        rfl
    · cases h
      rfl
  calc b'.files = b₃.files := hfields.trans huris
    _ = b₁.files := (put_files h₃).trans (put_files h₂)
    _ = b.files := put_files h₁

theorem putSshKey_files (h : putSshKey py name base item b = .ok b') : b'.files = b.files := by
  obtain ⟨ssh, -, h⟩ := ok_of_bind h
  obtain ⟨b₁, h₁, h⟩ := ok_of_bind h
  obtain ⟨exported, -, h⟩ := ok_of_bind h
  refine Eq.trans ?_ (put_files h₁)
  cases exported with
  | true => exact put_files h
  | false =>
    cases h
    rfl

/-- **One item.** Only a note with text adds a file. -/
theorem buildItem_files {item : Json} (h : buildItem py cfg b item = .ok b') (path : String) :
    path ∈ b'.files.keys ↔
      path ∈ b.files.keys ∨ ∃ name, noteName py item = some name ∧ path = notePath py cfg name := by
  have hsame : noteName py item = none → b'.files = b.files → (path ∈ b'.files.keys ↔
      path ∈ b.files.keys ∨ ∃ name, noteName py item = some name ∧ path = notePath py cfg name) := by
    intro hname hfiles
    simp [hname, hfiles]
  unfold buildItem at h
  split at h
  · rename_i fields
    split at h
    · rename_i name hname
      dsimp only at h
      split_ifs at h with h₁ h₂ h₅
      · exact hsame (by simp [noteName, hname, h₁]) (putLogin_files h)
      · unfold putNote at h
        dsimp only at h
        split_ifs at h with ht
        · split at h
          · cases h
          · cases h
            have hnote : noteName py (.obj fields) = some name := by
              simp [noteName, hname, h₁, h₂, ht]
            rw [hnote, Dict.mem_keys_insert, or_comm]
            simp
        · cases h
          exact hsame (by simp [noteName, hname, ht]) rfl
      · exact hsame (by simp [noteName, hname, h₂]) (putSshKey_files h)
      · cases h
        exact hsame (by simp [noteName, hname, h₂]) rfl
    · rename_i hname
      cases h
      refine hsame ?_ rfl
      simp only [noteName]
  · rename_i hobj
    cases h
    refine hsame ?_ rfl
    cases item with
    | obj fields => exact absurd rfl (hobj fields)
    | null | bool b | num text | str s | arr elems => rfl

theorem build_files {items : List Json} {snap : Snapshot} (h : build py cfg items = .ok snap)
    (path : String) : path ∈ snap.files.keys ↔
      ∃ name ∈ items.filterMap (noteName py), path = notePath py cfg name := by
  obtain ⟨b, hb, h⟩ := ok_of_bind h
  cases h
  have hrun := foldlM_ok (I := fun todo s => ∀ path, (path ∈ s.files.keys ∨
      ∃ name ∈ todo.filterMap (noteName py), path = notePath py cfg name) ↔
      ∃ name ∈ items.filterMap (noteName py), path = notePath py cfg name)
    (fun item todo s s' hs hn path => ?_) hb (fun path => by simp [Dict.keys, Dict.empty]) path
  · simpa using hrun
  · rw [← hs path, buildItem_files hn, or_assoc]
    refine or_congr_right ?_
    simp only [List.mem_filterMap, List.mem_cons, or_and_right, exists_or, exists_eq_left]

/-- **The writer's rules.** With a configuration without an error, the files of a snapshot are safe,
and none is below another, exactly when each exported note has a name without NUL and `notes_dir` is
fit for it. -/
theorem placeable_iff (environ : String → String) {items : List Json} {snap : Snapshot}
    (hlower : ∀ s, '\x00' ∈ (py.lower s).toList ↔ '\x00' ∈ s.toList)
    (hvalid : ∀ p ∈ validate environ cfg, p.severity ≠ .error)
    (h : fetched py cfg items = .ok snap) :
    Placeable snap.files ↔
      ∀ name ∈ (active py items).filterMap (noteName py), DirOk cfg ∧ '\x00' ∉ name.toList := by
  have hfiles := build_files h
  constructor
  · intro hp name hname
    obtain ⟨p, hsafe⟩ := hp.safe _ ((hfiles _).mpr ⟨name, hname, rfl⟩)
    exact (notePath_safe hlower hvalid).mp (hsafe ▸ Option.some_ne_none p)
  · intro hall
    refine ⟨fun rel hrel => ?_, fun rel hrel rel' hrel' p p' hp hp' hpre => ?_⟩
    · obtain ⟨name, hname, rfl⟩ := (hfiles rel).mp hrel
      exact Option.ne_none_iff_exists'.mp ((notePath_safe hlower hvalid).mpr (hall name hname))
    · obtain ⟨name, -, rfl⟩ := (hfiles rel).mp hrel
      obtain ⟨name', -, rfl⟩ := (hfiles rel').mp hrel'
      refine hpre.eq_of_length ?_
      rw [splitSlash_of_safe hp, splitSlash_of_safe hp', notePath_depth, notePath_depth]

end Files

/-! ## Two configurations -/

/-- As Python does it, for the texts of the examples. -/
def samplePy : Python where
  str
    | .str s => s
    | _ => ""
  strip s := s
  lower s := String.ofList (s.toList.map Char.toLower)
  isNum text n := text = toString n

def sampleOptions : Options where
  serverUrl := "https://vault"
  clientId := "user.1"
  clientSecret := "s"
  masterPassword := "p"

def sampleNote : Json :=
  .obj [("type", .num "2"), ("name", .str "Wifi Key"), ("notes", .str "x")]

theorem samplePy_lower (s : String) :
    '\x00' ∈ (samplePy.lower s).toList ↔ '\x00' ∈ s.toList := by
  have hlower : ∀ c : Char, c.toLower = '\x00' ↔ c = '\x00' := by
    intro c
    unfold Char.toLower
    split_ifs with h
    · constructor
      · intro hc
        have hval : (c.val + ('a'.val - 'A'.val)).toNat = 0 := congrArg (fun d : Char => d.toNat) hc
        have hle : c.val.toNat ≤ 90 := UInt32.le_iff_toNat_le.mp h.2
        rw [UInt32.toNat_add] at hval
        have hdiff : ('a'.val - 'A'.val).toNat = 32 := by decide
        omega
      · rintro rfl
        exact absurd h (by decide)
    · exact Iff.rfl
  show '\x00' ∈ (String.ofList _).toList ↔ _
  rw [String.toList_ofList, List.mem_map]
  simp [hlower]

theorem sampleOptions_valid (p : Problem) (hp : p ∈ validate (fun _ => "") sampleOptions) :
    p.severity ≠ .error := by
  have hnone : validate (fun _ => "") sampleOptions = [] := by decide
  rw [hnone] at hp
  cases hp

/-- A note below `bitwarden`. -/
theorem placeable_sample : ∃ snap, fetched samplePy sampleOptions [sampleNote] = .ok snap ∧
    snap.files.keys = ["bitwarden/wifi_key.txt"] ∧ Placeable snap.files := by
  obtain ⟨snap, hsnap⟩ : ∃ snap, fetched samplePy sampleOptions [sampleNote] = .ok snap := ⟨_, rfl⟩
  have hnames : (active samplePy [sampleNote]).filterMap (noteName samplePy) = ["Wifi Key"] := by
    decide
  refine ⟨snap, hsnap, ?_, (placeable_iff (fun _ => "") samplePy_lower sampleOptions_valid
    hsnap).mpr fun name hname => ?_⟩
  · have hkeys : (fetched samplePy sampleOptions [sampleNote]).toOption.map
        (fun snap => snap.files.keys) = some ["bitwarden/wifi_key.txt"] := by decide
    rw [hsnap] at hkeys
    exact Option.some.inj hkeys
  · rw [hnames] at hname
    obtain rfl := List.mem_singleton.mp hname
    exact ⟨.inr (by decide), by decide⟩

def dotOptions : Options := { sampleOptions with notesDir := "." }

/-- **A dot for the directory.** It passes `validate`, and the writer refuses the path. -/
theorem unplaceable_dot :
    ¬ ∀ (py : Python) (environ : String → String) (cfg : Options) (items : List Json)
      (snap : Snapshot), (∀ p ∈ validate environ cfg, p.severity ≠ .error) →
      fetched py cfg items = .ok snap → Placeable snap.files := by
  intro hall
  obtain ⟨snap, hsnap⟩ : ∃ snap, fetched samplePy dotOptions [sampleNote] = .ok snap := ⟨_, rfl⟩
  have hvalid : validate (fun _ => "") dotOptions = [] := by decide
  have hp := hall samplePy (fun _ => "") dotOptions [sampleNote] snap (by simp [hvalid]) hsnap
  have hkeys : (fetched samplePy dotOptions [sampleNote]).toOption.map
      (fun snap => snap.files.keys) = some ["./wifi_key.txt"] := by decide
  rw [hsnap] at hkeys
  have hkeys : snap.files.keys = ["./wifi_key.txt"] := Option.some.inj hkeys
  have hmem : "./wifi_key.txt" ∈ snap.files.keys := by simp [hkeys]
  obtain ⟨p, hsafe⟩ := hp.safe _ hmem
  have hnone : safeRelpath "./wifi_key.txt" = none := by decide
  cases hnone.symm.trans hsafe

end HaAddons.SecretsSync.Bitwarden
