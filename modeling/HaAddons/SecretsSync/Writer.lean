import HaAddons.Lib.Script
import HaAddons.SecretsSync.Files
import Mathlib.Data.List.Sort
import Mathlib.Data.String.Basic

/-!
# Atomic, verified writes for secrets.yaml and provider files

`write_files` and `write_secrets` as scripts of file-system operations, each of which may fail.
A failure carries the name of the exception class, which the messages quote.

Temporary files are not part of the disk: every way out of `_stage` and `_atomic_write` has renamed
or removed its own. `os.path.lexists` only repeats the `lstat` of `_target` and gets no failure of
its own.

* `writeFiles` — writes one provider file after the other, deletes the files of the old manifest
  that are gone, and saves the new manifest at the very end.
* `writeSecrets` — renders, verifies and replaces secrets.yaml.
-/

namespace HaAddons.SecretsSync

/-! ## The disk -/

/-- `files.manifest.json`: the digest of each file the engine manages. -/
abbrev Manifest := Dict String String

/-- The files directory, its manifest, secrets.yaml and its backup. -/
structure Disk where
  tree : Tree
  manifest : Option Manifest := none
  secrets : Option Node := none
  backup : Option Node := none
  /-- History: what the engine wrote at a path that nobody has changed since. -/
  written : Path → Option Bytes := fun _ => none
  /-- History: the provider files the current call has replaced so far. -/
  replaced : List Path := []

/-- The targets of `_atomic_write`, with the new content. -/
inductive Write where
  | file (p : Path) (data : Bytes)
  | manifest (m : Manifest)
  | secrets (data : Bytes)
  | backup (data : Bytes)

/-- File-system operations. `makeDirs` is a `mkdir(parents=True, exist_ok=True)` outside the tree. -/
inductive FsOp where
  | makeDirs
  | readManifest
  | lstat (p : Path)
  | mkdir (p : Path)
  | read (p : Path)
  | stage (w : Write)
  | replace (w : Write)
  | fsyncDir (w : Write)
  | chmod (p : Path)
  | unlink (p : Path)
  | rmdir (p : Path)
  | lstatSecrets
  | readSecrets
  | readStaged
  | chmodSecrets

namespace Disk

/-- Rename a staged file over its target; a directory cannot be replaced. -/
def replace (d : Disk) : Write → Except String Disk
  | .file p data =>
    if h : d.tree.Free p then
      .ok { d with
        tree := d.tree.put p (.file data) h
        written := Function.update d.written p (some data)
        replaced := p :: d.replaced }
    else .error "IsADirectoryError"
  | .manifest m => .ok { d with manifest := some m }
  | .secrets data =>
    if d.secrets = some .dir then .error "IsADirectoryError"
    else .ok { d with secrets := some (.file data) }
  | .backup data =>
    if d.backup = some .dir then .error "IsADirectoryError"
    else .ok { d with backup := some (.file data) }

def mkdir (d : Disk) (p : Path) : Except String Disk :=
  if h : d.tree.Free p ∧ d.tree.get? p = none then .ok { d with tree := d.tree.put p .dir h.1 }
  else .error "FileExistsError"

def unlink (d : Disk) (p : Path) : Except String Disk :=
  if h : p ≠ [] ∧ d.tree.get? p ≠ none ∧ d.tree.get? p ≠ some .dir then
    .ok { d with
      tree := d.tree.remove p (Tree.childless_of_get? h.1 h.2.2)
      written := Function.update d.written p none }
  else .error "FileNotFoundError"

def rmdir (d : Disk) (p : Path) : Except String Disk :=
  if h : d.tree.get? p = some .dir ∧ d.tree.Childless p then
    .ok { d with tree := d.tree.remove p h.2 }
  else .error "OSError"

/-- What an operation that goes through does to the disk. -/
def apply : FsOp → Disk → Except String Disk
  | .mkdir p, d => d.mkdir p
  | .replace w, d => d.replace w
  | .unlink p, d => d.unlink p
  | .rmdir p, d => d.rmdir p
  | _, d => .ok d

end Disk

/-! ## Exceptions -/

/-- `UnsafePathError` is a `WriteError` with the code `unsafe_path`. -/
inductive Exc where
  | os (cls : String)
  | write (code message : String)
  | unsafePath (message : String)
  | assertion
  deriving DecidableEq, Repr

abbrev IoM := Script FsOp String Disk Exc

/-- An operation whose `OSError` is not caught on the spot. -/
def act (o : FsOp) : IoM Unit := Script.act .os o

/-- `except OSError as exc: raise WriteError("write_failed", what (class name))`. -/
def orWriteFailed {α : Type} (what : String) (s : IoM α) : IoM α :=
  s.handle fun e =>
    match e with
    | .os cls => .raise (.write "write_failed" (what ++ " (" ++ cls ++ ")"))
    | e => .raise e

def atomicWrite (w : Write) : IoM Unit := do
  act (.stage w)
  act (.replace w)
  act (.fsyncDir w)

/-! ## secrets.yaml -/

def header : String := "# managed by Secrets Sync - do not edit\n"

/-- `\uXXXX`. -/
def unicodeEscape (c : Char) : List Char :=
  '\\' :: 'u' :: [4096, 256, 16, 1].map fun b => Nat.digitChar (c.toNat / b % 16)

/-- A character of `json.dumps(text, ensure_ascii=False)`. -/
def jsonChar (c : Char) : List Char :=
  if c = '"' then ['\\', '"'] else if c = '\\' then ['\\', '\\']
  else if c = '\n' then ['\\', 'n'] else if c = '\r' then ['\\', 'r']
  else if c = '\t' then ['\\', 't'] else if c = '\x08' then ['\\', 'b']
  else if c = '\x0c' then ['\\', 'f'] else if c.toNat < 0x20 then unicodeEscape c
  else [c]

/-- The characters PyYAML takes for line breaks or rejects as non-printable. -/
def escaped (c : Char) : Bool :=
  (0x7f ≤ c.toNat && c.toNat ≤ 0x9f) || c.toNat ∈ [0x2028, 0x2029, 0xfffe, 0xffff]

def quote (text : String) : String :=
  String.ofList (('"' :: text.toList.flatMap jsonChar ++ ['"']).flatMap fun c =>
    if escaped c then unicodeEscape c else [c])

def renderSecrets (secrets : Dict String String) : String :=
  header ++ String.join ((secrets.entries.insertionSort fun a b => a.1 ≤ b.1).map fun e =>
    quote e.1 ++ ": " ++ quote e.2 ++ "\n")

/-- What `yaml.safe_load` returns. `mapping` is a mapping that is not all strings, with `str()` of
its keys and values; `other` says whether the document is false in Python. -/
inductive YamlDoc where
  | null
  | strings (d : Dict String String)
  | mapping (d : Dict String String)
  | other (falsy : Bool)

/-- `(loaded or {}) == secrets`. -/
def YamlDoc.isSecrets (secrets : Dict String String) : YamlDoc → Bool
  | .null | .other true => Dict.empty.same secrets
  | .strings d => d.same secrets
  | .mapping _ | .other false => false

section Yaml

/- `yaml.safe_load`, or the class of the `YAMLError`. -/
variable (yaml : String → Except String YamlDoc)

def verifyRoundtrip (text : String) (secrets : Dict String String) : IoM Unit :=
  match yaml text with
  | .error cls =>
    .raise (.write "yaml_verify_failed" ("rendered YAML does not parse (" ++ cls ++ ")"))
  | .ok loaded =>
    if loaded.isSecrets secrets then pure ()
    else .raise (.write "yaml_verify_failed" "rendered YAML does not round-trip to the input")

/-- The current bytes of secrets.yaml. -/
def readExisting : IoM (Option Bytes) := do
  act .lstatSecrets
  match ← Script.get Disk.secrets with
  | none => pure none
  | some (.file data) => do
    act .readSecrets
    pure (some data)
  | some _ => .raise (.unsafePath "target is not a regular file")

/-- Write the secrets to the file called `name`. The result is `false` when the content is already
byte-identical. -/
def writeSecrets (name : String) (secrets : Dict String String) : IoM Bool := do
  let text := renderSecrets secrets
  verifyRoundtrip yaml text secrets
  let data := text.toUTF8.data.toList
  orWriteFailed ("cannot write " ++ name) do
    act .makeDirs
    let previous ← readExisting
    if previous = some data then
      act .chmodSecrets
      pure false
    else
      act (.stage (.secrets data))
      act .readStaged
      verifyRoundtrip yaml text secrets
      match previous with
      | some old => atomicWrite (.backup old)
      | none => pure ()
      act (.replace (.secrets data))
      act (.fsyncDir (.secrets data))
      act .chmodSecrets
      pure true

/-- The text of secrets.yaml as a mapping. -/
def parseSecrets (data : Bytes) : Option (Dict String String) :=
  match (String.fromUTF8? (ByteArray.mk data.toArray)).map yaml with
  | some (.ok .null) => some .empty
  | some (.ok (.strings d)) | some (.ok (.mapping d)) => some d
  | _ => none

/-- Current secrets.yaml, `none` if missing or unreadable. A link counts as unreadable here: only
regular files are ever written. -/
def readSecrets : IoM (Option (Dict String String)) := do
  match ← Script.get Disk.secrets with
  | some (.file data) => .op .readSecrets (pure (parseSecrets yaml data)) fun _ => pure none
  | _ => pure none

end Yaml

/-! ## Provider files -/

/-- Walk below `cur` without following symlinks: the target, or `none` when a component is missing
and not to be created. -/
def target (create : Bool) (cur : Path) : List String → IoM (Option Path)
  | [] => pure (some cur)
  | part :: rest => do
    act (.lstat (cur ++ [part]))
    match ← Script.get fun d => d.tree.get? (cur ++ [part]) with
    | none =>
      if rest = [] then pure (some (cur ++ [part]))
      else if create then do
        act (.mkdir (cur ++ [part]))
        target create (cur ++ [part]) rest
      else pure none
    | some .link => .raise (.unsafePath "symlink in path")
    | some (.file _) =>
      if rest = [] then pure (some (cur ++ [part]))
      else .raise (.unsafePath "path component is not a directory")
    | some .dir =>
      if rest = [] then .raise (.unsafePath "target is not a regular file")
      else target create (cur ++ [part]) rest
    | some .other =>
      if rest = [] then .raise (.unsafePath "target is not a regular file")
      else .raise (.unsafePath "path component is not a directory")

/-- The target of a provider's path. -/
def targetOf (create : Bool) (rel : String) : IoM (Option Path) :=
  match safeRelpath rel with
  | none => .raise (.unsafePath "unsafe path")
  | some parts => target create [] parts

/-- A manifest that cannot be read counts as empty. -/
def loadManifest : IoM Manifest :=
  .op .readManifest (Script.get fun d => d.manifest.getD .empty) fun _ => pure .empty

structure FilesResult where
  written : List String := []
  removed : List String := []
  skipped : List String := []
  deriving DecidableEq, Repr

/-- The bytes of a target, if it exists. -/
def readTarget (rel : String) (p : Path) : IoM (Option Bytes) := do
  match ← Script.get fun d => d.tree.get? p with
  | some (.file data) => do
    orWriteFailed ("cannot read " ++ rel) (act (.read p))
    pure (some data)
  | _ => pure none

section Files

variable (sha : Bytes → String)

/-- One file of the map: skipped when it exists with other content and is not in the manifest. -/
def writeOne (manifest : Manifest) (s : FilesResult × Manifest) (e : String × Bytes) :
    IoM (FilesResult × Manifest) := do
  match ← targetOf true e.1 with
  | none => .raise .assertion
  | some p =>
    let current ← readTarget e.1 p
    if current ≠ none ∧ current ≠ some e.2 ∧ e.1 ∉ manifest.keys then
      pure ({ s.1 with skipped := s.1.skipped ++ [e.1] }, s.2)
    else if current ≠ some e.2 then
      atomicWrite (.file p e.2)
      pure ({ s.1 with written := s.1.written ++ [e.1] }, s.2.insert e.1 (sha e.2))
    else
      act (.chmod p)
      pure (s.1, s.2.insert e.1 (sha e.2))

/-- Remove the empty parents, the innermost first. The path is given backwards. -/
def rmParents : List String → IoM Unit
  | [] => pure ()
  | part :: rest => .op (.rmdir (part :: rest).reverse) (rmParents rest) fun _ => pure ()

/-- One file of the old manifest that is not in the map any more. A path that is not safe to touch
is forgotten. -/
def removeOne (result : FilesResult) (rel : String) : IoM FilesResult := do
  let t ← (targetOf false rel).handle fun e =>
    match e with
    | .unsafePath _ => pure none
    | e => .raise e
  match t with
  | none => pure result
  | some p =>
    if (← Script.get fun d => d.tree.get? p) = none then pure result
    else
      act (.unlink p)
      rmParents p.reverse.tail
      pure { result with removed := result.removed ++ [rel] }

/-- The files of the map in order of their paths. -/
def toWrite (files : Dict String Bytes) : List (String × Bytes) :=
  files.entries.insertionSort fun a b => a.1 ≤ b.1

/-- `sorted(set(manifest) - set(files))`. -/
def toRemove (manifest : Manifest) (files : Dict String Bytes) : List String :=
  (manifest.filter fun rel => rel ∉ files.keys).keys.insertionSort (· ≤ ·)

/-- The manifest is only written when it changed. -/
def saveManifest (old new : Manifest) : IoM Unit :=
  if new.same old then pure ()
  else
    orWriteFailed "cannot write manifest" do
      act .makeDirs
      atomicWrite (.manifest new)

def writeFiles (files : Dict String Bytes) : IoM FilesResult := do
  let manifest ← loadManifest
  act .makeDirs
  let (result, newManifest) ← orWriteFailed "cannot write provider files" do
    let s ← (toWrite files).foldlM (writeOne sha manifest) ({}, .empty)
    let result ← (toRemove manifest files).foldlM removeOne s.1
    pure (result, s.2)
  saveManifest manifest newManifest
  pure result

end Files

/-! ## What the pieces do -/

/-- Only the tree differs, and what was there still is. -/
def Disk.Grows (d d' : Disk) : Prop :=
  ∃ t, d' = { d with tree := t } ∧ ∀ q n, d.tree.get? q = some n → t.get? q = some n

theorem Disk.Grows.refl (d : Disk) : d.Grows d := ⟨d.tree, rfl, fun _ _ h => h⟩

theorem Disk.Grows.trans {d d' d'' : Disk} (h : d.Grows d') (h' : d'.Grows d'') : d.Grows d'' := by
  obtain ⟨t, rfl, ht⟩ := h
  obtain ⟨t', rfl, ht'⟩ := h'
  exact ⟨t', rfl, fun q n hq => ht' q n (ht q n hq)⟩

theorem Disk.Grows.get? {d d' : Disk} (h : d.Grows d') {q : Path} {n : Node}
    (hq : d.tree.get? q = some n) : d'.tree.get? q = some n := by
  obtain ⟨t, rfl, ht⟩ := h
  exact ht q n hq

theorem Disk.mkdir_spec {d d' : Disk} {p : Path} (h : d.mkdir p = .ok d') :
    d.Grows d' ∧ d.tree.get? p = none ∧
      ∀ q, d'.tree.get? q = if q = p then some .dir else d.tree.get? q := by
  unfold Disk.mkdir at h
  split at h
  · rename_i hp
    cases h
    refine ⟨⟨_, rfl, fun q n hq => ?_⟩, hp.2, fun q => Tree.get?_put _ _ hp.1 q⟩
    have hqp : q ≠ p := by
      rintro rfl
      simp [hp.2] at hq
    rw [Tree.get?_put, if_neg hqp]
    exact hq
  · cases h

theorem Disk.unlink_spec {d d' : Disk} {p : Path} (h : d.unlink p = .ok d') :
    ∃ t, d' = { d with tree := t, written := Function.update d.written p none } ∧
      ∀ q, t.get? q = if q = p then none else d.tree.get? q := by
  unfold Disk.unlink at h
  split at h
  · cases h
    exact ⟨_, rfl, fun q => Tree.get?_remove ..⟩
  · cases h

theorem Disk.replace_file_spec {d d' : Disk} {p : Path} {data : Bytes}
    (h : d.replace (.file p data) = .ok d') :
    ∃ t, d' = { d with
        tree := t
        written := Function.update d.written p (some data)
        replaced := p :: d.replaced } ∧
      ∀ q, t.get? q = if q = p then some (.file data) else d.tree.get? q := by
  simp only [Disk.replace] at h
  split at h
  · rename_i hp
    cases h
    exact ⟨_, rfl, fun q => Tree.get?_put _ _ hp q⟩
  · cases h

section Meets

variable {d : Disk} {may : FsOp → Disk → Prop}

/-- An operation that leaves the disk as it is. -/
theorem meets_act_id {o : FsOp} {Q : Unit → Disk → Prop} {R : Exc → Disk → Prop}
    (ho : Disk.apply o d = .ok d) (hok : Q () d) (hfail : ∀ cls, R (.os cls) d) :
    (act o).Meets Disk.apply may Q R d := by
  refine Script.Meets.act (fun d' h => ?_) hfail
  obtain rfl : d = d' := by simpa [ho] using h
  exact hok

theorem target_meets (create : Bool) {parts : List String} (hne : parts ≠ []) {cur : Path}
    (hdir : d.tree.IsDir cur) :
    (target create cur parts).Meets Disk.apply may
      (fun r d' => d.Grows d' ∧ (create = false → d' = d) ∧
        d'.tree.get? (cur ++ parts) = d.tree.get? (cur ++ parts) ∧
        (r = some (cur ++ parts) ∧ (d.tree.get? (cur ++ parts) = none ∨
            ∃ x, d.tree.get? (cur ++ parts) = some (.file x)) ∨
          create = false ∧ r = none ∧ d.tree.get? (cur ++ parts) = none))
      (fun e d' => d.Grows d' ∧ (create = false → d' = d) ∧
        ((∃ cls, e = .os cls) ∨ ∀ x, d.tree.get? (cur ++ parts) ≠ some (.file x))) d := by
  induction parts generalizing d cur with
  | nil => exact absurd rfl hne
  | cons part rest ih =>
    have hfull : cur ++ part :: rest = (cur ++ [part]) ++ rest := by simp
    refine Script.Meets.bind (meets_act_id rfl ?_ fun cls =>
      ⟨.refl d, fun _ => rfl, .inl ⟨cls, rfl⟩⟩)
    refine Script.Meets.get ?_
    cases hg : d.tree.get? (cur ++ [part]) with
    | none =>
      have hnone : d.tree.get? (cur ++ part :: rest) = none := by
        by_contra hn
        obtain ⟨n, hn⟩ := Option.ne_none_iff_exists'.mp hn
        rw [hfull] at hn
        cases rest with
        | nil => simp [hg] at hn
        | cons r rest =>
          rcases Tree.dir_of_prefix hn with hnil | hdir
          · simp at hnil
          · simp [hg] at hdir
      by_cases hrest : rest = []
      · subst hrest
        simp only [if_true]
        exact ⟨.refl d, fun _ => rfl, rfl, .inl ⟨rfl, .inl hnone⟩⟩
      · simp only [hrest, if_false]
        cases create with
        | false => exact ⟨.refl d, fun _ => rfl, rfl, .inr ⟨rfl, rfl, hnone⟩⟩
        | true =>
          refine Script.Meets.bind (Script.Meets.act (fun d' hd => ?_) fun cls =>
            ⟨.refl d, nofun, .inl ⟨cls, rfl⟩⟩)
          obtain ⟨hgrow, -, hget⟩ := Disk.mkdir_spec hd
          have hsame : d'.tree.get? (cur ++ part :: rest) = d.tree.get? (cur ++ part :: rest) := by
            rw [hget, if_neg (by simpa using hrest)]
          have hdir' : d'.tree.IsDir (cur ++ [part]) := .inr (by simp [hget])
          have ih := ih hrest hdir'
          rw [← hfull, hsame] at ih
          refine ih.mono (fun r d'' ⟨hg', _, hs, hr⟩ => ⟨hgrow.trans hg', nofun, hs, hr⟩)
            fun e d'' ⟨hg', _, hr⟩ => ⟨hgrow.trans hg', nofun, hr⟩
    | some n =>
      have hraise : ∀ {msg : String}, (rest = [] → ∀ x, n ≠ .file x) → (rest ≠ [] → n ≠ .dir) →
          (Script.raise (.unsafePath msg) : IoM (Option Path)).Meets Disk.apply may
            (fun _ _ => False) (fun e d' => d.Grows d' ∧ (create = false → d' = d) ∧
              ((∃ cls, e = .os cls) ∨
                ∀ x, d.tree.get? (cur ++ part :: rest) ≠ some (.file x))) d := by
        intro msg hfile hdir
        refine ⟨.refl d, fun _ => rfl, .inr fun x hx => ?_⟩
        rw [hfull] at hx
        cases rest with
        | nil =>
          obtain rfl : n = .file x := by simpa [hg] using hx
          exact hfile rfl x rfl
        | cons r rest =>
          rcases Tree.dir_of_prefix hx with hnil | hd
          · simp at hnil
          · obtain rfl : n = .dir := by simpa [hg] using hd
            exact hdir (by simp) rfl
      cases n with
      | link => exact (hraise (by simp) (by simp)).mono (fun _ _ h => h.elim) fun _ _ h => h
      | other =>
        by_cases hrest : rest = []
        · simp only [hrest, if_true] at hraise ⊢
          exact (hraise (by simp) (by simp)).mono (fun _ _ h => h.elim) fun _ _ h => h
        · simp only [hrest, if_false]
          exact (hraise (by simp) (by simp)).mono (fun _ _ h => h.elim) fun _ _ h => h
      | file x =>
        by_cases hrest : rest = []
        · subst hrest
          simp only [if_true]
          exact ⟨.refl d, fun _ => rfl, rfl, .inl ⟨rfl, .inr ⟨x, hg⟩⟩⟩
        · simp only [hrest, if_false]
          exact (hraise (by simp [hrest]) (by simp)).mono (fun _ _ h => h.elim) fun _ _ h => h
      | dir =>
        by_cases hrest : rest = []
        · simp only [hrest, if_true] at hraise ⊢
          exact (hraise (by simp) (by simp)).mono (fun _ _ h => h.elim) fun _ _ h => h
        · simp only [hrest, if_false]
          rw [hfull]
          exact ih hrest (.inr hg)

theorem orWriteFailed_meets {α : Type} {what : String} {s : IoM α} {Q : α → Disk → Prop}
    {R : Disk → Prop} (h : s.Meets Disk.apply may Q (fun _ => R) d) :
    (orWriteFailed what s).Meets Disk.apply may Q (fun _ => R) d := by
  refine Script.Meets.handle (h.mono (fun _ _ h => h) fun e d hR => ?_)
  cases e <;> exact hR

/-- An atomic write fails before it has replaced its target, or after. -/
theorem atomicWrite_meets {w : Write} {Q : Unit → Disk → Prop} {R : Disk → Prop}
    (hbefore : R d) (hafter : ∀ d', d.replace w = .ok d' → Q () d' ∧ R d') :
    (atomicWrite w).Meets Disk.apply may Q (fun _ => R) d := by
  refine Script.Meets.bind (meets_act_id rfl ?_ fun _ => hbefore)
  refine Script.Meets.bind (Script.Meets.act (fun d' hd => ?_) fun _ => hbefore)
  obtain ⟨hQ, hR⟩ := hafter d' hd
  exact meets_act_id rfl hQ fun _ => hR

/-- Reading the target gives its bytes. -/
theorem readTarget_meets {rel : String} {p : Path} {Q : Option Bytes → Disk → Prop}
    {R : Disk → Prop} (hR : R d)
    (hnone : (∀ x, d.tree.get? p ≠ some (.file x)) → Q none d)
    (hsome : ∀ x, d.tree.get? p = some (.file x) → Q (some x) d) :
    (readTarget rel p).Meets Disk.apply may Q (fun _ => R) d := by
  refine Script.Meets.get ?_
  cases hp : d.tree.get? p with
  | none => exact hnone (by simp [hp])
  | some n =>
    cases n with
    | file x =>
      refine Script.Meets.bind (orWriteFailed_meets (meets_act_id rfl ?_ fun _ => hR))
      exact hsome x hp
    | dir | link | other => exact hnone (by simp [hp])

/-- Removing the parents touches nothing but directories. -/
theorem rmParents_meets {R : Exc → Disk → Prop} (parts : List String) :
    (rmParents parts).Meets Disk.apply may
      (fun _ d' => ∃ t, d' = { d with tree := t } ∧
        ∀ q, d.tree.get? q ≠ some .dir → t.get? q = d.tree.get? q) R d := by
  induction parts generalizing d with
  | nil => exact ⟨d.tree, rfl, fun _ _ => rfl⟩
  | cons part rest ih =>
    refine ⟨fun d' hd => ?_, fun _ _ => ⟨d.tree, rfl, fun _ _ => rfl⟩⟩
    simp only [Disk.apply, Disk.rmdir] at hd
    split at hd
    · rename_i h
      cases hd
      refine ih.mono (fun _ d'' ⟨t, hd, ht⟩ => ⟨t, hd, fun q hq => ?_⟩) fun _ _ h => h
      have hne : q ≠ (part :: rest).reverse := by
        rintro rfl
        exact hq h.1
      have hsame : (d.tree.remove _ h.2).get? q = d.tree.get? q := by
        rw [Tree.get?_remove, if_neg hne]
      rw [← hsame]
      exact ht q (by rw [hsame]; exact hq)
    · cases hd

/-- The target of a safe path. -/
theorem targetOf_meets (create : Bool) {rel : String} {p : Path} (h : safeRelpath rel = some p) :
    (targetOf create rel).Meets Disk.apply may
      (fun r d' => d.Grows d' ∧ (create = false → d' = d) ∧ d'.tree.get? p = d.tree.get? p ∧
        (r = some p ∧ (d.tree.get? p = none ∨ ∃ x, d.tree.get? p = some (.file x)) ∨
          create = false ∧ r = none ∧ d.tree.get? p = none))
      (fun e d' => d.Grows d' ∧ (create = false → d' = d) ∧
        ((∃ cls, e = .os cls) ∨ ∀ x, d.tree.get? p ≠ some (.file x))) d := by
  simp only [targetOf, h]
  have hroot : d.tree.IsDir [] := .inl rfl
  exact target_meets create (safeRelpath_ne_nil h) hroot

end Meets

/-! ## The lists to go through -/

theorem mem_toWrite {files : Dict String Bytes} {e : String × Bytes} :
    e ∈ toWrite files ↔ e ∈ files.entries := List.mem_insertionSort ..

theorem toWrite_nodup (files : Dict String Bytes) : ((toWrite files).map Prod.fst).Nodup :=
  (((List.perm_insertionSort _ files.entries).map Prod.fst).nodup_iff).mpr files.nodup

theorem mem_toRemove {m : Manifest} {files : Dict String Bytes} {rel : String} :
    rel ∈ toRemove m files ↔ rel ∈ m.keys ∧ rel ∉ files.keys := by
  rw [toRemove, List.mem_insertionSort, Dict.mem_keys, Dict.mem_keys]
  simp only [Dict.get?_filter]
  by_cases h : rel ∈ files.keys <;> simp [h]

theorem toRemove_nodup (m : Manifest) (files : Dict String Bytes) : (toRemove m files).Nodup :=
  ((List.perm_insertionSort _ _).nodup_iff).mpr (Dict.nodup _)

end HaAddons.SecretsSync
