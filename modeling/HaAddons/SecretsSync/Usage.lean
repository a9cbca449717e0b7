import HaAddons.Lib.Dict
import HaAddons.Lib.Matching
import HaAddons.Lib.PyText
import Mathlib.Data.List.Sort
import Mathlib.Data.Char
import Mathlib.Data.List.Lex

/-!
# The usage scan

`usage.scan` walks the roots, picks the YAML files that resolve `!secret` against our file, and
reads every line for references: the line loses its comment, and a pattern finds the keys. A key
counts its references and keeps the positions of the first twenty. `usage.summarize` compares
the keys found with those of `secrets.yaml`.

* `holds_scan` — in a scan that is not truncated, each key has the positions of its references in
  all lines of all files of our scope.
* `mem_unused`, `mem_missing` — which keys are listed.
-/

namespace HaAddons.SecretsSync.Usage

open HaAddons.Lib Py

/-! ## One line -/

/-- `!secret` -/
def secretTag : Text := "!secret".toList

/-- `[^\s,\]}#"']` -/
def isBare (c : Char) : Bool := !isSpace c && !",]\x7d#\"'".toList.contains c

/-- A key between two quotes `q`. -/
def quotedRef (q : Char) (s : Text) : Option (Text × Text) :=
  if s.takeWhile (· ≠ q) ≠ [] ∧ s.dropWhile (· ≠ q) ≠ [] then
    some (s.takeWhile (· ≠ q), (s.dropWhile (· ≠ q)).tail)
  else none

/-- The key after `!secret` and white space: quoted, or all characters up to one that ends it. -/
def keyRef : Text → Option (Text × Text)
  | '"' :: s => quotedRef '"' s
  | '\'' :: s => quotedRef '\'' s
  | s => if s.takeWhile isBare ≠ [] then some (s.takeWhile isBare, s.dropWhile isBare) else none

/-- `_REF` at the start of the text: the group that took part, and what is left. -/
def refAt (s : Text) : Option (Text × Text) :=
  if secretTag <+: s ∧ ((s.drop secretTag.length).head?.any isSpace) then
    keyRef ((s.drop secretTag.length).dropWhile isSpace)
  else none

/-- White space, `#` and all that follows. -/
def commentAt : Text → Option (Unit × Text)
  | c :: '#' :: _ => if isSpace c then some ((), []) else none
  | _ => none

/-- `_COMMENT.sub("", line)` -/
def uncomment : Text → Text
  | '#' :: _ => []
  | line => sub commentAt (fun _ => []) line

/-- The keys for which the scan records a reference on this line. -/
def lineKeys (line : Text) : List Text :=
  if secretTag <:+: line then findAll refAt (uncomment line) else []

/-! ## Files -/

/-- Where `str.splitlines()` splits. -/
def isLineBreak (c : Char) : Bool :=
  c.toNat ∈ [0x0A, 0x0B, 0x0C, 0x0D, 0x1C, 0x1D, 0x1E, 0x85, 0x2028, 0x2029]

/-- `str.splitlines()`, where `cur` is what the current line has so far. -/
def splitlinesFrom (cur : Text) : Text → List Text
  | [] => if cur = [] then [] else [cur]
  | '\r' :: '\n' :: s => cur :: splitlinesFrom [] s
  | c :: s => if isLineBreak c then cur :: splitlinesFrom [] s else splitlinesFrom (cur ++ [c]) s

def splitlines (s : Text) : List Text := splitlinesFrom [] s

/-- An entry of a directory that is no directory. `text` is what `read_text` returns, if it can. -/
structure File where
  name : Text
  isFile : Bool
  isSymlink : Bool
  size : ℕ
  text : Option Text
  deriving DecidableEq

/-- A directory as `os.walk` sees it, without links to directories. -/
inductive Dir where
  | mk (name : Text) (files : List File) (dirs : List Dir)

def skipDirs : List Text :=
  ["custom_components", "deps", "node_modules", "backups", "__pycache__",
    "secrets_files"].map String.toList

def extensions : List Text := [".yaml", ".yml"].map String.toList

def secretsName : Text := "secrets.yaml".toList

def maxFiles : ℕ := 20000

def maxFileBytes : ℕ := 1024 * 1024

def maxRefsPerKey : ℕ := 20

/-- The directory holds a `secrets.yaml`. -/
def ownsSecrets (files : List File) : Bool :=
  files.any fun f => f.name = secretsName && f.isFile && !f.isSymlink

/-- `_own_scope`: the path of the nearest directory with a `secrets.yaml`, from the innermost one
outwards. -/
def ownScope : List (List Text × List File) → Option (List Text)
  | [] => none
  | (path, files) :: up => if ownsSecrets files then some path else ownScope up

/-- Whether references in a directory of this scope are ours. The path of a root is empty. -/
def counts (index : ℕ) (scope : Option (List Text)) : Bool :=
  scope = none || index = 0 && scope = some []

/-- The files of a directory that are looked at, in their order. -/
def yamlFiles (files : List File) : List File :=
  (files.insertionSort fun a b => a.name ≤ b.name).filter fun f =>
    extensions.any (·.isSuffixOf f.name) && f.name ≠ secretsName

/-- `rel`, behind the label for all roots but the first. -/
def shown (index : ℕ) (label : Text) (path : List Text) : Text :=
  let rel := ['/'].intercalate path
  if index = 0 then rel else label ++ '/' :: rel

section Walk

variable (index : ℕ) (label : Text)

/-- What `here` has to be looked at, with how it is shown. -/
def hereFiles (here : List Text) (files : List File) (up : List (List Text × List File)) :
    List (Text × File) :=
  if counts index (ownScope ((here, files) :: up)) then
    (yamlFiles files).map fun f => (shown index label (here ++ [f.name]), f)
  else []

mutual

/-- The files below a directory at the path `here`, in the order of the walk. -/
def walk (here : List Text) (up : List (List Text × List File)) : Dir → List (Text × File)
  | .mk _ files dirs =>
    hereFiles index label here files up ++
      ((walkAll here ((here, files) :: up) dirs).insertionSort fun a b => a.1 ≤ b.1).flatMap (·.2)

/-- Each directory that is not skipped, with the files below it. -/
def walkAll (here : List Text) (up : List (List Text × List File)) :
    List Dir → List (Text × List (Text × File))
  | [] => []
  | .mk name files dirs :: ds =>
    if ['.'].isPrefixOf name || skipDirs.contains name then walkAll here up ds
    else (name, walk (here ++ [name]) up (.mk name files dirs)) :: walkAll here up ds

end

end Walk

/-! ## The scan -/

structure Scan where
  filesScanned : ℕ
  truncated : Bool
  refs : Dict Text (List (Text × ℕ))
  counts : Dict Text ℕ
  roots : List Text

def Scan.empty : Scan := ⟨0, false, .empty, .empty, []⟩

/-- One match of `_REF` on a line. -/
def Scan.record (pos : Text × ℕ) (r : Scan) (key : Text) : Scan :=
  let refs := (r.refs.get? key).getD []
  { r with
    counts := r.counts.insert key ((r.counts.get? key).getD 0 + 1)
    refs := r.refs.insert key (if refs.length < maxRefsPerKey then refs ++ [pos] else refs) }

/-- The loop over the lines of a file. -/
def Scan.readText (path text : Text) (r : Scan) : Scan :=
  ((splitlines text).zipIdx 1).foldl
    (fun r l => (lineKeys l.1).foldl (Scan.record (path, l.2)) r) r

/-- The text of a file that is neither a link nor too long nor unreadable. -/
def File.readable (f : File) : Option Text :=
  if f.isSymlink || maxFileBytes < f.size then none else f.text

/-- One step of the two outer loops. -/
inductive Visit where
  | root (label : Text)
  | file (path : Text) (f : File)
  deriving DecidableEq

/-- All steps. A root that is no directory is left out. -/
def visits (index : ℕ) : List (Text × Option Dir) → List Visit
  | [] => []
  | (_, none) :: roots => visits (index + 1) roots
  | (label, some d) :: roots =>
    .root label :: (walk index label [] [] d).map (fun p => .file p.1 p.2) ++
      visits (index + 1) roots

/-- The steps from the `n`-th check of the clock on, up to a limit. `late` tells which checks find
the time used up. -/
def Scan.run (late : ℕ → Bool) : ℕ → List Visit → Scan → Scan
  | _, [], r => r
  | n, .root label :: vs, r => Scan.run late n vs { r with roots := r.roots ++ [label] }
  | n, .file path f :: vs, r =>
    if maxFiles ≤ r.filesScanned || late n then { r with truncated := true }
    else
      match f.readable with
      | none => Scan.run late (n + 1) vs r
      | some text =>
        Scan.run late (n + 1) vs
          (Scan.readText path text { r with filesScanned := r.filesScanned + 1 })

/-- `scan` -/
def scan (late : ℕ → Bool) (roots : List (Text × Option Dir)) : Scan :=
  Scan.run late 0 (visits 0 roots) .empty

/-! ## What a scan holds -/

/-- A line with its file and its number. -/
abbrev Line := (Text × ℕ) × Text

def linesOf (path text : Text) : List Line :=
  ((splitlines text).zipIdx 1).map fun l => ((path, l.2), l.1)

/-- The lines read in a step. -/
def Visit.lines : Visit → List Line
  | .root _ => []
  | .file path f => (f.readable.map (linesOf path)).getD []

/-- All lines of all files of our scope. -/
def lines (roots : List (Text × Option Dir)) : List Line := (visits 0 roots).flatMap Visit.lines

/-- Where a key is referenced. -/
def positions (ls : List Line) (key : Text) : List (Text × ℕ) :=
  ls.flatMap fun l => ((lineKeys l.2).filter (· = key)).map fun _ => l.1

/-- A key counts its positions, and keeps the first ones. -/
def Scan.Holds (r : Scan) (seen : Text → List (Text × ℕ)) : Prop :=
  ∀ key, (r.counts.get? key).getD 0 = (seen key).length ∧
    (r.refs.get? key).getD [] = (seen key).take maxRefsPerKey ∧
    (key ∈ r.refs.keys ↔ seen key ≠ [])

section Holds

variable {r : Scan} {seen : Text → List (Text × ℕ)} {ls : List Line}

@[simp] theorem positions_nil (key : Text) : positions [] key = [] := rfl

theorem positions_append (ls ls' : List Line) (key : Text) :
    positions (ls ++ ls') key = positions ls key ++ positions ls' key :=
  List.flatMap_append

theorem mem_positions {key : Text} : positions ls key ≠ [] ↔ ∃ l ∈ ls, key ∈ lineKeys l.2 := by
  rw [Ne, List.eq_nil_iff_forall_not_mem]
  simp only [positions, List.mem_flatMap, List.mem_map, List.mem_filter, decide_eq_true_eq]
  constructor
  · intro h
    obtain ⟨pos, h⟩ := not_forall.mp h
    obtain ⟨l, hl, _, ⟨hkey, rfl⟩, -⟩ := not_not.mp h
    exact ⟨l, hl, hkey⟩
  · intro ⟨l, hl, hkey⟩ h
    exact h l.1 ⟨l, hl, key, ⟨hkey, rfl⟩, rfl⟩

/-- The cap keeps the first positions. -/
theorem take_snoc {α : Type} (l : List α) (a : α) (n : ℕ) :
    (if (l.take n).length < n then l.take n ++ [a] else l.take n) = (l ++ [a]).take n := by
  rw [List.length_take]
  split_ifs with h
  · have hlen : l.length < n := by omega
    have hnext : (l ++ [a]).length ≤ n := by simpa using Nat.succ_le_of_lt hlen
    rw [List.take_of_length_le hlen.le, List.take_of_length_le hnext]
  · rw [List.take_append_of_le_length (by omega)]

theorem holds_record (h : r.Holds seen) (pos : Text × ℕ) (key : Text) :
    (r.record pos key).Holds fun k => seen k ++ ([key].filter (· = k)).map fun _ => pos := by
  intro k
  obtain ⟨hcount, hrefs, hkeys⟩ := h k
  by_cases hk : key = k
  · subst hk
    have hdrop : (r.refs.get? key).getD [] = (seen key).take maxRefsPerKey := hrefs
    simp only [Scan.record, hdrop, hcount, take_snoc]
    simp [Dict.get?_insert, Dict.mem_keys_insert]
  · have hk' : ¬ k = key := fun h => hk h.symm
    simpa [Scan.record, Dict.get?_insert, Dict.mem_keys_insert, hk, hk'] using
      ⟨hcount, hrefs, hkeys⟩

theorem holds_records (h : r.Holds seen) (pos : Text × ℕ) (keys : List Text) :
    (keys.foldl (Scan.record pos) r).Holds fun k =>
      seen k ++ (keys.filter (· = k)).map fun _ => pos := by
  induction keys generalizing r seen with
  | nil => simpa using h
  | cons key keys ih =>
    have hstep := ih (holds_record h pos key)
    simp only [List.append_assoc, ← List.map_append, ← List.filter_append,
      List.singleton_append] at hstep
    exact hstep

theorem holds_readText (h : r.Holds seen) (path text : Text) :
    (r.readText path text).Holds fun k => seen k ++ positions (linesOf path text) k := by
  unfold Scan.readText linesOf
  induction (splitlines text).zipIdx 1 generalizing r seen with
  | nil => simpa using h
  | cons l ls ih =>
    have hstep := ih (holds_records h (path, l.2) (lineKeys l.1))
    simpa [positions, List.append_assoc] using hstep

/-- **The run.** If it is not truncated, it read the lines of all steps. -/
theorem holds_run {late : ℕ → Bool} {n : ℕ} {vs : List Visit} (h : r.Holds seen)
    (hrun : (Scan.run late n vs r).truncated = false) :
    (Scan.run late n vs r).Holds fun k => seen k ++ positions (vs.flatMap Visit.lines) k := by
  induction vs generalizing r seen n with
  | nil => simpa [Scan.run] using h
  | cons v vs ih =>
    cases v with
    | root label => exact ih h hrun
    | file path f =>
      simp only [Scan.run] at hrun ⊢
      split_ifs at hrun ⊢ with hlimit
      cases hf : f.readable with
      | none =>
        simp only [hf] at hrun ⊢
        simpa [Visit.lines, hf] using ih h hrun
      | some text =>
        simp only [hf] at hrun ⊢
        have hread : ({ r with filesScanned := r.filesScanned + 1 } : Scan).Holds seen := h
        have hstep := ih (holds_readText hread path text) hrun
        simpa [Visit.lines, hf, positions_append, List.append_assoc] using hstep

/-- **The scan.** If it is not truncated, each key has the positions of its references in all lines
of our scope. -/
theorem holds_scan {late : ℕ → Bool} {roots : List (Text × Option Dir)}
    (h : (scan late roots).truncated = false) : (scan late roots).Holds (positions (lines roots)) :=
  have hempty : Scan.empty.Holds fun _ => [] :=
    fun _ => ⟨rfl, rfl, by simp [Scan.empty, Dict.keys, Dict.empty]⟩
  holds_run hempty h

end Holds

/-! ## The summary -/

structure Entry where
  count : ℕ
  refs : List (Text × ℕ)
  deriving DecidableEq

structure Summary where
  enabled : Bool
  roots : List Text
  filesScanned : ℕ
  truncated : Bool
  used : List (Text × Entry)
  missing : List (Text × Entry)
  unused : List Text
  deriving DecidableEq

def Scan.entry (r : Scan) (key : Text) : Entry :=
  ⟨(r.counts.get? key).getD 0, (r.refs.get? key).getD []⟩

/-- `summarize`. The set `known` has no key twice. -/
def summarize (r : Scan) (known : List Text) : Summary :=
  let found := r.refs.keys.insertionSort (· ≤ ·)
  { enabled := true
    roots := r.roots
    filesScanned := r.filesScanned
    truncated := r.truncated
    used := (found.filter known.contains).map fun k => (k, r.entry k)
    missing := (found.filter (!known.contains ·)).map fun k => (k, r.entry k)
    unused := (known.filter (!r.refs.keys.contains ·)).insertionSort (· ≤ ·) }

section Summary

variable {r : Scan} {known : List Text} {key : Text}

theorem mem_unused : key ∈ (summarize r known).unused ↔ key ∈ known ∧ key ∉ r.refs.keys := by
  simp [summarize]

theorem mem_missing :
    key ∈ (summarize r known).missing.map Prod.fst ↔ key ∈ r.refs.keys ∧ key ∉ known := by
  simp [summarize]

end Summary

end HaAddons.SecretsSync.Usage
