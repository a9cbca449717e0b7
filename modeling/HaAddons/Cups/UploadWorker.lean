import HaAddons.Lib.Dict
import HaAddons.Lib.PyJson
import HaAddons.Lib.PyText
import HaAddons.Lib.Script
import HaAddons.Lib.System
import Mathlib.Data.List.Sort
import Mathlib.Data.Char
import Mathlib.Data.List.Lex

/-!
# The upload worker

A poll loop carries each PDF that the print queue leaves in `incoming/` to an archive server: into
`processing/` before the first attempt, then to `sent/`, or to `failed/` when the attempts are used
up. Each file operation is one step, so that the queue can write and the container can be killed
between any two of them.

* `World` — the files of the four stages, the clock, what the server answers, and the requests that
  were sent. `arrived`, `reused` and `overwritten` are a record for the proofs.
* `Op` — the file operations, each of which may fail.
* `pollOnce` — one cycle of the worker, in the words of the source.
* `outbox` — the worker, started and killed at any time, among a queue that writes files, a clock
  that runs and a server that answers as it likes.
-/

namespace HaAddons.Outbox

open HaAddons.Lib.Py (Text strip)

variable {φ : Type}

/-! ## Files -/

inductive Stage where
  | incoming
  | processing
  | sent
  | failed
  deriving DecidableEq, Repr

structure Place where
  stage : Stage
  name : Text
  deriving DecidableEq, Repr

/-- What is in a file: a text that `json.loads` reads, or other bytes. -/
inductive Content (φ : Type) where
  | json (v : PyJson φ)
  | data (bytes : List UInt8)

/-- `name.rpartition(".")` where both parts are there: the stem, and the suffix with its dot. -/
def splitName (name : Text) : Text × Text :=
  let ext := (name.reverse.takeWhile (· ≠ '.')).reverse
  let head := name.take (name.length - (ext.length + 1))
  if '.' ∈ name ∧ head ≠ [] ∧ ext ≠ [] then (head, '.' :: ext) else (name, [])

/-- `Path(name).stem` -/
def stem (name : Text) : Text := (splitName name).1

/-- `Path(name).suffix` -/
def suffix (name : Text) : Text := (splitName name).2

def pdfSuffix : Text := ['.', 'p', 'd', 'f']

def sidecarSuffix : Text := ['.', 'j', 's', 'o', 'n']

def retryStateSuffix : Text := ['.', 'r', 'e', 't', 'r', 'y', '.', 'j', 's', 'o', 'n']

def tmpSuffix : Text := ['.', 't', 'm', 'p']

/-- `glob("*.pdf")` finds the name. -/
def isPdf (name : Text) : Bool := pdfSuffix.isSuffixOf name

/-- `pdf_path.parent / (pdf_path.stem + ".json")` -/
def sidecarPath (pdf : Place) : Place := ⟨pdf.stage, stem pdf.name ++ sidecarSuffix⟩

def retryStatePath (pdf : Place) : Place := ⟨pdf.stage, stem pdf.name ++ retryStateSuffix⟩

/-! ## Python -/

/-- A moment: of a known zone, or of none. -/
inductive Moment where
  | aware (micros : ℤ)
  | naive

/-- What is Python's own: `str`, the truth and the integer part of a float, the digits that `int`
takes, and the texts of moments. A moment that is written is read back. -/
structure Python (φ : Type) where
  str : PyJson φ → Text
  floatTruthy : φ → Bool
  floatInt : φ → Option ℤ
  numerals : Lib.Py.Numerals
  isoformat : ℤ → String
  fromisoformat : String → Option Moment
  strftime : String → ℤ → Text
  fromisoformat_isoformat : ∀ t, fromisoformat (isoformat t) = some (.aware t)

/-- `bool(v)` -/
def Python.truthy (py : Python φ) : PyJson φ → Bool
  | .none => false
  | .bool b => b
  | .int n => n ≠ 0
  | .float x => py.floatTruthy x
  | .str s => s ≠ ""
  | .list items => !items.isEmpty
  | .dict entries => !entries.isEmpty

/-- `int(v)`; `none` is an exception. -/
def Python.int (py : Python φ) : PyJson φ → Option ℤ
  | .bool b => some (if b then 1 else 0)
  | .int n => some n
  | .float x => py.floatInt x
  | .str s => Lib.Py.pyInt py.numerals s.toList
  | _ => none

/-! ## The world -/

/-- What comes of a request: an exception, or a status and the body, as far as it is JSON. -/
inductive Answer (φ : Type) where
  | raised
  | response (status : ℕ) (body : Option (PyJson φ))

/-- A request that was sent, and its answer. -/
structure Post (φ : Type) where
  url : Text
  authorization : Text
  timeout : ℤ
  name : Text
  document : Content φ
  title : Text
  time : ℤ
  answer : Answer φ

/-- `now` counts microseconds; the latest request stands first. -/
structure World (φ : Type) where
  files : Dict Place (Content φ)
  now : ℤ
  answer : Answer φ
  posts : List (Post φ) := []
  /-- The PDFs that came into `incoming/`. -/
  arrived : List (Text × Content φ) := []
  /-- The names of those that came while the name was in use there or in `processing/`. -/
  reused : List Text := []
  /-- The PDFs that others took the place of. -/
  overwritten : List (Place × Content φ) := []

/-- What is at the place, if it is a PDF that would be lost there. -/
def World.losing (w : World φ) (p : Place) : List (Place × Content φ) :=
  if isPdf p.name then ((w.files.get? p).map fun c => (p, c)).toList else []

/-- The options that the worker reads. -/
structure Config where
  url : Option String
  token : Option String
  timeout : Option ℤ
  retryCount : Option ℤ
  retryDelay : Option ℤ

/-- `int(config.get(key, default) or default)` -/
def intOr (value : Option ℤ) (default : ℤ) : ℤ :=
  match value with
  | some 0 | none => default
  | some n => n

def Config.attempts (cfg : Config) : ℤ := intOr cfg.retryCount 5

/-- In microseconds. -/
def Config.delay (cfg : Config) : ℤ := intOr cfg.retryDelay 60 * 1000000

inductive Op where
  | read (p : Place)
  | replace (src dst : Place)
  | unlink (p : Place)
  | writeState (p : Place) (attempts : ℤ) (nextAttemptAt : String)
  | post (p : Place) (url authorization title : Text) (timeout : ℤ)

/-- `{"attempts": attempts, "next_attempt_at": next_attempt_at.isoformat()}` -/
def retryState (attempts : ℤ) (nextAttemptAt : String) : PyJson φ :=
  .dict [("attempts", .int attempts), ("next_attempt_at", .str nextAttemptAt)]

/-- What an operation does. Each but a write needs its file; the failure is an `OSError`. -/
def World.apply (o : Op) (w : World φ) : Except Unit (World φ) :=
  match o with
  | .read p => if (w.files.get? p).isSome then .ok w else .error ()
  | .replace src dst =>
    match w.files.get? src with
    | none => .error ()
    | some c =>
      if src = dst then .ok w
      else
        .ok { w with
          files := (w.files.erase src).insert dst c
          overwritten := w.losing dst ++ w.overwritten }
  | .unlink p =>
    if (w.files.get? p).isSome then .ok { w with files := w.files.erase p } else .error ()
  | .writeState p n t => .ok { w with files := w.files.insert p (.json (retryState n t)) }
  | .post p url authorization title timeout =>
    match w.files.get? p with
    | none => .error ()
    | some c =>
      .ok { w with
        posts := ⟨url, authorization, timeout, p.name, c, title, w.now, w.answer⟩ :: w.posts }

/-- The worker's programs. What they raise, `except Exception` takes. -/
abbrev Worker (φ α : Type) := Script Op Unit (World φ) Unit α

def act (o : Op) : Worker φ Unit := Script.act id o

def look {α : Type} (f : World φ → α) : Worker φ α := Script.get f

def pathExists (p : Place) : Worker φ Bool := look fun w => (w.files.get? p).isSome

/-! ## The worker -/

section Worker

variable (py : Python φ) (cfg : Config)

/-- `json.loads(path.read_text())`, where its exceptions are taken. -/
def readJson (p : Place) : Worker φ (Option (PyJson φ)) :=
  .op (.read p)
    (look fun w =>
      match w.files.get? p with
      | some (.json v) => some v
      | _ => none)
    fun _ => pure none

def titleMaxLength : ℕ := 128

def readSidecar (pdf : Place) : Worker φ (Option (PyJson φ)) := do
  if ← pathExists (sidecarPath pdf) then readJson (sidecarPath pdf) else pure none

def readTitle (pdf : Place) : Worker φ Text := do
  let recorded ← readSidecar pdf
  let title := (recorded.getD .none).get "title"
  let now ← look World.now
  let text := if py.truthy title then py.str title
    else "Scan_".toList ++ py.strftime "%Y-%m-%d_%H-%M-%S" now
  pure ((strip text).take titleMaxLength)

/-- `_disambiguation_suffix` at a moment. -/
def tag (pid : ℕ) (now : ℤ) : Text :=
  '-' :: py.strftime "%Y%m%dT%H%M%S%f" now ++ '-' :: Nat.toDigits 10 pid

/-- The name with a tag before its suffix. -/
def tagged (name tag : Text) : Text := stem name ++ tag ++ suffix name

def disambiguationSuffix (pid : ℕ) : Worker φ Text := look fun w => tag py pid w.now

def uniqueDestination (pid : ℕ) (stage : Stage) (name : Text) (given : Option Text) :
    Worker φ Place := do
  if !(← pathExists ⟨stage, name⟩) then pure ⟨stage, name⟩
  else
    let tag ← match given with
      | some tag => pure tag
      | none => disambiguationSuffix py pid
    pure ⟨stage, tagged name tag⟩

/-- `src.replace(unique_destination(stage, src.name, tag=given))` -/
def moveTo (pid : ℕ) (src : Place) (stage : Stage) (given : Option Text) : Worker φ Unit := do
  let dst ← uniqueDestination py pid stage src.name given
  act (.replace src dst)

/-- Absent and malformed states are `none`. -/
def loadRetryState (pdf : Place) : Worker φ (Option (PyJson φ)) := do
  if !(← pathExists (retryStatePath pdf)) then pure none
  else
    let parsed ← readJson (retryStatePath pdf)
    pure (parsed.filter PyJson.isDict)

def saveRetryState (pdf : Place) (attempts nextAttemptAt : ℤ) : Worker φ Unit := do
  let statePath := retryStatePath pdf
  let tmpPath : Place := ⟨statePath.stage, statePath.name ++ tmpSuffix⟩
  act (.writeState tmpPath attempts (py.isoformat nextAttemptAt))
  act (.replace tmpPath statePath)

/-- Whether a state lets the next attempt begin; `none` is the `TypeError` of a comparison with
something else than a moment of a known zone. -/
def dueAt (state : Option (PyJson φ)) (now : ℤ) : Option Bool :=
  match state.bind (·.get? "next_attempt_at") with
  | none => some true
  | some (.str s) =>
    match py.fromisoformat s with
    | none => some true
    | some .naive => none
    | some (.aware t) => some (decide (t ≤ now))
  | some _ => none

def isDue (pdf : Place) : Worker φ Bool := do
  let state ← loadRetryState pdf
  let now ← look World.now
  match dueAt py state now with
  | some due => pure due
  | none => .raise ()

/-- `_is_task_id_body` -/
def isTaskIdBody : Option (PyJson φ) → Bool
  | some (.str s) => strip s.toList ≠ []
  | _ => false

/-- What `upload_document` makes of an answer. -/
def accepted : Answer φ → Bool
  | .raised => false
  | .response status body =>
    if 300 ≤ status ∧ status < 400 then false
    else if status = 200 ∧ !isTaskIdBody body then false
    else status = 200

def paperlessEndpoint : Text := "/api/documents/post_document/".toList

/-- `url.rstrip("/")` -/
def rstripSlash (url : Text) : Text := (url.reverse.dropWhile (· = '/')).reverse

def uploadDocument (pdf : Place) : Worker φ Bool := do
  let url := rstripSlash (cfg.url.getD "").toList
  let token := (cfg.token.getD "").toList
  let timeout := intOr cfg.timeout 30
  let title ← readTitle py pdf
  act (.post pdf (url ++ paperlessEndpoint) ("Token ".toList ++ token) title timeout)
  let answer ← look fun w => w.posts.head?.map Post.answer
  pure (answer.any accepted)

/-- `if path.exists():` -/
def whenThere (p : Place) (s : Worker φ Unit) : Worker φ Unit := do
  if ← pathExists p then s

def routeSent (pid : ℕ) (pdf : Place) : Worker φ Unit := do
  whenThere (sidecarPath pdf) (act (.unlink (sidecarPath pdf)))
  whenThere (retryStatePath pdf) (act (.unlink (retryStatePath pdf)))
  moveTo py pid pdf .sent none

/-- One tag for a PDF and its sidecar, if the name of the PDF is taken in `failed/`. -/
def collisionTag (pid : ℕ) (name : Text) : Worker φ (Option Text) := do
  if ← pathExists ⟨.failed, name⟩ then
    let tag ← disambiguationSuffix py pid
    pure (some tag)
  else pure none

def routeFailed (pid : ℕ) (pdf : Place) : Worker φ Unit := do
  let collisionTag ← collisionTag py pid pdf.name
  moveTo py pid pdf .failed collisionTag
  whenThere (sidecarPath pdf) (moveTo py pid (sidecarPath pdf) .failed collisionTag)
  whenThere (retryStatePath pdf) (act (.unlink (retryStatePath pdf)))

def attemptAndRoute (pid : ℕ) (pdf : Place) (priorAttempts : ℤ) : Worker φ Unit := do
  if ← uploadDocument py cfg pdf then routeSent py pid pdf
  else
    let attempts := priorAttempts + 1
    if cfg.attempts ≤ attempts then routeFailed py pid pdf
    else
      let now ← look World.now
      saveRetryState py pdf attempts (now + cfg.delay)

def processNewDocument (pid : ℕ) (name : Text) : Worker φ Unit := do
  let pdf : Place := ⟨.incoming, name⟩
  act (.replace pdf ⟨.processing, name⟩)
  whenThere (sidecarPath pdf)
    (act (.replace (sidecarPath pdf) ⟨.processing, (sidecarPath pdf).name⟩))
  attemptAndRoute py cfg pid ⟨.processing, name⟩ 0

/-- `int(state.get("attempts", 0) or 0)` -/
def priorAttempts (state : Option (PyJson φ)) : Option ℤ :=
  let attempts := (state.getD .none).get "attempts"
  if py.truthy attempts then py.int attempts else some 0

def processDueRetry (pid : ℕ) (name : Text) : Worker φ Unit := do
  let pdf : Place := ⟨.processing, name⟩
  let state ← loadRetryState pdf
  match priorAttempts py state with
  | some n => attemptAndRoute py cfg pid pdf n
  | none => .raise ()

/-- `sorted(directory.glob("*.pdf"))` -/
def pdfs (w : World φ) (stage : Stage) : List Text :=
  ((w.files.keys.filter fun p => p.stage = stage ∧ isPdf p.name).map Place.name).insertionSort
    (· ≤ ·)

/-- `except Exception`: the document is left as it is. -/
def guarded (s : Worker φ Unit) : Worker φ Unit := s.handle fun _ => pure ()

def retryIfDue (pid : ℕ) (name : Text) : Worker φ Unit := do
  if ← isDue py ⟨.processing, name⟩ then processDueRetry py cfg pid name

def pollOnce (pid : ℕ) : Worker φ Unit := do
  let new ← look (pdfs · .incoming)
  new.foldlM (fun _ name => guarded (processNewDocument py cfg pid name)) ()
  let waiting ← look (pdfs · .processing)
  waiting.foldlM (fun _ name => guarded (retryIfDue py cfg pid name)) ()

end Worker

/-! ## The outbox -/

structure State (φ : Type) where
  world : World φ
  worker : Option (Worker φ Unit) := none

/-- The print queue writes a file, time goes by, the server changes its mind; the worker begins a
cycle, makes a step that may fail, or is killed. -/
inductive Event (φ : Type) where
  | arrive (name : Text) (c : Content φ)
  | tick (micros : ℕ)
  | answers (a : Answer φ)
  | poll
  | step (failure : Option Unit)
  | killed

/-- A file is written to `incoming/`. -/
def World.arrive (w : World φ) (name : Text) (c : Content φ) : World φ :=
  { w with
    files := w.files.insert ⟨.incoming, name⟩ c
    arrived := if isPdf name then (name, c) :: w.arrived else w.arrived
    reused := if isPdf name ∧ ((w.files.get? ⟨.incoming, name⟩).isSome ∨
        (w.files.get? ⟨.processing, name⟩).isSome) then name :: w.reused else w.reused
    overwritten := w.losing ⟨.incoming, name⟩ ++ w.overwritten }

def State.next (py : Python φ) (cfg : Config) (pid : ℕ) (s : State φ) : Event φ → Option (State φ)
  | .arrive name c => some { s with world := s.world.arrive name c }
  | .tick n => some { s with world := { s.world with now := s.world.now + n } }
  | .answers a => some { s with world := { s.world with answer := a } }
  | .poll =>
    match s.worker with
    | none | some (.done _) | some (.raise _) =>
      some { s with worker := some (pollOnce py cfg pid) }
    | _ => none
  | .step failure =>
    match s.worker with
    | none => none
    | some worker => (Script.next World.apply (s.world, worker) failure).map fun r =>
        ⟨r.1, some r.2⟩
  | .killed => some { s with worker := none }

/-- The worker and its surroundings, on empty directories at first. -/
def outbox (py : Python φ) (cfg : Config) (pid : ℕ) : System (State φ) (Event φ) where
  init s := (∃ now answer, s.world = { files := .empty, now := now, answer := answer }) ∧
    s.worker = none
  next s l := s.next py cfg pid l

/-! ## A sample -/

/-- The moments of a run of two minutes, and the digits of others. -/
def samplePy : Python Empty where
  str
    | .str s => s.toList
    | _ => []
  floatTruthy x := x.elim
  floatInt x := x.elim
  numerals := Lib.Py.Numerals.plain
  isoformat t := if t = 60000000 then "1970-01-01T00:01:00+00:00" else String.ofList (Doc.decimal t)
  fromisoformat s :=
    if s = "1970-01-01T00:01:00+00:00" then some (.aware 60000000)
    else (Doc.readInt s.toList).map fun r => .aware r.1
  strftime _ _ := "1970-01-01_00-00-00".toList
  fromisoformat_isoformat t := by
    by_cases ht : t = 60000000
    · simp [ht]
    · have hread : Doc.readInt (Doc.decimal t) = some (t, []) := by
        have h := Doc.readInt_decimal t (s := []) (by simp [Doc.NoDigit])
        rwa [List.append_nil] at h
      have hne : String.ofList (Doc.decimal t) ≠ "1970-01-01T00:01:00+00:00" := by
        intro heq
        rw [← String.toList_inj, String.toList_ofList] at heq
        have hdate : Doc.readInt "1970-01-01T00:01:00+00:00".toList ≠ some (t, []) := by
          have hread : Doc.readInt "1970-01-01T00:01:00+00:00".toList =
            some (1970, "-01-01T00:01:00+00:00".toList) := by decide
          rw [hread]
          simp
        exact hdate (heq ▸ hread)
      simp [ht, hne, hread]

def sampleConfig : Config where
  url := some "http://archive:8000/"
  token := some "t"
  timeout := none
  retryCount := some 2
  retryDelay := none

def samplePdf : Text := "scan-job_1.pdf".toList

def sampleStart : State Empty :=
  { world := { files := .empty, now := 0, answer := .raised } }

end HaAddons.Outbox
