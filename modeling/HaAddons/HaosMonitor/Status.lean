import Mathlib.Data.Int.Notation
import HaAddons.Lib.Dict
import HaAddons.Lib.Matching

/-!
# The status of one host

`status.sh` derives the status from the last lines of the monitor's log. Its awk program keeps what
the newest sample, the newest probe and the kernel error lines say, and the shell makes flags of it.
What the awk at hand decides by itself (floating point, the order of `for (k in a)`) is a parameter.
-/

namespace HaAddons.HaosMonitor

open Lib

abbrev Text := List Char

/-! ## Texts -/

def isBlank (c : Char) : Bool := c == ' ' || c == '\t'

/-- `$1`, `$2`, ..., `$NF` -/
def fields (line : Text) : List Text := (line.splitOnP isBlank).filter (· ≠ [])

/-- `$n` -/
def field (line : Text) (n : ℕ) : Text := (fields line).getD (n - 1) []

/-- `val` -/
def val (s : Text) : Text := if '=' ∈ s then (s.dropWhile (· ≠ '=')).tail else s

/-- `[0-9.]` -/
def isNumberChar (c : Char) : Bool := c.isDigit || c == '.'

/-- `/^[0-9.]+$/` -/
def isNumber (s : Text) : Bool := s ≠ [] && s.all isNumberChar

/-- `/^[0-9]+$/` -/
def isDigits (s : Text) : Bool := s ≠ [] && s.all Char.isDigit

/-- A literal, and the longest run of characters after it. -/
def afterLit (lit : Text) (p : Char → Bool) (s : Text) : Option (Text × Text) :=
  (lit.isPrefixOf? s).bind fun t =>
    if t.takeWhile p = [] then none else some (t.takeWhile p, t.dropWhile p)

/-- A literal, and what is up to a quote. -/
def quotedAfter (lit s : Text) : Option (Text × Text) :=
  (lit.isPrefixOf? s).bind fun t =>
    (['"'].isPrefixOf? (t.dropWhile (· ≠ '"'))).map fun rest => (t.takeWhile (· ≠ '"'), rest)

def minusOne : Text := ['-', '1']

/-- `avg` -/
def avg (s : Text) : Text :=
  match search (afterLit "avg10=".toList isNumberChar) s with
  | some (_, v, _) => v
  | none => minusOne

/-- `avg` of the field `name="..."` of a line, if it is there. -/
def avgOf (name line : Text) : Option Text :=
  (search (quotedAfter (name ++ "=\"".toList)) line).map fun r =>
    avg (name ++ "=\"".toList ++ r.2.1 ++ ['"'])

/-- The characters of a task that `gsub` leaves. -/
def isTaskChar (c : Char) : Bool := c.isAlphanum || c ∈ [' ', '(', ')', ':', '.', '_', '/', '-']

/-- The characters of a kernel error that `gsub` leaves. -/
def isKmsgChar (c : Char) : Bool := isTaskChar c || c == '=' || c == ','

/-! ## The awk program -/

/-- What the awk at hand decides. -/
structure Machine (F : Type) where
  num : Text → F
  int : ℤ → F
  add : F → F → F
  sub : F → F → F
  div : F → F → F
  lt : F → F → Bool
  /-- a text is at least a number -/
  atLeast : Text → ℤ → Bool
  /-- the keys of an array as `for (k in a)` takes them -/
  forIn : List Text → List Text

/-- The variables of the program; a missing one was not assigned yet. -/
structure Awk (F : Type) where
  sts : Text
  dstate : ℕ
  tasks : Text
  up : Option Text
  prevUp : Option F
  load1 : Option Text
  ioSome : Option Text
  ioFull : Option Text
  memFull : Option Text
  syncState : Text
  syncTs : Text
  sda : Option Text
  mmc : Option Text
  /-- `kts` and `kmsg` -/
  kerr : Dict Text (F × Text)
  pts : Text
  ping : Option Bool
  p22222 : Option Bool
  p1883 : Option Bool
  p8123 : Option Bool
  p4357 : Option Bool

def Awk.init {F : Type} : Awk F where
  sts := []
  dstate := 0
  tasks := []
  up := none
  prevUp := none
  load1 := none
  ioSome := none
  ioFull := none
  memFull := none
  syncState := []
  syncTs := []
  sda := none
  mmc := none
  kerr := Dict.empty
  pts := []
  ping := none
  p22222 := none
  p1883 := none
  p8123 := none
  p4357 := none

/-- `DSTATE_IGNORE` -/
def dstateIgnore : List Text :=
  ["anon_pipe_read".toList, "anon_pipe_write".toList, "pipe_read".toList, "pipe_write".toList,
    "worker_thread".toList]

/-- The command of a task. -/
def comm (line : Text) : Text := [' '].intercalate ((fields line).drop 3).dropLast

/-- What a task waits for. -/
def wchan (line : Text) : Text := val ((fields line).getLastD [])

/-- A line of a blocked task that counts. -/
def countsTask (line : Text) : Bool :=
  !dstateIgnore.contains (wchan line) &&
    !("(jbd2/".toList.isPrefixOf (comm line) && wchan line == "__wait_on_buffer".toList)

section Program

variable {F : Type} (a : Machine F) (s : Awk F)

/-- `reboot_check` -/
def rebootCheck (u : Text) : Awk F :=
  if isNumber u then
    let rebooted := s.prevUp.any fun p => a.lt (a.add (a.num u) (a.int 1)) p
    { s with
      kerr := if rebooted then Dict.empty else s.kerr
      prevUp := some (a.add (a.num u) (a.int 0)) }
  else s

/-- `kind == "SAMPLE"` -/
def sample (line : Text) : Awk F :=
  let up := if isNumber (val (field line 3)) then val (field line 3) else minusOne
  let s := rebootCheck a { s with sts := field line 1, dstate := 0, tasks := [], up := some up } up
  { s with
    load1 := ((search (afterLit "load=\"".toList isNumberChar) line).map (·.2.1)).or s.load1
    ioSome := (avgOf "io_some".toList line).or s.ioSome
    ioFull := (avgOf "io_full".toList line).or s.ioFull
    memFull := (avgOf "mem_full".toList line).or s.memFull }

/-- `/^[0-9TZ:-]+$/` -/
def isStamp (ts : Text) : Bool :=
  ts ≠ [] && ts.all fun c => c.isDigit || c ∈ ['T', 'Z', ':', '-']

/-- `kind == "SYNC"` -/
def sync (line : Text) : Awk F :=
  let state := field line 3
  if (state == "start".toList || state == "done".toList) && isStamp (field line 1) then
    { s with syncState := state, syncTs := field line 1 }
  else s

/-- `sub(/^[^ ]+ KERR /, "", line)` -/
def kerrText (line : Text) : Text :=
  if line.head? = some ' ' then line
  else (" KERR ".toList.isPrefixOf? (line.dropWhile (· ≠ ' '))).getD line

/-- `kind == "KERR"` -/
def kerr (line : Text) : Awk F :=
  let line := kerrText line
  let parts := line.splitOn ','
  let number := parts.getD 1 []
  let time := parts.getD 2 []
  if !isDigits number || !isDigits time || (s.kerr.get? number).isSome then s
  else
    let msg := if ';' ∈ line then (line.dropWhile (· ≠ ';')).tail else line
    { s with kerr := s.kerr.insert number (a.div (a.num time) (a.int 1000000), msg) }

/-- `kind == "DISK"` -/
def disk (line : Text) : Awk F :=
  let v := if isDigits (val (field line 4)) then val (field line 4) else minusOne
  if field line 3 = "sda".toList then { s with sda := some v }
  else if field line 3 = "mmcblk1".toList then { s with mmc := some v }
  else s

/-- `kind == "DSTATE"` -/
def dstate (line : Text) : Awk F :=
  if countsTask line then
    let t := (field line 3 ++ ' ' :: comm line ++ ':' :: wchan line).filter isTaskChar
    { s with
      dstate := s.dstate + 1
      tasks := if s.tasks = [] then t else s.tasks ++ "; ".toList ++ t }
  else s

/-- One port of a probe line: `split($i, kv, "=")`. -/
def probePort (kv : List Text) : Awk F :=
  let o := kv.getD 1 [] == "open".toList
  let port := kv.getD 0 []
  if port = "22222".toList then { s with p22222 := some o }
  else if port = "1883".toList then { s with p1883 := some o }
  else if port = "8123".toList then { s with p8123 := some o }
  else if port = "4357".toList then { s with p4357 := some o }
  else s

/-- `kind == "PROBE"` -/
def probe (line : Text) : Awk F :=
  let s := { s with pts := field line 1, ping := some (val (field line 3) == "ok".toList) }
  ((fields line).drop 3).foldl (fun s kv => probePort s (kv.splitOn '=')) s

/-- One line. -/
def awkLine (line : Text) : Awk F :=
  let kind := field line 2
  if kind = "SAMPLE".toList then sample a s line
  else if kind = "SYNC".toList then sync s line
  else if kind = "BOOT".toList then rebootCheck a s (val (field line 3))
  else if kind = "KERR".toList then kerr a s line
  else if kind = "DISK".toList then disk s line
  else if kind = "DSTATE".toList then dstate s line
  else if kind = "PROBE".toList then probe s line
  else s

/-- `KMSG_WINDOW` -/
def kmsgWindow : ℤ := 600

/-- A kernel error counts: it is in the window before the host's uptime. -/
def inWindow (up : Option Text) (t : F) : Bool :=
  let d := a.sub (a.num (up.getD [])) t
  up.all (a.atLeast · 0) && !a.lt d (a.int (-1)) && !a.lt (a.int kmsgWindow) d

/-- The loop of `END`: the count, and the newest error. -/
def kernelErrors : ℕ × Text :=
  let r := (a.forIn s.kerr.keys).foldl (fun (r : ℕ × F × Text) k =>
    match s.kerr.get? k with
    | none => r
    | some (t, msg) =>
      if inWindow a s.up t then
        if a.lt r.2.1 t then (r.1 + 1, t, msg) else (r.1 + 1, r.2)
      else r) (0, a.int (-1), [])
  (r.1, (r.2.2.filter isKmsgChar).take 120)

/-- What the program prints, and `eval` assigns. -/
structure Vars where
  sts : Text
  syncState : Text
  syncTs : Text
  pts : Text
  up : Text
  load1 : Text
  ioSome10 : Text
  ioFull10 : Text
  memFull10 : Text
  sdaInflight : Text
  mmcInflight : Text
  dstate : ℤ
  dstateTasks : Text
  kmsgErrors : ℤ
  kmsgLast : Text
  ping : ℤ
  p22222 : ℤ
  p1883 : ℤ
  p8123 : ℤ
  p4357 : ℤ

/-- An answer of a probe. -/
def answer (o : Option Bool) : ℤ :=
  match o with
  | none => -1
  | some true => 1
  | some false => 0

/-- `END` -/
def awkEnd : Vars where
  sts := s.sts
  syncState := s.syncState
  syncTs := s.syncTs
  pts := s.pts
  up := s.up.getD minusOne
  load1 := s.load1.getD minusOne
  ioSome10 := s.ioSome.getD minusOne
  ioFull10 := s.ioFull.getD minusOne
  memFull10 := s.memFull.getD minusOne
  sdaInflight := s.sda.getD minusOne
  mmcInflight := s.mmc.getD minusOne
  dstate := if s.sts = [] then -1 else s.dstate
  dstateTasks := s.tasks
  kmsgErrors :=
    if s.sts = [] ∨ s.up.all (a.atLeast · 0) = false then -1 else (kernelErrors a s).1
  kmsgLast := (kernelErrors a s).2
  ping := answer s.ping
  p22222 := answer s.p22222
  p1883 := answer s.p1883
  p8123 := answer s.p8123
  p4357 := answer s.p4357

/-- The program on its input. -/
def awk (data : List Text) : Vars := awkEnd a (data.foldl (awkLine a) Awk.init)

end Program

/-! ## The shell -/

/-- The kinds of lines that `FILTER` lets through. -/
def kinds : List Text :=
  ["SAMPLE".toList, "DISK".toList, "DSTATE".toList, "PROBE".toList, "BOOT".toList, "KERR".toList,
    "SYNC".toList]

/-- `grep -E "$FILTER"`: `^[^ ]+ (SAMPLE|DISK|DSTATE|PROBE|BOOT|KERR|SYNC) ` -/
def passes (line : Text) : Bool :=
  line.head?.any (· ≠ ' ') &&
    kinds.any fun kind => (' ' :: kind ++ [' ']).isPrefixOf (line.dropWhile (· ≠ ' '))

/-- `tail -n 3000` -/
def tail3000 (file : List Text) : List Text := file.drop (file.length - 3000)

/-- The files of one host, as lines. -/
structure Logs where
  /-- `$LOG.state`, if it is there -/
  state : Option (List Text)
  log : List Text
  log1 : List Text

/-- The lines that awk reads. -/
def Logs.data (f : Logs) : List Text :=
  match f.state with
  | some lines => (tail3000 lines).filter passes
  | none =>
    let data := (tail3000 f.log).filter passes
    if data.any fun line => decide (" SAMPLE ".toList <:+: line) then data
    else (tail3000 f.log1).filter passes ++ data

/-- The options. -/
structure Thresholds where
  problemAge : ℤ
  problemIoFull10 : ℤ
  problemSdaInflight : ℤ
  problemDstate : ℤ
  problemKmsg : ℤ

/-- `SYNC_MAX` -/
def syncMax : ℤ := 600

/-- `age_of`, where `epoch` is `date -d` on a timestamp. -/
def ageOf (epoch : Text → Option ℤ) (now : ℤ) (ts : Text) : ℤ :=
  if ts = [] then 999999 else (epoch ts).elim 999999 (now - ·)

/-- The status JSON, less the key's fingerprint and type. -/
structure Report where
  vars : Vars
  age : ℤ
  probeAge : ℤ
  syncing : Bool
  rAge : Bool
  rIo : Bool
  rSda : Bool
  rDstate : Bool
  rKmsg : Bool

/-- `problem` -/
def Report.problem (r : Report) : Bool := r.rAge || r.rIo || r.rSda || r.rDstate || r.rKmsg

/-- `reasons` -/
def Report.reasons (r : Report) : Text :=
  let names := [(r.rAge, "stale".toList), (r.rIo, "io_full10".toList),
    (r.rSda, "sda_inflight".toList), (r.rDstate, "dstate".toList), (r.rKmsg, "kmsg".toList)]
  let fired := (names.filter (·.1)).map (·.2)
  if fired = [] then "none".toList else [','].intercalate fired

section Shell

variable {F : Type} (a : Machine F) (t : Thresholds) (epoch : Text → Option ℤ)

/-- `status.sh`, at the time `now`. -/
def status (now : ℤ) (f : Logs) : Report :=
  let v := awk a f.data
  let age := ageOf epoch now v.sts
  let syncing := v.syncState == "start".toList && decide (ageOf epoch now v.syncTs ≤ syncMax)
  { vars := v
    age := age
    probeAge := ageOf epoch now v.pts
    syncing := syncing
    rAge := decide (t.problemAge ≤ age) && !syncing
    rIo := a.atLeast v.ioFull10 t.problemIoFull10
    rSda := a.atLeast v.sdaInflight t.problemSdaInflight
    rDstate := decide (t.problemDstate ≤ v.dstate)
    rKmsg := decide (t.problemKmsg ≤ v.kmsgErrors) }

theorem status_rDstate (now : ℤ) (f : Logs) : (status a t epoch now f).rDstate =
    decide (t.problemDstate ≤ (status a t epoch now f).vars.dstate) := rfl

end Shell

end HaAddons.HaosMonitor
