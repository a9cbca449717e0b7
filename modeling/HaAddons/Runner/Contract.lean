import Mathlib.Data.Int.Notation
import Mathlib.Data.List.Basic

/-!
# The runner's shared vocabulary

Run kinds, run statuses, error codes and the typed git error of the iac-runner, with the
normalization of the request's `dir` field (`ValidateDir`).

Times are exact instants, counted in nanoseconds.
-/

namespace HaAddons.Runner

/-- An instant, in nanoseconds. -/
abbrev Time := ℤ

/-- A commit id; the empty string stands for "unknown", as in the source. -/
abbrev Commit := String

/-- `RunKind` is a string type in the source: `runJob` has a branch for every other value. -/
inductive RunKind where
  | plan
  | apply
  | other (name : String)
  deriving DecidableEq, Repr

inductive RunStatus where
  | queued
  | running
  | succeeded
  | failed
  | interrupted
  deriving DecidableEq, Repr

/-! ## Error codes -/

def errCodeGitRefNotFound := "git_ref_not_found"
def errCodeGitNonFastForward := "git_non_fast_forward"
def errCodeGitCloneMissing := "git_clone_missing"
def errCodeGitRefPullIncompatible := "git_ref_pull_incompatible"
def errCodeRunTofuNotFound := "run_tofu_not_found"
def errCodeRunInvalidDir := "run_invalid_dir"
def errCodeRunUnknownRepo := "run_unknown_repo"
def errCodeApplyAlreadyRunning := "apply_already_running"
def errCodeApplyTimeout := "apply_timeout"
def errCodeApplyFailed := "apply_failed"
def errCodePlanTimeout := "plan_timeout"
def errCodeApplyCapacityExhausted := "apply_capacity_exhausted"

/-- The typed failure of the git package. -/
structure GitError where
  code : String
  message : String
  hint : String
  deriving DecidableEq, Repr

/-! ## Listing bounds -/

def defaultRunListLimit : ℤ := 20
def maxRunListLimit : ℤ := 100

/-! ## The `dir` field -/

def invalidDirMessage :=
  "dir must be a relative path under the repo working tree; " ++
    "leading '/' and '..' segments are forbidden"

/-- `strings.Split(s, "/")`. -/
def splitSlash (s : String) : List (List Char) := s.toList.splitOn '/'

/-- One element of a path on the way through `filepath.Clean`; the segments kept so far are
listed last first. -/
def cleanStep (rooted : Bool) (out : List (List Char)) (seg : List Char) : List (List Char) :=
  if seg = [] ∨ seg = ['.'] then out
  else if seg = ['.', '.'] then
    match out with
    | [] => if rooted then [] else [seg]
    | last :: rest => if last = ['.', '.'] then seg :: out else rest
  else seg :: out

/-- `filepath.Clean`. -/
def clean (path : String) : String :=
  let rooted := path.toList.head? = some '/'
  let out := ((splitSlash path).foldl (cleanStep rooted) []).reverse
  let body := (['/'].intercalate out)
  if rooted then String.ofList ('/' :: body)
  else if out = [] then "." else String.ofList body

/-- `runs.ValidateDir`: the cleaned relative path, or `none` for `ErrInvalidDir`. -/
def validateDir (dir : String) : Option String :=
  if '\x00' ∈ dir.toList then none
  else if dir = "" then some ""
  else if dir.toList.head? = some '/' then none
  else if ['.', '.'] ∈ splitSlash dir then none
  else
    let cleaned := clean dir
    if cleaned = "." then some ""
    -- The source repeats the check on the cleaned path.
    else if ['.', '.'] ∈ splitSlash cleaned ∨ cleaned.toList.head? = some '/' then none
    else some cleaned

example : validateDir "envs//./prod/" = some "envs/prod" := by decide

end HaAddons.Runner
