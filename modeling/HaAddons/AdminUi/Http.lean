import Mathlib.Data.List.Basic
import Mathlib.Data.List.TakeWhile
import Mathlib.Data.Nat.Notation

/-!
# What the server gets from `http.server` and `urllib`

Request lines, headers and targets as the standard library hands them to the handler. Texts are
Latin-1, one character for each byte.

* `words_append` — words before and after a white space.
* `urlsplit_plain` — a plain path is not touched by `urlsplit`.
-/

namespace HaAddons.AdminUi

abbrev Text := List Char

/-! ## Words -/

/-- White space of `str.split()`. -/
def isSpace (c : Char) : Bool :=
  c.toNat ∈ [0x09, 0x0a, 0x0b, 0x0c, 0x0d, 0x1c, 0x1d, 0x1e, 0x1f, 0x20, 0x85, 0xa0]

/-- `s.split()` -/
def words (s : Text) : List Text := (s.splitOnP isSpace).filter (· ≠ [])

/-- White space separates: the words on both sides are found for themselves. -/
theorem words_append (s t : Text) {c : Char} (hc : isSpace c = true) :
    words (s ++ c :: t) = words s ++ words t := by
  show ((s ++ c :: t).splitOnP isSpace).filter _ = _
  rw [List.splitOnP_append_cons s t hc]
  exact List.filter_append ..

theorem words_word {s : Text} (hne : s ≠ []) (hs : ∀ c ∈ s, isSpace c = false) :
    words s = [s] := by
  show (s.splitOnP isSpace).filter _ = _
  rw [List.splitOnP_eq_singleton hs]
  exact List.filter_cons_of_pos (decide_eq_true hne)

theorem not_of_mem_piece {p : Char → Bool} {s w : Text} (hw : w ∈ s.splitOnP p) :
    ∀ c ∈ w, p c = false := by
  induction s generalizing w with
  | nil =>
    rw [List.splitOnP_nil, List.mem_singleton] at hw
    rw [hw]
    exact fun c hc => absurd hc List.not_mem_nil
  | cons a s ih =>
    rw [List.splitOnP_cons_eq_if_modifyHead] at hw
    split_ifs at hw with ha
    · rcases List.mem_cons.mp hw with rfl | hw
      · exact fun c hc => absurd hc List.not_mem_nil
      · exact ih hw
    · cases hpieces : s.splitOnP p with
      | nil => exact absurd hpieces (List.splitOnP_ne_nil p s)
      | cons w' ws =>
        rw [hpieces] at hw ih
        rcases List.mem_cons.mp hw with rfl | hw
        · refine List.forall_mem_cons.mpr ⟨Bool.eq_false_iff.mpr ha, ?_⟩
          exact ih (List.mem_cons_self ..)
        · exact ih (List.mem_cons_of_mem _ hw)

theorem isSpace_of_mem_words {s w : Text} (hw : w ∈ words s) : ∀ c ∈ w, isSpace c = false :=
  not_of_mem_piece (List.mem_of_mem_filter hw)

/-- A word is read to its end. -/
theorem words_begin {u : Text} (hne : u ≠ []) (hu : ∀ c ∈ u, isSpace c = false) (rest : Text) :
    ∃ ws, words (u ++ rest) = (u ++ rest.takeWhile fun c => !isSpace c) :: ws := by
  have hword : ∀ c ∈ u ++ rest.takeWhile (fun c => !isSpace c), isSpace c = false := by
    intro c hc
    rcases List.mem_append.mp hc with hc | hc
    · exact hu c hc
    · simpa using List.mem_takeWhile_imp (p := fun c => !isSpace c) hc
  have hne' : u ++ rest.takeWhile (fun c => !isSpace c) ≠ [] := by simp [hne]
  have hrest := List.takeWhile_append_dropWhile (p := fun c => !isSpace c) (l := rest)
  cases hdrop : rest.dropWhile fun c => !isSpace c with
  | nil =>
    rw [hdrop, List.append_nil] at hrest
    rw [hrest] at hword hne' ⊢
    exact ⟨[], words_word hne' hword⟩
  | cons d t =>
    have hd : isSpace d = true := by
      have hhead := List.head_dropWhile_not (fun c => !isSpace c) (l := rest) (by simp [hdrop])
      simpa [hdrop] using hhead
    refine ⟨words t, ?_⟩
    conv => lhs; rw [← hrest, hdrop, ← List.append_assoc]
    rw [words_append _ _ hd, words_word hne' hword]
    rfl

/-! ## The request line -/

structure RequestLine where
  command : Text
  target : Text
  /-- `close_connection`, as far as the version decides it -/
  close : Bool
  deriving DecidableEq

def digits (s : Text) : Option ℕ :=
  if s ≠ [] ∧ s.length ≤ 10 ∧ s.all Char.isDigit then
    some (s.foldl (fun n c => 10 * n + (c.toNat - '0'.toNat)) 0)
  else none

/-- `HTTP/<major>.<minor>` -/
def parseVersion (s : Text) : Option (ℕ × ℕ) :=
  if "HTTP/".toList <+: s then
    match (s.drop 5).splitOn '.' with
    | [major, minor] => do
      let a ← digits major
      let b ← digits minor
      return (a, b)
    | _ => none
  else none

/-- The first part of `parse_request`; none where the server answers by itself. -/
def parseRequestLine (requestline : Text) : Option RequestLine :=
  match words requestline with
  | [command, target] => if command = "GET".toList then some ⟨command, target, true⟩ else none
  | [command, target, version] => do
    let v ← parseVersion version
    if v.1 ≥ 2 then none else return ⟨command, target, !(v.1 = 1 ∧ v.2 ≥ 1)⟩
  | _ => none

/-- `self.path`: leading slashes are reduced to a single one. -/
def collapse (target : Text) : Text :=
  if "//".toList <+: target then '/' :: target.dropWhile (· = '/') else target

def handledMethods : List Text :=
  ["GET", "POST", "PUT", "PATCH", "DELETE", "HEAD", "OPTIONS"].map String.toList

/-! ## Headers -/

abbrev Headers := List (Text × Text)

/-- `str.lower()` on Latin-1. -/
def lowerChar (c : Char) : Char :=
  if 'A' ≤ c ∧ c ≤ 'Z' ∨ 0xc0 ≤ c.toNat ∧ c.toNat ≤ 0xde ∧ c.toNat ≠ 0xd7 then
    Char.ofNat (c.toNat + 32)
  else c

def lower (s : Text) : Text := s.map lowerChar

/-- `headers.get(name)` -/
def Headers.get (h : Headers) (name : Text) : Option Text :=
  (h.find? fun e => lower e.1 = lower name).map Prod.snd

/-- A request as `http.server` has read it, up to the body. -/
structure Head where
  requestline : Text
  headers : Headers
  deriving DecidableEq

structure Parsed where
  command : Text
  path : Text
  close : Bool
  deriving DecidableEq

/-- `parse_request` and the choice of the method; none where the server answers by itself. -/
def Head.parse (h : Head) : Option Parsed := do
  let l ← parseRequestLine h.requestline
  let conntype := lower ((h.headers.get "Connection".toList).getD [])
  let close :=
    if conntype = "close".toList then true
    else if conntype = "keep-alive".toList then false
    else l.close
  if handledMethods.contains l.command then return ⟨l.command, collapse l.target, close⟩ else none

/-! ## Targets -/

/-- The part of a target before its query. -/
def beforeQuery (s : Text) : Text := s.takeWhile (· ≠ '?')

def isSchemeChar (c : Char) : Bool := c.isAlphanum || c ∈ ['+', '-', '.']

def afterScheme (url : Text) : Text :=
  let scheme := url.takeWhile (· ≠ ':')
  if ':' ∈ url ∧ (scheme.head?.any Char.isAlpha) ∧ scheme.all isSchemeChar then
    url.drop (scheme.length + 1)
  else url

/-- What `urlsplit` strips and removes first. -/
def clean (url : Text) : Text :=
  (url.dropWhile fun c => c.toNat ≤ 0x20).filter fun c => c ∉ ['\t', '\r', '\n']

def isHostChar (c : Char) : Bool := c ∉ ['/', '?', '#']

def splitNetloc (url : Text) : Text × Text :=
  if "//".toList <+: url then ((url.drop 2).takeWhile isHostChar, (url.drop 2).dropWhile isHostChar)
  else ([], url)

/-- `urlsplit`: path and query; none where it raises, because the host is not valid. -/
def urlsplit (netlocOk : Text → Bool) (url : Text) : Option (Text × Text) :=
  let r := splitNetloc (afterScheme (clean url))
  if r.1 ≠ [] ∧ !netlocOk r.1 then none
  else
    let rest := r.2.takeWhile (· ≠ '#')
    some (beforeQuery rest, (rest.dropWhile (· ≠ '?')).drop 1)

theorem afterScheme_slash (s : Text) : afterScheme ('/' :: s) = '/' :: s := by
  unfold afterScheme
  exact if_neg fun h => absurd h.2.1 Bool.false_ne_true

/-- A path that begins with one slash is not touched. -/
theorem urlsplit_plain (netlocOk : Text → Bool) {path rest : Text} {c : Char}
    (hc : c ≠ '/') (hpath : ∀ d ∈ '/' :: c :: path, d ≠ '?' ∧ d ≠ '#')
    (hspace : ∀ d ∈ '/' :: c :: path ++ rest, isSpace d = false)
    (hrest : rest = [] ∨ ∃ query, rest = '?' :: query) :
    (urlsplit netlocOk ('/' :: c :: path ++ rest)).map Prod.fst = some ('/' :: c :: path) := by
  have hfilter : ('/' :: c :: path ++ rest).filter (fun d => d ∉ ['\t', '\r', '\n']) =
      '/' :: c :: path ++ rest := by
    refine List.filter_eq_self.mpr fun d hd => decide_eq_true fun hmem => ?_
    have hd := hspace d hd
    simp only [List.mem_cons, List.not_mem_nil, or_false] at hmem
    rcases hmem with rfl | rfl | rfl <;> exact absurd hd (by decide)
  have hnotHost : ¬ "//".toList <+: '/' :: c :: path ++ rest := by
    rintro ⟨t, ht⟩
    exact hc (List.cons.inj (List.cons.inj ht).2).1.symm
  have hcut : beforeQuery (('/' :: c :: path ++ rest).takeWhile (· ≠ '#')) = '/' :: c :: path := by
    unfold beforeQuery
    rw [List.takeWhile_takeWhile, List.takeWhile_append_of_pos]
    · rcases hrest with rfl | ⟨query, rfl⟩
      · exact List.append_nil _
      · exact List.append_nil _
    · intro d hd
      simp [hpath d hd]
  have hsplit : splitNetloc (afterScheme (clean ('/' :: c :: path ++ rest))) =
      ([], '/' :: c :: path ++ rest) := by
    have hclean : clean ('/' :: c :: path ++ rest) = '/' :: c :: path ++ rest := hfilter
    rw [hclean]
    show splitNetloc (afterScheme ('/' :: (c :: path ++ rest))) = _
    rw [afterScheme_slash]
    exact if_neg hnotHost
  unfold urlsplit
  rw [hsplit]
  exact congrArg some hcut

end HaAddons.AdminUi
