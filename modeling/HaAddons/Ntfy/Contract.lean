import HaAddons.Lib.Like

/-!
# The ntfy add-on's shared contract

Roles, permissions and origins, the validators, and the two forms of a topic pattern: the command
line writes `*`, the database stores `%` and escapes `_`.

* `dbTopicToCli_cliTopicToDb` — the two forms correspond.
* `topicMatch_eq_like` — matching on the one is `LIKE` on the other.
-/

namespace HaAddons.Ntfy

inductive Role where
  | anonymous
  | user
  | admin
  deriving DecidableEq, Repr

inductive Permission where
  | rw
  | ro
  | wo
  | deny
  deriving DecidableEq, Repr

/-- Which source created a record. -/
inductive Origin where
  | gui
  | options
  | iac
  deriving DecidableEq, Repr

structure ApiError where
  code : String
  message : String
  deriving DecidableEq, Repr

def permFromFlags (read write : Bool) : Permission :=
  match read, write with
  | true, true => .rw
  | true, false => .ro
  | false, true => .wo
  | false, false => .deny

/-- The anonymous user `*` of the database is `everyone` in the API. -/
def dbUserToApi (name : String) : String := if name = "*" then "everyone" else name

/-! ## Options -/

structure BaselineUser where
  username : String
  password : String
  topic : String
  writeAccess : Bool
  deriving DecidableEq, Repr

/-- The options that the modelled code reads. -/
structure Options where
  authDefaultAccess : String := "deny-all"
  adminUser : String := "admin"
  baselineUsers : List BaselineUser := []
  baselineOverwritePasswords : Bool := false
  adminPassword : String := ""
  deriving DecidableEq, Repr

/-! ## Validators -/

def isAsciiLetter (c : Char) : Bool := ('a' ≤ c && c ≤ 'z') || ('A' ≤ c && c ≤ 'Z')
def isAsciiDigit (c : Char) : Bool := '0' ≤ c && c ≤ '9'

/-- A text without the newline that `$` lets through. -/
def unbroken (s : List Char) : List Char := if s.getLast? = some '\n' then s.dropLast else s

theorem unbroken_of_ne {s : List Char} (h : s.getLast? ≠ some '\n') : unbroken s = s := if_neg h

/-- `^[first][rest]{0,63}$` with `re.match`. A newline at the end of the text is let through, as `$`
does. -/
def nameRe (first rest : Char → Bool) (s : String) : Bool :=
  let s := s.toList
  match if s.getLast? = some '\n' then s.dropLast else s with
  | [] => false
  | c :: cs => first c && cs.all rest && cs.length ≤ 63

def usernameRe : String → Bool :=
  nameRe (fun c => isAsciiLetter c || isAsciiDigit c || c = '_')
    fun c => isAsciiLetter c || isAsciiDigit c || c ∈ ['-', '_', '.', '+', '@']

def topicPatternRe : String → Bool :=
  nameRe (fun c => isAsciiLetter c || isAsciiDigit c || c ∈ ['_', '*'])
    fun c => isAsciiLetter c || isAsciiDigit c || c ∈ ['-', '_', '*']

def topicRe : String → Bool :=
  nameRe (fun c => isAsciiLetter c || isAsciiDigit c || c = '_')
    fun c => isAsciiLetter c || isAsciiDigit c || c ∈ ['-', '_']

/-! ## Topics -/

/-- The form of the command line to the stored form. -/
def cliTopicToDb (topic : String) : String :=
  String.ofList (Pattern.quote '*' '%' '_' '\\' topic.toList)

def dbTopicToCli (topic : String) : String :=
  String.ofList (Pattern.unquote '*' '%' '_' '\\' topic.toList)

/-- The pattern's parts between its wildcards as a regular expression, on the whole topic. -/
def topicMatch (pattern topic : String) : Bool :=
  Pattern.matchParts (Pattern.parts '*' pattern.toList) topic.toList

/-- SQLite's `topic LIKE stored ESCAPE '\'`. -/
def storedLike (topic stored : String) : Bool :=
  Pattern.like '%' '_' '\\' stored.toList topic.toList

/-- A pattern without the characters that the stored form uses on its own. -/
def CleanPattern (pattern : String) : Prop := '%' ∉ pattern.toList ∧ '\\' ∉ pattern.toList

theorem nodup_marks : ['*', '%', '_', '\\'].Nodup := by decide

/-- **The stored form can be read back.** -/
theorem dbTopicToCli_cliTopicToDb {pattern : String} (h : CleanPattern pattern) :
    dbTopicToCli (cliTopicToDb pattern) = pattern := by
  rw [dbTopicToCli, cliTopicToDb, String.toList_ofList, Pattern.unquote_quote nodup_marks h.1 h.2,
    String.ofList_toList]

/-- **Matching is `LIKE` on the stored form.** -/
theorem topicMatch_eq_like {pattern : String} (h : CleanPattern pattern) (topic : String) :
    topicMatch pattern topic = storedLike topic (cliTopicToDb pattern) := by
  rw [topicMatch, storedLike, cliTopicToDb, String.toList_ofList,
    Pattern.like_quote nodup_marks h.1 h.2, Pattern.matchParts_parts]

end HaAddons.Ntfy
