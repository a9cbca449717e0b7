import HaAddons.Ntfy.Contract
import Mathlib.Data.Prod.Lex
import Mathlib.Data.String.Basic
import Mathlib.Data.List.Sort

/-!
# Reading ntfy's database

The tables of `auth.db` that the add-on reads, and `AuthDb`, which presents them with the names and
topics of the API.

* `mem_listAcl` — the rules of the API are the rows of the table.
-/

namespace HaAddons.Ntfy

/-! ## The tables -/

/-- A row of `user`; the anonymous user is `*`. -/
structure UserRow where
  name : String
  role : Role
  tier : Option String
  provisioned : Bool
  deriving DecidableEq, Repr

/-- A row of `user_access`, with the name of its user. -/
structure StoredRule where
  user : String
  topic : String
  read : Bool
  write : Bool
  provisioned : Bool
  deriving DecidableEq, Repr

/-- The database. Names are unique, ntfy has no user with the anonymous user's other name, and every
rule is a user's. -/
structure AuthDb where
  version : Option ℤ
  users : List UserRow
  rules : List StoredRule
  nodup : (users.map UserRow.name).Nodup
  reserved : "everyone" ∉ users.map UserRow.name
  owned : ∀ r ∈ rules, r.user ∈ users.map UserRow.name

/-! ## What the API sees -/

/-- A rule with its topic as the command line writes it. -/
structure AclRow where
  user : String
  topic : String
  permission : Permission
  read : Bool
  write : Bool
  provisioned : Bool
  deriving DecidableEq, Repr

namespace AuthDb

def supportedAuthSchemas : List ℤ := [10, 11]

/-- The database, if its file exists and its schema is known. -/
def ensureSupported : Option AuthDb → Except ApiError AuthDb
  | none => .error ⟨"db_unavailable", "auth database is not available"⟩
  | some db =>
    match db.version with
    | some v =>
      if v ∈ supportedAuthSchemas then .ok db
      else .error ⟨"db_unsupported", s!"auth schema version {v} is not supported"⟩
    | none => .error ⟨"db_unsupported", "auth schema version None is not supported"⟩

/-- `ORDER BY u.user`, with the names of the API. -/
def listUsers (db : AuthDb) : List UserRow :=
  (db.users.insertionSort fun a b => a.name ≤ b.name).map fun u => { u with name := dbUserToApi u.name }

def aclRow (r : StoredRule) : AclRow :=
  ⟨dbUserToApi r.user, dbTopicToCli r.topic, permFromFlags r.read r.write, r.read, r.write,
    r.provisioned⟩

def listAcl (db : AuthDb) : List AclRow :=
  (db.rules.map aclRow).insertionSort fun a b => toLex (a.user, a.topic) ≤ toLex (b.user, b.topic)

theorem mem_listAcl {db : AuthDb} {row : AclRow} :
    row ∈ db.listAcl ↔ ∃ r ∈ db.rules, aclRow r = row := by
  rw [listAcl, List.mem_insertionSort, List.mem_map]

theorem mem_listUsers {db : AuthDb} {row : UserRow} :
    row ∈ db.listUsers ↔ ∃ u ∈ db.users, { u with name := dbUserToApi u.name } = row := by
  simp only [listUsers, List.mem_map, List.mem_insertionSort]

end AuthDb

end HaAddons.Ntfy
