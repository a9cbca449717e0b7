import HaAddons.Lib.Script
import HaAddons.Ntfy.AuthDb
import HaAddons.Ntfy.Origins

/-!
# The write side

What the add-on writes: ntfy's database, by calls of the ntfy command line that may fail and then
have no effect, and its own origin store. The database is modelled as `AuthDb` presents it, with the
names and the topics of the API.

* `effect` — what an operation does where it goes through.
* `NtfyCli` — the methods of the adapter, which check their arguments first.
-/

namespace HaAddons.Ntfy

/-! ## The world -/

/-- A user, with its password. -/
structure Account extends UserRow where
  password : String
  deriving DecidableEq, Repr

/-- The tables of the database. Users are in the order of `ORDER BY u.user`; of a token only its
owner is kept. -/
structure Tables where
  accounts : List Account
  rules : Dict (String × String) Permission
  tokens : List String

/-- The database, if its file exists, and the origin store. -/
structure World where
  db : Option Tables
  origins : Origins

namespace World

def tables (w : World) : Tables := w.db.getD ⟨[], .empty, []⟩

def accounts (w : World) : List Account := w.tables.accounts

/-- The permission of a rule, if there is such a rule. -/
def rule? (w : World) (user topic : String) : Option Permission := w.tables.rules.get? (user, topic)

end World

/-! ## Operations -/

/-- How an operation fails. -/
inductive Failure where
  | cli (code message : String)
  | value (message : String)
  | api (e : ApiError)
  | other (cls : String)
  deriving DecidableEq, Repr

inductive Op where
  | userAdd (name password : String) (role : Role)
  | userDelete (name : String)
  | changePass (name password : String)
  | changeRole (name : String) (role : Role)
  | accessSet (user topic : String) (permission : Permission)
  | resetRules (user : Option String)
  | backup (reason : String)
  | setUser (name : String) (origin : Origin)
  | dropUser (name : String)
  | setAcl (user topic : String) (origin : Origin)
  | dropAcl (user topic : String)
  | stashAcl (user : String) (rules : List StashedRule)
  | popAclStash (user : String)
  | clearAll

/-- Calls of the command line, and copies of the database. -/
def Op.external : Op → Bool
  | userAdd .. | userDelete .. | changePass .. | changeRole .. | accessSet .. | resetRules ..
  | backup .. => true
  | _ => false

def updateAccount (name : String) (f : Account → Account) (accounts : List Account) : List Account :=
  accounts.map fun a => if a.name = name then f a else a

/-- What an operation does. ntfy deletes the rules of a user who becomes an admin, and the rules and
tokens of a user who is deleted. -/
def effect (w : World) : Op → World
  | .userAdd name password role =>
    let t := w.tables
    let account : Account := ⟨⟨name, role, none, false⟩, password⟩
    { w with db := some { t with accounts := t.accounts ++ [account] } }
  | .userDelete name =>
    let t := w.tables
    { w with db := some {
        accounts := t.accounts.filter fun a => a.name ≠ name
        rules := t.rules.filter fun k => k.1 ≠ name
        tokens := t.tokens.filter (· ≠ name) } }
  | .changePass name password =>
    let t := w.tables
    let accounts := updateAccount name (fun a => { a with password := password }) t.accounts
    { w with db := some { t with accounts := accounts } }
  | .changeRole name role =>
    let t := w.tables
    let accounts := updateAccount name (fun a => { a with role := role }) t.accounts
    let rules := if role = .admin then t.rules.filter fun k => k.1 ≠ name else t.rules
    { w with db := some { t with accounts := accounts, rules := rules } }
  | .accessSet user topic permission =>
    let t := w.tables
    { w with db := some { t with rules := t.rules.insert (user, topic) permission } }
  | .resetRules user =>
    let t := w.tables
    { w with db := some { t with rules := t.rules.filter fun k => user.any (· ≠ k.1) } }
  | .backup _ => w
  | .setUser name origin => { w with origins := w.origins.setUser name origin }
  | .dropUser name => { w with origins := w.origins.dropUser name }
  | .setAcl user topic origin => { w with origins := w.origins.setAcl user topic origin }
  | .dropAcl user topic => { w with origins := w.origins.dropAcl user topic }
  | .stashAcl user rules => { w with origins := w.origins.stashAcl user rules }
  | .popAclStash user => { w with origins := w.origins.popAclStash user }
  | .clearAll => { w with origins := .empty }

def apply (o : Op) (w : World) : Except Failure World := .ok (effect w o)

abbrev Action := Script Op Failure World Failure

/-- An operation whose failure is raised. -/
def act (o : Op) : Action Unit := Script.act id o

def look {α : Type} (f : World → α) : Action α := Script.get f

def fail {α : Type} (e : Failure) : Action α := .raise e

/-! ## The adapter -/

namespace NtfyCli

def checkUser (name : String) (allowEveryone : Bool) : Action Unit :=
  if (allowEveryone && name = "everyone") || usernameRe name then pure ()
  else fail (.value "invalid user name")

def checkPassword (password : String) : Action Unit :=
  if password = "" then fail (.value "password must not be empty") else pure ()

def checkTopic (topic : String) : Action Unit :=
  if '%' ∈ topic.toList ∨ topicPatternRe topic = false then fail (.value "invalid topic pattern")
  else pure ()

def userAdd (name password : String) (role : Role) : Action Unit := do
  checkUser name false
  checkPassword password
  act (.userAdd name password role)

def userChangePass (name password : String) : Action Unit := do
  checkUser name false
  checkPassword password
  act (.changePass name password)

def userDelete (name : String) : Action Unit := do
  checkUser name false
  act (.userDelete name)

def userChangeRole (name : String) (role : Role) : Action Unit := do
  checkUser name false
  act (.changeRole name role)

def accessSet (user topic : String) (permission : Permission) : Action Unit := do
  checkUser user true
  checkTopic topic
  act (.accessSet user topic permission)

/-- `access_reset` without a topic. -/
def accessReset (user : Option String) : Action Unit := do
  if let some name := user then checkUser name true
  act (.resetRules user)

end NtfyCli

/-! ## What the operations leave alone -/

namespace World

variable (w : World)

theorem rule?_accessSet (user topic user' topic' : String) (permission : Permission) :
    (effect w (.accessSet user topic permission)).rule? user' topic' =
      if user' = user ∧ topic' = topic then some permission else w.rule? user' topic' := by
  show (w.tables.rules.insert (user, topic) permission).get? (user', topic') = _
  rw [Dict.get?_insert]
  simp only [Prod.mk.injEq]
  rfl

theorem rule?_changeRole (name user topic : String) (role : Role) :
    (effect w (.changeRole name role)).rule? user topic =
      if role = .admin ∧ user = name then none else w.rule? user topic := by
  by_cases hrole : role = .admin
  · subst hrole
    show (w.tables.rules.filter fun k => k.1 ≠ name).get? (user, topic) = _
    rw [Dict.get?_filter]
    by_cases hu : user = name <;> simp [hu, rule?]
  · simp only [hrole, false_and, if_false]
    show (if role = .admin then _ else w.tables.rules).get? (user, topic) = _
    rw [if_neg hrole]
    rfl

theorem accounts_changeRole (name : String) (role : Role) :
    (effect w (.changeRole name role)).accounts =
      updateAccount name (fun a => { a with role := role }) w.accounts := rfl

@[simp] theorem accounts_accessSet (user topic : String) (permission : Permission) :
    (effect w (.accessSet user topic permission)).accounts = w.accounts := rfl

end World

/-! ## How the methods end -/

section Ends

/-- The operations of the origin store do not fail. -/
def OnlyExternal (may : Op → World → Failure → Prop) : Prop :=
  ∀ o w e, may o w e → o.external = true

variable {may : Op → World → Failure → Prop} {Q : Unit → World → Prop} {R : Failure → World → Prop}
  {w : World}

theorem act_ends {o : Op} (h : Q () (effect w o)) (hfail : ∀ e, may o w e → R e w) :
    (act o).Ends apply may Q R w := by
  refine Script.Ends.act (fun w' hw => ?_) fun e he => ?_
  · obtain rfl := Except.ok.inj hw
    exact h
  · rcases he with hmay | herr
    · exact hfail e hmay
    · cases herr

theorem act_internal (hmay : OnlyExternal may) {o : Op} (ho : o.external = false)
    (h : Q () (effect w o)) : (act o).Ends apply may Q R w := by
  refine act_ends h fun e he => ?_
  rw [hmay o w e he] at ho
  cases ho

namespace NtfyCli

theorem checkUser_ends {name : String} {everyone : Bool} (h : Q () w)
    (hfail : usernameRe name = false → ∀ e, R e w) :
    (checkUser name everyone).Ends apply may Q R w := by
  unfold checkUser
  split_ifs with hc
  · exact h
  · rw [Bool.or_eq_true, not_or] at hc
    exact hfail (by simpa using hc.2) _

/-- What is common to the methods that take a password. -/
theorem withPassword_ends {name password : String} {o : Op} (h : Q () (effect w o))
    (hfail : ∀ e, (usernameRe name = true → password ≠ "" → may o w e) → R e w) :
    (do checkUser name false; checkPassword password; act o : Action Unit).Ends apply may Q R w := by
  refine Script.Ends.bind (checkUser_ends (Script.Ends.bind ?_) fun hname e => ?_)
  · unfold checkPassword
    split_ifs with hp
    · exact hfail _ fun _ hne => absurd hp hne
    · exact act_ends h fun e he => hfail e fun _ _ => he
  · refine hfail e fun hok => ?_
    rw [hname] at hok
    cases hok

theorem userAdd_ends {name password : String} {role : Role}
    (h : Q () (effect w (.userAdd name password role)))
    (hfail : ∀ e, (usernameRe name = true → password ≠ "" → may (.userAdd name password role) w e) →
      R e w) : (userAdd name password role).Ends apply may Q R w :=
  withPassword_ends h hfail

theorem userChangePass_ends {name password : String}
    (h : Q () (effect w (.changePass name password)))
    (hfail : ∀ e, (usernameRe name = true → password ≠ "" → may (.changePass name password) w e) →
      R e w) : (userChangePass name password).Ends apply may Q R w :=
  withPassword_ends h hfail

theorem userChangeRole_ends {name : String} {role : Role}
    (h : Q () (effect w (.changeRole name role))) (hfail : ∀ e, R e w) :
    (userChangeRole name role).Ends apply may Q R w :=
  Script.Ends.bind (checkUser_ends (act_ends h fun e _ => hfail e) fun _ => hfail)

theorem accessSet_ends {user topic : String} {permission : Permission}
    (h : Q () (effect w (.accessSet user topic permission))) (hfail : ∀ e, R e w) :
    (accessSet user topic permission).Ends apply may Q R w := by
  refine Script.Ends.bind (checkUser_ends (Script.Ends.bind ?_) fun _ => hfail)
  unfold checkTopic
  split_ifs
  · exact hfail _
  · exact act_ends h fun e _ => hfail e

end NtfyCli

end Ends

end HaAddons.Ntfy
