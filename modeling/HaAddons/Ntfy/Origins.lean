import HaAddons.Lib.Dict
import HaAddons.Ntfy.Contract

/-!
# Origins

The sidecar document that says which source created a user, a rule or a token, and keeps the rules
of users who were promoted. What has no record counts as `gui`.

`getAcl_setAcl`, `getAcl_dropAcl` and their like say what an update does to every record.
-/

namespace HaAddons.Ntfy

/-- A rule that waits for its user to be demoted. -/
structure StashedRule where
  topic : String
  permission : Permission
  origin : Origin
  deriving DecidableEq, Repr

def defaultOrigin : Origin := .gui

/-- The content of `origins.json`. -/
structure Origins where
  users : Dict String Origin
  acls : Dict String (Dict String Origin)
  tokens : Dict String (Dict String Origin)
  aclStash : Dict String (List StashedRule)
  deriving DecidableEq

namespace Origins

def empty : Origins := ⟨.empty, .empty, .empty, .empty⟩

def getUser (doc : Origins) (name : String) : Origin := (doc.users.get? name).getD defaultOrigin

def getAcl (doc : Origins) (user topic : String) : Origin :=
  (((doc.acls.get? user).getD .empty).get? topic).getD defaultOrigin

def setUser (doc : Origins) (name : String) (origin : Origin) : Origins :=
  { doc with users := doc.users.insert name origin }

def setAcl (doc : Origins) (user topic : String) (origin : Origin) : Origins :=
  let rules := (doc.acls.get? user).getD .empty
  { doc with acls := doc.acls.insert user (rules.insert topic origin) }

def dropAcl (doc : Origins) (user topic : String) : Origins :=
  match doc.acls.get? user with
  | none => doc
  | some rules =>
    let rules := rules.erase topic
    { doc with acls := if rules.entries = [] then doc.acls.erase user else doc.acls.insert user rules }

def setToken (doc : Origins) (user tokenId : String) (origin : Origin) : Origins :=
  let records := (doc.tokens.get? user).getD .empty
  { doc with tokens := doc.tokens.insert user (records.insert tokenId origin) }

def dropToken (doc : Origins) (user tokenId : String) : Origins :=
  match doc.tokens.get? user with
  | none => doc
  | some records =>
    let records := records.erase tokenId
    { doc with
      tokens := if records.entries = [] then doc.tokens.erase user else doc.tokens.insert user records }

def stashAcl (doc : Origins) (user : String) (rules : List StashedRule) : Origins :=
  { doc with aclStash := doc.aclStash.insert user rules }

def stash (doc : Origins) (user : String) : List StashedRule := (doc.aclStash.get? user).getD []

/-- Remove the user and cascade to its rules, tokens and stash. -/
def dropUser (doc : Origins) (name : String) : Origins where
  users := doc.users.erase name
  acls := doc.acls.erase name
  tokens := doc.tokens.erase name
  aclStash := doc.aclStash.erase name

/-- `pop_acl_stash`; what it returns is `stash`. -/
def popAclStash (doc : Origins) (user : String) : Origins :=
  { doc with aclStash := doc.aclStash.erase user }

/-! ## What an update does -/

variable (doc : Origins)

@[simp] theorem getAcl_setUser (name user topic : String) (origin : Origin) :
    (doc.setUser name origin).getAcl user topic = doc.getAcl user topic := rfl

@[simp] theorem getAcl_stashAcl (name user topic : String) (rules : List StashedRule) :
    (doc.stashAcl name rules).getAcl user topic = doc.getAcl user topic := rfl

@[simp] theorem getAcl_popAclStash (name user topic : String) :
    (doc.popAclStash name).getAcl user topic = doc.getAcl user topic := rfl

@[simp] theorem getUser_setAcl (name user topic : String) (origin : Origin) :
    (doc.setAcl user topic origin).getUser name = doc.getUser name := rfl

@[simp] theorem stash_setAcl (name user topic : String) (origin : Origin) :
    (doc.setAcl user topic origin).stash name = doc.stash name := rfl

theorem getUser_setUser (name name' : String) (origin : Origin) :
    (doc.setUser name origin).getUser name' = if name' = name then origin else doc.getUser name' := by
  unfold getUser setUser
  rw [Dict.get?_insert]
  split_ifs <;> rfl

theorem getAcl_setAcl (user topic user' topic' : String) (origin : Origin) :
    (doc.setAcl user topic origin).getAcl user' topic' =
      if user' = user ∧ topic' = topic then origin else doc.getAcl user' topic' := by
  unfold getAcl setAcl
  rw [Dict.get?_insert]
  by_cases hu : user' = user
  · subst hu
    rw [if_pos rfl, Option.getD_some, Dict.get?_insert]
    by_cases ht : topic' = topic <;> simp [ht]
  · simp [hu]

theorem getAcl_dropAcl (user topic user' topic' : String) :
    (doc.dropAcl user topic).getAcl user' topic' =
      if user' = user ∧ topic' = topic then defaultOrigin else doc.getAcl user' topic' := by
  unfold dropAcl
  cases hrules : doc.acls.get? user with
  | none =>
    dsimp only
    by_cases h : user' = user ∧ topic' = topic
    · rw [if_pos h, h.1, getAcl, hrules]
      rfl
    · rw [if_neg h]
  | some rules =>
    have hinner : ((((if (rules.erase topic).entries = [] then doc.acls.erase user
        else doc.acls.insert user (rules.erase topic)).get? user').getD .empty).get? topic') =
          if user' = user then (rules.erase topic).get? topic'
          else ((doc.acls.get? user').getD .empty).get? topic' := by
      by_cases hempty : (rules.erase topic).entries = []
      · have hnone : (rules.erase topic).get? topic' = none := by
          rw [Dict.get?, hempty]
          rfl
        rw [if_pos hempty, Dict.get?_erase, hnone]
        split_ifs <;> rfl
      · rw [if_neg hempty, Dict.get?_insert]
        split_ifs <;> rfl
    dsimp only [getAcl]
    rw [hinner, Dict.get?_erase]
    by_cases hu : user' = user
    · subst hu
      by_cases ht : topic' = topic <;> simp [ht, hrules]
    · simp [hu]

theorem aclStash_dropAcl (user topic : String) : (doc.dropAcl user topic).aclStash = doc.aclStash := by
  unfold dropAcl
  split <;> rfl

@[simp] theorem stash_dropAcl (name user topic : String) :
    (doc.dropAcl user topic).stash name = doc.stash name := by
  rw [stash, aclStash_dropAcl]
  rfl

theorem stash_stashAcl (user name : String) (rules : List StashedRule) :
    (doc.stashAcl user rules).stash name = if name = user then rules else doc.stash name := by
  unfold stash stashAcl
  rw [Dict.get?_insert]
  split_ifs <;> rfl

theorem stash_popAclStash (user name : String) :
    (doc.popAclStash user).stash name = if name = user then [] else doc.stash name := by
  unfold stash popAclStash
  rw [Dict.get?_erase]
  split_ifs <;> rfl

end Origins

end HaAddons.Ntfy
