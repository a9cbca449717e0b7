import HaAddons.Ntfy.AuthDb
import HaAddons.Ntfy.Origins

/-!
# Effective rights

What a user may do on a topic, as the add-on shows it, and the query by which ntfy decides.

* `effective_eq_query` — the answer is that of the row that the query puts first.
-/

namespace HaAddons.Ntfy

/-! ## The evaluator -/

structure AclRule where
  user : String
  topic : String
  permission : Permission
  origin : Origin
  deriving DecidableEq, Repr

/-- `source.kind` -/
inductive SourceKind where
  | admin
  | userRule
  | everyoneRule
  | default
  deriving DecidableEq, Repr

structure Effective where
  user : String
  topic : String
  read : Bool
  write : Bool
  kind : SourceKind
  rule : Option AclRule
  candidates : List AclRule
  deriving DecidableEq, Repr

/-- `DEFAULT_ACCESS.get(access, (False, False))` -/
def defaultAccess (access : String) : Bool × Bool :=
  if access = "read-only" then (true, false)
  else if access = "write-only" then (false, true)
  else if access = "read-write" then (true, true)
  else (false, false)

def ruleOf (origins : Origins) (row : AclRow) : AclRule :=
  ⟨row.user, row.topic, row.permission, origins.getAcl row.user row.topic⟩

/-- Own rules first, then the longer stored pattern, then the one that may write. -/
def sortKey (user : String) (r : AclRow) : ℕ ×ₗ ℤ ×ₗ ℕ :=
  toLex (if r.user = "everyone" ∧ user ≠ "everyone" then 1 else 0,
    toLex (-((cliTopicToDb r.topic).length : ℤ), if r.write then 0 else 1))

def matchingRules (db : AuthDb) (user topic : String) : List AclRow :=
  (db.listAcl.filter fun r => (r.user = user || r.user = "everyone") && topicMatch r.topic topic)
    |>.insertionSort fun a b => sortKey user a ≤ sortKey user b

def effective (options : Options) (db : Option AuthDb) (origins : Origins) (user topic : String) :
    Except ApiError Effective :=
  match AuthDb.ensureSupported db with
  | .error e => .error e
  | .ok db =>
    if topicRe topic = false then
      .error ⟨"bad_request", "topic must be a concrete topic name without wildcards"⟩
    else
      -- The dictionary of users by name keeps the last row.
      let row := db.listUsers.reverse.find? fun u => u.name = user
      if user ≠ "everyone" ∧ row = none then
        .error ⟨"not_found", s!"user {user} does not exist"⟩
      else if user ≠ "everyone" ∧ row.any (·.role = .admin) then
        .ok ⟨user, topic, true, true, .admin, none, []⟩
      else
        let candidates := (matchingRules db user topic).map (ruleOf origins)
        match matchingRules db user topic with
        | first :: _ =>
          let kind := if first.user = "everyone" then .everyoneRule else .userRule
          .ok ⟨user, topic, first.read, first.write, kind, ruleOf origins first, candidates⟩
        | [] =>
          let access := defaultAccess options.authDefaultAccess
          .ok ⟨user, topic, access.1, access.2, .default, none, []⟩

/-! ## The query -/

/-- The name that a user of the API has in the database. -/
def dbUser (name : String) : String := if name = "everyone" then "*" else name

/-- The row is the user's or the anonymous user's, and its stored topic matches. -/
def Selected (user topic : String) (r : StoredRule) : Prop :=
  (r.user = dbUser user ∨ r.user = "*") ∧ storedLike topic r.topic = true

/-- `ORDER BY` own row, longer stored topic, may write: the first row comes before the second. -/
def Before (user : String) (r s : StoredRule) : Prop :=
  (r.user = dbUser user ∧ s.user ≠ dbUser user) ∨
    (r.user = dbUser user ↔ s.user = dbUser user) ∧
      (s.topic.length < r.topic.length ∨
        s.topic.length = r.topic.length ∧ r.write = true ∧ s.write = false)

/-- A row that the query may put first. -/
def IsFirst (db : AuthDb) (user topic : String) (r : StoredRule) : Prop :=
  r ∈ db.rules ∧ Selected user topic r ∧
    ∀ s ∈ db.rules, Selected user topic s → ¬ Before user s r

/-! ## Rows and rules -/

/-- Every stored topic is a pattern in its stored form. -/
def Canonical (db : AuthDb) : Prop :=
  ∀ r ∈ db.rules, ∃ pattern, CleanPattern pattern ∧ r.topic = cliTopicToDb pattern

/-- The user exists, or is the anonymous one. -/
def Known (db : AuthDb) (user : String) : Prop :=
  user = "everyone" ∨ ∃ row ∈ db.listUsers, row.name = user

theorem ne_star_of_known {db : AuthDb} {user : String} (h : Known db user) : user ≠ "*" := by
  rintro rfl
  rcases h with h | ⟨row, hrow, hname⟩
  · exact absurd h (by decide)
  · obtain ⟨u, -, rfl⟩ := AuthDb.mem_listUsers.mp hrow
    have hu : dbUserToApi u.name = "*" := hname
    unfold dbUserToApi at hu
    split_ifs at hu with hstar
    · exact absurd hu (by decide)
    · exact hstar hu

theorem ne_everyone_of_mem {db : AuthDb} {r : StoredRule} (h : r ∈ db.rules) :
    r.user ≠ "everyone" := fun he => db.reserved (he ▸ db.owned r h)

theorem dbUserToApi_eq_everyone {name : String} (h : name ≠ "everyone") :
    dbUserToApi name = "everyone" ↔ name = "*" := by
  unfold dbUserToApi
  split_ifs with hs
  · simp [hs]
  · simp [hs, h]

theorem dbUserToApi_eq_iff {name user : String} (h : name ≠ "everyone") (hu : user ≠ "*") :
    dbUserToApi name = user ↔ name = dbUser user := by
  unfold dbUserToApi dbUser
  split_ifs with hs he he
  · simp [hs, he]
  · exact ⟨fun h => absurd h.symm he, fun h => absurd (h.symm.trans hs) hu⟩
  · rw [he]
    exact ⟨fun h' => absurd h' h, fun h' => absurd h' hs⟩
  · rfl

variable {db : AuthDb} {user topic : String}

theorem cliTopicToDb_aclRow (hdb : Canonical db) {r : StoredRule} (hr : r ∈ db.rules) :
    cliTopicToDb (AuthDb.aclRow r).topic = r.topic := by
  obtain ⟨pattern, hclean, htopic⟩ := hdb r hr
  show cliTopicToDb (dbTopicToCli r.topic) = r.topic
  rw [htopic, dbTopicToCli_cliTopicToDb hclean]

/-- The filter of the evaluator is the condition of the query. -/
theorem selected_iff (hdb : Canonical db) (hu : user ≠ "*") {r : StoredRule} (hr : r ∈ db.rules) :
    ((AuthDb.aclRow r).user = user ∨ (AuthDb.aclRow r).user = "everyone") ∧
      topicMatch (AuthDb.aclRow r).topic topic = true ↔ Selected user topic r := by
  obtain ⟨pattern, hclean, htopic⟩ := hdb r hr
  have hmatch : topicMatch (AuthDb.aclRow r).topic topic = storedLike topic r.topic := by
    show topicMatch (dbTopicToCli r.topic) topic = _
    rw [htopic, dbTopicToCli_cliTopicToDb hclean, topicMatch_eq_like hclean]
  have hne := ne_everyone_of_mem hr
  rw [hmatch, Selected]
  show (dbUserToApi r.user = user ∨ dbUserToApi r.user = "everyone") ∧ _ ↔ _
  rw [dbUserToApi_eq_iff hne hu, dbUserToApi_eq_everyone hne]

theorem mem_matchingRules (hdb : Canonical db) (hu : user ≠ "*") {row : AclRow} :
    row ∈ matchingRules db user topic ↔
      ∃ r ∈ db.rules, Selected user topic r ∧ AuthDb.aclRow r = row := by
  rw [matchingRules, List.mem_insertionSort, List.mem_filter, AuthDb.mem_listAcl]
  simp only [Bool.and_eq_true, Bool.or_eq_true, decide_eq_true_eq]
  refine ⟨fun ⟨⟨r, hr, hrow⟩, h⟩ => ?_, fun ⟨r, hr, hsel, hrow⟩ => ?_⟩
  · subst hrow
    exact ⟨r, hr, (selected_iff hdb hu hr).mp h, rfl⟩
  · subst hrow
    exact ⟨⟨r, hr, rfl⟩, (selected_iff hdb hu hr).mpr hsel⟩

/-- The first part of the key tells the user's own rows from the anonymous user's. -/
theorem own_iff (hu : user ≠ "*") {r : StoredRule} (hr : r ∈ db.rules)
    (hsel : Selected user topic r) :
    ((AuthDb.aclRow r).user = "everyone" ∧ user ≠ "everyone") ↔ r.user ≠ dbUser user := by
  have hanon : (AuthDb.aclRow r).user = "everyone" ↔ r.user = "*" :=
    dbUserToApi_eq_everyone (ne_everyone_of_mem hr)
  rw [hanon]
  unfold dbUser
  split_ifs with he
  · have hstar : r.user = "*" := by
      have := hsel.1
      rw [dbUser, if_pos he, or_self] at this
      exact this
    simp [he, hstar]
  · refine ⟨fun h => ?_, fun h => ⟨?_, he⟩⟩
    · rw [h.1]
      exact Ne.symm hu
    · have := hsel.1
      rw [dbUser, if_neg he] at this
      exact this.resolve_left h

/-- The key orders the rules as the query orders the rows. -/
theorem not_before_of_le (hdb : Canonical db) (hu : user ≠ "*") {r s : StoredRule}
    (hr : r ∈ db.rules) (hs : s ∈ db.rules) (hselr : Selected user topic r)
    (hsels : Selected user topic s)
    (hle : sortKey user (AuthDb.aclRow r) ≤ sortKey user (AuthDb.aclRow s)) :
    ¬ Before user s r := by
  intro hbefore
  refine absurd hle (not_le.mpr ?_)
  unfold sortKey
  simp only [own_iff hu hr hselr, own_iff hu hs hsels, cliTopicToDb_aclRow hdb hr,
    cliTopicToDb_aclRow hdb hs]
  rw [Prod.Lex.toLex_lt_toLex, Prod.Lex.toLex_lt_toLex]
  rcases hbefore with ⟨hown, hother⟩ | ⟨hsame, hlen | ⟨hlen, hsw, hrw⟩⟩
  · simp [hown, hother]
  · refine .inr ⟨by simp [hsame], .inl ?_⟩
    dsimp only
    omega
  · refine .inr ⟨by simp [hsame], .inr ⟨by simp [hlen], ?_⟩⟩
    have h1 : (AuthDb.aclRow s).write = true := hsw
    have h2 : (AuthDb.aclRow r).write = false := hrw
    simp [h1, h2]

/-! ## The answer -/

/-- The user has the admin role. -/
def IsAdmin (db : AuthDb) (user : String) : Prop :=
  user ≠ "everyone" ∧ ∃ u ∈ db.users, u.name = user ∧ u.role = .admin

theorem name_of_dbUserToApi {name user : String} (h : dbUserToApi name = user)
    (hne : user ≠ "everyone") : name = user := by
  unfold dbUserToApi at h
  split_ifs at h
  · exact absurd h.symm hne
  · exact h

theorem find_admin_iff (hne : user ≠ "everyone") (hu : user ≠ "*") :
    (db.listUsers.reverse.find? fun u => u.name = user).any (·.role = .admin) = true ↔
      IsAdmin db user := by
  have hfound : ∀ row, (db.listUsers.reverse.find? fun u => decide (u.name = user)) = some row →
      ∃ u ∈ db.users, u.name = user ∧ u.role = row.role := by
    intro row hrow
    obtain ⟨u, hmem, rfl⟩ :=
      AuthDb.mem_listUsers.mp (List.mem_reverse.mp (List.mem_of_find?_eq_some hrow))
    have hname : dbUserToApi u.name = user := by simpa using List.find?_some hrow
    exact ⟨u, hmem, name_of_dbUserToApi hname hne, rfl⟩
  refine ⟨fun h => ⟨hne, ?_⟩, fun ⟨_, u, hmem, hname, hrole⟩ => ?_⟩
  · obtain ⟨row, hrow, hadmin⟩ := (Option.any_eq_true _ _).mp h
    obtain ⟨u, hmem, hname, hrole⟩ := hfound row hrow
    exact ⟨u, hmem, hname, by rw [hrole]; simpa using hadmin⟩
  · have hlisted : { u with name := dbUserToApi u.name } ∈ db.listUsers.reverse :=
      List.mem_reverse.mpr (AuthDb.mem_listUsers.mpr ⟨u, hmem, rfl⟩)
    have hapi : dbUserToApi u.name = user := by
      rw [dbUserToApi, hname, if_neg hu]
    have hsome : (db.listUsers.reverse.find? fun u => decide (u.name = user)).isSome = true :=
      List.find?_isSome.mpr ⟨_, hlisted, decide_eq_true hapi⟩
    obtain ⟨row, hrow⟩ := Option.isSome_iff_exists.mp hsome
    obtain ⟨u', hmem', hname', hrole'⟩ := hfound row hrow
    obtain rfl : u' = u :=
      List.inj_on_of_nodup_map db.nodup hmem' hmem (hname'.trans hname.symm)
    rw [hrow]
    simp [← hrole', hrole]

/-- The rights that the query gives: all of them to an admin, else those of a row that it puts first,
else the default ones. -/
def Answers (options : Options) (db : AuthDb) (user topic : String) (read write : Bool) : Prop :=
  (IsAdmin db user → read = true ∧ write = true) ∧
    (¬ IsAdmin db user →
      (∃ r, IsFirst db user topic r ∧ read = r.read ∧ write = r.write) ∨
        (∀ r ∈ db.rules, ¬ Selected user topic r) ∧
          (read, write) = defaultAccess options.authDefaultAccess)

/-- The first of the matching rules is a row that the query puts first. -/
theorem isFirst_of_head (hdb : Canonical db) (hu : user ≠ "*") {row : AclRow} {rest : List AclRow}
    (h : matchingRules db user topic = row :: rest) :
    ∃ r, IsFirst db user topic r ∧ AuthDb.aclRow r = row := by
  obtain ⟨r, hr, hsel, rfl⟩ := (mem_matchingRules hdb hu).mp (h ▸ List.mem_cons_self)
  have hsorted := List.pairwise_insertionSort (fun a b => sortKey user a ≤ sortKey user b)
    (db.listAcl.filter fun r => (r.user = user || r.user = "everyone") && topicMatch r.topic topic)
  rw [← matchingRules, h] at hsorted
  refine ⟨r, ⟨hr, hsel, fun s hs hsels => not_before_of_le hdb hu hr hs hsel hsels ?_⟩, rfl⟩
  have hmem := (mem_matchingRules hdb hu).mpr ⟨s, hs, hsels, rfl⟩
  rw [h] at hmem
  rcases List.mem_cons.mp hmem with heq | hmem
  · exact le_of_eq (congrArg (sortKey user) heq.symm)
  · exact List.rel_of_pairwise_cons hsorted hmem

/-- **Effective rights are those of the stored-form query.** -/
theorem effective_eq_query (options : Options) (origins : Origins) (hdb : Canonical db)
    (hschema : AuthDb.ensureSupported (some db) = .ok db) (hknown : Known db user)
    (htopic : topicRe topic = true) :
    (∃ e, effective options (some db) origins user topic = .ok e ∧
        Answers options db user topic e.read e.write) ∧
      (∀ pattern, CleanPattern pattern → dbTopicToCli (cliTopicToDb pattern) = pattern) ∧
      ∀ pattern t, CleanPattern pattern →
        (topicMatch pattern t = true ↔ storedLike t (cliTopicToDb pattern) = true) := by
  have hu := ne_star_of_known hknown
  refine ⟨?_, fun pattern hp => dbTopicToCli_cliTopicToDb hp,
    fun pattern t hp => by rw [topicMatch_eq_like hp]⟩
  unfold effective
  rw [hschema]
  dsimp only
  rw [if_neg (by simp [htopic])]
  have hrow : ¬ (user ≠ "everyone" ∧
      (db.listUsers.reverse.find? fun u => decide (u.name = user)) = none) := by
    rintro ⟨hne, hnone⟩
    rcases hknown with rfl | ⟨row, hmem, hname⟩
    · exact hne rfl
    · have := List.find?_eq_none.mp hnone row (List.mem_reverse.mpr hmem)
      simp [hname] at this
  rw [if_neg hrow]
  by_cases hadmin : IsAdmin db user
  · rw [if_pos ⟨hadmin.1, (find_admin_iff hadmin.1 hu).mpr hadmin⟩]
    exact ⟨_, rfl, fun _ => ⟨rfl, rfl⟩, fun h => absurd hadmin h⟩
  · rw [if_neg fun h => hadmin ((find_admin_iff h.1 hu).mp h.2)]
    cases hmatch : matchingRules db user topic with
    | cons row rest =>
      obtain ⟨r, hfirst, rfl⟩ := isFirst_of_head hdb hu hmatch
      exact ⟨_, rfl, fun h => absurd h hadmin, fun _ => .inl ⟨r, hfirst, rfl, rfl⟩⟩
    | nil =>
      refine ⟨_, rfl, fun h => absurd h hadmin, fun _ => .inr ⟨fun r hr hsel => ?_, rfl⟩⟩
      have hmem := (mem_matchingRules hdb hu).mpr ⟨r, hr, hsel, rfl⟩
      rw [hmatch] at hmem
      cases hmem

/-- One user with a rule for topics like `a_bz`, and a rule for everyone. -/
def sampleDb : AuthDb where
  version := some 10
  users := [⟨"*", .anonymous, none, false⟩, ⟨"alice", .user, none, false⟩]
  rules := [⟨"*", "%", false, false, false⟩, ⟨"alice", "a\\_b%", true, false, false⟩]
  nodup := by decide
  reserved := by decide
  owned := by decide

theorem canonical_sampleDb : Canonical sampleDb := by
  intro r hr
  have hclean : ∀ p ∈ ["*", "a_b*"], CleanPattern p := by
    unfold CleanPattern
    decide
  rcases List.mem_cons.mp hr with rfl | hr
  · exact ⟨"*", hclean _ (by decide), by decide⟩
  · obtain rfl := List.mem_singleton.mp hr
    exact ⟨"a_b*", hclean _ (by decide), by decide⟩

theorem effective_eq_query_sample :
    ∃ e, effective {} (some sampleDb) .empty "alice" "a_bz" = .ok e ∧
      Answers {} sampleDb "alice" "a_bz" e.read e.write :=
  (effective_eq_query {} .empty canonical_sampleDb rfl
    (.inr ⟨⟨"alice", .user, none, false⟩, by decide, rfl⟩) (by decide)).1

end HaAddons.Ntfy
